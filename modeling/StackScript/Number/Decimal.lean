namespace StackScript

-- The numeral `± digits · 10 ^ exponent`.
structure Decimal where
  negative : Bool
  digits   : Nat
  exponent : Int
deriving DecidableEq

namespace Decimal

def natOf (digits : List Char) : Nat :=
  Nat.ofDigitChars 10 digits 0

def splitSign : List Char → Bool × List Char
  | '+' :: cs => (false, cs)
  | '-' :: cs => (true, cs)
  | cs        => (false, cs)

def splitDigits (cs : List Char) : List Char × List Char :=
  (cs.takeWhile Char.isDigit, cs.dropWhile Char.isDigit)

def splitFraction : List Char → List Char × List Char
  | '.' :: cs => splitDigits cs
  | cs        => ([], cs)

def readExponent? : List Char → Option Int
  | []      => some 0
  | c :: cs =>
    let (negative, digits) := splitSign cs
    if (c == 'e' || c == 'E') && !digits.isEmpty && digits.all Char.isDigit then
      some (if negative then -(natOf digits : Int) else natOf digits)
    else
      none

-- Reads a decimal literal: an optional sign, digits with an optional point among them or around
-- them (at least one digit in all), and an optional exponent.
def read? (cs : List Char) : Option Decimal :=
  let (negative, cs) := splitSign cs
  let (whole, cs)    := splitDigits cs
  let (fraction, cs) := splitFraction cs
  if whole.isEmpty && fraction.isEmpty then
    none
  else
    (readExponent? cs).map fun exponent => {
      negative
      digits   := natOf (whole ++ fraction)
      exponent := exponent - fraction.length
    }

def trimZeros (fraction : List Char) : List Char :=
  (fraction.reverse.dropWhile (· == '0')).reverse

-- Writes `digits / 10 ^ places`, with a digit before the point and no needless zero behind it.
def writeFraction (digits places : Nat) : List Char :=
  let ds       := Nat.toDigits 10 digits
  let padded   := List.replicate (places + 1 - ds.length) '0' ++ ds
  let whole    := padded.take (padded.length - places)
  let fraction := trimZeros (padded.drop (padded.length - places))
  if fraction.isEmpty then whole else whole ++ '.' :: fraction

def write (d : Decimal) : List Char :=
  let magnitude :=
    match d.exponent with
    | .ofNat zeros    => Nat.toDigits 10 d.digits ++ List.replicate zeros '0'
    | .negSucc places => writeFraction d.digits (places + 1)
  if d.negative then '-' :: magnitude else magnitude

end Decimal
end StackScript
