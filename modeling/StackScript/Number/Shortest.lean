import StackScript.Number.Nearest

namespace StackScript
namespace Number

def exactDecimal (negative : Bool) (code : Nat) : Decimal :=
  let field       := code / Nat.pow 2 52
  let significand := if field = 0 then code else Nat.pow 2 52 + code % Nat.pow 2 52
  if significand = 0 then
    { negative, digits := 0, exponent := 0 }
  else if 1075 ≤ field then
    { negative, digits := significand * Nat.pow 2 (field - 1075), exponent := 0 }
  else
    let places := 1075 - max field 1
    { negative, digits := significand * Nat.pow 5 places, exponent := -places }

def cutDown (d : Decimal) (n : Nat) : Decimal :=
  { d with digits := d.digits / Nat.pow 10 n, exponent := d.exponent + n }

def cutUp (d : Decimal) (n : Nat) : Decimal :=
  { d with digits := d.digits / Nat.pow 10 n + 1, exponent := d.exponent + n }

-- A neighbour of `d` with `n` digits less that still reads as `code`: the nearer neighbour if it
-- does, else the other one. Of two equally near ones the upper is taken first.
def cut? (code : Nat) (d : Decimal) (n : Nat) : Option Decimal :=
  if 2 * (d.digits % Nat.pow 10 n) < Nat.pow 10 n then
    [cutDown d n, cutUp d n].find? (·.code = code)
  else
    [cutUp d n, cutDown d n].find? (·.code = code)

-- The shortest numeral that reads as `code`, when at most `n` digits of `d` may be cut.
def shortestFrom (code : Nat) (d : Decimal) : Nat → Decimal
  | 0     => d
  | n + 1 => (cut? code d (n + 1)).getD (shortestFrom code d n)

def shortestDecimal (negative : Bool) (code : Nat) : Decimal :=
  let d := exactDecimal negative code
  shortestFrom code d ((Nat.toDigits 10 d.digits).length - 1)

def text (x : Float) : String :=
  if code x < infinityCode then
    .ofList (shortestDecimal (isNegative x) (code x)).write
  else if code x = infinityCode then
    if isNegative x then "-inf" else "inf"
  else
    "NaN"

def read? (text : String) : Option Float :=
  (Decimal.read? text.toList).map (·.toFloat)

end Number
end StackScript
