import StackScript.Number.Decimal

namespace StackScript
namespace Number

-- The non-negative doubles, in increasing order, are numbered by their code, which is their bit
-- pattern read as a natural number: code `0` is zero, and `infinityCode` is the first one past the
-- largest finite double.
def infinityCode : Nat :=
  2047 * Nat.pow 2 52

def roundHalfEven (a b : Nat) : Nat :=
  let quotient  := a / b
  let remainder := a % b
  if 2 * remainder < b then quotient
  else if b < 2 * remainder then quotient + 1
  else quotient + quotient % 2

-- The code of the double nearest to `num / den`. With `num / den` measured in units of `2 ^ -1074`,
-- the significand keeps 53 bits, so `shift` bits are rounded away. Consecutive codes are
-- consecutive doubles, so a significand that is rounded up to `2 ^ 53` carries into the exponent
-- field by itself.
def nearestCode (num den : Nat) : Nat :=
  let units := num * Nat.pow 2 1074
  let shift := (units / den).log2 - 52
  min infinityCode (shift * Nat.pow 2 52 + roundHalfEven units (den * Nat.pow 2 shift))

def ofCode (negative : Bool) (code : Nat) : Float :=
  .ofBits (.ofNat (if negative then Nat.pow 2 63 + code else code))

def isNegative (x : Float) : Bool :=
  Nat.pow 2 63 ≤ x.toBits.toNat

-- The code of the magnitude; a code above `infinityCode` is not a number.
def code (x : Float) : Nat :=
  x.toBits.toNat % Nat.pow 2 63

end Number

namespace Decimal

open Number

-- The code of the double nearest to the magnitude of `d`. The two outer bounds only spare the
-- computation of huge powers: `10 ^ 310` is beyond the doubles, and a numeral of `b` bits with more
-- than `b + 400` places is below half of the least positive one.
def code (d : Decimal) : Nat :=
  if d.digits = 0 then
    0
  else
    match d.exponent with
    | .ofNat e   => if 309 < e then infinityCode else nearestCode (d.digits * Nat.pow 10 e) 1
    | .negSucc e => if d.digits.log2 + 400 < e then 0 else nearestCode d.digits (Nat.pow 10 (e + 1))

def toFloat (d : Decimal) : Float :=
  ofCode d.negative d.code

end Decimal
end StackScript
