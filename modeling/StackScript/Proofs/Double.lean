import Mathlib
import StackScript.Number.Shortest

namespace StackScript
namespace Number

open Float.Model (Format)
open Float.Model.UnpackedFloat

section Format

variable (spec : Format) (b : BitVec spec.numBits)

theorem isFinite_unpack : (unpack spec b).isFinite ↔ unpackExponent b ≠ -1#_ := by
  unfold unpack
  by_cases hmax : unpackExponent b = -1#_
  case pos =>
    rw [if_pos hmax]
    split <;> simp [isFinite, hmax]
  case neg =>
    rw [if_neg hmax]
    repeat' split
    all_goals simp [isFinite, hmax]

theorem isNaN_unpack : (unpack spec b).isNaN ↔ isNaNBits b := by
  unfold unpack isNaNBits
  by_cases hmax : unpackExponent b = -1#_
  case pos =>
    rw [if_pos hmax]
    split <;> simp_all
  case neg =>
    rw [if_neg hmax]
    repeat' split
    all_goals simp [hmax]

end Format

theorem infinityCode_eq : infinityCode = 2047 * 2 ^ 52 :=
  rfl

section Bits

variable (b : BitVec Format.binary64.numBits)

-- A code is made of the biased exponent and of the significand without its first bit.
theorem code_fields :
    b.toNat % 2 ^ 63 = (unpackExponent b).toNat * 2 ^ 52 + (unpackMantissa b).toNat := by
  have he : (unpackExponent b).toNat = b.toNat / 2 ^ 52 % 2 ^ 11 := by
    rw [unpackExponent_def, BitVec.extractLsb'_toNat, Nat.shiftRight_eq_div_pow]
  have hm : (unpackMantissa b).toNat = b.toNat % 2 ^ 52 := by
    rw [unpackMantissa_def, BitVec.extractLsb'_toNat, Nat.shiftRight_zero]
  omega

theorem fields_lt : (unpackExponent b).toNat < 2 ^ 11 ∧ (unpackMantissa b).toNat < 2 ^ 52 :=
  ⟨(unpackExponent b).isLt, (unpackMantissa b).isLt⟩

theorem exponent_eq_max : unpackExponent b = -1#_ ↔ infinityCode ≤ b.toNat % 2 ^ 63 := by
  have hlt := fields_lt b
  have hmax : unpackExponent b = -1#_ ↔ (unpackExponent b).toNat = 2047 := BitVec.toNat_inj.symm
  rw [hmax, code_fields, infinityCode_eq]
  omega

theorem isNaNBits_iff : isNaNBits b ↔ infinityCode < b.toNat % 2 ^ 63 := by
  have hm : unpackMantissa b = 0#_ ↔ (unpackMantissa b).toNat = 0 := BitVec.toNat_inj.symm
  have hlt := fields_lt b
  rw [isNaNBits, decide_eq_true_eq, exponent_eq_max, ne_eq, hm, code_fields, infinityCode_eq]
  omega

end Bits

theorem isFinite_iff (x : Float) : x.isFinite ↔ code x < infinityCode := by
  refine (isFinite_unpack .binary64 x.toBits.toBitVec).trans ?_
  rw [ne_eq, exponent_eq_max, Nat.not_le]
  rfl

theorem isNaN_iff (x : Float) : x.isNaN ↔ infinityCode < code x :=
  (isNaN_unpack .binary64 x.toBits.toBitVec).trans (isNaNBits_iff x.toBits.toBitVec)

theorem toBits_ofBits (b : UInt64) (h : b.toNat % 2 ^ 63 ≤ infinityCode) :
    (Float.ofBits b).toBits = b := by
  have hn : ¬@isNaNBits .binary64 b.toBitVec := by
    rw [isNaNBits_iff]
    exact Nat.not_lt_of_le h
  have hp := @pack_unpack .binary64 b.toBitVec
  rw [if_neg hn] at hp
  exact congrArg UInt64.ofBitVec (hp (by decide))

theorem ofCode_code (x : Float) (h : code x ≤ infinityCode) :
    ofCode (isNegative x) (code x) = x := by
  have hlt := x.toBits.toNat_lt
  have hb : UInt64.ofNat (if isNegative x then Nat.pow 2 63 + code x else code x) = x.toBits := by
    apply UInt64.toNat_inj.mp
    simp only [isNegative, code, Nat.pow_eq, decide_eq_true_eq, UInt64.toNat_ofNat']
    split <;> omega
  apply Float.toBits_inj.mp
  rw [ofCode, hb]
  exact toBits_ofBits _ h

theorem toNat_ofCode (negative : Bool) (h : c ≤ infinityCode) :
    (ofCode negative c).toBits.toNat = if negative then 2 ^ 63 + c else c := by
  have hi := infinityCode_eq
  have hb : (UInt64.ofNat (if negative then Nat.pow 2 63 + c else c)).toNat =
      if negative then 2 ^ 63 + c else c := by
    simp only [Nat.pow_eq, UInt64.toNat_ofNat']
    split <;> omega
  rw [ofCode, toBits_ofBits _ (by rw [hb]; split <;> omega), hb]

theorem code_ofCode (negative : Bool) (h : c ≤ infinityCode) : code (ofCode negative c) = c := by
  have hi := infinityCode_eq
  simp only [code, toNat_ofCode negative h, Nat.pow_eq]
  split <;> omega

theorem isNegative_ofCode (negative : Bool) (h : c ≤ infinityCode) :
    isNegative (ofCode negative c) = negative := by
  have hi := infinityCode_eq
  simp only [isNegative, toNat_ofCode negative h, Nat.pow_eq]
  cases negative <;> simp
  omega

-- Of all doubles only NaN is not equal to itself.
theorem beq_self {x : Float} (h : x.isNaN = false) : (x == x) = true := by
  simpa using h

end Number
end StackScript
