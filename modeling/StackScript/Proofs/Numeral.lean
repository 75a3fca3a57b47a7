import StackScript.Proofs.Rounding

namespace StackScript
namespace Decimal

-- A numeral that is written positionally, with a point only if there are digits after it.
def numeral (whole fraction : List Char) : List Char :=
  if fraction.isEmpty then whole else whole ++ '.' :: fraction

theorem natOf_append_zeros (digits : List Char) (n : Nat) :
    natOf (digits ++ List.replicate n '0') = natOf digits * 10 ^ n := by
  rw [natOf, Nat.ofDigitChars_append, Nat.ofDigitChars_replicate_zero, Nat.mul_comm, natOf]

theorem natOf_zeros_append (n : Nat) (digits : List Char) :
    natOf (List.replicate n '0' ++ digits) = natOf digits := by
  rw [natOf, Nat.ofDigitChars_append, Nat.ofDigitChars_replicate_zero, Nat.mul_zero, natOf]

theorem natOf_toDigits (n : Nat) : natOf (Nat.toDigits 10 n) = n :=
  Nat.ofDigitChars_ten_toDigits

theorem trimZeros_append (fraction : List Char) :
    ∃ n, fraction = trimZeros fraction ++ List.replicate n '0' := by
  let zeros := fraction.reverse.takeWhile (· == '0')
  have hz : zeros = List.replicate zeros.length '0' := by
    refine List.eq_replicate_of_mem fun c hc => ?_
    simpa using List.all_eq_true.mp List.all_takeWhile c hc
  have hs := List.takeWhile_append_dropWhile (p := (· == '0')) (l := fraction.reverse)
  refine ⟨zeros.length, ?_⟩
  rw [← List.reverse_replicate, ← hz, trimZeros, ← List.reverse_append, hs, List.reverse_reverse]

theorem numeral_eq (whole fraction : List Char) :
    numeral whole fraction = whole ++ numeral [] fraction := by
  unfold numeral
  split <;> simp

section Reading

variable {whole fraction : List Char}

theorem splitSign_digits (hw : whole ≠ []) (hd : ∀ c ∈ whole, c.isDigit) (rest : List Char) :
    splitSign (whole ++ rest) = (false, whole ++ rest) := by
  cases whole
  case nil => exact absurd rfl hw
  case cons c whole =>
    have hc : c.isDigit := hd c List.mem_cons_self
    have hplus : c ≠ '+' := by rintro rfl; cases hc
    have hminus : c ≠ '-' := by rintro rfl; cases hc
    simp [splitSign, hplus, hminus]

theorem splitDigits_numeral (hd : ∀ c ∈ whole, c.isDigit) :
    splitDigits (numeral whole fraction) = (whole, numeral [] fraction) := by
  have hp : ('.' : Char).isDigit = false := rfl
  rw [numeral_eq, splitDigits, List.takeWhile_append_of_pos hd, List.dropWhile_append_of_pos hd]
  unfold numeral
  split <;> simp [hp]

theorem splitFraction_numeral (hd : ∀ c ∈ fraction, c.isDigit) :
    splitFraction (numeral [] fraction) = (fraction, []) := by
  unfold numeral
  split
  case isTrue h => simp [splitFraction, List.isEmpty_iff.mp h]
  case isFalse  =>
    have ht : (fraction ++ []).takeWhile Char.isDigit = _ := List.takeWhile_append_of_pos hd
    have hr : (fraction ++ []).dropWhile Char.isDigit = _ := List.dropWhile_append_of_pos hd
    simp only [List.append_nil, List.takeWhile_nil, List.dropWhile_nil] at ht hr
    simp [splitFraction, splitDigits, ht, hr]

theorem read?_numeral (negative : Bool) (hw : whole ≠ [])
    (hd : ∀ c ∈ whole ++ fraction, c.isDigit) :
    read? (if negative then '-' :: numeral whole fraction else numeral whole fraction) =
      some ⟨negative, natOf (whole ++ fraction), -fraction.length⟩ := by
  have hwhole (c) (hc : c ∈ whole) : c.isDigit := hd c (List.mem_append_left _ hc)
  have hfraction (c) (hc : c ∈ fraction) : c.isDigit := hd c (List.mem_append_right _ hc)
  have hs : splitSign (if negative then '-' :: numeral whole fraction else numeral whole fraction) =
      (negative, numeral whole fraction) := by
    cases negative
    case true  => rfl
    case false =>
      rw [numeral_eq]
      exact splitSign_digits hw hwhole _
  simp [read?, hs, splitDigits_numeral hwhole, splitFraction_numeral hfraction, readExponent?, hw]

end Reading

theorem isDigit_toDigits (n : Nat) : ∀ c ∈ Nat.toDigits 10 n, c.isDigit :=
  fun _ => Nat.isDigit_of_mem_toDigits (by decide) (by decide)

theorem isDigit_zeros (n : Nat) : ∀ c ∈ List.replicate n '0', c.isDigit := by
  intro c hc
  rw [List.eq_of_mem_replicate hc]
  rfl

theorem isDigit_append {xs ys : List Char} (hx : ∀ c ∈ xs, c.isDigit) (hy : ∀ c ∈ ys, c.isDigit) :
    ∀ c ∈ xs ++ ys, c.isDigit :=
  fun c hc => (List.mem_append.mp hc).elim (hx c) (hy c)

theorem writeFraction_eq (digits places : Nat) :
    ∃ whole fraction, whole ≠ [] ∧ (∀ c ∈ whole ++ fraction, c.isDigit) ∧
      writeFraction digits places = numeral whole fraction ∧
      natOf (whole ++ fraction) * 10 ^ places = digits * 10 ^ fraction.length := by
  let ds := Nat.toDigits 10 digits
  let padded := List.replicate (places + 1 - ds.length) '0' ++ ds
  let whole := padded.take (padded.length - places)
  let rest := padded.drop (padded.length - places)
  have hlen : places + 1 ≤ padded.length := by
    simp only [padded, List.length_append, List.length_replicate]
    omega
  have hrest : rest.length = places := by
    simp only [rest, List.length_drop]
    omega
  have ⟨n, hn⟩ := trimZeros_append rest
  have hplaces : places = (trimZeros rest).length + n := by
    have := congrArg List.length hn
    simpa [hrest] using this
  have hpadded : padded = whole ++ trimZeros rest ++ List.replicate n '0' := by
    rw [List.append_assoc, ← hn]
    exact (List.take_append_drop _ _).symm
  have hd : ∀ c ∈ padded, c.isDigit := isDigit_append (isDigit_zeros _) (isDigit_toDigits _)
  have hvalue : natOf (whole ++ trimZeros rest) * 10 ^ n = digits := by
    rw [← natOf_append_zeros, ← hpadded, natOf_zeros_append, natOf_toDigits]
  refine ⟨whole, trimZeros rest, ?_, fun c hc => hd c ?_, rfl, ?_⟩
  · refine List.ne_nil_of_length_pos ?_
    simp only [whole, List.length_take]
    omega
  · rw [hpadded]
    exact List.mem_append_left _ hc
  · rw [hplaces, Nat.pow_add, Nat.mul_comm (10 ^ _), ← Nat.mul_assoc, hvalue]

-- What is written is a numeral of the same value.
theorem write_eq (d : Decimal) :
    ∃ whole fraction, whole ≠ [] ∧ (∀ c ∈ whole ++ fraction, c.isDigit) ∧
      d.write = (if d.negative then '-' :: numeral whole fraction else numeral whole fraction) ∧
      natOf (whole ++ fraction) * 10 ^ (-d.exponent).toNat =
        d.digits * 10 ^ d.exponent.toNat * 10 ^ fraction.length := by
  unfold write
  cases d.exponent
  case ofNat zeros =>
    refine ⟨Nat.toDigits 10 d.digits ++ List.replicate zeros '0', [], by simp, ?_, rfl, ?_⟩
    · rw [List.append_nil]
      exact isDigit_append (isDigit_toDigits _) (isDigit_zeros _)
    · simp [natOf_append_zeros, natOf_toDigits]
  case negSucc places =>
    have ⟨whole, fraction, hw, hd, ht, hv⟩ := writeFraction_eq d.digits (places + 1)
    refine ⟨whole, fraction, hw, hd, by simp only [ht], ?_⟩
    simpa using hv

theorem read?_write (d : Decimal) :
    ∃ d', read? d.write = some d' ∧ d'.negative = d.negative ∧ d'.code = d.code := by
  have ⟨whole, fraction, hw, hd, ht, hv⟩ := d.write_eq
  have hr := read?_numeral d.negative hw hd
  rw [← ht] at hr
  refine ⟨_, hr, rfl, code_congr ?_⟩
  simpa using hv

-- What a numeral is written with.
theorem mem_write {d : Decimal} {c : Char} (h : c ∈ d.write) : c = '-' ∨ c = '.' ∨ c.isDigit := by
  have ⟨whole, fraction, _, hd, ht, _⟩ := d.write_eq
  have hn : ∀ c ∈ numeral whole fraction, c = '.' ∨ c.isDigit := by
    intro c hc
    have := hd c
    unfold numeral at hc
    split at hc <;> grind
  rw [ht] at h
  split at h <;> grind

end Decimal

namespace Number

theorem text_finite (h : x.isFinite) :
    text x = .ofList (shortestDecimal (isNegative x) (code x)).write :=
  if_pos ((isFinite_iff x).mp h)

theorem read?_text (h : x.isFinite) : read? (text x) = some x := by
  have hlt := (isFinite_iff x).mp h
  have ⟨d, hread, hnegative, hcode⟩ := (shortestDecimal (isNegative x) (code x)).read?_write
  have ⟨hcode', hnegative'⟩ := shortestDecimal_code (isNegative x) hlt
  have hd : d.toFloat = x := by
    rw [Decimal.toFloat, hnegative, hnegative', hcode, hcode']
    exact ofCode_code x (Nat.le_of_lt hlt)
  rw [text_finite h, read?, String.toList_ofList, hread, Option.map_some, hd]

-- No literal is read as NaN.
theorem not_isNaN_of_read? (h : read? word = some x) : x.isNaN = false := by
  have ⟨d, _, hd⟩ := Option.map_eq_some_iff.mp h
  have hle : d.code ≤ infinityCode := by
    rw [Decimal.code_eq, nearestCode_eq]
    exact Nat.min_le_left _ _
  have hc : code x = d.code := by
    rw [← hd]
    exact code_ofCode d.negative hle
  cases hx : x.isNaN
  case false => rfl
  case true  =>
    have := (isNaN_iff x).mp hx
    omega

-- The words for what is not finite are names like any other.
theorem text_not_finite (h : x.isFinite = false) : text x ∈ ["inf", "-inf", "NaN"] := by
  have hge : ¬code x < infinityCode := by
    rw [← isFinite_iff, h]
    decide
  unfold text
  rw [if_neg hge]
  repeat' split
  all_goals simp

theorem mem_text (h : c ∈ (text x).toList) : c ≠ ' ' ∧ c ≠ '\n' ∧ c ≠ '\r' := by
  cases hf : x.isFinite
  case true =>
    rw [text_finite hf, String.toList_ofList] at h
    rcases Decimal.mem_write h with rfl | rfl | hd
    · decide
    · decide
    · refine ⟨?_, ?_, ?_⟩ <;> rintro rfl <;> cases hd
  case false =>
    have letters : ∀ word ∈ ["inf", "-inf", "NaN"],
        word.toList.all (fun c => c ≠ ' ' ∧ c ≠ '\n' ∧ c ≠ '\r') = true := by decide
    simpa using List.all_eq_true.mp (letters _ (text_not_finite hf)) c h

end Number
end StackScript
