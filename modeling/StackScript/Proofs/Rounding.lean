import StackScript.Proofs.Double

namespace StackScript
namespace Number

section Rounding

theorem roundHalfEven_mul_right (a b : Nat) (hk : 0 < k) :
    roundHalfEven (a * k) (b * k) = roundHalfEven a b := by
  have hlt : 2 * (a % b * k) < b * k ↔ 2 * (a % b) < b := by
    rw [← Nat.mul_assoc, Nat.mul_lt_mul_right hk]
  have hgt : b * k < 2 * (a % b * k) ↔ b < 2 * (a % b) := by
    rw [← Nat.mul_assoc, Nat.mul_lt_mul_right hk]
  simp only [roundHalfEven, Nat.mul_div_mul_right a b hk, Nat.mul_mod_mul_right, hlt, hgt]

theorem roundHalfEven_mul (a : Nat) (hb : 0 < b) : roundHalfEven (a * b) b = a := by
  simp [roundHalfEven, Nat.mul_div_cancel a hb, hb]

theorem roundHalfEven_eq_zero (h : 2 * a < b) : roundHalfEven a b = 0 := by
  have hlt : a < b := by omega
  simp [roundHalfEven, Nat.div_eq_of_lt hlt, Nat.mod_eq_of_lt hlt, h]

end Rounding

-- The least positive double is `2 ^ -unitBits`.
def unitBits : Nat := 1074

theorem unitBits_eq : unitBits = 1074 :=
  rfl

-- The code of the double nearest to `units / den` times the least positive double.
def codeOfUnits (units den : Nat) : Nat :=
  let shift := (units / den).log2 - 52
  min infinityCode (shift * 2 ^ 52 + roundHalfEven units (den * 2 ^ shift))

theorem nearestCode_eq (num den : Nat) :
    nearestCode num den = codeOfUnits (num * 2 ^ unitBits) den := by
  unfold nearestCode
  rw [← unitBits_eq]
  simp only [codeOfUnits, Nat.pow_eq]

theorem codeOfUnits_mul_right (a b : Nat) (hk : 0 < k) :
    codeOfUnits (a * k) (b * k) = codeOfUnits a b := by
  have hb (shift : Nat) : b * k * 2 ^ shift = b * 2 ^ shift * k := Nat.mul_right_comm ..
  simp only [codeOfUnits, hb, Nat.mul_div_mul_right _ _ hk, roundHalfEven_mul_right _ _ hk]

theorem codeOfUnits_of_tiny (h : 2 * units < den) : codeOfUnits units den = 0 := by
  have hq : units / den = 0 := Nat.div_eq_of_lt (by omega)
  simp [codeOfUnits, hq, roundHalfEven_eq_zero h]

theorem codeOfUnits_of_huge (h : 2 ^ (205 * 5 + unitBits) ≤ units) :
    codeOfUnits units 1 = infinityCode := by
  have hu := unitBits_eq
  have h0 : units ≠ 0 := Nat.ne_of_gt (Nat.lt_of_lt_of_le (Nat.two_pow_pos _) h)
  have hl : 205 * 5 + unitBits ≤ units.log2 := (Nat.le_log2 h0).mpr h
  have hs : infinityCode ≤ (units.log2 - 52) * 2 ^ 52 := Nat.mul_le_mul_right _ (by omega)
  rw [codeOfUnits, Nat.div_one]
  exact Nat.min_eq_left (Nat.le_add_right_of_le hs)

-- A significand has 53 bits, or fewer where none is rounded away.
theorem log2_significand {sig shift : Nat} (hlt : sig < 2 ^ 53) (hs : shift = 0 ∨ 2 ^ 52 ≤ sig) :
    (sig * 2 ^ shift).log2 - 52 = shift := by
  cases hs
  case inl h =>
    have : sig.log2 ≤ 52 := by
      by_cases h0 : sig = 0
      case pos => simp [h0]
      case neg => exact Nat.le_of_lt_succ ((Nat.log2_lt h0).mpr hlt)
    rw [h, Nat.pow_zero, Nat.mul_one]
    omega
  case inr h =>
    have hpos := Nat.two_pow_pos shift
    have h0 : sig * 2 ^ shift ≠ 0 := Nat.ne_of_gt (Nat.mul_pos (by omega) hpos)
    have hl : (sig * 2 ^ shift).log2 = 52 + shift := by
      refine (Nat.log2_eq_iff h0).mpr ⟨?_, ?_⟩
      · rw [Nat.pow_add]
        exact Nat.mul_le_mul_right _ h
      · rw [Nat.add_right_comm, Nat.pow_add]
        exact Nat.mul_lt_mul_of_pos_right hlt hpos
    omega

-- A double is the nearest one to its own value.
theorem codeOfUnits_exact {den sig shift : Nat} (hden : 0 < den) (hlt : sig < 2 ^ 53)
    (hs : shift = 0 ∨ 2 ^ 52 ≤ sig) :
    codeOfUnits (sig * 2 ^ shift * den) den = min infinityCode (shift * 2 ^ 52 + sig) := by
  have hr : roundHalfEven (sig * 2 ^ shift * den) (den * 2 ^ shift) = sig := by
    rw [Nat.mul_assoc, Nat.mul_comm (2 ^ shift)]
    exact roundHalfEven_mul _ (Nat.mul_pos hden (Nat.two_pow_pos _))
  simp only [codeOfUnits, Nat.mul_div_cancel _ hden, log2_significand hlt hs, hr]

-- The code depends on the quotient only.
theorem nearestCode_congr {a b c d : Nat} (hb : 0 < b) (hd : 0 < d) (h : a * d = c * b) :
    nearestCode a b = nearestCode c d := by
  rw [nearestCode_eq, nearestCode_eq]
  generalize 2 ^ unitBits = scale
  calc
    codeOfUnits (a * scale) b
    _ = codeOfUnits (a * scale * d) (b * d) := (codeOfUnits_mul_right _ _ hd).symm
    _ = codeOfUnits (c * scale * b) (d * b) := by
      rw [Nat.mul_right_comm, h, Nat.mul_right_comm, Nat.mul_comm b d]
    _ = codeOfUnits (c * scale) d           := codeOfUnits_mul_right _ _ hb

end Number

namespace Decimal

open Number

theorem ten_pow_pos (n : Nat) : 0 < 10 ^ n :=
  Nat.pow_pos (by decide)

theorem huge_of_zeros (h : 309 < zeros) : 2 ^ (205 * 5 + unitBits) ≤ 10 ^ zeros * 2 ^ unitBits :=
  calc
    2 ^ (205 * 5 + unitBits)
    _ = (2 ^ 205) ^ 5 * 2 ^ unitBits := by rw [Nat.pow_add, Nat.pow_mul 2 205 5]
    _ ≤ (10 ^ 62) ^ 5 * 2 ^ unitBits :=
      Nat.mul_le_mul_right _ (Nat.pow_le_pow_left (by decide) 5)
    _ ≤ 10 ^ zeros * 2 ^ unitBits    := by
      rw [← Nat.pow_mul 10 62 5]
      apply Nat.mul_le_mul_right
      apply Nat.pow_le_pow_right
      · decide
      · omega

theorem tiny_of_places (n : Nat) (h : n.log2 + 400 < places) :
    2 * (n * 2 ^ unitBits) < 10 ^ (places + 1) :=
  calc
    2 * (n * 2 ^ unitBits) < 2 * (2 ^ (n.log2 + 1) * 2 ^ unitBits) := by
      refine Nat.mul_lt_mul_of_pos_left ?_ (by decide)
      exact Nat.mul_lt_mul_of_pos_right Nat.lt_log2_self (Nat.two_pow_pos _)
    _ = 2 ^ (n.log2 + 1 + unitBits + 1) := by rw [← Nat.pow_add, ← Nat.pow_succ']
    _ ≤ 2 ^ (3 * (places + 1))          := by
      have := unitBits_eq
      exact Nat.pow_le_pow_right (by decide) (by omega)
    _ = 8 ^ (places + 1)                := Nat.pow_mul 2 3 (places + 1)
    _ ≤ 10 ^ (places + 1)               := Nat.pow_le_pow_left (by decide) _

-- The bounds that spare the computation of huge powers make no difference.
theorem code_eq (d : Decimal) :
    d.code = nearestCode (d.digits * 10 ^ d.exponent.toNat) (10 ^ (-d.exponent).toNat) := by
  unfold code
  by_cases h : d.digits = 0
  case pos =>
    rw [if_pos h, h, Nat.zero_mul, nearestCode_eq, Nat.zero_mul]
    exact (codeOfUnits_of_tiny (ten_pow_pos _)).symm
  case neg =>
    rw [if_neg h]
    cases d.exponent
    case ofNat e =>
      have hn : (-Int.ofNat e).toNat = 0 := by simp
      rw [hn]
      dsimp only
      split
      case isTrue he =>
        have hle : 2 ^ (205 * 5 + unitBits) ≤ d.digits * 10 ^ e * 2 ^ unitBits := by
          rw [Nat.mul_assoc]
          exact Nat.le_trans (huge_of_zeros he) (Nat.le_mul_of_pos_left _ (Nat.pos_of_ne_zero h))
        rw [nearestCode_eq]
        exact (codeOfUnits_of_huge hle).symm
      case isFalse => rfl
    case negSucc e =>
      have hn : (Int.negSucc e).toNat = 0 := rfl
      have hp : (-Int.negSucc e).toNat = e + 1 := rfl
      rw [hn, hp, Nat.pow_zero, Nat.mul_one]
      dsimp only
      split
      case isTrue he =>
        rw [nearestCode_eq]
        exact (codeOfUnits_of_tiny (tiny_of_places _ he)).symm
      case isFalse => rfl

-- Numerals of equal value have the same code.
theorem code_congr {d₁ d₂ : Decimal}
    (h : d₁.digits * 10 ^ d₁.exponent.toNat * 10 ^ (-d₂.exponent).toNat =
      d₂.digits * 10 ^ d₂.exponent.toNat * 10 ^ (-d₁.exponent).toNat) : d₁.code = d₂.code := by
  rw [code_eq, code_eq]
  exact nearestCode_congr (ten_pow_pos _) (ten_pow_pos _) h

end Decimal

namespace Number

-- The bits of the significand that the double of a given code has, and how far they are shifted.
def significand (code : Nat) : Nat :=
  if code / 2 ^ 52 = 0 then code else 2 ^ 52 + code % 2 ^ 52

def scale (code : Nat) : Nat :=
  code / 2 ^ 52 - 1

theorem code_split (code : Nat) : scale code * 2 ^ 52 + significand code = code := by
  unfold scale significand
  split <;> omega

theorem significand_lt (code : Nat) : significand code < 2 ^ 53 := by
  unfold significand
  split <;> omega

theorem scale_eq_zero_or (code : Nat) : scale code = 0 ∨ 2 ^ 52 ≤ significand code := by
  unfold scale significand
  split <;> omega

variable {c : Nat}

theorem codeOfUnits_self (h : c < infinityCode) (hden : 0 < den) :
    codeOfUnits (significand c * 2 ^ scale c * den) den = c := by
  rw [codeOfUnits_exact hden (significand_lt c) (scale_eq_zero_or c), code_split]
  exact Nat.min_eq_right (Nat.le_of_lt h)

theorem exactDecimal_eq (negative : Bool) (c : Nat) :
    exactDecimal negative c =
      if significand c = 0 then
        ⟨negative, 0, 0⟩
      else if 1074 ≤ scale c then
        ⟨negative, significand c * 2 ^ (scale c - 1074), 0⟩
      else
        ⟨negative, significand c * 5 ^ (1074 - scale c), -(1074 - scale c : Nat)⟩ := by
  have hle : 1075 ≤ c / 2 ^ 52 ↔ 1074 ≤ scale c := by simp only [scale]; omega
  have hsub : c / 2 ^ 52 - 1075 = scale c - 1074 := by simp only [scale]; omega
  have hmax : 1075 - max (c / 2 ^ 52) 1 = 1074 - scale c := by simp only [scale]; omega
  have hs : (if c / 2 ^ 52 = 0 then c else 2 ^ 52 + c % 2 ^ 52) = significand c := rfl
  simp only [exactDecimal, Nat.pow_eq, hs, hle, hsub, hmax]

-- The exact numeral of a double has that double as its nearest one.
theorem exactDecimal_code (negative : Bool) (h : c < infinityCode) :
    (exactDecimal negative c).code = c := by
  have hs := code_split c
  have hz := scale_eq_zero_or c
  have hu := unitBits_eq
  rw [exactDecimal_eq]
  split
  case isTrue h0 =>
    show 0 = c
    omega
  case isFalse =>
    rw [Decimal.code_eq, nearestCode_eq]
    split
    case isTrue hle =>
      have he : scale c - 1074 + unitBits = scale c := by omega
      have hp : 2 ^ (scale c - 1074) * 2 ^ unitBits = 2 ^ scale c := by rw [← Nat.pow_add, he]
      simpa [Nat.mul_assoc, hp] using codeOfUnits_self h Nat.one_pos
    case isFalse hlt =>
      generalize hplaces : 1074 - scale c = places
      have he : unitBits = scale c + places := by omega
      have hp : 5 ^ places * 2 ^ unitBits = 2 ^ scale c * 10 ^ places :=
        calc
          5 ^ places * 2 ^ unitBits
          _ = 5 ^ places * (2 ^ scale c * 2 ^ places) := by rw [he, Nat.pow_add]
          _ = 2 ^ scale c * (2 ^ places * 5 ^ places) := by ac_rfl
          _ = 2 ^ scale c * 10 ^ places               := by rw [← Nat.mul_pow]
      simpa [Nat.mul_assoc, hp] using codeOfUnits_self h (Decimal.ten_pow_pos places)

theorem cut?_eq_some (h : cut? c d n = some d') : d'.code = c ∧ d'.negative = d.negative := by
  unfold cut? at h
  split at h
  all_goals
    have hmem := List.mem_of_find?_eq_some h
    have hcode := List.find?_some h
    simp only [List.mem_cons, List.not_mem_nil, or_false, decide_eq_true_eq] at hmem hcode
    refine ⟨hcode, ?_⟩
    rcases hmem with rfl | rfl <;> rfl

theorem shortestFrom_code {d : Decimal} (hd : d.code = c) (n : Nat) :
    (shortestFrom c d n).code = c ∧ (shortestFrom c d n).negative = d.negative := by
  induction n
  case zero => exact ⟨hd, rfl⟩
  case succ n hi =>
    unfold shortestFrom
    cases hc : cut? c d (n + 1)
    case none    => exact hi
    case some d' => exact cut?_eq_some hc

theorem shortestDecimal_code (negative : Bool) (h : c < infinityCode) :
    (shortestDecimal negative c).code = c ∧ (shortestDecimal negative c).negative = negative := by
  have hn : (exactDecimal negative c).negative = negative := by
    rw [exactDecimal_eq]
    repeat' split
    all_goals rfl
  have hs := shortestFrom_code (exactDecimal_code negative h)
  exact ⟨(hs _).1, (hs _).2.trans hn⟩

end Number
end StackScript
