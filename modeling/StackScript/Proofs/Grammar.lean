import Mathlib.Computability.RegularExpressions
import StackScript.Proofs.Words

namespace StackScript
namespace Grammar

open scoped Computability
open RegularExpression Decimal

def oneOf (cs : List Char) : RegularExpression Char :=
  (cs.map char).sum

def optional (r : RegularExpression Char) : RegularExpression Char :=
  1 + r

def sign : RegularExpression Char :=
  optional (oneOf ['+', '-'])

def digit : RegularExpression Char :=
  oneOf "0123456789".toList

def digits : RegularExpression Char :=
  digit * digit.star

def fraction : RegularExpression Char :=
  oneOf ['.'] * digit.star

-- There are digits on at least one side of the point.
def positional : RegularExpression Char :=
  digits * optional fraction + oneOf ['.'] * digits

def exponent : RegularExpression Char :=
  oneOf ['e', 'E'] * (sign * digits)

def unsigned : RegularExpression Char :=
  positional * optional exponent

def literal : RegularExpression Char :=
  sign * unsigned

-- A word with each of its letters small or capital.
def anyCase (word : String) : RegularExpression Char :=
  (word.toList.map fun c => oneOf [c.toLower, c.toUpper]).prod

def special : RegularExpression Char :=
  anyCase "inf" + anyCase "infinity" + anyCase "nan"

-- The texts of doubles, where infinities and what is not a number have words as well.
def double : RegularExpression Char :=
  sign * (unsigned + special)

-- What an unsigned literal may start with.
def opensNumber (c : Char) : Bool :=
  c == '.' || c.isDigit

def isSign (c : Char) : Bool :=
  c == '+' || c == '-'

-- No word of the language starts with a character of the kind `p`.
def Avoids (language : Language Char) (p : Char → Bool) : Prop :=
  ∀ c rest, c :: rest ∈ language → p c = false

section Membership

variable {r : RegularExpression Char} {l m next : Language Char} {cs word : List Char} {c : Char}
variable {p q : Char → Bool}

theorem mem_oneOf : word ∈ (oneOf cs).matches' ↔ ∃ c ∈ cs, word = [c] := by
  induction cs
  case nil          => simp [oneOf, matches'_zero]
  case cons c cs hi =>
    have hc : word ∈ (oneOf (c :: cs)).matches' ↔ word = [c] ∨ word ∈ (oneOf cs).matches' := .rfl
    rw [hc, hi]
    simp

theorem cons_mem_oneOf_mul : c :: word ∈ (oneOf cs).matches' * next ↔ c ∈ cs ∧ word ∈ next := by
  simp only [Language.mem_mul, mem_oneOf]
  grind

theorem nil_notMem_oneOf_mul : [] ∉ (oneOf cs).matches' * next := by
  simp [Language.mem_mul, mem_oneOf]

theorem notMem_oneOf_mul (h : ∀ c ∈ cs, ∀ rest, word ≠ c :: rest) :
    word ∉ (oneOf cs).matches' * next := by
  intro hm
  cases word
  case nil         => exact nil_notMem_oneOf_mul hm
  case cons c rest => exact h c (cons_mem_oneOf_mul.mp hm).1 rest rfl

theorem mem_digitChars : c ∈ "0123456789".toList ↔ c.isDigit := by
  refine ⟨fun h => ?_, fun h => ?_⟩
  · exact List.all_eq_true.mp (show "0123456789".toList.all Char.isDigit from rfl) c h
  · have hd : 48 ≤ c.toNat ∧ c.toNat ≤ 57 := Char.isDigit_iff_toNat.mp h
    rw [← Char.ofNat_toNat c]
    generalize c.toNat = n at hd ⊢
    have ⟨hl, hu⟩ := hd
    interval_cases n <;> decide

theorem cons_mem_digit_mul : c :: word ∈ digit.matches' * next ↔ c.isDigit ∧ word ∈ next := by
  rw [digit, cons_mem_oneOf_mul, mem_digitChars]

theorem optional_mul : (optional r).matches' * next = next + r.matches' * next := by
  rw [optional, matches'_add, matches'_epsilon, one_add_mul]

theorem mem_kstar_mul : word ∈ l∗ * next ↔ word ∈ next ∨ word ∈ l * (l∗ * next) := by
  rw [← mul_assoc, ← Language.mem_add, ← one_add_mul, Language.one_add_self_mul_kstar_eq_kstar]

theorem avoids_one : Avoids 1 p :=
  fun _ _ hm => nomatch hm

theorem avoids_oneOf_mul (h : cs.any p = false) : Avoids ((oneOf cs).matches' * next) p :=
  fun c _ hm => by simpa using List.any_eq_false.mp h c (cons_mem_oneOf_mul.mp hm).1

theorem avoids_digit_mul : Avoids (digit.matches' * next) (!opensNumber ·) :=
  fun c _ hm => by simp [opensNumber, (cons_mem_digit_mul.mp hm).1]

theorem Avoids.add (hl : Avoids l p) (hm : Avoids m p) : Avoids (l + m) p :=
  fun c rest h => h.elim (hl c rest) (hm c rest)

theorem Avoids.mono (h : Avoids l p) (hq : ∀ c, p c = false → q c = false) : Avoids l q :=
  fun c rest hm => hq c (h c rest hm)

end Membership

-- Each step of the reader against the part of a literal that it takes off. What follows the part is
-- any language whose words cannot be taken for a longer part.
section Parts

variable {next : Language Char} {word : List Char}

theorem Avoids.digit (h : Avoids next opensNumber) : Avoids next Char.isDigit :=
  h.mono fun _ hc => (Bool.or_eq_false_iff.mp hc).2

theorem Avoids.sign (h : Avoids next (!opensNumber ·)) : Avoids next isSign := by
  refine h.mono fun c hc => ?_
  have hplus : c ≠ '+' := by rintro rfl; cases hc
  have hminus : c ≠ '-' := by rintro rfl; cases hc
  simp [isSign, hplus, hminus]

theorem mem_sign_mul (h : Avoids next isSign) :
    word ∈ sign.matches' * next ↔ (splitSign word).2 ∈ next := by
  rw [sign, optional_mul, Language.mem_add]
  unfold splitSign
  split
  case h_1 cs =>
    have hn : '+' :: cs ∉ next := fun hm => nomatch h _ _ hm
    simp [cons_mem_oneOf_mul, hn]
  case h_2 cs =>
    have hn : '-' :: cs ∉ next := fun hm => nomatch h _ _ hm
    simp [cons_mem_oneOf_mul, hn]
  case h_3 hplus hminus =>
    refine or_iff_left (notMem_oneOf_mul ?_)
    simpa using ⟨hplus, hminus⟩

-- By induction on the word, as the star is taken off digit by digit.
theorem mem_digit_kstar_mul (h : Avoids next Char.isDigit) :
    word ∈ digit.matches'∗ * next ↔ (splitDigits word).2 ∈ next := by
  induction word
  case nil            => simp [mem_kstar_mul, splitDigits, digit, nil_notMem_oneOf_mul]
  case cons c word hi =>
    rw [mem_kstar_mul, cons_mem_digit_mul, hi]
    cases hc : c.isDigit
    case true =>
      have hn : c :: word ∉ next := fun hm => by simp [h c word hm] at hc
      simp [splitDigits, hc, hn]
    case false => simp [splitDigits, hc]

theorem mem_digits_mul (h : Avoids next Char.isDigit) :
    word ∈ digits.matches' * next ↔ (splitDigits word).1 ≠ [] ∧ (splitDigits word).2 ∈ next := by
  rw [digits, matches'_mul, matches'_star, mul_assoc]
  cases word
  case nil => simp [splitDigits, digit, nil_notMem_oneOf_mul]
  case cons c word =>
    rw [cons_mem_digit_mul, mem_digit_kstar_mul h]
    cases hc : c.isDigit <;> simp [splitDigits, hc]

theorem fraction_mul :
    fraction.matches' * next = (oneOf ['.']).matches' * (digit.matches'∗ * next) :=
  mul_assoc _ _ _

theorem mem_fraction_mul (h : Avoids next opensNumber) :
    word ∈ (optional fraction).matches' * next ↔ (splitFraction word).2 ∈ next := by
  rw [optional_mul, fraction_mul, Language.mem_add]
  unfold splitFraction
  split
  case h_1 cs =>
    have hn : '.' :: cs ∉ next := fun hm => nomatch h _ _ hm
    simp [cons_mem_oneOf_mul, mem_digit_kstar_mul h.digit, hn]
  case h_2 hpoint =>
    refine or_iff_left (notMem_oneOf_mul ?_)
    simpa using hpoint

-- With no digit before the point there is one behind it.
theorem mem_point_mul (h : Avoids next Char.isDigit) :
    word ∈ (oneOf ['.']).matches' * (digits.matches' * next) ↔
      (splitDigits word).1 = [] ∧ (splitFraction (splitDigits word).2).1 ≠ [] ∧
        (splitFraction (splitDigits word).2).2 ∈ next := by
  cases word
  case nil => simp [nil_notMem_oneOf_mul, splitDigits, splitFraction]
  case cons c word =>
    rw [cons_mem_oneOf_mul, List.mem_singleton, mem_digits_mul h]
    by_cases hc : c = '.'
    case pos =>
      have hs : splitDigits ('.' :: word) = ([], '.' :: word) := rfl
      simp [hc, hs, splitFraction]
    case neg => cases hd : c.isDigit <;> simp [splitDigits, splitFraction, hd, hc]

theorem positional_mul :
    positional.matches' * next =
      digits.matches' * ((optional fraction).matches' * next) +
        (oneOf ['.']).matches' * (digits.matches' * next) := by
  rw [positional, matches'_add, matches'_mul, matches'_mul, add_mul, mul_assoc, mul_assoc]

theorem mem_positional_mul (h : Avoids next opensNumber) :
    word ∈ positional.matches' * next ↔
      ((splitDigits word).1 ≠ [] ∨ (splitFraction (splitDigits word).2).1 ≠ []) ∧
        (splitFraction (splitDigits word).2).2 ∈ next := by
  have hf : Avoids ((optional fraction).matches' * next) Char.isDigit := by
    rw [optional_mul, fraction_mul]
    exact h.digit.add (avoids_oneOf_mul rfl)
  rw [positional_mul, Language.mem_add, mem_digits_mul hf, mem_fraction_mul h,
    mem_point_mul h.digit]
  tauto

theorem mem_digits : word ∈ digits.matches' ↔ word ≠ [] ∧ word.all Char.isDigit := by
  rw [← mul_one digits.matches', mem_digits_mul avoids_one, Language.mem_one]
  cases word
  case nil         => simp [splitDigits]
  case cons c word => cases hc : c.isDigit <;> simp [splitDigits, hc]

theorem mem_optional_exponent :
    word ∈ (optional exponent).matches' ↔ (readExponent? word).isSome := by
  have hs : Avoids digits.matches' (!opensNumber ·) := avoids_digit_mul
  have ho : word ∈ (optional exponent).matches' ↔ word = [] ∨ word ∈ exponent.matches' := .rfl
  rw [ho]
  cases word
  case nil => simp [readExponent?]
  case cons c word =>
    rw [exponent, matches'_mul, cons_mem_oneOf_mul, matches'_mul, mem_sign_mul hs.sign, mem_digits]
    simp [readExponent?, and_assoc]

theorem mem_unsigned : word ∈ unsigned.matches' ↔
    ((splitDigits word).1 ≠ [] ∨ (splitFraction (splitDigits word).2).1 ≠ []) ∧
      (readExponent? (splitFraction (splitDigits word).2).2).isSome := by
  have he : Avoids (optional exponent).matches' opensNumber :=
    avoids_one.add (avoids_oneOf_mul rfl)
  rw [unsigned, matches'_mul, mem_positional_mul he, mem_optional_exponent]

theorem avoids_unsigned : Avoids unsigned.matches' (!opensNumber ·) := by
  rw [unsigned, matches'_mul, positional_mul, digits, matches'_mul, mul_assoc]
  exact avoids_digit_mul.add (avoids_oneOf_mul rfl)

theorem mem_literal : word ∈ literal.matches' ↔ (read? word).isSome := by
  rw [literal, matches'_mul, mem_sign_mul avoids_unsigned.sign, mem_unsigned]
  unfold read?
  dsimp only
  split
  case isTrue h  => simp_all
  case isFalse h =>
    rw [Option.isSome_map]
    refine and_iff_right ?_
    simpa [← not_and_or] using h

theorem avoids_anyCase {text : String} {p : Char → Bool} (h : text.toList = c :: rest)
    (hp : [c.toLower, c.toUpper].any p = false) : Avoids (anyCase text).matches' p := by
  rw [anyCase, h, List.map_cons, List.prod_cons]
  exact avoids_oneOf_mul hp

theorem avoids_special {p : Char → Bool} (hi : ['i', 'I'].any p = false)
    (hn : ['n', 'N'].any p = false) : Avoids special.matches' p :=
  ((avoids_anyCase (c := 'i') rfl hi).add (avoids_anyCase (c := 'i') rfl hi)).add
    (avoids_anyCase (c := 'n') rfl hn)

theorem mem_double : word ∈ double.matches' ↔
    (splitSign word).2 ∈ unsigned.matches' ∨ (splitSign word).2 ∈ special.matches' := by
  have hs : Avoids (unsigned + special).matches' isSign :=
    avoids_unsigned.sign.add (avoids_special rfl rfl)
  rw [double, matches'_mul, mem_sign_mul hs, matches'_add, Language.mem_add]

-- The first character behind the sign is enough to tell literals from the other texts of doubles.
theorem mem_literal_iff_mem_double : word ∈ literal.matches' ↔
    word ∈ double.matches' ∧ (splitSign word).2.head?.any opensNumber := by
  rw [literal, matches'_mul, mem_sign_mul avoids_unsigned.sign, mem_double]
  cases (splitSign word).2
  case nil         => simp [mem_unsigned, splitDigits, splitFraction]
  case cons c rest =>
    constructor
    · intro h
      exact ⟨.inl h, by simpa using avoids_unsigned c rest h⟩
    · rintro ⟨h, hc⟩
      refine h.resolve_right fun hs => ?_
      have hn : opensNumber c = false := avoids_special rfl rfl c rest hs
      simp [hn] at hc

end Parts
end Grammar

namespace Lexeme

open Grammar

variable {word : String}

theorem isSome_read?_iff : (Number.read? word).isSome ↔ word.toList ∈ literal.matches' := by
  rw [mem_literal, Number.read?, Option.isSome_map]

-- A word is read as a number if it is a literal, that is if it is a text of a double and starts like
-- a number, and only then.
theorem numbers_are_literals (word : String) :
    ((Number.read? word).isSome ↔ word.toList ∈ literal.matches') ∧
    (word.toList ∈ literal.matches' ↔
      word.toList ∈ double.matches' ∧ (Decimal.splitSign word.toList).2.head?.any opensNumber) ∧
    (∀ x, Number.read? word = some x → x.isNaN = false) ∧
    (word ≠ "" → word ≠ Value.openWord → word ≠ Value.closeWord →
      ((∃ x, ofWord word = .value (.number x)) ↔ word.toList ∈ literal.matches') ∧
      (∀ x, ofWord word = .value (.number x) ↔ Number.read? word = some x) ∧
      (∀ name, ofWord word = .value (.symbol name) ↔ name ≠ "" ∧ word = "/" ++ name) ∧
      (∀ name, ofWord word = .value (.operator name) ↔
        name = word ∧ word.toList ∉ literal.matches' ∧
        ¬∃ rest, rest ≠ "" ∧ word = "/" ++ rest)) := by
  refine ⟨isSome_read?_iff, mem_literal_iff_mem_double, fun _ => Number.not_isNaN_of_read?, ?_⟩
  intro h₁ h₂ h₃
  rw [← isSome_read?_iff]
  rcases ofWord_cases h₁ h₂ h₃ with ⟨x, hx, hw⟩ | ⟨name, hn, rfl, hw⟩ | ⟨hx, hs, hw⟩
  · have hs (name : String) : word ≠ "/" ++ name := by
      rintro rfl
      cases (read?_slash name).symm.trans hx
    simp [hx, hw, hs]
  · simp [hw, hn, read?_slash]
  · refine ⟨by simp [hx, hw], by simp [hx, hw], fun name => ?_, fun name => ?_⟩
    · rw [hw]
      exact iff_of_false nofun fun h => hs ⟨name, h⟩
    · rw [hw, and_iff_left ⟨by simp [hx], hs⟩]
      simp [eq_comm]

-- A literal with all of its parts, a symbol named like one, and a text of a double that is none.
theorem words_near_literals :
    (∃ x, ofWord "-1.E+05" = .value (.number x) ∧ x.isNaN = false) ∧
    ofWord "/1" = .value (.symbol "1") ∧
    "+iNFinity".toList ∈ double.matches' ∧
    ofWord "+iNFinity" = .value (.operator "+iNFinity") := by
  have ⟨_, _, hnan, hnumber⟩ := numbers_are_literals "-1.E+05"
  have ⟨hn, hr, _⟩ := hnumber (by decide) (by decide) (by decide)
  have ⟨x, hx⟩ := hn.mpr (by decide +kernel)
  have ⟨_, _, _, hslash⟩ := numbers_are_literals "/1"
  have ⟨_, _, hs, _⟩ := hslash (by decide) (by decide) (by decide)
  have ⟨_, hd, _, hword⟩ := numbers_are_literals "+iNFinity"
  have ⟨_, _, _, ho⟩ := hword (by decide) (by decide) (by decide)
  refine ⟨⟨x, hx, hnan x ((hr x).mp hx)⟩, (hs "1").mpr (by decide), by decide +kernel, ?_⟩
  refine (ho "+iNFinity").mpr ⟨rfl, fun hm => (nomatch (hd.mp hm).2), ?_⟩
  rintro ⟨name, _, hw⟩
  have hl : "+iNFinity".toList.head? = some '/' := by simp [hw]
  cases hl

end Lexeme
end StackScript
