import StackScript.Proofs.Numeral
import StackScript.Token

namespace StackScript

-- A word that stays whole in a text.
def Unbroken (word : List Char) : Prop :=
  ' ' ∉ word ∧ '\n' ∉ word

namespace Token

theorem mem_of_mem_splitOn {part xs : List Char} (h : part ∈ xs.splitOn sep) :
    sep ∉ part ∧ ∀ c ∈ part, c ∈ xs := by
  induction xs generalizing part
  case nil => simp_all
  case cons x xs hi =>
    rw [List.splitOn_cons_eq_if_modifyHead] at h
    split at h
    case isTrue => grind
    case isFalse hx =>
      have ⟨first, rest, hs⟩ := List.exists_cons_of_ne_nil (List.splitOn_ne_nil sep xs)
      rw [hs, List.modifyHead_cons] at h
      grind

theorem map_text_place (line column : Nat) (words : List (List Char)) :
    (place line column words).map (·.text) = words.map String.ofList := by
  induction words generalizing column
  case nil => rfl
  case cons word words hi => simp [place, hi]

theorem mem_of_mem_dropReturn {line : List Char} (h : c ∈ dropReturn line) : c ∈ line := by
  unfold dropReturn at h
  split at h
  case isTrue  => exact List.dropLast_subset line h
  case isFalse => exact h

theorem unbroken_of_mem_ofSource (h : token ∈ ofSource source) : Unbroken token.text.toList := by
  have ⟨⟨line, number⟩, hline, htoken⟩ := List.mem_flatMap.mp h
  have hline : line ∈ source.toList.splitOn '\n' := by
    have := List.mem_map_of_mem (f := (·.1)) hline
    rwa [List.zipIdx_map_fst] at this
  have hword : token.text ∈ ((dropReturn line).splitOn ' ').map String.ofList := by
    rw [← map_text_place number 1]
    exact List.mem_map_of_mem htoken
  have ⟨word, hword, he⟩ := List.mem_map.mp hword
  have ⟨hspace, hmem⟩ := mem_of_mem_splitOn hword
  rw [← he, String.toList_ofList]
  refine ⟨hspace, fun hn => ?_⟩
  exact (mem_of_mem_splitOn hline).1 (mem_of_mem_dropReturn (hmem _ hn))

-- The words of a text of one line.
theorem map_text_ofSource {text : String} (h : '\n' ∉ text.toList) :
    (ofSource text).map (·.text) = ((dropReturn text.toList).splitOn ' ').map String.ofList := by
  simp [ofSource, List.splitOn_eq_singleton h, ofLine, map_text_place]

theorem mem_intercalate {words : List String} (h : c ∈ (" ".intercalate words).toList) :
    c = ' ' ∨ ∃ word ∈ words, c ∈ word.toList := by
  induction words
  case nil => simp at h
  case cons word words hi =>
    by_cases hn : words = []
    case pos => simp_all
    case neg =>
      rw [String.intercalate_cons_of_ne_nil hn] at h
      simp only [String.toList_append, List.mem_append] at h
      rcases h with (h | h) | h
      · exact .inr ⟨word, List.mem_cons_self, h⟩
      · exact .inl (by simpa using h)
      · rcases hi h with h | ⟨other, hm, hc⟩
        · exact .inl h
        · exact .inr ⟨other, List.mem_cons_of_mem word hm, hc⟩

theorem map_text_intercalate {words : List String} (hn : words ≠ [])
    (hu : ∀ word ∈ words, Unbroken word.toList)
    (hr : (" ".intercalate words).toList.getLast? ≠ some '\r') :
    (ofSource (" ".intercalate words)).map (·.text) = words := by
  have hl : '\n' ∉ (" ".intercalate words).toList := by
    intro h
    rcases mem_intercalate h with h | ⟨word, hw, h⟩
    · cases h
    · exact (hu word hw).2 h
  have hs : ∀ word ∈ words.map String.toList, ' ' ∉ word := by
    simpa using fun word hw => (hu word hw).1
  rw [map_text_ofSource hl, dropReturn, if_neg hr, String.toList_intercalate]
  have := List.splitOn_intercalate ' ' hs (by simpa using hn)
  rw [show " ".toList = [' '] from rfl, this]
  simp

end Token

namespace Value

-- The names that symbols and operators can be read with.
structure SymbolName (name : String) : Prop where
  nonempty : name ≠ ""
  unbroken : Unbroken name.toList

structure OperatorName (name : String) : Prop extends SymbolName name where
  noOpening : name ≠ openWord
  noClosing : name ≠ closeWord
  noNumber  : Number.read? name = none
  noSymbol  : name = "/" ∨ name.toList.head? ≠ some '/'

end Value

namespace Lexeme

theorem read?_slash (name : String) : Number.read? ("/" ++ name) = none := by
  have hl : ("/" ++ name).toList = '/' :: name.toList := by simp
  simp [Number.read?, hl, Decimal.read?, Decimal.splitSign, Decimal.splitDigits,
    Decimal.splitFraction]

theorem ofWord_number (h : Number.read? word = some x) : ofWord word = .value (.number x) := by
  unfold ofWord
  have h₁ : word ≠ "" := by rintro rfl; cases h
  have h₂ : word ≠ Value.openWord := by rintro rfl; cases h
  have h₃ : word ≠ Value.closeWord := by rintro rfl; cases h
  have h₄ : word ≠ "/" := by rintro rfl; cases h
  simp [h₁, h₂, h₃, h₄, h]

theorem ofWord_symbol (hn : name ≠ "") : ofWord ("/" ++ name) = .value (.symbol name) := by
  have hl : ("/" ++ name).toList = '/' :: name.toList := by simp
  have h₁ : "/" ++ name ≠ "" := fun he => by simp [he] at hl
  have h₂ : "/" ++ name ≠ Value.openWord := fun he => by simp [he, Value.openWord] at hl
  have h₃ : "/" ++ name ≠ Value.closeWord := fun he => by simp [he, Value.closeWord] at hl
  have h₄ : "/" ++ name ≠ "/" := fun he => hn (by simpa [he] using hl.symm)
  unfold ofWord
  rw [if_neg h₁, if_neg h₂, if_neg h₃, if_neg h₄, read?_slash, hl]
  simp

-- A word for a symbol has something behind its slash.
theorem exists_name_iff {word : String} :
    (∃ name, name ≠ "" ∧ word = "/" ++ name) ↔ word ≠ "/" ∧ word.toList.head? = some '/' := by
  constructor
  · rintro ⟨name, hn, rfl⟩
    refine ⟨fun he => hn ?_, by simp⟩
    simpa using congrArg String.toList he
  · intro ⟨hne, hh⟩
    have ⟨name, hl⟩ := List.head?_eq_some_iff.mp hh
    have hw : word = "/" ++ String.ofList name := String.toList_inj.mp (by simp [hl])
    refine ⟨String.ofList name, fun he => hne ?_, hw⟩
    rw [hw, he]
    rfl

theorem ofWord_other (h₁ : word ≠ "") (h₂ : word ≠ Value.openWord) (h₃ : word ≠ Value.closeWord)
    (hx : Number.read? word = none) (hs : ¬∃ name, name ≠ "" ∧ word = "/" ++ name) :
    ofWord word = .value (.operator word) := by
  unfold ofWord
  rw [if_neg h₁, if_neg h₂, if_neg h₃, hx]
  split
  case isTrue => rfl
  case isFalse h₄ =>
    split
    case h_1 he     => cases he
    case h_2 _ _ hl => exact absurd (exists_name_iff.mpr ⟨h₄, by simp [hl]⟩) hs
    case h_3        => rfl

theorem ofWord_operator (h : Value.OperatorName word) : ofWord word = .value (.operator word) := by
  refine ofWord_other h.nonempty h.noOpening h.noClosing h.noNumber fun hs => ?_
  have ⟨hne, hh⟩ := exists_name_iff.mp hs
  exact h.noSymbol.elim hne (· hh)

-- The three kinds of values that words are read as.
theorem ofWord_cases (h₁ : word ≠ "") (h₂ : word ≠ Value.openWord) (h₃ : word ≠ Value.closeWord) :
    (∃ x, Number.read? word = some x ∧ ofWord word = .value (.number x)) ∨
    (∃ name, name ≠ "" ∧ word = "/" ++ name ∧ ofWord word = .value (.symbol name)) ∨
    (Number.read? word = none ∧ (¬∃ name, name ≠ "" ∧ word = "/" ++ name) ∧
      ofWord word = .value (.operator word)) := by
  cases hx : Number.read? word
  case some x => exact .inl ⟨x, rfl, ofWord_number hx⟩
  case none   =>
    by_cases hs : ∃ name, name ≠ "" ∧ word = "/" ++ name
    case pos =>
      obtain ⟨name, hn, rfl⟩ := hs
      exact .inr (.inl ⟨name, hn, rfl, ofWord_symbol hn⟩)
    case neg => exact .inr (.inr ⟨rfl, hs, ofWord_other h₁ h₂ h₃ hx hs⟩)

-- What a word that is read as a value can be.
theorem ofWord_value (hu : Unbroken word.toList) (h : ofWord word = .value v) :
    (∃ x, v = .number x ∧ Number.read? word = some x) ∨
    (∃ name, v = .symbol name ∧ word = "/" ++ name ∧ Value.SymbolName name) ∨
    (v = .operator word ∧ Value.OperatorName word) := by
  have h₁ : word ≠ "" := by rintro rfl; cases h
  have h₂ : word ≠ Value.openWord := by rintro rfl; cases h
  have h₃ : word ≠ Value.closeWord := by rintro rfl; cases h
  rcases ofWord_cases h₁ h₂ h₃ with ⟨x, hx, hw⟩ | ⟨name, hn, rfl, hw⟩ | ⟨hx, hs, hw⟩ <;>
    cases hw.symm.trans h
  · exact .inl ⟨x, rfl, hx⟩
  · exact .inr (.inl ⟨name, rfl, rfl, hn, by simpa [Unbroken] using hu⟩)
  · refine .inr (.inr ⟨rfl, ⟨h₁, hu⟩, h₂, h₃, hx, ?_⟩)
    exact or_iff_not_imp_left.mpr fun hne hh => hs (exists_name_iff.mpr ⟨hne, hh⟩)

end Lexeme
end StackScript
