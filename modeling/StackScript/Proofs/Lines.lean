import StackScript.Proofs.Language

namespace StackScript

-- A text without a line end.
def OneLine (text : String) : Prop :=
  '\n' ∉ text.toList

instance : DecidablePred OneLine :=
  fun text => inferInstanceAs (Decidable ('\n' ∉ text.toList))

@[simp]
theorem oneLine_append {a b : String} : OneLine (a ++ b) ↔ OneLine a ∧ OneLine b := by
  simp [OneLine]

theorem OneLine.join {parts : List String} (h : ∀ part ∈ parts, OneLine part) :
    OneLine (String.join parts) := by
  simpa [OneLine, String.toList_join] using h

theorem OneLine.intercalate {parts : List String} (h : ∀ part ∈ parts, OneLine part) :
    OneLine (" ".intercalate parts) := by
  intro hm
  rcases Token.mem_intercalate hm with hc | ⟨part, hp, hm⟩
  · cases hc
  · exact h part hp hm

theorem oneLine_toString (n : Nat) : OneLine (toString n) := by
  intro h
  have hd : '\n'.isDigit = true := Nat.isDigit_of_mem_toDigits (by decide) (by decide)
    (Nat.toList_repr ▸ h)
  cases hd

namespace Value

variable {v : Value}

theorem Written.oneLine (h : v.Written numbers) : OneLine v.text :=
  .intercalate fun word hw => (h.unbroken word hw).2

theorem Datum.oneLine (h : v.Datum) : OneLine v.text := by
  cases h
  case number x =>
    have h : Written (fun _ => True) (.number x) := .number trivial
    exact h.oneLine
  case symbol h =>
    have h : Legible _ := .symbol h
    exact h.oneLine
  case block h =>
    have h : Legible _ := .block h
    exact h.oneLine

end Value

theorem Native.oneLine_text (op : Native) : OneLine (Value.native op).text := by
  cases op <;> decide

namespace Snapshot

variable {s : Snapshot}

theorem oneLine_stackText {stack : Array Value} (h : ∀ v ∈ stack, OneLine v.text) :
    OneLine (stackText stack) := by
  have hs : OneLine (" ".intercalate (stack.toList.map Value.text)) :=
    .intercalate (by simpa using h)
  simp only [stackText, oneLine_append]
  exact ⟨⟨by decide, hs⟩, by decide⟩

theorem oneLine_scopeText {scope : Scope} (index : Nat)
    (h : ∀ name v, scope.get? name = some v → OneLine name ∧ OneLine v.text) :
    OneLine (scopeText scope index) := by
  unfold scopeText
  split
  case isTrue => decide
  case isFalse =>
    simp only [oneLine_append]
    refine ⟨⟨⟨⟨by decide, oneLine_toString index⟩, by decide⟩, .join fun part hp => ?_⟩, by decide⟩
    obtain ⟨⟨name, v⟩, he, rfl⟩ := List.mem_map.mp hp
    have hv := h name v (Scope.get?_of_mem he)
    simp only [oneLine_append]
    exact ⟨⟨⟨by decide, hv.1⟩, by decide⟩, hv.2⟩

theorem oneLine_blockText {block : Array Value} (index : Nat) (h : ∀ v ∈ block, OneLine v.text) :
    OneLine (blockText block index) := by
  simp only [blockText, oneLine_append]
  refine ⟨⟨⟨⟨by decide, oneLine_toString index⟩, by decide⟩, .join fun part hp => ?_⟩, by decide⟩
  obtain ⟨v, hv, rfl⟩ := List.mem_map.mp hp
  exact oneLine_append.mpr ⟨by decide, h v (Array.mem_toList_iff.mp hv)⟩

theorem InLanguage.oneLine (h : s.InLanguage) : OneLine s.text := by
  simp only [text, oneLine_append]
  refine ⟨⟨?stack, .join fun part hp => ?scopes⟩, .join fun part hp => ?blocks⟩
  case stack => exact oneLine_stackText fun v hv => (h.stack v hv).oneLine
  case scopes =>
    obtain ⟨⟨scope, index⟩, hi, rfl⟩ := List.mem_map.mp hp
    have hi : s.scopes[index]? = some scope := by simpa using List.mk_mem_zipIdx_iff_getElem?.mp hi
    refine oneLine_scopeText index fun name v hg => ?_
    obtain ⟨hn, hv | ⟨_, op, rfl, _⟩⟩ := h.scopes index scope hi name v hg
    · exact ⟨hn.unbroken.2, hv.oneLine⟩
    · exact ⟨hn.unbroken.2, op.oneLine_text⟩
  case blocks =>
    obtain ⟨⟨block, index⟩, hi, rfl⟩ := List.mem_map.mp hp
    have hm : block ∈ s.blocks := by simpa using List.fst_mem_of_mem_zipIdx hi
    exact oneLine_blockText index fun v hv => (h.blocks block hm v hv).oneLine

end Snapshot
end StackScript
