import StackScript.Proofs.Course
import StackScript.Proofs.RoundTrip

namespace StackScript

-- What a program can have on its stack. Numbers are computed, so there may be any.
inductive Value.Datum : Value → Prop
  | number : Datum (number x)
  | symbol : SymbolName name → Datum (symbol name)
  | block  : (∀ v ∈ body, v.Legible) → Datum (block body)

theorem Value.legible_block (body : List Value) (h : ∀ v ∈ body, v.Legible) :
    (block body).Legible :=
  .block h

def Flow.language : Flow where
  operand  := Value.Datum
  code     := Value.Legible
  number _ := .number
  block    := Value.legible_block
  evaluable v h := by
    cases h
    case number     => exact .inr .number
    case symbol h   => exact .inr (.symbol h)
    case operator h => exact .inl rfl
    case block h    => exact .inr (.block h)
  body values h := by
    cases h
    case block h => exact h

theorem Native.symbolName (op : Native) : Value.SymbolName op.name := by
  cases op <;> exact ⟨by decide, by unfold Unbroken; decide⟩

theorem Token.admitted_language (h : token ∈ ofSource source) :
    (Call.step token.text).Admitted .language :=
  fun _ => Lexeme.legible_ofWord (unbroken_of_mem_ofSource h)

structure Snapshot.InLanguage (s : Snapshot) : Prop where
  stack  : ∀ v ∈ s.stack, v.Datum
  scopes : ∀ (index : Nat) (scope : Scope), s.scopes[index]? = some scope →
           ∀ name v, scope.get? name = some v → Value.SymbolName name ∧
           (v.Datum ∨ index = 0 ∧ ∃ op : Native, v = .native op ∧ name = op.name)
  blocks : ∀ block ∈ s.blocks, ∀ v ∈ block, v.Legible

def Event.InLanguage : Event → Prop
  | state s    => s.InLanguage
  | popped v s => v.Datum ∧ s.InLanguage
  | output v   => v.Datum

theorem State.Obeys.inLanguage {s : State} (h : s.Obeys .language) : s.InLanguage where
  stack  := h.stack
  blocks := h.blocks
  scopes index scope hi name v hg := by
    cases h.scopes index scope hi name v hg
    case inl h =>
      obtain ⟨hi, op, rfl, rfl⟩ := h
      exact ⟨op.symbolName, .inr ⟨hi, op, rfl, rfl⟩⟩
    case inr h =>
      have ⟨hn, hv⟩ := h
      cases hn
      case symbol hn => exact ⟨hn, .inl hv⟩

theorem steps_governed_language (limits : Limits) (source : String) :
    Flow.language.Governs (Program.steps (Token.ofSource source) (.moments limits) .initial) :=
  Program.steps_governed _ .initial fun _ => Token.admitted_language

theorem start_events_inLanguage (limits : Limits) (source : String) :
    ∀ event ∈ (start (.events limits) source).trace, event.InLanguage := by
  have hw : State.initial.WellFormed limits := .initial
  have hg := steps_governed_language limits source
  have hp : Path limits .initial _ _ := Program.steps_path (Token.ofSource source) hw.balanced
  have hv := hp.operand_of_popped .initial hg.trace
  rw [start_eq_steps]
  intro event he
  obtain ⟨⟨note, s⟩, hm, he⟩ := List.mem_filterMap.mp he
  have hs : s.InLanguage := (hg.trace _ hm).inLanguage
  cases note <;> cases he
  case changed  => exact hs
  case popped v => exact ⟨hv _ hm v (.inl rfl), hs⟩
  case output v => exact hv _ hm v (.inr rfl)

theorem values_within_language (limits : Limits) (source : String) :
    let r := start (.moments limits) source
    (∀ moment ∈ r.trace, moment.state.InLanguage) ∧ r.state.InLanguage ∧
    ∀ event ∈ (start (.events limits) source).trace, event.InLanguage := by
  intro r
  have hg : Flow.language.Governs r :=
    Program.run_governed source .initial fun _ => Token.admitted_language
  refine ⟨fun moment hm => ?_, hg.state.inLanguage, start_events_inLanguage limits source⟩
  exact (hg.trace moment hm).inLanguage

end StackScript
