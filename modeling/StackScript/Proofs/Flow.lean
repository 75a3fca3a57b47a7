import StackScript.Event
import StackScript.Proofs.Capture
import StackScript.Proofs.Machine
import StackScript.Proofs.Scope

namespace StackScript

-- What the values of a machine are like, and why it stays so. Numbers are computed, so every number
-- has to be admitted as an operand; the values of a block are evaluated when the block is run.
structure Flow where
  operand : Value → Prop
  code    : Value → Prop
  number (x : Float) : operand (.number x)
  evaluable (v : Value) : code v → v.Evaluable operand
  body (values : List Value) : operand (.block values) → ∀ v ∈ values, code v
  block (values : List Value) : (∀ v ∈ values, code v) → code (.block values)

namespace Flow

variable {flow : Flow} {outer scopes : Array Scope} {scope : Scope}

-- In the base scope the built-in operations are bound to their names. All else has been an operand.
def Binding (flow : Flow) (index : Nat) (name : String) (v : Value) : Prop :=
  (index = 0 ∧ ∃ op : Native, v = .native op ∧ name = op.name) ∨
  flow.operand (.symbol name) ∧ flow.operand v

def Bindings (flow : Flow) (scopes : Array Scope) : Prop :=
  ∀ (index : Nat) (scope : Scope), scopes[index]? = some scope →
    ∀ name v, scope.get? name = some v → flow.Binding index name v

theorem bindings_push :
    flow.Bindings (outer.push scope) ↔ flow.Bindings outer ∧
      ∀ name v, scope.get? name = some v → flow.Binding outer.size name v where
  mp h := by
    refine ⟨fun index inner hi => h index inner ?_, h outer.size scope (by simp)⟩
    have hlt : index < outer.size := (Array.getElem?_eq_some_iff.mp hi).1
    rw [Array.getElem?_push, if_neg (by omega), hi]
  mpr := by
    rintro ⟨houter, hscope⟩ index inner hi
    rw [Array.getElem?_push] at hi
    split at hi
    case isTrue he  => cases hi; exact he ▸ hscope
    case isFalse hn => exact houter index inner hi

theorem bindings_empty : flow.Bindings #[] := by
  intro _ _ h
  simp at h

theorem Bindings.pushScope (h : flow.Bindings scopes) : flow.Bindings (scopes.push .empty) :=
  bindings_push.mpr ⟨h, fun _ _ hg => nomatch hg⟩

theorem Bindings.popScope (h : flow.Bindings scopes) : flow.Bindings scopes.pop := by
  cases hb : scopes.back?
  case none =>
    have he : scopes = #[] := by simpa using hb
    simpa [he] using h
  case some scope =>
    have ⟨outer, ho⟩ := Array.back?_eq_some_iff.mp hb
    rw [ho, Array.pop_push]
    exact (bindings_push.mp (ho ▸ h)).1

theorem Bindings.bindName (h : flow.Bindings scopes) (hn : flow.operand (.symbol name))
    (hv : flow.operand v) : flow.Bindings (Stack.amendLast scopes (·.insert name v)) := by
  cases hb : scopes.back?
  case none =>
    have he : scopes = #[] := by simpa using hb
    simpa [he] using bindings_empty
  case some scope =>
    have ⟨outer, ho⟩ := Array.back?_eq_some_iff.mp hb
    have ⟨houter, hscope⟩ := bindings_push.mp (ho ▸ h)
    rw [ho, Stack.amendLast_push]
    refine bindings_push.mpr ⟨houter, fun n u hu => ?_⟩
    rw [Scope.get?_insert] at hu
    split at hu
    case isTrue he  => cases hu; exact .inr ⟨he ▸ hn, hv⟩
    case isFalse hn => exact hscope n u hu

theorem bindings_base : flow.Bindings #[.base] := by
  refine bindings_push.mpr ⟨bindings_empty, fun name v h => .inl ⟨rfl, ?_⟩⟩
  have ⟨op, _, he⟩ := List.mem_map.mp (Scope.mem_of_ofList_get? h)
  cases he
  exact ⟨op, rfl, rfl⟩

end Flow

theorem Stack.mem_of_mem_pop {xs : Array α} (h : x ∈ xs.pop) : x ∈ xs := by
  rw [← Array.mem_toList_iff, Array.toList_pop] at h
  exact Array.mem_toList_iff.mp (List.dropLast_subset _ h)

structure State.Obeys (flow : Flow) (s : State) : Prop where
  stack  : ∀ v ∈ s.stack, flow.operand v
  scopes : flow.Bindings s.scopes
  blocks : ∀ block ∈ s.blocks, ∀ v ∈ block, flow.code v

namespace State.Obeys

variable {flow : Flow} {s : State}

theorem initial : State.initial.Obeys flow where
  stack  := by simp [State.initial]
  scopes := Flow.bindings_base
  blocks := by simp [State.initial]

theorem lookup? (h : s.Obeys flow) (hl : s.lookup? name = some v) :
    v.isNative ∨ flow.operand v := by
  have ⟨scope, hmem, hg⟩ : ∃ scope ∈ s.scopes, scope.get? name = some v := by
    rw [State.lookup?, Array.findSomeRev?_eq_findSome?_reverse] at hl
    have ⟨scope, hmem, hg⟩ := Array.exists_of_findSome?_eq_some hl
    exact ⟨scope, by simpa using hmem, hg⟩
  have ⟨index, hi⟩ := Array.getElem?_of_mem hmem
  cases h.scopes index scope hi name v hg
  case inl h =>
    have ⟨_, op, hv, _⟩ := h
    exact .inl (by rw [hv]; rfl)
  case inr h => exact .inr h.2

theorem back? (h : s.Obeys flow) (hv : s.stack.back? = some v) : flow.operand v :=
  h.stack v (Array.mem_of_back? hv)

theorem push (h : s.Obeys flow) (hv : flow.operand v) :
    State.Obeys flow { s with stack := s.stack.push v } := by
  refine ⟨fun u hu => ?_, h.scopes, h.blocks⟩
  cases Array.mem_push.mp hu
  case inl hu => exact h.stack u hu
  case inr hu => exact hu ▸ hv

theorem pop (h : s.Obeys flow) : State.Obeys flow { s with stack := s.stack.pop } :=
  ⟨fun v hv => h.stack v (Stack.mem_of_mem_pop hv), h.scopes, h.blocks⟩

theorem openBlock (h : s.Obeys flow) : State.Obeys flow { s with blocks := s.blocks.push #[] } := by
  refine ⟨h.stack, h.scopes, fun block hb => ?_⟩
  cases Array.mem_push.mp hb
  case inl hb => exact h.blocks block hb
  case inr hb => simp [hb]

theorem closeBlock (h : s.Obeys flow) : State.Obeys flow { s with blocks := s.blocks.pop } :=
  ⟨h.stack, h.scopes, fun block hb => h.blocks block (Stack.mem_of_mem_pop hb)⟩

theorem capture {older : Array (Array Value)} {body : Array Value} (h : s.Obeys flow)
    (hb : s.blocks = older.push body) (hv : flow.code v) :
    State.Obeys flow { s with blocks := older.push (body.push v) } :=
  ⟨h.stack, h.scopes, Stack.forall_capture (hb ▸ h.blocks) hv⟩

end State.Obeys

namespace Flow

variable {κ : Type} {flow : Flow} {w : Watch κ} {seen : κ → Prop}

-- The regime of a flow while no block literal is open.
def regime (flow : Flow) (w : Watch κ) (seen : κ → Prop) : Regime κ where
  watch   := w
  operand := flow.operand
  inv s   := s.blocks = #[] ∧ s.Obeys flow
  seen    := seen

theorem regime_kept
    (hseen : ∀ s note, s.blocks = #[] → s.Obeys flow → ∀ k ∈ w.keep note s, seen k) :
    (flow.regime w seen).Kept where
  keep h note        := hseen _ note h.1 h.2
  count h            := ⟨h.1, h.2.stack, h.2.scopes, h.2.blocks⟩
  depth h _          := ⟨h.1, h.2.stack, h.2.scopes, h.2.blocks⟩
  push h hv          := ⟨h.1, h.2.push hv⟩
  pop h hv           := ⟨h.2.back? hv, h.1, h.2.pop⟩
  capture h hb _     := by simp [h.1] at hb
  bindName h hn hv   := ⟨h.1, h.2.stack, h.2.scopes.bindName hn hv, h.2.blocks⟩
  pushScope h        := ⟨h.1, h.2.stack, h.2.scopes.pushScope, h.2.blocks⟩
  popScope h         := ⟨h.1, h.2.stack, h.2.scopes.popScope, h.2.blocks⟩
  bound h hl         := h.2.lookup? hl
  number             := flow.number
  body h v hv        := flow.evaluable v (flow.body _ h v hv)

-- Everything that a fully recorded run shows of a machine. An operation is applied only where no
-- block literal is open.
structure Governs (flow : Flow) (r : Run ε Moment α) : Prop where
  state    : r.state.Obeys flow
  trace    : ∀ m ∈ r.trace, m.state.Obeys flow
  applying : ∀ m ∈ r.trace, ∀ op, m.note = .said (.applying op) → m.state.blocks = #[]

theorem Governs.after {trace : List Moment} {r : Run ε Moment α}
    (htrace : ∀ m ∈ trace, m.state.Obeys flow)
    (happlying : ∀ m ∈ trace, ∀ op, m.note ≠ .said (.applying op)) (h : flow.Governs r) :
    flow.Governs ⟨r.result, r.state, trace ++ r.trace⟩ where
  state            := h.state
  trace m hm       := (List.mem_append.mp hm).elim (htrace m) (h.trace m)
  applying m hm op := (List.mem_append.mp hm).elim
    (fun hm ha => absurd ha (happlying m hm op)) (h.applying m · op)

theorem moments_kept (flow : Flow) (limits : Limits) :
    (flow.regime (.moments limits) fun m => m.state.blocks = #[] ∧ m.state.Obeys flow).Kept :=
  regime_kept fun s note hb h m hm => by
    have he : m = ⟨note, s⟩ := by simpa [Watch.moments] using hm
    exact he ▸ ⟨hb, h⟩

end Flow

namespace Op

variable {flow : Flow} {limits : Limits} {s : State}

theorem eval_governed (hs : s.Obeys flow) (hv : flow.code v) :
    flow.Governs (eval v (.moments limits) s) := by
  cases hb : s.blocks.back?
  case none =>
    have hr := (flow.moments_kept limits).eval ⟨by simpa using hb, hs⟩ (flow.evaluable v hv)
    exact ⟨hr.inv.2, fun m hm => (hr.seen m hm).2, fun m hm _ _ => (hr.seen m hm).1⟩
  case some body =>
    have ⟨older, ho⟩ := Array.back?_eq_some_iff.mp hb
    have ht : State.Obeys flow { s with count := s.count + 1 } := ⟨hs.stack, hs.scopes, hs.blocks⟩
    have hu := ht.capture ho hv
    rw [eval_capture_run v ho]
    split
    case isFalse => exact ⟨ht, by simp, by simp⟩
    case isTrue  => exact ⟨hu, by simp [Watch.moments, ht, hu], by simp [Watch.moments]⟩

theorem step_governed (hs : s.Obeys flow) (hw : ∀ v, Lexeme.ofWord word = .value v → flow.code v) :
    flow.Governs (step word (.moments limits) s) := by
  have hsay : Act.say (ε := Fault) (.stepping word) (.moments limits) s =
    ⟨.ok (), s, [⟨.said (.stepping word), s⟩]⟩ := rfl
  rw [step, Act.bind_ok hsay]
  refine .after (by simp [hs]) (by simp) ?_
  cases hl : Lexeme.ofWord word
  case blank   =>
    refine ⟨hs, ?_, ?_⟩
    all_goals simp [Act.note, Act.change, Watch.moments, hs]
  case opening =>
    refine ⟨hs.openBlock, ?_, ?_⟩
    all_goals simp [openBlock, Act.change, Watch.moments, hs.openBlock]
  case value v => exact eval_governed hs (hw v hl)
  case closing =>
    have hr := closeBlock_run (w := .moments limits) (s := s)
    dsimp only
    cases hb : s.blocks.back? <;> simp only [hb] at hr
    case none =>
      rw [Act.bind_error hr]
      exact ⟨hs, by simp, by simp⟩
    case some body =>
      have hbody : flow.code (.block body.toList) := by
        refine flow.block _ fun v hv => ?_
        exact hs.blocks body (Array.mem_of_back? hb) v (Array.mem_toList_iff.mp hv)
      rw [Act.bind_ok hr]
      refine .after ?_ ?_ (eval_governed hs.closeBlock hbody)
      all_goals simp [Watch.moments, hs.closeBlock]

end Op

-- What comes in with a call is such as the flow admits.
def Call.Admitted (flow : Flow) : Call → Prop
  | eval v    => flow.code v
  | step word => ∀ v, Lexeme.ofWord word = .value v → flow.code v

theorem Call.governed {flow : Flow} (limits : Limits) (hs : State.Obeys flow s) :
    (call : Call) → call.Admitted flow → flow.Governs (call.op (.moments limits) s)
  | step _, h => Op.step_governed hs h
  | eval _, h => Op.eval_governed hs h

namespace Machine

-- The run lemma: a machine that is given only what a flow admits holds nothing else.
theorem after_obeys {flow : Flow} (m : Machine) (h : m.state.Obeys flow) (calls : List Call)
    (hc : ∀ call ∈ calls, call.Admitted flow) : (m.after calls).state.Obeys flow := by
  induction calls generalizing m
  case nil => exact h
  case cons call calls hi =>
    have ⟨_, hs, _⟩ := m.call_recorded call
    have hg := call.governed m.limits h (hc call List.mem_cons_self)
    refine hi (m.call call).2 (hs ▸ hg.state) fun call' hm => ?_
    exact hc call' (List.mem_cons_of_mem call hm)

end Machine
end StackScript
