import StackScript.Proofs.Lockstep

namespace StackScript

-- What evaluation keeps true of the values on the stack, of the state and of what a watch has kept.
structure Regime (κ : Type) where
  watch   : Watch κ
  operand : Value → Prop
  inv     : State → Prop
  seen    : κ → Prop

namespace Regime

variable {κ : Type}

-- What has to be shown of a regime: one obligation for each kind of change and of note.
structure Kept (g : Regime κ) : Prop where
  keep {s : State} (h : g.inv s) (note : Note) : ∀ k ∈ g.watch.keep note s, g.seen k
  count {s : State} (h : g.inv s) : g.inv { s with count := s.count + 1 }
  depth {s : State} (h : g.inv s) (depth : Nat) : g.inv { s with depth }
  push {s : State} {v : Value} (h : g.inv s) (hv : g.operand v) :
    g.inv { s with stack := s.stack.push v }
  pop {s : State} {v : Value} (h : g.inv s) (hv : s.stack.back? = some v) :
    g.operand v ∧ g.inv { s with stack := s.stack.pop }
  capture {s : State} {v : Value} (h : g.inv s) (hb : s.blocks.isEmpty = false)
    (hv : v.Evaluable g.operand) :
    g.inv { s with blocks := Stack.amendLast s.blocks (·.push v) }
  bindName {s : State} {name : String} {v : Value} (h : g.inv s) (hn : g.operand (.symbol name))
    (hv : g.operand v) : g.inv { s with scopes := Stack.amendLast s.scopes (·.insert name v) }
  pushScope {s : State} (h : g.inv s) : g.inv { s with scopes := s.scopes.push .empty }
  popScope {s : State} (h : g.inv s) : g.inv { s with scopes := s.scopes.pop }
  bound {s : State} {name : String} {v : Value} (h : g.inv s) (hl : s.lookup? name = some v) :
    v.isNative ∨ g.operand v
  number x : g.operand (.number x)
  body {values : List Value} (h : g.operand (.block values)) :
    ∀ v ∈ values, v.Evaluable g.operand

-- A run under a regime. It comes back to the call depth that it started from, unless it fails.
structure Respects (g : Regime κ) (depth : Nat) (r : Run Fault κ α) : Prop where
  inv   : g.inv r.state
  seen  : ∀ k ∈ r.trace, g.seen k
  depth : ∀ x, r.result = .ok x → r.state.depth = depth

-- Only what comes last decides where a run ends.
theorem Respects.after {g : Regime κ} {depth : Nat} {trace : List κ} {r : Run Fault κ α}
    (hseen : ∀ k ∈ trace, g.seen k) (h : g.Respects depth r) :
    g.Respects depth ⟨r.result, r.state, trace ++ r.trace⟩ where
  inv       := h.inv
  depth     := h.depth
  seen k hk := (List.mem_append.mp hk).elim (hseen k) (h.seen k)

-- A run that fails does not come back to any depth.
theorem Respects.error {g : Regime κ} {depth : Nat}
    (h : g.Respects (α := α) depth ⟨.error e, s, trace⟩) (depth' : Nat) :
    g.Respects (α := β) depth' ⟨.error e, s, trace⟩ :=
  ⟨h.inv, h.seen, fun _ h => nomatch h⟩

-- The same run twice, under a regime and from a given call depth.
def coupling (g : Regime κ) (depth : Nat) : Coupling κ κ where
  watch₁         := g.watch
  watch₂         := g.watch
  pre s₁ s₂      := s₁ = s₂ ∧ s₁.depth = depth ∧ g.inv s₁
  post _ _ r₁ r₂ := r₁ = r₂ ∧ g.Respects depth r₁

variable {g : Regime κ} {depth : Nat}

theorem coupling_self {a : Op κ α}
    (h : ∀ s, g.inv s → s.depth = depth → g.Respects depth (a g.watch s)) :
    (g.coupling depth).Holds a a
  | s, _, ⟨rfl, hd, hi⟩ => ⟨rfl, h s hi hd⟩

theorem coupling_bind {a₁ a₂ : Op κ α} {f₁ f₂ : α → Op κ β} (ha : (g.coupling depth).Holds a₁ a₂)
    (hf : ∀ x, (g.coupling depth).Holds (f₁ x) (f₂ x)) :
    (g.coupling depth).Holds (a₁ >>= f₁) (a₂ >>= f₂) := by
  rintro s _ ⟨rfl, hd, hi⟩
  have ⟨heq, hr⟩ := ha s s ⟨rfl, hd, hi⟩
  simp only [coupling] at heq hr ⊢
  cases h₂ : a₂ g.watch s
  case mk result t trace =>
    rw [h₂] at heq
    rw [heq] at hr
    cases result
    case error =>
      rw [Act.bind_error heq, Act.bind_error h₂]
      exact ⟨rfl, hr.error depth⟩
    case ok x =>
      have ⟨hf, hr'⟩ := hf x t t ⟨rfl, hr.depth x rfl, hr.inv⟩
      simp only [coupling] at hf hr'
      rw [Act.bind_ok heq, Act.bind_ok h₂, hf]
      exact ⟨rfl, .after hr.seen (hf ▸ hr')⟩

theorem coupling_require (p : Limits → State → Bool) (e : Limits → State → Fault) :
    (g.coupling depth).Holds (Act.require p e) (Act.require p e) :=
  coupling_self fun _ hi hd => ⟨hi, by simp [Act.require], fun _ _ => hd⟩

namespace Kept

variable (hg : g.Kept)
include hg

-- A change that keeps the invariant and the depth may be followed by any notes.
theorem change {f : State → State} {notes : State → List Note} {s : State} (hi : g.inv (f s))
    (hd : (f s).depth = depth) : g.Respects depth (Act.change (ε := Fault) f notes g.watch s) where
  inv       := hi
  depth _ _ := hd
  seen k hk := by
    have ⟨note, _, hk⟩ := List.mem_flatMap.mp hk
    exact hg.keep hi note k hk

theorem coupling_change {f : State → State} (notes : State → List Note)
    (h : ∀ s, g.inv s → g.inv (f s)) (hd : ∀ s, (f s).depth = s.depth) :
    (g.coupling depth).Holds (Act.change f notes) (Act.change f notes) :=
  coupling_self fun s hi hs => hg.change (h s hi) ((hd s).trans hs)

theorem coupling_say (d : Diagnostic) :
    (g.coupling depth).Holds (Act.say d) (Act.say d) :=
  hg.coupling_change (f := id) (fun _ => [.said d]) (fun _ hi => hi) fun _ => rfl

theorem coupling_pop {f₁ f₂ : Value → Op κ α}
    (h : ∀ v, g.operand v → (g.coupling depth).Holds (f₁ v) (f₂ v)) :
    (g.coupling depth).Holds (Op.pop >>= f₁) (Op.pop >>= f₂) := by
  rintro s _ ⟨rfl, hd, hi⟩
  have hr := Op.pop_run (w := g.watch) (s := s)
  cases hb : s.stack.back? <;> simp only [hb] at hr
  case none =>
    simp only [coupling]
    rw [Act.bind_error hr, Act.bind_error hr]
    exact ⟨rfl, hi, by simp, fun _ h => nomatch h⟩
  case some v =>
    have ⟨hv, hi'⟩ := hg.pop hi hb
    have ⟨heq, hr'⟩ := h v hv { s with stack := s.stack.pop } _ ⟨rfl, hd, hi'⟩
    simp only [coupling] at heq hr' ⊢
    rw [Act.bind_ok hr, Act.bind_ok hr, heq]
    exact ⟨rfl, .after (hg.keep hi' _) (heq ▸ hr')⟩

theorem coupling_startEvaluation (v : Value) :
    (g.coupling depth).Holds (Op.startEvaluation v) (Op.startEvaluation v) :=
  coupling_bind (hg.coupling_change _ (fun _ => hg.count) fun _ => rfl) fun _ =>
    coupling_bind (coupling_require _ _) fun _ => hg.coupling_say _

theorem coupling_bindName {name : String} {v : Value} (hn : g.operand (.symbol name))
    (hv : g.operand v) :
    (g.coupling depth).Holds (Op.bindName name v) (Op.bindName name v) := by
  refine coupling_self fun s hi hd => ?_
  unfold Op.bindName
  rw [Act.view_bind]
  split
  case isTrue  => exact hg.change hi hd
  case isFalse => exact hg.change (hg.bindName hi hn hv) hd

theorem guarded : (g.coupling depth).Guarded g.operand where
  pure _            := coupling_self fun _ hi hd => ⟨hi, by simp, fun _ _ => hd⟩
  bind              := coupling_bind
  fail _            := coupling_self fun _ hi hd => ⟨hi, by simp, fun _ h => nomatch h⟩
  say _             := hg.coupling_say _
  startEvaluation   := hg.coupling_startEvaluation
  put               := hg.coupling_pop fun _ _ =>
    hg.coupling_change (f := id) _ (fun _ hi => hi) fun _ => rfl
  isEmpty h         := by rw [h.1]
  lookup? _ h       := by rw [h.1]
  push hv           := coupling_bind (coupling_require _ _) fun _ =>
    hg.coupling_change _ (fun _ hi => hg.push hi hv) fun _ => rfl
  pop               := hg.coupling_pop
  capture hv _ _ hb := by
    rintro ⟨rfl, hd, hi⟩
    exact ⟨rfl, hg.change (hg.capture hi hb hv) hd⟩
  bindName          := hg.coupling_bindName
  bound h           := hg.bound h.2.2
  number            := hg.number
  body              := hg.body

theorem coupling_inFrame {body₁ body₂ : Op κ Unit} (h : (g.coupling depth).Holds body₁ body₂) :
    (frame : Frame) →
    (g.coupling depth).Holds (Op.inFrame frame body₁) (Op.inFrame frame body₂)
  | .inPlace => h
  | .scoped  =>
    coupling_bind (hg.coupling_change _ (fun _ => hg.pushScope) fun _ => rfl) fun _ =>
      coupling_bind h fun _ => hg.coupling_change _ (fun _ => hg.popScope) fun _ => rfl

-- The body of a block runs one call deeper, if the limit admits it at all.
theorem coupling_within (frame : Frame) {body₁ body₂ : Op κ Unit}
    (h : depth < g.watch.limits.callDepth → (g.coupling (depth + 1)).Holds body₁ body₂) :
    (g.coupling depth).Holds (Op.within frame body₁) (Op.within frame body₂) := by
  rintro s _ ⟨rfl, rfl, hi⟩
  by_cases hd : s.depth < g.watch.limits.callDepth
  case neg =>
    simp only [coupling]
    rw [Op.within_error body₁ hd, Op.within_error body₂ hd]
    exact ⟨rfl, hi, by simp, fun _ h => nomatch h⟩
  case pos =>
    have he := Op.enter_run (w := g.watch) (s := s)
    rw [if_pos hd] at he
    let t := { s with depth := s.depth + 1 }
    have hi' : g.inv t := hg.depth hi _
    have ⟨heq, hr⟩ := hg.coupling_inFrame (h hd) frame t t ⟨rfl, rfl, hi'⟩
    simp only [coupling, Op.within] at heq hr ⊢
    rw [Act.bind_ok he, Act.bind_ok he, Act.bind_congr_left heq]
    refine ⟨rfl, .after (hg.keep hi' _) ?_⟩
    cases hbody : Op.inFrame frame body₂ g.watch t
    case mk result u trace =>
      rw [heq, hbody] at hr
      cases result
      case error =>
        rw [Act.bind_error hbody]
        exact hr.error s.depth
      case ok x =>
        have hu : u.depth = s.depth + 1 := hr.depth x rfl
        rw [Act.bind_ok hbody]
        exact .after hr.seen (hg.change (hg.depth hr.inv _) (by simp [hu]))

-- More calls than the limit leaves make no difference.
theorem coupling_callWithin {calls₁ calls₂ : Nat} (h₁ : g.watch.limits.callDepth ≤ depth + calls₁)
    (h₂ : g.watch.limits.callDepth ≤ depth + calls₂) (frame : Frame) {body : List Value}
    (hb : ∀ v ∈ body, v.Evaluable g.operand) :
    (g.coupling depth).Holds (Op.callWithin calls₁ frame body)
      (Op.callWithin calls₂ frame body) := by
  induction calls₁ generalizing calls₂ depth frame body <;> cases calls₂
  case succ.succ calls₁ hi calls₂ =>
    refine hg.coupling_within frame fun _ => hg.guarded.forM body fun v hv => ?_
    refine hg.guarded.evalCalling (fun frame body hb => ?_) (hb v hv)
    exact hi (by omega) (by omega) frame hb
  all_goals exact hg.coupling_within frame fun hd => absurd hd (by omega)

theorem coupling_evalCalling {calls₁ calls₂ : Nat} (h₁ : g.watch.limits.callDepth ≤ depth + calls₁)
    (h₂ : g.watch.limits.callDepth ≤ depth + calls₂) {v : Value} (hv : v.Evaluable g.operand) :
    (g.coupling depth).Holds (Op.evalCalling (Op.callWithin calls₁) v)
      (Op.evalCalling (Op.callWithin calls₂) v) :=
  hg.guarded.evalCalling (fun frame _ hb => hg.coupling_callWithin h₁ h₂ frame hb) hv

theorem eval {s : State} (hs : g.inv s) {v : Value} (hv : v.Evaluable g.operand) :
    g.Respects s.depth (Op.eval v g.watch s) := by
  have hd : g.watch.limits.callDepth ≤ s.depth + (g.watch.limits.callDepth - s.depth) := by omega
  exact (hg.coupling_evalCalling hd hd hv s s ⟨rfl, rfl, hs⟩).2

end Kept

-- The regime that asks for nothing.
def lax (w : Watch κ) : Regime κ where
  watch     := w
  operand _ := True
  inv _     := True
  seen _    := True

theorem lax_kept (w : Watch κ) : (lax w).Kept where
  keep _ _ _ _   := trivial
  count _        := trivial
  depth _ _      := trivial
  push _ _       := trivial
  pop _ _        := ⟨trivial, trivial⟩
  capture _ _ _  := trivial
  bindName _ _ _ := trivial
  pushScope _    := trivial
  popScope _     := trivial
  bound _ _      := .inr trivial
  number _       := trivial
  body _ _ _     := .inr trivial

end Regime

namespace Op

variable {κ : Type} {w : Watch κ} {s : State}

theorem eval_eq_evalCalling {calls : Nat} (h : w.limits.callDepth ≤ s.depth + calls) (v : Value) :
    eval v w s = evalCalling (callWithin calls) v w s := by
  have hd : w.limits.callDepth ≤ s.depth + (w.limits.callDepth - s.depth) := by omega
  exact ((Regime.lax_kept w).coupling_evalCalling hd h (.inr trivial) s s ⟨rfl, rfl, trivial⟩).1

-- How an operand is evaluated again is left open: it has no name of its own.
theorem eval_eq_evalWith (v : Value) :
    ∃ again, eval v w s =
      evalWith (callWithin (w.limits.callDepth - s.depth)) again v w s := by
  simp only [eval, evalCalling, Act.view_bind]
  cases s.stack.size
  case zero => exact ⟨_, rfl⟩
  case succ => exact ⟨_, rfl⟩

theorem eval_bound_run (h : s.blocks = #[]) (hl : s.lookup? name = some v) :
    ∃ again, eval (.operator name) w s =
      (do startEvaluation (.operator name)
          match v with
          | .block body => callWithin (w.limits.callDepth - s.depth) .scoped body
          | .native op  => apply (callWithin (w.limits.callDepth - s.depth)) again op
          | v           => push v) w s := by
  have ⟨again, he⟩ := eval_eq_evalWith (w := w) (s := s) (.operator name)
  refine ⟨again, he.trans ?_⟩
  apply Act.bind_congr_right
  intro _ t _ hs
  rw [startEvaluation_run] at hs
  split at hs <;> cases hs
  have hl : State.lookup? { s with count := s.count + 1 } name = some v := hl
  cases v <;> simp [Act.view_bind, h, hl]

end Op

namespace Coupling

variable {κ₁ κ₂ : Type} {c : Coupling κ₁ κ₂}

-- The two may be left with different numbers of calls, so both are given the greater number.
theorem Closed.eval (hc : c.Closed) (v : Value) : c.Holds (Op.eval v) (Op.eval v) := by
  intro s₁ s₂ h
  let calls := max c.watch₁.limits.callDepth c.watch₂.limits.callDepth
  have h₁ : c.watch₁.limits.callDepth ≤ s₁.depth + calls := by omega
  have h₂ : c.watch₂.limits.callDepth ≤ s₂.depth + calls := by omega
  rw [Op.eval_eq_evalCalling h₁, Op.eval_eq_evalCalling h₂]
  exact hc.evalCalling (hc.callWithin calls) v s₁ s₂ h

theorem Stepwise.step (hc : c.Stepwise) (word : String) :
    c.Holds (Op.step word) (Op.step word) := by
  refine hc.bind (hc.say rfl) fun _ => ?_
  cases Lexeme.ofWord word
  case blank   => exact hc.blank
  case opening => exact hc.openBlock
  case closing => exact hc.bind hc.closeBlock fun _ => hc.eval _
  case value v => exact hc.eval v

end Coupling
end StackScript
