import StackScript.Eval

namespace StackScript

namespace Act

variable {ε κ : Type} {w : Watch κ} {s t : State} {trace : List κ}

theorem bind_ok {a : Act ε κ α} {f : α → Act ε κ β} (h : a w s = ⟨.ok x, t, trace⟩) :
    (a >>= f) w s = ⟨(f x w t).result, (f x w t).state, trace ++ (f x w t).trace⟩ := by
  simp [Bind.bind, Act.bind, h]

theorem bind_error {a : Act ε κ α} {f : α → Act ε κ β} (h : a w s = ⟨.error e, t, trace⟩) :
    (a >>= f) w s = ⟨.error e, t, trace⟩ := by
  simp [Bind.bind, Act.bind, h]

@[simp]
theorem pure_run (x : α) : (pure x : Act ε κ α) w s = ⟨.ok x, s, []⟩ :=
  rfl

@[simp]
theorem fail_run (e : ε) : (fail e : Act ε κ α) w s = ⟨.error e, s, []⟩ :=
  rfl

@[simp]
theorem view_bind (g : State → α) (f : α → Act ε κ β) : (view g >>= f) w s = f (g s) w s :=
  rfl

-- Two computations that go on from `a` agree if they agree wherever `a` can lead.
theorem bind_congr_right {a : Act ε κ α} {f g : α → Act ε κ β}
    (h : ∀ x t trace, a w s = ⟨.ok x, t, trace⟩ → f x w t = g x w t) :
    (a >>= f) w s = (a >>= g) w s := by
  cases ha : a w s
  case mk result t trace =>
    cases result
    case error => rw [bind_error ha, bind_error ha]
    case ok x  => rw [bind_ok ha, bind_ok ha, h x t trace ha]

theorem bind_congr_left {a₁ a₂ : Act ε κ α} {f : α → Act ε κ β} (h : a₁ w s = a₂ w s) :
    (a₁ >>= f) w s = (a₂ >>= f) w s := by
  cases ha : a₂ w s
  case mk result t trace =>
    cases result
    case error => rw [bind_error ha, bind_error (h.trans ha)]
    case ok    => rw [bind_ok ha, bind_ok (h.trans ha)]

end Act

namespace Op

variable {κ : Type} {w : Watch κ} {s : State}

theorem startEvaluation_run (v : Value) :
    startEvaluation v w s =
      let t := { s with count := s.count + 1 }
      if s.count < w.limits.evaluations then ⟨.ok (), t, w.keep (.said (.evaluating v)) t⟩
      else ⟨.error (.evaluationsExceeded s.count), t, []⟩ := by
  simp only [startEvaluation, Bind.bind, Act.bind, Act.change, Act.require, Act.say, Act.note,
    decide_eq_true_eq, Nat.succ_le_iff]
  by_cases h : s.count < w.limits.evaluations <;> simp [h]

theorem push_run (v : Value) :
    push v w s =
      let t := { s with stack := s.stack.push v }
      if s.stack.size < w.limits.stackSize then ⟨.ok (), t, w.keep .changed t⟩
      else ⟨.error (.stackOverflow w.limits.stackSize), s, []⟩ := by
  by_cases h : s.stack.size < w.limits.stackSize <;>
    simp [push, Bind.bind, Act.bind, Act.change, Act.require, h]

theorem pop_run :
    pop w s =
      match s.stack.back? with
      | none   => ⟨.error .stackUnderflow, s, []⟩
      | some v =>
        let t := { s with stack := s.stack.pop }
        ⟨.ok v, t, w.keep (.popped v) t⟩ := by
  unfold pop
  rw [Act.view_bind]
  cases s.stack.back?
  case none => rfl
  case some => simp [Bind.bind, Act.bind, Act.change, Pure.pure, Act.pure]

theorem put_run :
    (pop >>= output) w s =
      match s.stack.back? with
      | none   => ⟨.error .stackUnderflow, s, []⟩
      | some v =>
        let t := { s with stack := s.stack.pop }
        ⟨.ok (), t, [.popped v, .said (.putting v), .output v].flatMap (w.keep · t)⟩ := by
  have hp := pop_run (w := w) (s := s)
  cases hs : s.stack.back? <;> simp only [hs] at hp
  case none => exact Act.bind_error hp
  case some => simp [Act.bind_ok hp, output, Act.change]

theorem closeBlock_run :
    closeBlock w s =
      match s.blocks.back? with
      | none      => ⟨.error .blockUnderflow, s, []⟩
      | some body =>
        let t := { s with blocks := s.blocks.pop }
        ⟨.ok body.toList, t, w.keep .changed t⟩ := by
  unfold closeBlock
  rw [Act.view_bind]
  cases s.blocks.back?
  case none => rfl
  case some => simp [Bind.bind, Act.bind, Act.change, Pure.pure, Act.pure]

theorem bindName_run (name : String) (v : Value) :
    bindName name v w s =
      if s.isBound name then
        ⟨.ok (), s, w.keep (.said (.alreadyDefined name (s.scopes.size - 1))) s ++ w.keep .changed s⟩
      else
        let t := { s with scopes := Stack.amendLast s.scopes (·.insert name v) }
        ⟨.ok (), t, w.keep (.said (.defined name v (t.scopes.size - 1))) t ++ w.keep .changed t⟩ := by
  unfold bindName
  rw [Act.view_bind]
  cases s.isBound name <;> simp [Act.change]

theorem enter_run :
    enter w s =
      let t := { s with depth := s.depth + 1 }
      if s.depth < w.limits.callDepth then ⟨.ok (), t, w.keep .entered t⟩
      else ⟨.error (.callDepthExceeded w.limits.callDepth), s, []⟩ := by
  by_cases h : s.depth < w.limits.callDepth <;>
    simp [enter, Bind.bind, Act.bind, Act.change, Act.require, h]

-- What comes before the body of a block that is run, and what comes after it.
def openFrame : Frame → Op κ Unit
  | .inPlace => enter
  | .scoped  => do enter; pushScope

def closeFrame : Frame → Op κ Unit
  | .inPlace => leave
  | .scoped  => do popScope; leave

theorem within_eq (body : Op κ Unit) :
    (frame : Frame) → within frame body = do openFrame frame; body; closeFrame frame
  | .inPlace => rfl
  | .scoped  => by simp [within, inFrame, openFrame, closeFrame]

-- The state that the body of a block starts in.
def insideFrame (s : State) : Frame → State
  | .inPlace => { s with depth := s.depth + 1 }
  | .scoped  => { s with depth := s.depth + 1, scopes := s.scopes.push .empty }

-- The state after a block whose body has led to `s`.
def outsideFrame (s : State) : Frame → State
  | .inPlace => { s with depth := s.depth - 1 }
  | .scoped  => { s with depth := s.depth - 1, scopes := s.scopes.pop }

theorem openFrame_error (hd : ¬s.depth < w.limits.callDepth) (frame : Frame) :
    openFrame frame w s = ⟨.error (.callDepthExceeded w.limits.callDepth), s, []⟩ := by
  have he : enter w s = ⟨.error (.callDepthExceeded w.limits.callDepth), s, []⟩ := by
    rw [enter_run]
    exact if_neg hd
  match frame with
  | .inPlace => exact he
  | .scoped  => exact Act.bind_error he

theorem openFrame_ok (hd : s.depth < w.limits.callDepth) (frame : Frame) :
    ∃ trace, openFrame frame w s = ⟨.ok (), insideFrame s frame, trace⟩ := by
  have he := enter_run (w := w) (s := s)
  rw [if_pos hd] at he
  match frame with
  | .inPlace => exact ⟨_, he⟩
  | .scoped  => exact ⟨_, Act.bind_ok he⟩

theorem closeFrame_ok (w : Watch κ) (s : State) :
    (frame : Frame) → ∃ trace, closeFrame frame w s = ⟨.ok (), outsideFrame s frame, trace⟩
  | .inPlace | .scoped => ⟨_, rfl⟩

theorem within_error (body : Op κ Unit) (hd : ¬s.depth < w.limits.callDepth) (frame : Frame) :
    within frame body w s = ⟨.error (.callDepthExceeded w.limits.callDepth), s, []⟩ := by
  rw [within_eq, Act.bind_error (openFrame_error hd frame)]

-- Where the limit admits it, a block ends as its body does.
theorem within_run (body : Op κ Unit) (hd : s.depth < w.limits.callDepth) (frame : Frame) :
    let r := body w (insideFrame s frame)
    ∃ trace, within frame body w s =
      ⟨r.result, match r.result with | .ok _ => outsideFrame r.state frame | .error _ => r.state,
        trace⟩ := by
  have ⟨_, hopen⟩ := openFrame_ok hd frame
  rw [within_eq, Act.bind_ok hopen]
  cases hr : body w (insideFrame s frame)
  case mk result t trace =>
    cases result
    case error => exact ⟨_, by rw [Act.bind_error hr]⟩
    case ok =>
      have ⟨_, hclose⟩ := closeFrame_ok w t frame
      exact ⟨_, by rw [Act.bind_ok hr, hclose]⟩

end Op
end StackScript
