import StackScript.Event
import StackScript.Program
import StackScript.Proofs.Regime

namespace StackScript

-- What a watch keeps of a full record.
def Watch.select (w : Watch κ) (moments : List Moment) : List κ :=
  moments.flatMap fun m => w.keep m.note m.state

-- A fully recorded run, as a watch tells of it.
def Run.seenBy (w : Watch κ) (r : Run ε Moment α) : Run ε κ α :=
  ⟨r.result, r.state, w.select r.trace⟩

namespace Watch

variable {κ : Type}

theorem select_append (w : Watch κ) (ms₁ ms₂ : List Moment) :
    w.select (ms₁ ++ ms₂) = w.select ms₁ ++ w.select ms₂ :=
  List.flatMap_append

theorem select_events (limits : Limits) (ms : List Moment) :
    (events limits).select ms = ms.filterMap Moment.event? := by
  induction ms
  case nil => rfl
  case cons m ms hi =>
    have h : (events limits).select (m :: ms) = m.event?.toList ++ (events limits).select ms := rfl
    rw [h, hi, List.filterMap_cons]
    cases m.event? <;> rfl

end Watch

namespace Act

variable {ε κ : Type} {w : Watch κ}

-- Under the watch `w`, `a` tells of what the full record of `a'` holds.
def Recorded (w : Watch κ) (a : Act ε κ α) (a' : Act ε Moment α) : Prop :=
  ∀ s, a w s = (a' (.moments w.limits) s).seenBy w

namespace Recorded

theorem pure (x : α) : Recorded (ε := ε) w (pure x) (pure x) :=
  fun _ => rfl

theorem fail (e : ε) : Recorded (α := α) w (fail e) (fail e) :=
  fun _ => rfl

theorem view (f : State → α) : Recorded (ε := ε) w (view f) (view f) :=
  fun _ => rfl

theorem require (p : Limits → State → Bool) (e : Limits → State → ε) :
    Recorded w (require p e) (require p e) :=
  fun _ => rfl

theorem change (f : State → State) (notes : State → List Note) :
    Recorded (ε := ε) w (change f notes) (change f notes) := by
  intro s
  simp only [Act.change, Run.seenBy, Watch.select, Watch.moments, List.flatMap_assoc]
  simp

theorem say (d : Diagnostic) : Recorded (ε := ε) w (say d) (say d) :=
  change id fun _ => [.said d]

theorem bind {a : Act ε κ α} {a' : Act ε Moment α} {f : α → Act ε κ β} {f' : α → Act ε Moment β}
    (ha : Recorded w a a') (hf : ∀ x, Recorded w (f x) (f' x)) :
    Recorded w (a >>= f) (a' >>= f') := by
  intro s
  have ha := ha s
  cases hr : a' (.moments w.limits) s
  case mk result t trace =>
    rw [hr] at ha
    cases result
    case error =>
      rw [bind_error hr, bind_error ha]
      rfl
    case ok x =>
      rw [bind_ok hr, bind_ok ha, hf x t]
      simp [Run.seenBy, Watch.select_append]

theorem forM {f : β → Act ε κ Unit} {f' : β → Act ε Moment Unit}
    (h : ∀ x, Recorded w (f x) (f' x)) : (xs : List β) → Recorded w (xs.forM f) (xs.forM f')
  | []      => pure ()
  | x :: xs => bind (h x) fun _ => forM h xs

theorem mapError {a : Act ε κ α} {a' : Act ε Moment α} (h : Recorded w a a') (f : State → ε → ε') :
    Recorded w (a.mapError f) (a'.mapError f) := by
  intro s
  have h := h s
  cases hr : a' (.moments w.limits) s
  case mk result t trace =>
    rw [hr] at h
    cases result <;> simp [Act.mapError, h, hr, Run.seenBy]

end Recorded
end Act

namespace Coupling

variable {κ : Type} {w : Watch κ}

-- A computation under a watch, in lockstep with the full record of it.
def recorded (w : Watch κ) : Coupling κ Moment where
  watch₁         := w
  watch₂         := .moments w.limits
  pre s₁ s₂      := s₁ = s₂
  post _ _ r₁ r₂ := r₁ = r₂.seenBy w

open Act

theorem recorded_of {a : Op κ α} {a' : Op Moment α} (h : Recorded w a a') : (recorded w).Holds a a'
  | s, _, rfl => h s

theorem recorded_pop : Recorded w Op.pop Op.pop := by
  refine .bind (.view _) fun top => ?_
  cases top
  case none => exact .fail _
  case some => exact .bind (.change _ _) fun _ => .pure _

theorem recorded_closeBlock : Recorded w Op.closeBlock Op.closeBlock := by
  refine .bind (.view _) fun newest => ?_
  cases newest
  case none => exact .fail _
  case some => exact .bind (.change _ _) fun _ => .pure _

theorem recorded_bindName (name : String) (v : Value) :
    Recorded w (Op.bindName name v) (Op.bindName name v) := by
  refine .bind (.view _) fun bound => ?_
  split <;> exact .change _ _

theorem recorded_startEvaluation (v : Value) :
    Recorded w (Op.startEvaluation v) (Op.startEvaluation v) :=
  .bind (.change _ _) fun _ => .bind (.require _ _) fun _ => .say _

theorem recorded_stable : (recorded w).Stable where
  pure x            := recorded_of (.pure x)
  bind ha hf        := recorded_of (.bind (fun s => ha s s rfl) fun x s => hf x s s rfl)
  fail _            := recorded_of (.fail _)
  say _             := recorded_of (.say _)
  startEvaluation v := recorded_of (recorded_startEvaluation v)
  push _            := recorded_of (.bind (.require _ _) fun _ => .change _ _)
  pop               := recorded_of recorded_pop
  capture _ _ _ _ h := recorded_of (.change _ _) _ _ h
  bindName name v   := recorded_of (recorded_bindName name v)
  put               := recorded_of (.bind recorded_pop fun _ => .change _ _)
  isEmpty h         := by cases h; rfl
  lookup? _ h       := by cases h; rfl

theorem recorded_stepwise : (recorded w).Stepwise where
  toClosed   :=
    recorded_stable.closed (recorded_of (.bind (.require _ _) fun _ => .change _ _))
      (recorded_of (.change _ _)) (recorded_of (.change _ _)) (recorded_of (.change _ _))
  blank      := recorded_of (.change id fun _ => [.changed])
  openBlock  := recorded_of (.change _ _)
  closeBlock := recorded_of recorded_closeBlock

end Coupling

open Act

variable {κ : Type} (w : Watch κ)

theorem Op.eval_recorded (v : Value) : Recorded w (eval v) (eval v) :=
  fun s => Coupling.recorded_stepwise.eval v s s rfl

theorem Op.step_recorded (word : String) : Recorded w (step word) (step word) :=
  fun s => Coupling.recorded_stepwise.step word s s rfl

theorem Program.stepToken_recorded (token : Token) : Recorded w (stepToken token) (stepToken token) :=
  (Op.step_recorded w token.text).mapError _

theorem Program.steps_recorded (tokens : List Token) : Recorded w (steps tokens) (steps tokens) :=
  .forM (stepToken_recorded w) tokens

theorem Program.run_recorded (source : String) : Recorded w (run source) (run source) := by
  refine .bind (steps_recorded w _) fun _ => .bind (.view _) fun blocks => ?_
  split
  case isTrue  => exact .say _
  case isFalse => exact .pure ()

end StackScript
