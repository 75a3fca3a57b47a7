import StackScript.Proofs.Unrolling
import StackScript.Proofs.WellFormed

namespace StackScript

structure Snapshot.OperatorFree (s : Snapshot) : Prop where
  stack  : ∀ v ∈ s.stack, v.isOperator = false
  scopes : ∀ scope ∈ s.scopes, ∀ name v, scope.get? name = some v → v.isOperator = false

theorem State.Obeys.operatorFree {s : State} (h : s.Obeys .inert) : s.OperatorFree where
  stack := h.stack
  scopes scope hm name v hg := by
    have ⟨index, hi⟩ := Array.getElem?_of_mem hm
    cases h.scopes index scope hi name v hg
    case inl h =>
      obtain ⟨_, _, rfl, _⟩ := h
      rfl
    case inr h => exact h.2

theorem Moment.snapshot_of_event? {m : Moment} (he : m.event? = some event)
    (hs : event.snapshot? = some s) : s = m.state.toSnapshot := by
  unfold event? at he
  cases hn : m.note <;> rw [hn] at he <;> cases he
  case changed | popped =>
    cases hs
    rfl
  case output => cases hs

namespace Op

variable {κ : Type} {w : Watch κ} {s : State}

-- Counts one evaluation and pushes the value: what evaluating an operand again comes to.
def putBack (v : Value) : Op κ Unit := do
  startEvaluation v
  push v

-- Calls of blocks, given what is done with operands that are to be evaluated again.
def callAgain (again : Value → Op κ Unit) : Nat → Frame → List Value → Op κ Unit
  | 0,         frame, _    => within frame (return)
  | calls + 1, frame, body => within frame (body.forM (evalWith (callAgain again calls) again))

-- Evaluation, given what is done with operands that are to be evaluated again.
def evalAgain (again : Value → Op κ Unit) (v : Value) : Op κ Unit :=
  fun w s => evalWith (callAgain again (w.limits.callDepth - s.depth)) again v w s

theorem evalWith_eq_putBack {call : Frame → List Value → Op κ Unit} {again : Value → Op κ Unit}
    (hv : v.isOperator = false) (hb : s.blocks = #[]) :
    evalWith call again v w s = putBack v w s := by
  apply Act.bind_congr_right
  intro _ t _ hs
  have ht : t.blocks = #[] := by
    rw [startEvaluation_run] at hs
    split at hs <;> cases hs
    exact hb
  rw [Act.view_bind, ht]
  cases v
  case operator => cases hv
  all_goals rfl

theorem eval_eq_putBack (hv : v.isOperator = false) (hb : s.blocks = #[]) :
    eval v w s = putBack v w s := by
  have ⟨_, he⟩ := eval_eq_evalWith (w := w) (s := s) v
  rw [he, evalWith_eq_putBack hv hb]

-- An operand was on the stack before, so there is room for it.
theorem putBack_run (v : Value) (h : s.stack.size < w.limits.stackSize) :
    let t := { s with count := s.count + 1 }
    let u := { t with stack := s.stack.push v }
    putBack v w s =
      if s.count < w.limits.evaluations then
        ⟨.ok (), u, w.keep (.said (.evaluating v)) t ++ w.keep .changed u⟩
      else
        ⟨.error (.evaluationsExceeded s.count), t, []⟩ := by
  have hs := startEvaluation_run (w := w) (s := s) v
  unfold putBack
  split <;> simp only [*, if_true, if_false] at hs
  case isTrue  => simp [Act.bind_ok hs, push_run, h]
  case isFalse => rw [Act.bind_error hs]

section Coupled

variable {depth : Nat}

theorem putBack_coupled (call : Frame → List Value → Op κ Unit) (height : Nat)
    (hv : v.isOperator = false) :
    ((Regime.inert w).coupling depth).Holds (putBack v) (evalBelow call height v) := by
  have hg : (Regime.inert w).Kept := Regime.inert_kept w
  have hp : ((Regime.inert w).coupling depth).Holds (putBack v) (putBack v) :=
    Regime.coupling_bind (hg.coupling_startEvaluation v) fun _ => hg.guarded.push hv
  rintro s _ ⟨rfl, hd, hi⟩
  have he : evalBelow call height v w s = putBack v w s := by
    cases height <;> exact evalWith_eq_putBack hv hi.1
  have hr := hp s s ⟨rfl, hd, hi⟩
  exact ⟨he.symm, hr.2⟩

-- The stack is given one more operand than it has, so that the evaluation below it is one again.
theorem evalWith_coupled {call₁ call₂ : Frame → List Value → Op κ Unit}
    (hcall : ∀ frame body,
      ((Regime.inert w).coupling depth).Holds (call₁ frame body) (call₂ frame body))
    (v : Value) :
    ((Regime.inert w).coupling depth).Holds (evalWith call₁ putBack v) (evalCalling call₂ v) := by
  intro s₁ s₂ h
  simp only [evalCalling, Act.view_bind]
  rw [evalBelow_eq (Nat.le_refl _) (Nat.le_succ s₂.stack.size), evalBelow_succ]
  have hv : v.Evaluable Flow.inert.operand := Flow.inert.evaluable v trivial
  exact (Regime.inert_kept w).guarded.evalWith (fun frame body _ => hcall frame body)
    (fun _ => putBack_coupled _ _) hv s₁ s₂ h

theorem callAgain_coupled (calls : Nat) (frame : Frame) (body : List Value) :
    ((Regime.inert w).coupling depth).Holds (callAgain putBack calls frame body)
      (callWithin calls frame body) := by
  have hg : (Regime.inert w).Kept := Regime.inert_kept w
  induction calls generalizing depth frame body
  case zero => exact hg.coupling_within frame fun _ => hg.guarded.pure ()
  case succ calls hi =>
    refine hg.coupling_within frame fun _ => hg.guarded.forM body fun v _ => ?_
    exact evalWith_coupled hi v

end Coupled

theorem evalAgain_putBack (hs : s.Obeys .inert) (v : Value) :
    evalAgain putBack v w s = eval v w s := by
  cases hb : s.blocks.isEmpty
  case false => exact (evalWith_capture v hb).trans (eval_capture v hb).symm
  case true =>
    have hi : (Regime.inert w).inv s := ⟨by simpa using hb, hs⟩
    exact (evalWith_coupled (callAgain_coupled _) v s s ⟨rfl, rfl, hi⟩).1

end Op

namespace Machine

-- The run lemma for the log: no event shows an operator as data.
theorem after_log_operatorFree (m : Machine) (h : m.state.Obeys .inert)
    (hlog : ∀ event ∈ m.log, ∀ s, event.snapshot? = some s → s.OperatorFree) (calls : List Call) :
    ∀ event ∈ (m.after calls).log, ∀ s, event.snapshot? = some s → s.OperatorFree := by
  induction calls generalizing m
  case nil => exact hlog
  case cons call calls hi =>
    have ⟨_, hs, hl⟩ := m.call_recorded call
    have hg := call.governed m.limits h call.inert
    refine hi (m.call call).2 (hs ▸ hg.state) fun event he s hes => ?_
    rw [hl] at he
    cases Array.mem_append.mp he
    case inl he => exact hlog event he s hes
    case inr he =>
      have ⟨moment, hm, hme⟩ := List.mem_filterMap.mp (List.mem_toArray.mp he)
      rw [Moment.snapshot_of_event? hme hes]
      exact (hg.trace moment hm).operatorFree

theorem operators_never_data (limits : Limits) (calls : List Call) (call : Call) :
    let m := ({ limits } : Machine).after calls
    let r := call.op (.moments limits) m.state
    (m.state.OperatorFree ∧ (∀ moment ∈ r.trace, moment.state.OperatorFree) ∧
      ∀ event ∈ m.log, ∀ s, event.snapshot? = some s → s.OperatorFree) ∧
    (∀ moment ∈ r.trace, ∀ op, moment.note = .said (.applying op) →
      moment.state.blocks = #[] ∧
      ∀ older v newer, moment.state.stack = older.push v ++ newer →
        let s := { moment.state with stack := older }
        let t := { s with count := s.count + 1 }
        let u := { t with stack := older.push v }
        Op.eval v (.events limits) s = Op.putBack v (.events limits) s ∧
        Op.putBack v (.events limits) s =
          if s.count < limits.evaluations then ⟨.ok (), u, [.state u.toSnapshot]⟩
          else ⟨.error (.evaluationsExceeded s.count), t, []⟩) ∧
    (∀ (κ : Type) (keep : Note → State → List κ),
      call.opWith (Op.evalAgain Op.putBack) ⟨limits, keep⟩ m.state =
        call.op ⟨limits, keep⟩ m.state) := by
  intro m r
  have hs : m.state.Obeys .inert := after_inert limits calls
  have hg : Flow.inert.Governs r := call.governed limits hs call.inert
  have hw : m.state.WellFormed limits := after_wellFormed { limits } .initial calls
  have hmoments := ((call.accounted limits hw.balanced).path.wellFormed hw).1
  refine ⟨⟨hs.operatorFree, fun moment hm => (hg.trace moment hm).operatorFree, ?_⟩,
    fun moment hm op ha => ⟨hg.applying moment hm op ha, ?_⟩, fun κ keep => ?_⟩
  · exact after_log_operatorFree _ .initial (by simp) calls
  · intro older v newer hstack s t u
    have hv : v.isOperator = false := (hg.trace moment hm).stack v (by simp [hstack])
    have hsize : older.size < limits.stackSize := by
      have := (hmoments moment hm).stack_le
      simp [hstack] at this
      omega
    refine ⟨Op.eval_eq_putBack hv (hg.applying moment hm op ha), ?_⟩
    exact Op.putBack_run (w := .events limits) (s := s) v hsize
  · exact call.opWith_eq_op (fun ht => Op.evalAgain_putBack ht) hs

-- An operation is applied, and there are operands for it to put back.
example :
    let m := ({ limits := ⟨3, 0, 4⟩ } : Machine).after [.step "/a", .step "/b"]
    ((Call.step "exch").op (.moments ⟨3, 0, 4⟩) m.state).trace.any fun moment =>
      match moment.note with
      | .said (.applying _) => moment.state.stack.size = 2
      | _                   => false := by
  decide +kernel

end Machine
end StackScript
