import StackScript.Machine
import StackScript.Proofs.Observation

namespace StackScript

-- What can be asked of a machine.
inductive Call
  | step (word : String)
  | eval (v : Value)

def Call.op : Call → Op κ Unit
  | step word => Op.step word
  | eval v    => Op.eval v

theorem Call.recorded (w : Watch κ) : (call : Call) → Act.Recorded w call.op call.op
  | step word => Op.step_recorded w word
  | eval v    => Op.eval_recorded w v

namespace Machine

def call (m : Machine) : Call → Except Fault Unit × Machine
  | .step word => m.step word
  | .eval v    => m.eval v

-- The machine after a sequence of calls, in which it goes on after those that fail.
def after (m : Machine) (calls : List Call) : Machine :=
  calls.foldl (fun m call => (m.call call).2) m

-- No call of a sequence fails.
def Succeeds (m : Machine) : List Call → Prop
  | []            => True
  | call :: calls => (m.call call).1 = .ok () ∧ (m.call call).2.Succeeds calls

-- A sequence of calls that ends with the first one that fails.
def drive (m : Machine) : List Call → Except Fault Unit × Machine
  | []            => (.ok (), m)
  | call :: calls =>
    match m.call call with
    | (.ok _, m)        => m.drive calls
    | (.error fault, m) => (.error fault, m)

theorem call_eq (m : Machine) : (call : Call) → m.call call = m.perform call.op
  | .step _ | .eval _ => rfl

theorem call_limits (m : Machine) (call : Call) : (m.call call).2.limits = m.limits := by
  rw [call_eq]
  rfl

-- A call of a machine, told by the full record of it.
theorem call_recorded (m : Machine) (call : Call) :
    let r := call.op (.moments m.limits) m.state
    (m.call call).1 = r.result ∧ (m.call call).2.state = r.state ∧
    (m.call call).2.log = m.log ++ (r.trace.filterMap Moment.event?).toArray := by
  have hr := call.recorded (.events m.limits) m.state
  rw [Run.seenBy, Watch.select_events] at hr
  simp only [call_eq, perform, hr]
  exact ⟨rfl, rfl, rfl⟩

theorem after_limits (m : Machine) (calls : List Call) : (m.after calls).limits = m.limits := by
  induction calls generalizing m
  case nil            => rfl
  case cons call _ hi => exact (hi _).trans (call_limits m call)

-- The calls up to the first failure are a single action.
theorem drive_eq_perform (m : Machine) (calls : List Call) :
    m.drive calls = m.perform (calls.forM Call.op) := by
  induction calls generalizing m
  case nil => simp [drive, perform]
  case cons call calls hi =>
    rw [drive, call_eq, List.forM]
    unfold perform
    cases hr : call.op (.events m.limits) m.state
    case mk result t trace =>
      cases result
      case error => simp [Act.bind_error hr]
      case ok    => simp [Act.bind_ok hr, hi, perform]

theorem drive_steps (m : Machine) (tokens : List Token) :
    m.drive (tokens.map (.step ·.text)) = m.perform (tokens.forM (Op.step ·.text)) := by
  rw [drive_eq_perform]
  simp [Call.op]

theorem drive_evals (m : Machine) (values : List Value) :
    m.drive (values.map .eval) = m.perform (values.forM Op.eval) := by
  rw [drive_eq_perform]
  simp [Call.op]

end Machine
end StackScript
