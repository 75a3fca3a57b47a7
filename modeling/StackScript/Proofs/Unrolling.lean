import StackScript.Proofs.Flow
import StackScript.Proofs.Session

namespace StackScript

-- No operator is ever an operand, so an operand that is evaluated again is pushed and nothing more.
def Flow.inert : Flow where
  operand v     := v.isOperator = false
  code _        := True
  number _      := rfl
  evaluable v _ := by simp [Value.Evaluable]
  body _ _ _ _  := trivial
  block _ _     := trivial

def Regime.inert (w : Watch κ) : Regime κ :=
  Flow.inert.regime w fun _ => True

theorem Regime.inert_kept (w : Watch κ) : (inert w).Kept :=
  Flow.regime_kept fun _ _ _ _ _ _ => trivial

namespace Op

variable {κ : Type} {w : Watch κ} {s : State}

-- The recursion of evaluation, unrolled `fuel` times. Where the unrolling stops, `bottom` takes
-- over.
def unrolled (bottom : Value → Op κ Unit) : Nat → Value → Op κ Unit
  | 0        => bottom
  | fuel + 1 =>
    evalWith (fun frame body => within frame (body.forM (unrolled bottom fuel)))
      (unrolled bottom fuel)

-- What a word of the source asks for, given how values are evaluated.
def stepWith (evaluate : Value → Op κ Unit) (word : String) : Op κ Unit := do
  Act.say (.stepping word)
  match Lexeme.ofWord word with
  | .blank   => Act.note .changed
  | .opening => openBlock
  | .closing => evaluate (.block (← closeBlock))
  | .value v => evaluate v

theorem step_eq_stepWith (word : String) : step (κ := κ) word = stepWith eval word :=
  rfl

-- What a word asks for is at most one evaluation, and it is made where no operator is an operand.
theorem stepWith_congr {evaluate₁ evaluate₂ : Value → Op κ Unit}
    (h : ∀ {t : State}, t.Obeys .inert → ∀ v, evaluate₁ v w t = evaluate₂ v w t)
    (hs : s.Obeys .inert) (word : String) :
    stepWith evaluate₁ word w s = stepWith evaluate₂ word w s := by
  apply Act.bind_congr_right
  intro _ t _ ht
  cases ht
  cases Lexeme.ofWord word
  case blank | opening => rfl
  case value v => exact h hs v
  case closing =>
    apply Act.bind_congr_right
    intro body u _ hu
    rw [closeBlock_run] at hu
    split at hu <;> cases hu
    exact h (State.Obeys.closeBlock hs) _

-- A value that is no operator is pushed or captured, so nothing is called and nothing recurs.
theorem evalWith_inert {call₁ call₂ : Frame → List Value → Op κ Unit}
    {again₁ again₂ : Value → Op κ Unit} (h : v.isOperator = false) :
    evalWith call₁ again₁ v = evalWith call₂ again₂ v := by
  cases v
  case operator => cases h
  all_goals rfl

section Coupled

variable {g : Regime κ} {depth calls fuel : Nat} (bottom : Value → Op κ Unit)
variable (hg : g.Kept) (hop : ∀ v, g.operand v → v.isOperator = false)
include hg hop

theorem unrolled_operand (call : Frame → List Value → Op κ Unit) (height : Nat) {v : Value}
    (hv : g.operand v) :
    (g.coupling depth).Holds (unrolled bottom (fuel + 1) v) (evalBelow call height v) := by
  have hi := hop v hv
  have hb : evalBelow call height v = unrolled bottom (fuel + 1) v := by
    cases height <;> exact evalWith_inert hi
  have hw : unrolled bottom (fuel + 1) v =
    evalWith (fun _ _ => Act.fail .stackUnderflow) (fun _ => Act.fail .stackUnderflow) v :=
      evalWith_inert hi
  rw [hb, hw]
  exact hg.guarded.evalWith (fun _ _ _ => hg.guarded.fail rfl) (fun _ _ => hg.guarded.fail rfl)
    (.inr hv)

-- The stack is given one more operand than it has, so that the evaluation below it is one again.
theorem unrolled_calling
    (hcall : ∀ frame body, (∀ v ∈ body, v.Evaluable g.operand) →
      (g.coupling depth).Holds (within frame (body.forM (unrolled bottom (fuel + 1))))
        (callWithin calls frame body))
    {v : Value} (hv : v.Evaluable g.operand) :
    (g.coupling depth).Holds (unrolled bottom (fuel + 2) v) (evalCalling (callWithin calls) v) := by
  intro s₁ s₂ h
  simp only [evalCalling, Act.view_bind]
  rw [evalBelow_eq (Nat.le_refl _) (Nat.le_succ s₂.stack.size), evalBelow_succ]
  exact hg.guarded.evalWith hcall (fun _ => unrolled_operand bottom hg hop _ _) hv s₁ s₂ h

-- One unrolling is for the value itself and one for the operands that are evaluated again; each
-- further one is for a call. The induction is on the calls that the limit still admits.
theorem unrolled_coupled (hc : g.watch.limits.callDepth ≤ depth + calls)
    (hf : g.watch.limits.callDepth ≤ depth + fuel) {v : Value} (hv : v.Evaluable g.operand) :
    (g.coupling depth).Holds (unrolled bottom (fuel + 2) v) (evalCalling (callWithin calls) v) := by
  induction fuel generalizing depth calls v
  case zero =>
    refine unrolled_calling bottom hg hop (fun frame body _ => ?_) hv
    cases calls <;> exact hg.coupling_within frame fun hd => absurd hd (by omega)
  case succ fuel hi =>
    refine unrolled_calling bottom hg hop (fun frame body hb => ?_) hv
    cases calls
    case zero => exact hg.coupling_within frame fun hd => absurd hd (by omega)
    case succ =>
      refine hg.coupling_within frame fun _ => hg.guarded.forM body fun v hm => ?_
      exact hi (by omega) (by omega) (hb v hm)

end Coupled

theorem eval_eq_unrolled (hs : s.Obeys .inert) (bottom : Value → Op κ Unit)
    (hf : w.limits.callDepth + 2 ≤ fuel) (v : Value) : unrolled bottom fuel v w s = eval v w s := by
  obtain ⟨fuel, rfl⟩ : ∃ k, fuel = k + 2 := ⟨fuel - 2, by omega⟩
  cases hb : s.blocks.isEmpty
  case false => exact (evalWith_capture v hb).trans (eval_capture v hb).symm
  case true =>
    have hg : (Regime.inert w).Kept := Regime.inert_kept w
    have hc : w.limits.callDepth ≤ s.depth + (w.limits.callDepth - s.depth) := by omega
    have hv : v.Evaluable Flow.inert.operand := Flow.inert.evaluable v trivial
    have hs : s.blocks = #[] ∧ s.Obeys .inert := ⟨by simpa using hb, hs⟩
    have hf : w.limits.callDepth ≤ s.depth + fuel := by omega
    exact (unrolled_coupled bottom hg (fun _ h => h) hc hf hv s s ⟨rfl, rfl, hs⟩).1

theorem step_eq_unrolled (hs : s.Obeys .inert) (bottom : Value → Op κ Unit)
    (hf : w.limits.callDepth + 2 ≤ fuel) (word : String) :
    stepWith (unrolled bottom fuel) word w s = step word w s := by
  rw [step_eq_stepWith]
  exact stepWith_congr (fun ht => eval_eq_unrolled ht bottom hf) hs word

end Op

-- What a call asks for, given how values are evaluated.
def Call.opWith (evaluate : Value → Op κ Unit) : Call → Op κ Unit
  | step word => Op.stepWith evaluate word
  | eval v    => evaluate v

theorem Call.opWith_eq_op {w : Watch κ} {s : State} {evaluate : Value → Op κ Unit}
    (h : ∀ {t : State}, t.Obeys .inert → ∀ v, evaluate v w t = Op.eval v w t)
    (hs : s.Obeys .inert) : (call : Call) → call.opWith evaluate w s = call.op w s
  | step word => Op.stepWith_congr h hs word
  | eval v    => h hs v

-- Whatever comes in with a call, no operator becomes an operand by it.
theorem Call.inert : (call : Call) → call.Admitted .inert
  | step _ => fun _ _ => trivial
  | eval _ => trivial

theorem Machine.after_inert (limits : Limits) (calls : List Call) :
    (({ limits } : Machine).after calls).state.Obeys .inert :=
  after_obeys _ .initial calls fun call _ => call.inert

namespace Program

variable {κ : Type} {w : Watch κ} {s : State}

-- Running a source text, given how values are evaluated.
def stepTokenWith (evaluate : Value → Op κ Unit) (token : Token) : Act RunError κ Unit :=
  (Op.stepWith evaluate token.text).mapError fun s fault => ⟨token, s.count, fault⟩

def runWith (evaluate : Value → Op κ Unit) (source : String) : Act RunError κ Unit := do
  (Token.ofSource source).forM (stepTokenWith evaluate)
  let blocks ← Act.view (·.blocks)
  if !blocks.isEmpty then
    Act.say (.endedInBlocks blocks.size)

theorem run_eq_runWith (source : String) : run (κ := κ) source = runWith Op.eval source :=
  rfl

theorem stepToken_obeys (hs : s.Obeys .inert) (token : Token) :
    (stepToken token w s).state.Obeys .inert := by
  rw [stepToken_state, Op.step_recorded w token.text s]
  exact (Op.step_governed hs fun _ _ => trivial).state

-- The run lemma: unrolled evaluation makes no difference at any token.
theorem steps_eq_unrolled (hs : s.Obeys .inert) (bottom : Value → Op κ Unit)
    (hf : w.limits.callDepth + 2 ≤ fuel) (tokens : List Token) :
    tokens.forM (stepTokenWith (Op.unrolled bottom fuel)) w s = steps tokens w s := by
  induction tokens generalizing s
  case nil => rfl
  case cons token rest hi =>
    have ht : stepTokenWith (Op.unrolled bottom fuel) token w s = stepToken token w s := by
      unfold stepTokenWith stepToken Act.mapError
      rw [Op.step_eq_unrolled hs bottom hf]
    refine (Act.bind_congr_left ht).trans (Act.bind_congr_right fun _ t _ hr => hi ?_)
    have := stepToken_obeys (w := w) hs token
    rwa [hr] at this

theorem run_eq_unrolled (bottom : Value → Op κ Unit) (hf : w.limits.callDepth + 2 ≤ fuel)
    (source : String) : runWith (Op.unrolled bottom fuel) source w .initial = start w source := by
  rw [start, run_eq_runWith]
  exact Act.bind_congr_left (steps_eq_unrolled .initial bottom hf _)

end Program

theorem Machine.call_eq_unrolled (limits : Limits) (calls : List Call) (call : Call)
    (bottom : Value → Op Event Unit) (hf : limits.callDepth + 2 ≤ fuel) :
    let m := ({ limits } : Machine).after calls
    m.perform (call.opWith (Op.unrolled bottom fuel)) = m.call call := by
  intro m
  have hl : m.limits = limits := after_limits _ calls
  have hs : m.state.Obeys .inert := after_inert limits calls
  have he := call.opWith_eq_op (w := .events m.limits)
    (fun ht => Op.eval_eq_unrolled ht bottom (hl ▸ hf)) hs
  rw [call_eq, perform, he]
  rfl

-- A machine does what the unrolled evaluation does, whatever comes where the unrolling stops; so it
-- does not get there. The other limits play no part in it.
theorem call_depth_bounds_recursion (limits : Limits) :
    (∀ (calls : List Call) (call : Call) (bottom : Value → Op Event Unit),
      ∀ fuel ≥ limits.callDepth + 2,
        let m := ({ limits } : Machine).after calls
        m.perform (call.opWith (Op.unrolled bottom fuel)) = m.call call) ∧
    (∀ (source : String) (κ : Type) (keep : Note → State → List κ) (bottom : Value → Op κ Unit),
      ∀ fuel ≥ limits.callDepth + 2,
        Program.runWith (Op.unrolled bottom fuel) source ⟨limits, keep⟩ .initial =
          start ⟨limits, keep⟩ source) ∧
    (∀ (source : String) (bottom : Value → Op Event Unit), ∀ fuel ≥ limits.callDepth + 2,
      let r := Program.runWith (Op.unrolled bottom fuel) source (.events limits) .initial
      ∃ last, (Session.ofSource limits source).Yields (r.trace.map .ok ++ Session.ending r.result)
        last ∧ last.poll.1 = none) := by
  refine ⟨fun calls call bottom fuel hf => ?_, fun source κ keep bottom fuel hf => ?_,
    fun source bottom fuel hf => ?_⟩
  · exact Machine.call_eq_unrolled limits calls call bottom hf
  · exact Program.run_eq_unrolled bottom hf source
  · rw [Program.run_eq_unrolled bottom hf source, start, Program.run_eq_steps]
    obtain ⟨last, hy, hspent, _⟩ :=
      Session.yields_steps limits (Token.ofSource source) .initial #[]
    exact ⟨last, hy, hspent.poll.1⟩

end StackScript
