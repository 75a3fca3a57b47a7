import StackScript.Proofs.Machine

namespace StackScript

-- The operands `base` are put below those of a snapshot.
def Snapshot.atop (s : Snapshot) (base : Array Value) : Snapshot :=
  { s with stack := base ++ s.stack }

def State.atop (s : State) (base : Array Value) : State :=
  { s with stack := base ++ s.stack }

def Event.atop (base : Array Value) : Event → Event
  | state s    => state (s.atop base)
  | popped v s => popped v (s.atop base)
  | output v   => output v

def Limits.raised (limits : Limits) (height : Nat) : Limits :=
  { limits with stackSize := limits.stackSize + height }

-- The limit that a fault tells of is raised, too.
def Fault.raised (height : Nat) : Fault → Fault
  | stackOverflow limit => stackOverflow (limit + height)
  | fault               => fault

def Run.atop (r : Run Fault Event α) (base : Array Value) : Run Fault Event α where
  result := r.result.mapError (·.raised base.size)
  state  := r.state.atop base
  trace  := r.trace.map (·.atop base)

theorem Fault.raised_of_evaluation {fault : Fault} (h : fault.ofEvaluation) (height : Nat) :
    fault.raised height = fault := by
  cases fault
  case stackOverflow => cases h
  all_goals rfl

theorem Watch.events_atop (limits : Limits) (base : Array Value) (note : Note) (s : State) :
    (events (limits.raised base.size)).keep note (s.atop base) =
      ((events limits).keep note s).map (·.atop base) := by
  cases note <;> rfl

namespace Coupling

variable {limits : Limits} {base : Array Value}

-- A computation, and the same one over `base`.
def atop (limits : Limits) (base : Array Value) : Coupling Event Event where
  watch₁         := .events limits
  watch₂         := .events (limits.raised base.size)
  pre s₁ s₂      := s₂ = s₁.atop base
  post _ _ r₁ r₂ := r₁.result = .error .stackUnderflow ∨ r₂ = r₁.atop base

theorem atop_of {a : Op Event α}
    (h : ∀ s, a (.events (limits.raised base.size)) (s.atop base) =
      (a (.events limits) s).atop base) : (atop limits base).Holds a a
  | s, _, rfl => .inr (h s)

-- A change that does not look at the stack.
theorem atop_change {f : State → State} {notes : State → List Note}
    (hf : ∀ s, f (s.atop base) = (f s).atop base := by intro; rfl)
    (hn : ∀ s, notes (s.atop base) = notes s := by intro; rfl) :
    (atop limits base).Holds (Act.change f notes) (Act.change f notes) := by
  refine atop_of fun s => ?_
  simp only [Act.change, Run.atop, hf, hn, List.map_flatMap, Watch.events_atop]
  rfl

theorem atop_bind {a₁ a₂ : Op Event α} {f₁ f₂ : α → Op Event β}
    (ha : (atop limits base).Holds a₁ a₂)
    (hf : ∀ x, (atop limits base).Holds (f₁ x) (f₂ x)) :
    (atop limits base).Holds (a₁ >>= f₁) (a₂ >>= f₂) := by
  rintro s _ rfl
  have ha := ha s _ rfl
  simp only [atop] at ha ⊢
  rcases hr : a₁ (.events limits) s with ⟨e | x, t, trace⟩
  case error =>
    rw [hr] at ha
    rw [Act.bind_error hr]
    rcases ha with ha | ha
    case inl => cases ha; exact .inl rfl
    case inr => exact .inr (by rw [Act.bind_error ha]; rfl)
  case ok =>
    rw [hr] at ha
    have ha := ha.resolve_left nofun
    rw [Act.bind_ok hr, Act.bind_ok ha]
    rcases hf x t _ rfl with hf | hf
    case inl => exact .inl hf
    case inr =>
      simp only [atop] at hf
      exact .inr (by rw [hf]; simp [Run.atop])

theorem atop_pop : (atop limits base).Holds Op.pop Op.pop := by
  rintro s _ rfl
  simp only [atop, Op.pop_run]
  cases hs : s.stack.back?
  case none => exact .inl rfl
  case some v =>
    have ⟨older, ho⟩ := Array.back?_eq_some_iff.mp hs
    have hstack : (s.atop base).stack = (base ++ older).push v := by
      rw [State.atop, ho, Array.append_push]
    have hpop : { s.atop base with stack := base ++ older } =
      State.atop { s with stack := older } base := rfl
    simp only [hstack, ho, Array.back?_push, Array.pop_push, hpop, Watch.events_atop]
    exact .inr rfl

theorem atop_closeBlock : (atop limits base).Holds Op.closeBlock Op.closeBlock := by
  refine atop_bind (atop_of fun _ => rfl) fun newest => ?_
  cases newest
  case none => exact atop_of fun _ => rfl
  case some => exact atop_bind atop_change fun _ => atop_of fun _ => rfl

theorem atop_bindName (name : String) (v : Value) :
    (atop limits base).Holds (Op.bindName name v) (Op.bindName name v) := by
  refine atop_bind (atop_of fun _ => rfl) fun bound => ?_
  split <;> exact atop_change

-- The two are equally far from their limits.
theorem atop_require {p : Limits → State → Bool} {e : Limits → State → Fault}
    (hp : ∀ s, p (limits.raised base.size) (s.atop base) = p limits s := by intro; rfl)
    (he : ∀ s, e (limits.raised base.size) (s.atop base) = (e limits s).raised base.size :=
      by intro; rfl) :
    (atop limits base).Holds (Act.require p e) (Act.require p e) := by
  refine atop_of fun s => ?_
  have hrun (limits : Limits) (s : State) : Act.require p e (.events limits) s =
      if p limits s then ⟨.ok (), s, []⟩ else ⟨.error (e limits s), s, []⟩ := by
    cases hc : p limits s <;> simp [Act.require, Watch.events, hc]
  rw [hrun, hrun, hp, he]
  split <;> rfl

theorem atop_push (v : Value) : (atop limits base).Holds (Op.push v) (Op.push v) := by
  refine atop_bind (atop_require fun s => ?_) fun _ => atop_change fun s => ?_
  · have hs : (s.atop base).stack.size = s.stack.size + base.size := by
      rw [State.atop, Array.size_append, Nat.add_comm]
    simp [hs, Limits.raised]
  · simp only [State.atop, Array.append_push]

theorem atop_fail {fault : Fault} (h : fault.ofEvaluation) :
    (atop limits base).Holds (α := α) (Act.fail fault) (Act.fail fault) := by
  refine atop_of fun s => ?_
  change _ = Run.mk (.error (fault.raised base.size)) (s.atop base) []
  rw [Fault.raised_of_evaluation h, Act.fail_run]

theorem atop_stable : (atop limits base).Stable where
  pure _            := atop_of fun _ => rfl
  bind              := atop_bind
  fail              := atop_fail
  say _             := atop_change
  startEvaluation _ := atop_bind atop_change fun _ => atop_bind atop_require fun _ => atop_change
  push              := atop_push
  pop               := atop_pop
  capture _ _ _ _ h := atop_change (fun _ => rfl) (fun _ => rfl) _ _ h
  bindName          := atop_bindName
  put               := atop_bind atop_pop fun _ => atop_change
  isEmpty h         := by rw [h]; rfl
  lookup? _ h       := by rw [h]; rfl

theorem atop_stepwise : (atop limits base).Stepwise where
  toClosed   :=
    atop_stable.closed (atop_bind atop_require fun _ => atop_change) atop_change atop_change
      atop_change
  blank      := atop_change
  openBlock  := atop_change
  closeBlock := atop_closeBlock

end Coupling

theorem Call.op_atop (limits : Limits) (base : Array Value) (s : State) :
    (call : Call) →
    (call.op (.events limits) s).result = .error .stackUnderflow ∨
    call.op (.events (limits.raised base.size)) (s.atop base) =
      (call.op (.events limits) s).atop base
  | step word => Coupling.atop_stepwise.step word s _ rfl
  | eval v    => Coupling.atop_stepwise.eval v s _ rfl

namespace Machine

-- A machine that has the operands `base` below those that it had, and as much room above them.
def atop (m : Machine) (base : Array Value) : Machine :=
  { m with limits := m.limits.raised base.size, state := m.state.atop base }

theorem stack_locality (m : Machine) (base : Array Value) (call : Call)
    (h : (m.call call).1 ≠ .error .stackUnderflow) :
    let m' := m.call call
    ∃ events, m'.2.log = m.log ++ events ∧
      (m.atop base).call call =
        (m'.1.mapError (·.raised base.size),
          { m'.2.atop base with log := m.log ++ events.map (·.atop base) }) := by
  intro m'
  have hm : m' = m.perform call.op := m.call_eq call
  rw [m.call_eq] at h
  have hr := (call.op_atop m.limits base m.state).resolve_left h
  refine ⟨(call.op (.events m.limits) m.state).trace.toArray, by rw [hm]; rfl, ?_⟩
  rw [call_eq, hm]
  simp only [perform, atop, hr]
  simp [Run.atop]

-- The stack is full when `exch` is done, with and without an operand below.
theorem exchange_over_operand :
    let m := ({ limits := ⟨3, 0, 4⟩ } : Machine).after [.step "/a", .step "/b"]
    let base := #[Value.symbol "z"]
    let m' := m.call (.step "exch")
    m'.1 ≠ .error .stackUnderflow ∧ m'.2.state.stack.size = 3 ∧
    ∃ events, m'.2.log = m.log ++ events ∧
      (m.atop base).call (.step "exch") =
        (m'.1.mapError (·.raised base.size),
          { m'.2.atop base with log := m.log ++ events.map (·.atop base) }) := by
  intro m base m'
  have hok : m'.1.isOk := by decide +kernel +zetaReduce
  have hsize : m'.2.state.stack.size = 3 := by decide +kernel +zetaReduce
  have hn : m'.1 ≠ .error .stackUnderflow := by
    intro h
    rw [h] at hok
    cases hok
  exact ⟨hn, hsize, stack_locality m base (.step "exch") hn⟩

end Machine
end StackScript
