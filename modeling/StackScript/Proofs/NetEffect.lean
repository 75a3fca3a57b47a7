import StackScript.Proofs.Discipline
import StackScript.Proofs.Operands

namespace StackScript

-- What a run ends with, whatever was kept of it.
def Run.ending (r : Run ε κ α) : Except ε α × State :=
  (r.result, r.state)

namespace Act

variable {ε κ : Type} {w : Watch κ} {s t : State} {a : Act ε κ α} {f : α → Act ε κ β}

theorem ending_bind_ok (h : (a w s).ending = (.ok x, t)) :
    ((a >>= f) w s).ending = (f x w t).ending := by
  rcases hr : a w s with ⟨result, u, trace⟩
  rw [hr] at h
  cases h
  rw [bind_ok hr]
  rfl

theorem ending_bind_error (h : (a w s).ending = (.error e, t)) :
    ((a >>= f) w s).ending = (.error e, t) := by
  rcases hr : a w s with ⟨result, u, trace⟩
  rw [hr] at h
  cases h
  rw [bind_error hr]
  rfl

end Act

namespace Op

variable {κ : Type} {w : Watch κ} {s : State} {below : Array Value} {x y v : Value}
variable {outer : Array Scope} {scope : Scope}

theorem pop_ending (hs : s.stack = below.push v) :
    (pop w s).ending = (.ok v, { s with stack := below }) := by
  simp [pop_run, hs, Run.ending]

theorem push_ending (v : Value) :
    (push v w s).ending =
      if s.stack.size < w.limits.stackSize then (.ok (), { s with stack := s.stack.push v })
      else (.error (.stackOverflow w.limits.stackSize), s) := by
  rw [push_run]
  split <;> rfl

theorem putBack_ending (v : Value) (h : s.stack.size < w.limits.stackSize) :
    (putBack v w s).ending =
      if s.count < w.limits.evaluations then
        (.ok (), { s with count := s.count + 1, stack := s.stack.push v })
      else
        (.error (.evaluationsExceeded s.count), { s with count := s.count + 1 }) := by
  rw [putBack_run v h]
  split <;> rfl

-- The second operand is put back first, and more room than before is needed only for its copy.
theorem exchange_ending (hs : s.stack = (below.push x).push y)
    (hsize : s.stack.size ≤ w.limits.stackSize) :
    let t := { s with count := s.count + 1 }
    (exchange putBack w s).ending =
      if s.count < w.limits.evaluations then
        if below.size + 3 ≤ w.limits.stackSize then
          (.ok (), { t with stack := ((below.push x).push y).push x })
        else
          (.error (.stackOverflow w.limits.stackSize), { t with stack := (below.push x).push y })
      else
        (.error (.evaluationsExceeded s.count), { t with stack := below }) := by
  rw [hs, Array.size_push, Array.size_push] at hsize
  have hback := putBack_ending (w := w) (s := { s with stack := below }) x (by simp only; omega)
  rw [exchange, Act.ending_bind_ok (pop_ending hs), Act.ending_bind_ok (pop_ending rfl)]
  by_cases hc : s.count < w.limits.evaluations <;> simp only [hc, if_true, if_false] at hback ⊢
  case neg => rw [Act.ending_bind_error hback]
  case pos =>
    let t := { s with count := s.count + 1, stack := below.push x }
    have hroom : t.stack.size < w.limits.stackSize := by
      simp only [t, Array.size_push]
      omega
    have hlast := (push_ending (w := w) (s := t) y).trans (if_pos hroom)
    have hcopy : ((below.push x).push y).size < w.limits.stackSize ↔
        below.size + 3 ≤ w.limits.stackSize := by
      simp only [Array.size_push]
      omega
    rw [Act.ending_bind_ok hback, Act.ending_bind_ok hlast, push_ending]
    simp only [t, hcopy]

theorem popSymbol_ok (op : Native) (hs : s.stack = below.push (.symbol name)) :
    (popSymbol op w s).ending = (.ok name, { s with stack := below }) := by
  rw [popSymbol, Act.ending_bind_ok (pop_ending hs)]
  rfl

theorem popSymbol_error (op : Native) (hs : s.stack = below.push x)
    (hx : ∀ name, x ≠ .symbol name) :
    (popSymbol op w s).ending = (.error (.mismatch op .symbol [x]), { s with stack := below }) := by
  rw [popSymbol, Act.ending_bind_ok (pop_ending hs)]
  cases x
  case symbol name => exact absurd rfl (hx name)
  all_goals rfl

theorem bindName_ending (ho : s.scopes = outer.push scope) (name : String) (v : Value) :
    (bindName name v w s).ending =
      (.ok (), { s with
        scopes := if (scope.get? name).isSome then s.scopes
                  else outer.push (scope.insert name v) }) := by
  have hb : s.isBound name = (scope.get? name).isSome := by simp [State.isBound, ho]
  rw [bindName_run, hb]
  cases (scope.get? name).isSome
  case false => simp [ho, Run.ending]
  case true  => rfl

-- The operand that is put back has been on the stack, so there is room for it.
theorem define_ending (hs : s.stack = (below.push x).push v)
    (hsize : s.stack.size ≤ w.limits.stackSize) :
    let t := { s with count := s.count + 1, stack := below.push x }
    (define putBack w s).ending =
      if s.count < w.limits.evaluations then ((do bindName (← popSymbol .define) v) w t).ending
      else (.error (.evaluationsExceeded s.count), t) := by
  rw [hs, Array.size_push, Array.size_push] at hsize
  have hback := putBack_ending (w := w) (s := { s with stack := below.push x }) v
    (by simp only [Array.size_push]; omega)
  rw [define, Act.ending_bind_ok (pop_ending hs)]
  by_cases hc : s.count < w.limits.evaluations <;> simp only [hc, if_true, if_false] at hback ⊢
  case neg => rw [Act.ending_bind_error hback]
  case pos => rw [Act.ending_bind_ok hback, Act.ending_bind_ok (pop_ending rfl)]

theorem define_symbol_ending (ho : s.scopes = outer.push scope)
    (hs : s.stack = (below.push (.symbol name)).push v)
    (hsize : s.stack.size ≤ w.limits.stackSize) :
    let t := { s with count := s.count + 1 }
    (define putBack w s).ending =
      if s.count < w.limits.evaluations then
        (.ok (), { t with
          stack  := below
          scopes := if (scope.get? name).isSome then s.scopes
                    else outer.push (scope.insert name v) })
      else
        (.error (.evaluationsExceeded s.count), { t with stack := below.push (.symbol name) }) := by
  intro t
  let u := { t with stack := below }
  let named := { t with stack := below.push (.symbol name) }
  have hname : (popSymbol .define w named).ending = (.ok name, u) := popSymbol_ok .define rfl
  have hbind := bindName_ending (w := w) (s := u) ho name v
  rw [define_ending hs hsize, Act.ending_bind_ok hname, hbind]

theorem define_mismatch_ending (hx : ∀ name, x ≠ .symbol name)
    (hs : s.stack = (below.push x).push v) (hsize : s.stack.size ≤ w.limits.stackSize) :
    let t := { s with count := s.count + 1 }
    (define putBack w s).ending =
      if s.count < w.limits.evaluations then
        (.error (.mismatch .define .symbol [x]), { t with stack := below })
      else
        (.error (.evaluationsExceeded s.count), { t with stack := below.push x }) := by
  intro t
  have hname : (popSymbol .define w { t with stack := below.push x }).ending = (.error _, _) :=
    popSymbol_error .define rfl hx
  rw [define_ending hs hsize, Act.ending_bind_error hname]

-- An operator that is admitted does what its operation does, with the operands put back that are
-- to be evaluated again.
theorem eval_native_ending (hs : s.Obeys .inert) (hb : s.blocks = #[])
    (hl : s.lookup? name = some (.native op)) (hc : s.count < w.limits.evaluations) :
    ∃ call : Frame → List Value → Op κ Unit,
      (eval (.operator name) w s).ending =
        (apply call putBack op w { s with count := s.count + 1 }).ending := by
  have hstart : (startEvaluation (.operator name) w s).ending =
      (.ok (), { s with count := s.count + 1 }) := by
    rw [startEvaluation_run, if_pos hc]
    rfl
  refine ⟨callAgain putBack (w.limits.callDepth - s.depth), ?_⟩
  have hl : State.lookup? { s with count := s.count + 1 } name = some (.native op) := hl
  rw [← evalAgain_putBack hs, evalAgain, evalWith, Act.ending_bind_ok hstart]
  simp [Act.view_bind, hb, hl]

end Op

-- The states that a machine can be in: between its calls, and at any moment of them.
inductive State.Reachable (limits : Limits) : State → Prop
  | between (calls : List Call) :
    Reachable limits (({ limits } : Machine).after calls).state
  | during (calls : List Call) (call : Call) {moment : Moment} :
    moment ∈ (call.op (.moments limits) (({ limits } : Machine).after calls).state).trace →
    Reachable limits moment.state

namespace State.Reachable

variable {limits : Limits} {s : State}

theorem inert (h : s.Reachable limits) : s.Obeys .inert := by
  cases h
  case between calls => exact Machine.after_inert limits calls
  case during calls call moment hm =>
    have hg := call.governed limits (Machine.after_inert limits calls) call.inert
    exact hg.trace moment hm

theorem wellFormed (h : s.Reachable limits) : s.WellFormed limits := by
  have hw (calls : List Call) : (({ limits } : Machine).after calls).state.WellFormed limits :=
    Machine.after_wellFormed { limits } .initial calls
  cases h
  case between calls => exact hw calls
  case during calls call moment hm =>
    exact ((call.accounted limits (hw calls).balanced).path.wellFormed (hw calls)).1 moment hm

end State.Reachable

namespace Call

variable {κ : Type} {w : Watch κ} {s : State} {call : Call} {op : Native}

-- A call evaluates an operator that stands for a built-in operation, while no block literal is open
-- and the limit admits this evaluation.
structure Applies (call : Call) (op : Native) (limits : Limits) (s : State) : Prop where
  closed   : s.blocks = #[]
  names    : ∃ name, call.value? = some (.operator name) ∧ s.lookup? name = some (.native op)
  admitted : s.count < limits.evaluations

theorem Applies.ending (h : call.Applies op w.limits s) (hs : s.Obeys .inert) :
    ∃ f : Frame → List Value → Op κ Unit,
      (call.op w s).ending =
        (Op.apply f Op.putBack op w { s with count := s.count + 1 }).ending := by
  obtain ⟨name, hv, hl⟩ := h.names
  have ⟨hresult, hstate⟩ := call.op_eq_eval w s hv
  have ⟨f, he⟩ := Op.eval_native_ending (w := w) hs h.closed hl h.admitted
  refine ⟨f, Eq.trans ?_ he⟩
  rw [Run.ending, Run.ending, hresult, hstate]

theorem exchange_and_define_effect (w : Watch κ) (s : State) (hs : s.Reachable w.limits)
    (call : Call) :
    let r := (call.op w s).ending
    let t := { s with count := s.count + 2 }
    (call.Applies .exchange w.limits s → ∀ below x y, s.stack = (below.push x).push y →
      r = if s.count + 1 < w.limits.evaluations then
            if below.size + 3 ≤ w.limits.stackSize then
              (.ok (), { t with stack := ((below.push x).push y).push x })
            else
              (.error (.stackOverflow w.limits.stackSize),
                { t with stack := (below.push x).push y })
          else
            (.error (.evaluationsExceeded (s.count + 1)), { t with stack := below })) ∧
    (call.Applies .define w.limits s →
      ∃ (outer : Array Scope) (scope : Scope), s.scopes = outer.push scope ∧
        (∀ below name v, s.stack = (below.push (.symbol name)).push v →
          r = if s.count + 1 < w.limits.evaluations then
                (.ok (), { t with
                  stack  := below
                  scopes := if (scope.get? name).isSome then s.scopes
                            else outer.push (scope.insert name v) })
              else
                (.error (.evaluationsExceeded (s.count + 1)),
                  { t with stack := below.push (.symbol name) })) ∧
        (∀ below x v, (∀ name, x ≠ .symbol name) → s.stack = (below.push x).push v →
          r = if s.count + 1 < w.limits.evaluations then
                (.error (.mismatch .define .symbol [x]), { t with stack := below })
              else
                (.error (.evaluationsExceeded (s.count + 1)),
                  { t with stack := below.push x }))) := by
  intro r t
  have hw := hs.wellFormed
  let s₁ : State := { s with count := s.count + 1 }
  have hsize : s₁.stack.size ≤ w.limits.stackSize := hw.stack_le
  refine ⟨fun h below x y hst => ?_, fun h => ?_⟩
  · have ⟨f, he⟩ := h.ending hs.inert
    exact he.trans (Op.exchange_ending (s := s₁) hst hsize)
  · have ⟨f, he⟩ := h.ending hs.inert
    have ⟨outer, scope, ho⟩ := Array.exists_push_of_size_pos hw.scopes_pos
    refine ⟨outer, scope, ho, fun below name v hst => ?_, fun below x v hx hst => ?_⟩
    · exact he.trans (Op.define_symbol_ending (s := s₁) ho hst hsize)
    · exact he.trans (Op.define_mismatch_ending (s := s₁) hx hst hsize)

-- Limits that both operations just keep to, and such as are too low by one.
theorem exchange_and_define_at_limits :
    let s (limits : Limits) := (({ limits } : Machine).after [.step "/a", .step "/b"]).state
    let run (word : String) (limits : Limits) :=
      ((Call.step word).op (.events limits) (s limits)).ending
    ((run "exch" ⟨3, 0, 4⟩).1 = .ok () ∧
      (run "exch" ⟨3, 0, 4⟩).2.stack = #[.symbol "a", .symbol "b", .symbol "a"]) ∧
    (run "exch" ⟨2, 0, 4⟩).1 = .error (.stackOverflow 2) ∧
    (run "exch" ⟨3, 0, 3⟩).1 = .error (.evaluationsExceeded 3) ∧
    (run "def" ⟨2, 0, 4⟩).1 = .ok () ∧
      (run "def" ⟨2, 0, 4⟩).2.lookup? "a" = some (.symbol "b") := by
  intro s run
  have hexch (limits : Limits) (hc : (s limits).count < limits.evaluations := by decide)
      (hb : (s limits).blocks = #[] := by rfl)
      (hl : (s limits).lookup? "exch" = some (.native .exchange) := by rfl)
      (hs : (s limits).stack = (#[].push (.symbol "a")).push (.symbol "b") := by rfl) :=
    (exchange_and_define_effect (.events limits) _ (.between _) (.step "exch")).1
      ⟨hb, ⟨"exch", rfl, hl⟩, hc⟩ _ _ _ hs
  have h₁ : run "exch" ⟨3, 0, 4⟩ = (.ok (), _) :=
    (hexch ⟨3, 0, 4⟩).trans ((if_pos (by decide)).trans (if_pos (by decide)))
  have h₂ : run "exch" ⟨2, 0, 4⟩ = (.error _, _) :=
    (hexch ⟨2, 0, 4⟩).trans ((if_pos (by decide)).trans (if_neg (by decide)))
  have h₃ : run "exch" ⟨3, 0, 3⟩ = (.error _, _) :=
    (hexch ⟨3, 0, 3⟩).trans (if_neg (by decide))
  obtain ⟨outer, scope, ho, hdefine, _⟩ :=
    (exchange_and_define_effect (.events ⟨2, 0, 4⟩) _ (.between [.step "/a", .step "/b"])
      (.step "def")).2 ⟨rfl, ⟨"def", rfl, rfl⟩, by decide⟩
  have ho : (#[] : Array Scope).push .base = outer.push scope := ho
  obtain ⟨rfl, rfl⟩ := Array.push_eq_push.mp ho
  have h₄ : run "def" ⟨2, 0, 4⟩ = (.ok (), _) :=
    (hdefine #[] "a" (.symbol "b") rfl).trans (if_pos (by decide))
  rw [h₁, h₂, h₃, h₄]
  exact ⟨⟨rfl, rfl⟩, rfl, rfl, rfl, rfl⟩

end Call
end StackScript
