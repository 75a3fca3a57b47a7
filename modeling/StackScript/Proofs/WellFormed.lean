import StackScript.Proofs.Machine
import StackScript.Proofs.Path
import StackScript.Proofs.Scope

namespace StackScript

structure State.WellFormed (limits : Limits) (s : State) : Prop where
  scopes_pos : 1 ≤ s.scopes.size
  scopes_le  : s.scopes.size ≤ s.depth + 1
  depth_le   : s.depth + 1 ≤ limits.callDepth + 1
  stack_le   : s.stack.size ≤ limits.stackSize
  base       : ∃ scope, s.scopes[0]? = some scope ∧
               ∀ op : Native, scope.get? op.name = some (.native op)

namespace State.WellFormed

variable {limits : Limits} {s t : State}

theorem initial : State.initial.WellFormed limits where
  scopes_pos := Nat.le_refl _
  scopes_le  := Nat.le_refl _
  depth_le   := Nat.le_add_left _ _
  stack_le   := Nat.zero_le _
  base       := ⟨.base, rfl, Scope.base_get?⟩

theorem balanced (h : s.WellFormed limits) : s.Balanced :=
  ⟨h.scopes_pos, h.scopes_le⟩

-- A new binding leaves the built-in operations alone, since their names are bound already.
theorem get?_insert_native {scope : Scope}
    (hb : ∀ op : Native, scope.get? op.name = some (.native op)) (hn : scope.get? name = none) (op : Native) :
    (scope.insert name v).get? op.name = some (.native op) := by
  have hne : op.name ≠ name := by
    intro h
    have := hb op
    simp [h, hn] at this
  rw [Scope.get?_insert, if_neg hne, hb op]

theorem getElem?_zero_push {outer : Array Scope} (h : 0 < outer.size) (scope : Scope) :
    (outer.push scope)[0]? = outer[0]? := by
  rw [Array.getElem?_push, if_neg (by omega)]

-- The base scope may be the innermost one, in which new names are bound.
theorem base_of_define {outer : Array Scope} {scope base : Scope}
    (hb : (outer.push scope)[0]? = some base)
    (hops : ∀ op : Native, base.get? op.name = some (.native op)) (hn : scope.get? name = none) :
    ∃ base, (outer.push (scope.insert name v))[0]? = some base ∧
      ∀ op : Native, base.get? op.name = some (.native op) := by
  by_cases ho : 0 < outer.size
  case pos =>
    rw [getElem?_zero_push ho] at hb ⊢
    exact ⟨base, hb, hops⟩
  case neg =>
    have he : outer = #[] := Array.eq_empty_of_size_eq_zero (by omega)
    subst he
    cases hb
    exact ⟨_, rfl, get?_insert_native hops hn⟩

end State.WellFormed

open State.WellFormed

theorem Move.wellFormed (m : Move limits s notes t) (h : s.WellFormed limits) :
    t.WellFormed limits := by
  have ⟨hpos, hle, hd, hst, base, hb, hops⟩ := h
  cases m
  case say | blank | redefine => exact h
  case count | opening | closing | capture => exact ⟨hpos, hle, hd, hst, base, hb, hops⟩
  case push hlt =>
    refine ⟨hpos, hle, hd, ?_, base, hb, hops⟩
    simp only [Array.size_push]
    omega
  case pop ho | put ho =>
    simp only [ho, Array.size_push] at hst
    exact ⟨hpos, hle, hd, by simp only; omega, base, hb, hops⟩
  case define outer scope ho hn =>
    simp only [ho, Array.size_push] at hle hb
    exact ⟨by simp, by simpa using hle, hd, hst, base_of_define hb hops hn⟩
  case enter hlt => exact ⟨hpos, by simp only; omega, by simp only; omega, hst, base, hb, hops⟩
  case leave depth hdepth hs => exact ⟨hpos, hs, by simp only; omega, hst, base, hb, hops⟩
  case pushScope hs =>
    exact ⟨by simp, by simpa using hs, hd, hst, base, (getElem?_zero_push hpos _).trans hb, hops⟩
  case popScope outer scope ho hs =>
    simp only [ho, Array.size_push] at hle
    rw [ho, getElem?_zero_push hs] at hb
    exact ⟨hs, by simp only; omega, hd, hst, base, hb, hops⟩

namespace Path

variable {limits : Limits} {s t : State} {moments : List Moment}

-- The run lemma: well-formedness is kept along a path.
theorem wellFormed (p : Path limits s moments t) (h : s.WellFormed limits) :
    (∀ m ∈ moments, m.state.WellFormed limits) ∧ t.WellFormed limits := by
  induction p
  case nil => exact ⟨by simp, h⟩
  case cons notes u _ _ move _ hi =>
    have hu := move.wellFormed h
    have ⟨hms, ht⟩ := hi hu
    refine ⟨fun m hm => ?_, ht⟩
    cases List.mem_append.mp hm
    case inl hm =>
      have ⟨_, _, he⟩ := List.mem_map.mp hm
      exact he ▸ hu
    case inr hm => exact hms m hm

end Path

-- The places where the code subtracts from a counter. The index in a note about scopes is the number
-- of scopes less one, and leaving a block lowers the depth by one: nothing is cut off at zero. The
-- scope that is removed is never the base scope.
def Moment.Exact (before : State) (m : Moment) : Prop :=
  match m.note with
  | .left                       => before.depth = m.state.depth + 1
  | .said (.scopePushed i)      => m.state.scopes.size = i + 1
  | .said (.scopePopped i)      => before.scopes.size = i + 1 ∧ m.state.scopes.size = i ∧ 0 < i
  | .said (.defined _ _ i)      => m.state.scopes.size = i + 1
  | .said (.alreadyDefined _ i) => m.state.scopes.size = i + 1
  | _                           => True

-- Each moment next to the state of the moment before it.
def Moment.AllExact : State → List Moment → Prop
  | _, []      => True
  | s, m :: ms => m.Exact s ∧ AllExact m.state ms

namespace Path

variable {limits : Limits} {s t : State} {moments : List Moment}

theorem allExact_congr (hd : s.depth = t.depth) (hs : s.scopes.size = t.scopes.size) :
    (moments : List Moment) → Moment.AllExact s moments → Moment.AllExact t moments
  | [],     _        => trivial
  | m :: _, ⟨h, hms⟩ => ⟨by unfold Moment.Exact at h ⊢; rwa [← hd, ← hs], hms⟩

theorem exact_of_trace (h : d.level = .trace) : Moment.Exact s ⟨.said d, t⟩ := by
  cases d
  case scopePushed | scopePopped | defined | alreadyDefined => cases h
  all_goals trivial

theorem allExact (p : Path limits s moments t) : Moment.AllExact s moments := by
  induction p
  case nil => trivial
  case cons m p hi =>
    cases m
    case say h           => exact ⟨exact_of_trace h, hi⟩
    case count           => exact allExact_congr (by rfl) (by rfl) _ hi
    case put             => exact ⟨trivial, trivial, trivial, hi⟩
    case define          => exact ⟨by simp [Moment.Exact], trivial, hi⟩
    case redefine ho     => exact ⟨by simp [Moment.Exact, ho], trivial, hi⟩
    case leave h _       => exact ⟨h, hi⟩
    case pushScope       => exact ⟨by simp [Moment.Exact], trivial, hi⟩
    case popScope ho hs  => exact ⟨by simp [Moment.Exact, ho, hs], trivial, hi⟩
    all_goals exact ⟨trivial, hi⟩

end Path

theorem Call.accounted (limits : Limits) (h : State.Balanced s) :
    (call : Call) → Accounted limits s (call.op (.moments limits) s)
  | step word => Op.step_accounted word h
  | eval v    => Op.eval_accounted v h

namespace Machine

-- The run lemma for a machine: every state between two calls is well-formed.
theorem after_wellFormed (m : Machine) (h : m.state.WellFormed m.limits) (calls : List Call) :
    (m.after calls).state.WellFormed m.limits := by
  induction calls generalizing m
  case nil => exact h
  case cons call _ hi =>
    have ⟨_, hs, _⟩ := m.call_recorded call
    have hw := ((call.accounted m.limits h.balanced).path.wellFormed h).2
    have hi := hi (m.call call).2 (by rw [hs, call_limits]; exact hw)
    rwa [call_limits] at hi

-- As long as no call has failed, no block is running and no scope but the base is open.
theorem succeeds_clean (m : Machine) (h : m.state.WellFormed m.limits)
    (hc : m.state.count ≤ m.limits.evaluations) (calls : List Call) (hs : m.Succeeds calls) :
    (m.after calls).state.depth = m.state.depth ∧
    (m.after calls).state.scopes.size = m.state.scopes.size ∧
    (m.after calls).state.count ≤ m.limits.evaluations := by
  induction calls generalizing m
  case nil => exact ⟨rfl, rfl, hc⟩
  case cons call _ hi =>
    have ⟨hr, hst, _⟩ := m.call_recorded call
    have ha := call.accounted m.limits h.balanced
    have ⟨hd', hs', hc'⟩ := ha.ok () (hr.symm.trans hs.1)
    have hw := (ha.path.wellFormed h).2
    rw [← hst] at hd' hs' hc' hw
    rw [← call_limits m call] at hw hc hc' ⊢
    have ⟨hd, hn, hc⟩ := hi _ hw (hc' hc) hs.2
    exact ⟨hd.trans hd', hn.trans hs', hc⟩

-- Every change but that of the count of evaluations is noted at once, so the moments of a call show
-- all the states that it goes through.
theorem representation_invariant (limits : Limits) (calls : List Call) (call : Call) :
    let m  := ({ limits } : Machine).after calls
    let m' := m.call call
    let r  := call.op (.moments limits) m.state
    (m'.1 = r.result ∧ m'.2.state = r.state) ∧
    m.state.WellFormed limits ∧
    (∀ moment ∈ r.trace, moment.state.WellFormed limits) ∧
    m'.2.state.WellFormed limits ∧
    Moment.AllExact m.state r.trace ∧
    (m'.1 = .ok () →
      m'.2.state.depth = m.state.depth ∧ m'.2.state.scopes.size = m.state.scopes.size) ∧
    (∀ fault, m'.1 = .error fault →
      m.state.depth ≤ m'.2.state.depth ∧ m.state.scopes.size ≤ m'.2.state.scopes.size ∧
      m'.2.state.scopes.size - m.state.scopes.size ≤ m'.2.state.depth - m.state.depth) ∧
    (({ limits } : Machine).Succeeds calls →
      m.state.depth = 0 ∧ m.state.scopes.size = 1 ∧ m.state.count ≤ limits.evaluations) := by
  intro m m' r
  have hm : m.limits = limits := after_limits _ calls
  have hw : m.state.WellFormed limits := after_wellFormed { limits } .initial calls
  have hrecord := m.call_recorded call
  rw [hm] at hrecord
  have hresult : m'.1 = r.result := hrecord.1
  have hstate : m'.2.state = r.state := hrecord.2.1
  have ha : Accounted limits m.state r := call.accounted limits hw.balanced
  have ⟨hmoments, hfinal⟩ := ha.path.wellFormed hw
  refine ⟨⟨hresult, hstate⟩, hw, hmoments, hstate ▸ hfinal, ha.path.allExact, ?_, ?_, ?_⟩
  · intro hok
    have ⟨hd, hs, _⟩ := ha.ok () (hresult.symm.trans hok)
    rw [hstate]
    exact ⟨hd, hs⟩
  · intro _ _
    have hd := ha.depth
    have hs := ha.scopes
    have hg := ha.growth
    rw [hstate]
    exact ⟨hd, hs, by omega⟩
  · exact succeeds_clean { limits } .initial (Nat.zero_le _) calls

end Machine
end StackScript
