import StackScript.Event
import StackScript.Proofs.Contract

namespace StackScript

-- The moves, each with what has to be the case for it to be made. A stack that loses or changes its
-- newest element is written as the older elements with that element pushed.
inductive Move (limits : Limits) (s : State) : List Note → State → Prop
  | say (h : d.level = .trace) :
    Move limits s [.said d] s
  | blank :
    Move limits s [.changed] s
  | count :
    Move limits s [] { s with count := s.count + 1 }
  | push (h : s.stack.size < limits.stackSize) :
    Move limits s [.changed] { s with stack := s.stack.push v }
  | pop {older : Array Value} (h : s.stack = older.push v) :
    Move limits s [.popped v] { s with stack := older }
  | put {older : Array Value} (h : s.stack = older.push v) :
    Move limits s [.popped v, .said (.putting v), .output v] { s with stack := older }
  | opening :
    Move limits s [.changed] { s with blocks := s.blocks.push #[] }
  | closing {older : Array (Array Value)} (h : s.blocks = older.push body) :
    Move limits s [.changed] { s with blocks := older }
  | capture {older : Array (Array Value)} (h : s.blocks = older.push body) :
    Move limits s [.changed] { s with blocks := older.push (body.push v) }
  | define {outer : Array Scope} {scope : Scope} (h : s.scopes = outer.push scope)
    (hn : scope.get? name = none) :
    Move limits s [.said (.defined name v outer.size), .changed]
      { s with scopes := outer.push (scope.insert name v) }
  | redefine {outer : Array Scope} {scope : Scope} (hn : (scope.get? name).isSome)
    (h : s.scopes = outer.push scope) :
    Move limits s [.said (.alreadyDefined name outer.size), .changed] s
  | enter (h : s.depth < limits.callDepth) :
    Move limits s [.entered] { s with depth := s.depth + 1 }
  | leave (h : s.depth = depth + 1) (hs : s.scopes.size ≤ depth + 1) :
    Move limits s [.left] { s with depth := depth }
  | pushScope (h : s.scopes.size ≤ s.depth) :
    Move limits s [.said (.scopePushed s.scopes.size), .changed]
      { s with scopes := s.scopes.push .empty }
  | popScope {outer : Array Scope} (h : s.scopes = outer.push scope) (hs : 0 < outer.size) :
    Move limits s [.said (.scopePopped outer.size), .changed] { s with scopes := outer }

-- What is recorded of a move that led to `s`.
def Moment.record (s : State) (notes : List Note) : List Moment :=
  notes.map fun note => ⟨note, s⟩

inductive Path (limits : Limits) : State → List Moment → State → Prop
  | nil  : Path limits s [] s
  | cons : (Move limits s notes t) → (Path limits t moments u) →
           Path limits s (Moment.record t notes ++ moments) u

namespace Path

variable {limits : Limits} {s t u : State} {moments moments₁ moments₂ : List Moment}

theorem single (m : Move limits s notes t) : Path limits s (Moment.record t notes) t := by
  have h := cons m nil
  rwa [List.append_nil] at h

theorem append (p₁ : Path limits s moments₁ t) (p₂ : Path limits t moments₂ u) :
    Path limits s (moments₁ ++ moments₂) u := by
  induction p₁
  case nil         => exact p₂
  case cons m _ hi => exact List.append_assoc _ _ _ ▸ cons m (hi p₂)

end Path

-- The scopes that are open are accounted for by the blocks that are running.
structure State.Balanced (s : State) : Prop where
  pos : 0 < s.scopes.size
  le  : s.scopes.size ≤ s.depth + 1

-- What is kept by every run from a balanced state. A run that fails leaves the blocks that it was in
-- entered and their scopes open.
structure Accounted (limits : Limits) (s : State) (r : Run Fault Moment α) : Prop where
  path   : Path limits s r.trace r.state
  depth  : s.depth ≤ r.state.depth
  scopes : s.scopes.size ≤ r.state.scopes.size
  growth : r.state.scopes.size + s.depth ≤ s.scopes.size + r.state.depth
  ok     : ∀ x, r.result = .ok x →
           r.state.depth = s.depth ∧ r.state.scopes.size = s.scopes.size ∧
           (s.count ≤ limits.evaluations → r.state.count ≤ limits.evaluations)

namespace Accounted

variable {limits : Limits} {s t : State}

theorem refl (result : Except Fault α) : Accounted limits s ⟨result, s, []⟩ where
  path   := .nil
  depth  := Nat.le_refl _
  scopes := Nat.le_refl _
  growth := Nat.le_refl _
  ok     := fun _ _ => ⟨rfl, rfl, id⟩

theorem move (result : Except Fault α) (m : Move limits s notes t) (hd : t.depth = s.depth)
    (hs : t.scopes.size = s.scopes.size) (hc : t.count = s.count) :
    Accounted limits s ⟨result, t, Moment.record t notes⟩ where
  path   := .single m
  depth  := Nat.le_of_eq hd.symm
  scopes := Nat.le_of_eq hs.symm
  growth := Nat.le_of_eq (by rw [hd, hs])
  ok     := fun _ _ => ⟨hd, hs, by rw [hc]; exact id⟩

theorem balanced {r : Run Fault Moment α} (h : Accounted limits s r) (hs : s.Balanced)
    (hr : r.result = .ok x) : r.state.Balanced := by
  have ⟨hd, hn, _⟩ := h.ok x hr
  have ⟨hpos, hle⟩ := hs
  exact ⟨by omega, by omega⟩

-- A run that goes on from where another one succeeded.
theorem trans {r : Run Fault Moment β} (h₁ : Accounted limits s ⟨.ok x, t, trace⟩)
    (h₂ : Accounted limits t r) :
    Accounted limits s ⟨r.result, r.state, trace ++ r.trace⟩ := by
  have ⟨hd, hs, hc⟩ := h₁.ok x rfl
  have hd₂ := h₂.depth
  have hs₂ := h₂.scopes
  have hg₂ := h₂.growth
  simp only at hd hs hc
  refine ⟨h₁.path.append h₂.path, ?_, ?_, ?_, ?_⟩
  case refine_1 => simp only; omega
  case refine_2 => simp only; omega
  case refine_3 => simp only; omega
  case refine_4 =>
    intro y hy
    have ⟨hd', hs', hc'⟩ := h₂.ok y hy
    exact ⟨hd'.trans hd, hs'.trans hs, hc' ∘ hc⟩

-- A run with the error of its first part.
theorem error (h : Accounted (α := α) limits s ⟨.error e, t, trace⟩) :
    Accounted (α := β) limits s ⟨.error e, t, trace⟩ :=
  ⟨h.path, h.depth, h.scopes, h.growth, fun _ hx => nomatch hx⟩

end Accounted

namespace Contract

def accounted (limits : Limits) : Contract Moment where
  watch    := .moments limits
  pre      := State.Balanced
  post s r := Accounted limits s r

variable {limits : Limits}

theorem accounted_bind {a : Op Moment α} {f : α → Op Moment β} (ha : (accounted limits).Holds a)
    (hf : ∀ x, (accounted limits).Holds (f x)) : (accounted limits).Holds (a >>= f) := by
  intro s hs
  have ha := ha s hs
  simp only [accounted] at ha ⊢
  cases hr : a (.moments limits) s
  case mk result t trace =>
    rw [hr] at ha
    cases result
    case error => rw [Act.bind_error hr]; exact ha.error
    case ok x  => rw [Act.bind_ok hr]; exact ha.trans (hf x t (ha.balanced hs rfl))

theorem accounted_startEvaluation (v : Value) :
    (accounted limits).Holds (Op.startEvaluation v) := by
  intro s hs
  simp only [accounted, Op.startEvaluation_run]
  have p : Path limits s [] { s with count := s.count + 1 } := .cons .count .nil
  split
  case isTrue h =>
    have m : Move limits { s with count := s.count + 1 } [.said (.evaluating v)] _ := .say rfl
    refine ⟨p.append (.single m), Nat.le_refl _, Nat.le_refl _, Nat.le_refl _, ?_⟩
    exact fun _ _ => ⟨rfl, rfl, fun _ => h⟩
  case isFalse h =>
    exact ⟨p, Nat.le_refl _, Nat.le_refl _, Nat.le_refl _, fun _ h => nomatch h⟩

theorem accounted_push (v : Value) : (accounted limits).Holds (Op.push v) := by
  intro s hs
  simp only [accounted, Op.push_run]
  split
  case isTrue h  => exact .move _ (.push h) rfl rfl rfl
  case isFalse h => exact .refl _

theorem accounted_pop : (accounted limits).Holds Op.pop := by
  intro s hs
  simp only [accounted, Op.pop_run]
  cases hb : s.stack.back?
  case none   => exact .refl _
  case some v =>
    have ⟨older, ho⟩ := Array.back?_eq_some_iff.mp hb
    have m : Move limits s _ _ := .pop ho
    simp only [ho, Array.pop_push]
    exact .move _ m rfl rfl rfl

theorem accounted_put : (accounted limits).Holds (Op.pop >>= Op.output) := by
  intro s hs
  simp only [accounted, Op.put_run]
  cases hb : s.stack.back?
  case none   => exact .refl _
  case some v =>
    have ⟨older, ho⟩ := Array.back?_eq_some_iff.mp hb
    have m : Move limits s _ _ := .put ho
    simp only [ho, Array.pop_push]
    exact .move _ m rfl rfl rfl

theorem accounted_closeBlock : (accounted limits).Holds Op.closeBlock := by
  intro s hs
  simp only [accounted, Op.closeBlock_run]
  cases hb : s.blocks.back?
  case none      => exact .refl _
  case some body =>
    have ⟨older, ho⟩ := Array.back?_eq_some_iff.mp hb
    have m : Move limits s _ _ := .closing ho
    simp only [ho, Array.pop_push]
    exact .move _ m rfl rfl rfl

theorem accounted_capture (v : Value) {s : State} (h : s.blocks.isEmpty = false) :
    Accounted limits s (Op.capture v (.moments limits) s) := by
  have hn : s.blocks ≠ #[] := by simpa using h
  have ⟨older, body, ho⟩ := Array.exists_push_of_ne_empty hn
  have m : Move limits s _ _ := .capture (v := v) ho
  simp only [Op.capture, Act.change, ho, Stack.amendLast_push]
  exact .move _ m rfl rfl rfl

theorem accounted_bindName (name : String) (v : Value) :
    (accounted limits).Holds (Op.bindName name v) := by
  intro s hs
  have ⟨outer, scope, ho⟩ := Array.exists_push_of_size_pos hs.pos
  simp only [accounted, Op.bindName_run]
  cases hb : s.isBound name
  case true =>
    have hn : (scope.get? name).isSome := by simpa [State.isBound, ho] using hb
    have m : Move limits s [.said (.alreadyDefined name _), _] s := .redefine hn ho
    simp only [ho, Array.size_push]
    exact .move _ m rfl rfl rfl
  case false =>
    have hn : scope.get? name = none := by simpa [State.isBound, ho] using hb
    have m : Move limits s _ _ := .define (v := v) ho hn
    simp only [ho, Stack.amendLast_push, Array.size_push]
    exact .move _ m rfl (by simp [ho]) rfl

end Contract

namespace Op

variable {limits : Limits} {s : State}

theorem insideFrame_depth : (frame : Frame) → (insideFrame s frame).depth = s.depth + 1
  | .inPlace | .scoped => rfl

theorem insideFrame_count : (frame : Frame) → (insideFrame s frame).count = s.count
  | .inPlace | .scoped => rfl

theorem insideFrame_scopes (frame : Frame) :
    s.scopes.size ≤ (insideFrame s frame).scopes.size ∧
    (insideFrame s frame).scopes.size ≤ s.scopes.size + 1 := by
  cases frame <;> simp [insideFrame]

theorem insideFrame_balanced (hs : s.Balanced) (frame : Frame) : (insideFrame s frame).Balanced := by
  have ⟨hpos, hle⟩ := hs
  have hd := insideFrame_depth (s := s) frame
  have hn := insideFrame_scopes (s := s) frame
  exact ⟨by omega, by omega⟩

theorem openFrame_path (hs : s.Balanced) (hd : s.depth < limits.callDepth) (frame : Frame) :
    ∃ trace, openFrame frame (.moments limits) s = ⟨.ok (), insideFrame s frame, trace⟩ ∧
      Path limits s trace (insideFrame s frame) := by
  let t := { s with depth := s.depth + 1 }
  have he : enter (.moments limits) s = ⟨.ok (), t, Moment.record t [.entered]⟩ := by
    rw [enter_run]
    exact if_pos hd
  have p : Path limits s (Moment.record t [.entered]) t := .single (.enter hd)
  match frame with
  | .inPlace => exact ⟨_, he, p⟩
  | .scoped  =>
    let u := insideFrame s .scoped
    have hp : pushScope (.moments limits) t =
        ⟨.ok (), u, Moment.record u [.said (.scopePushed t.scopes.size), .changed]⟩ := by
      simp [pushScope, Act.change, Watch.moments, Moment.record, insideFrame, t, u]
    have hr := Act.bind_ok (f := fun _ => pushScope) he
    rw [hp] at hr
    exact ⟨_, hr, p.append (.single (.pushScope hs.le))⟩

-- However the body has gone, the frame can be closed if the body has kept the depth and the number
-- of scopes that it found.
theorem closeFrame_path {t : State} (limits : Limits) (hs : s.Balanced) (frame : Frame)
    (hd : t.depth = (insideFrame s frame).depth)
    (hn : t.scopes.size = (insideFrame s frame).scopes.size) :
    ∃ u trace, closeFrame frame (.moments limits) t = ⟨.ok (), u, trace⟩ ∧
      Path limits t trace u ∧ u.depth = s.depth ∧ u.scopes.size = s.scopes.size ∧
      u.count = t.count := by
  match frame with
  | .inPlace =>
    simp only [insideFrame] at hd hn
    let u := { t with depth := s.depth }
    have hl : leave (.moments limits) t = ⟨.ok (), u, Moment.record u [.left]⟩ := by
      simp [leave, Act.change, Watch.moments, Moment.record, hd, u]
    have m : Move limits t [.left] u := .leave hd (hn ▸ hs.le)
    exact ⟨u, _, hl, .single m, rfl, hn, rfl⟩
  | .scoped =>
    simp only [insideFrame, Array.size_push] at hd hn
    obtain ⟨outer, scope, ho⟩ := Array.exists_push_of_size_eq_add_one hn
    have hsize : outer.size = s.scopes.size := by simpa [ho] using hn
    let t' := { t with scopes := outer }
    let u  := { t' with depth := s.depth }
    have hp : popScope (.moments limits) t =
        ⟨.ok (), t', Moment.record t' [.said (.scopePopped outer.size), .changed]⟩ := by
      simp [popScope, Act.change, Watch.moments, Moment.record, ho, t']
    have hl : leave (.moments limits) t' = ⟨.ok (), u, Moment.record u [.left]⟩ := by
      simp [leave, Act.change, Watch.moments, Moment.record, hd, u, t']
    have m₁ : Move limits t _ t' := .popScope ho (hsize ▸ hs.pos)
    have m₂ : Move limits t' [.left] u := .leave hd (hsize ▸ hs.le)
    have hr := Act.bind_ok (f := fun _ => leave) hp
    rw [hl] at hr
    exact ⟨u, _, hr, .cons m₁ (.single m₂), rfl, hsize, rfl⟩

end Op

namespace Contract

variable {limits : Limits}

theorem accounted_within (frame : Frame) {body : Op Moment Unit}
    (hb : (accounted limits).Holds body) : (accounted limits).Holds (Op.within frame body) := by
  intro s hs
  rw [Op.within_eq]
  simp only [accounted]
  by_cases hlimit : s.depth < limits.callDepth
  case neg =>
    rw [Act.bind_error (Op.openFrame_error hlimit frame)]
    exact .refl _
  case pos =>
    have ⟨trace, hopen, p⟩ := Op.openFrame_path hs hlimit frame
    have hbody := hb _ (Op.insideFrame_balanced hs frame)
    have hd := Op.insideFrame_depth (s := s) frame
    have hn := Op.insideFrame_scopes (s := s) frame
    simp only [accounted] at hbody
    rw [Act.bind_ok hopen]
    cases hr : body (.moments limits) (Op.insideFrame s frame)
    case mk result t trace' =>
      rw [hr] at hbody
      have ⟨p', hd', hn', hg', hok⟩ := hbody
      simp only at p' hd' hn' hg'
      cases result
      case error =>
        rw [Act.bind_error hr]
        refine ⟨p.append p', ?_, ?_, ?_, fun _ h => nomatch h⟩ <;> simp only <;> omega
      case ok x =>
        have ⟨hd'', hn'', hc''⟩ := hok x rfl
        have hopened := Op.insideFrame_count (s := s) frame
        have ⟨u, trace'', hclose, p'', hdu, hnu, hcu⟩ := Op.closeFrame_path limits hs frame hd'' hn''
        rw [Act.bind_ok hr, hclose]
        refine ⟨p.append (p'.append p''), ?_, ?_, ?_, fun _ _ => ⟨hdu, hnu, fun hc => ?_⟩⟩
        case refine_4 =>
          have hinside := hc'' (hopened ▸ hc)
          exact hcu ▸ hinside
        all_goals simp only; omega

theorem accounted_stepwise : (accounted limits).Stepwise where
  pure _            := fun _ _ => .refl _
  bind              := accounted_bind
  fail _            := fun _ _ => .refl _
  say h             := fun _ _ => .move _ (.say (Diagnostic.level_of_announces h)) rfl rfl rfl
  blank             := fun _ _ => .move _ .blank rfl rfl rfl
  startEvaluation   := accounted_startEvaluation
  push              := accounted_push
  pop               := accounted_pop
  openBlock         := fun _ _ => .move _ .opening rfl rfl rfl
  closeBlock        := accounted_closeBlock
  capture v _ h _   := accounted_capture v h
  bindName          := accounted_bindName
  put               := accounted_put
  within            := accounted_within

end Contract

namespace Op

variable {limits : Limits} {s : State}

theorem eval_accounted (v : Value) (hs : s.Balanced) :
    Accounted limits s (eval v (.moments limits) s) :=
  Contract.accounted_stepwise.eval v s hs

theorem step_accounted (word : String) (hs : s.Balanced) :
    Accounted limits s (step word (.moments limits) s) :=
  Contract.accounted_stepwise.step word s hs

end Op
end StackScript
