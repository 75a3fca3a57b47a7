import StackScript.Proofs.Capture
import StackScript.Proofs.WellFormed

namespace StackScript

-- What the one scope binds, the other one binds to the same value.
def Scope.KeptIn (scope₁ scope₂ : Scope) : Prop :=
  ∀ name v, scope₁.get? name = some v → scope₂.get? name = some v

namespace Scope.KeptIn

theorem refl (scope : Scope) : scope.KeptIn scope :=
  fun _ _ h => h

theorem trans {scope₁ scope₂ scope₃ : Scope} (h₁ : scope₁.KeptIn scope₂)
    (h₂ : scope₂.KeptIn scope₃) : scope₁.KeptIn scope₃ :=
  fun name v h => h₂ name v (h₁ name v h)

-- Only names that were free are bound.
theorem insert {scope : Scope} (hn : scope.get? name = none) (v : Value) :
    scope.KeptIn (scope.insert name v) := by
  intro n u h
  have hne : n ≠ name := by
    rintro rfl
    simp [hn] at h
  rw [get?_insert, if_neg hne, h]

end Scope.KeptIn

-- The scopes `before` have become `after`: the innermost has gained bindings, those around it are
-- as they were, and the scopes `opened` have come on top.
def Scope.Grown (before opened after : Array Scope) : Prop :=
  ∀ (outer : Array Scope) (scope : Scope), before = outer.push scope →
    ∃ scope', scope.KeptIn scope' ∧ after = outer.push scope' ++ opened

namespace Scope.Grown

theorem refl (scopes : Array Scope) : Grown scopes #[] scopes :=
  fun _ scope h => ⟨scope, .refl scope, by simp [h]⟩

theorem trans {scopes₁ scopes₂ scopes₃ opened : Array Scope} (h₁ : Grown scopes₁ #[] scopes₂)
    (h₂ : Grown scopes₂ opened scopes₃) : Grown scopes₁ opened scopes₃ := by
  intro outer scope h
  have ⟨scope', hk, h'⟩ := h₁ outer scope h
  have ⟨scope'', hk', h''⟩ := h₂ outer scope' (by simpa using h')
  exact ⟨scope'', hk.trans hk', h''⟩

-- What has grown on a new scope has grown on the scopes below it, and they are as they were.
theorem of_push_empty {scopes after opened : Array Scope}
    (h : Grown (scopes.push .empty) opened after) :
    ∃ scope, after = scopes ++ (#[scope] ++ opened) := by
  have ⟨scope, _, ha⟩ := h scopes .empty rfl
  exact ⟨scope, by rw [ha, Array.push_eq_append, Array.append_assoc]⟩

end Scope.Grown

-- What every run does to the scopes; only a run that fails leaves scopes open.
def Run.Disciplined (s : State) (r : Run Fault κ α) : Prop :=
  ∃ opened, Scope.Grown s.scopes opened r.state.scopes ∧ ∀ x, r.result = .ok x → opened = #[]

namespace Contract

variable {κ : Type} {w : Watch κ}

def disciplined (w : Watch κ) : Contract κ where
  watch    := w
  pre _    := True
  post s r := r.Disciplined s

theorem disciplined_of_eq {a : Op κ α} (h : ∀ s, (a w s).state.scopes = s.scopes) :
    (disciplined w).Holds a := by
  intro s _
  refine ⟨#[], ?_, fun _ _ => rfl⟩
  simp only [disciplined, h s]
  exact .refl _

theorem disciplined_bind {a : Op κ α} {f : α → Op κ β} (ha : (disciplined w).Holds a)
    (hf : ∀ x, (disciplined w).Holds (f x)) : (disciplined w).Holds (a >>= f) := by
  intro s _
  have ha := ha s trivial
  simp only [disciplined] at ha ⊢
  cases hr : a w s
  case mk result t trace =>
    rw [hr] at ha
    have ⟨opened, hg, hok⟩ := ha
    cases result
    case error =>
      rw [Act.bind_error hr]
      exact ⟨opened, hg, fun _ h => nomatch h⟩
    case ok x =>
      have ho := hok x rfl
      subst ho
      have ⟨opened', hg', hok'⟩ := hf x t trivial
      rw [Act.bind_ok hr]
      exact ⟨opened', hg.trans hg', hok'⟩

theorem disciplined_bindName (name : String) (v : Value) :
    (disciplined w).Holds (Op.bindName name v) := by
  intro s _
  simp only [disciplined, Op.bindName_run]
  cases hb : s.isBound name
  case true  => exact ⟨#[], .refl _, fun _ _ => rfl⟩
  case false =>
    refine ⟨#[], fun outer scope ho => ?_, fun _ _ => rfl⟩
    have hn : scope.get? name = none := by simpa [State.isBound, ho] using hb
    exact ⟨_, .insert hn v, by simp [ho]⟩

-- The scopes that a body starts with are those around its block, and one more in a frame of its
-- own.
theorem disciplined_within (frame : Frame) {body : Op κ Unit} (hb : (disciplined w).Holds body) :
    (disciplined w).Holds (Op.within frame body) := by
  intro s _
  simp only [disciplined]
  by_cases hd : s.depth < w.limits.callDepth
  case neg =>
    rw [Op.within_error body hd]
    exact ⟨#[], .refl _, fun _ _ => rfl⟩
  case pos =>
    have ⟨trace, hr⟩ := Op.within_run body hd frame
    have ⟨opened, hg, hok⟩ := hb (Op.insideFrame s frame) trivial
    simp only [disciplined] at hg hok
    rw [hr]
    cases hresult : (body w (Op.insideFrame s frame)).result <;> cases frame
    case error.inPlace => exact ⟨opened, hg, fun _ h => nomatch h⟩
    case error.scoped  =>
      have ⟨scope, ha⟩ := hg.of_push_empty
      refine ⟨#[scope] ++ opened, fun outer inner h => ⟨inner, .refl _, ?_⟩, fun _ h => nomatch h⟩
      simp only [ha, h]
    case ok.inPlace x =>
      have ho := hok x hresult
      subst ho
      exact ⟨#[], hg, fun _ _ => rfl⟩
    case ok.scoped x =>
      have ho := hok x hresult
      subst ho
      have ⟨scope, ha⟩ := hg.of_push_empty
      refine ⟨#[], ?_, fun _ _ => rfl⟩
      simp only [Op.outsideFrame, ha, Array.append_empty, Array.append_singleton, Array.pop_push]
      exact .refl _

theorem disciplined_stepwise : (disciplined w).Stepwise where
  pure _            := disciplined_of_eq fun _ => rfl
  bind              := disciplined_bind
  fail _            := disciplined_of_eq fun _ => rfl
  say _             := disciplined_of_eq fun _ => rfl
  blank             := disciplined_of_eq fun _ => rfl
  startEvaluation _ := disciplined_of_eq fun _ => by rw [Op.startEvaluation_run]; split <;> rfl
  push _            := disciplined_of_eq fun _ => by rw [Op.push_run]; split <;> rfl
  pop               := disciplined_of_eq fun _ => by rw [Op.pop_run]; split <;> rfl
  openBlock         := disciplined_of_eq fun _ => rfl
  closeBlock        := disciplined_of_eq fun _ => by rw [Op.closeBlock_run]; split <;> rfl
  capture _ s _ _   := disciplined_of_eq (fun _ => rfl) s trivial
  bindName          := disciplined_bindName
  put               := disciplined_of_eq fun _ => by rw [Op.put_run]; split <;> rfl
  within            := disciplined_within

end Contract

namespace Op

variable {κ : Type} {w : Watch κ} {s : State}

-- A block that has run to its end in a frame of its own has put back the scopes that it found.
theorem within_scoped_scopes {body : Op κ Unit} (hb : (Contract.disciplined w).Holds body)
    (hok : (within .scoped body w s).result = .ok ()) :
    (within .scoped body w s).state.scopes = s.scopes := by
  by_cases hd : s.depth < w.limits.callDepth
  case neg =>
    rw [within_error body hd] at hok
    cases hok
  case pos =>
    have ⟨trace, hr⟩ := within_run body hd .scoped
    have ⟨opened, hg, hopen⟩ := hb (insideFrame s .scoped) trivial
    rw [hr] at hok ⊢
    have ho := hopen () hok
    subst ho
    have ⟨scope, ha⟩ := hg.of_push_empty
    simp only [Contract.disciplined] at ha hok
    simp [hok, outsideFrame, ha]

theorem eval_call_run (h : s.blocks = #[]) (hl : s.lookup? name = some (.block body)) :
    eval (.operator name) w s =
      (do startEvaluation (.operator name)
          callWithin (w.limits.callDepth - s.depth) .scoped body) w s := by
  have ⟨_, he⟩ := eval_bound_run (w := w) h hl
  exact he

-- A name that is bound to a block stands for a procedure, which cleans up after itself.
theorem eval_call_scopes (h : s.blocks = #[]) (hl : s.lookup? name = some (.block body))
    (hok : (eval (.operator name) w s).result = .ok ()) :
    (eval (.operator name) w s).state.scopes = s.scopes := by
  rw [eval_call_run h hl] at hok ⊢
  have hr := startEvaluation_run (w := w) (s := s) (.operator name)
  have hc := Contract.disciplined_stepwise (w := w)
  have ⟨body', hb, hcall⟩ := hc.callWithin (w.limits.callDepth - s.depth) .scoped body
  split at hr
  case isFalse =>
    rw [Act.bind_error hr] at hok
    cases hok
  case isTrue =>
    rw [Act.bind_ok hr] at hok ⊢
    rw [hcall] at hok ⊢
    exact within_scoped_scopes hb hok

end Op

-- The value that a call asks for the evaluation of, if that does not depend on the open blocks.
def Call.value? : Call → Option Value
  | eval v    => some v
  | step word =>
    match Lexeme.ofWord word with
    | .value v => some v
    | _        => none

theorem Call.disciplined (w : Watch κ) (s : State) :
    (call : Call) → (call.op w s).Disciplined s
  | step word => Contract.disciplined_stepwise.step word s trivial
  | eval v    => Contract.disciplined_stepwise.eval v s trivial

theorem Call.op_eq_eval (w : Watch κ) (s : State) (call : Call) (h : call.value? = some v) :
    (call.op w s).result = (Op.eval v w s).result ∧
      (call.op w s).state = (Op.eval v w s).state := by
  cases call <;> simp only [value?] at h
  case eval => cases h; exact ⟨rfl, rfl⟩
  case step word =>
    simp only [op, Op.step]
    split at h <;> cases h
    case h_1 hw =>
      rw [hw]
      exact ⟨rfl, rfl⟩

theorem Machine.scope_discipline (limits : Limits) (calls : List Call) (call : Call) :
    let m  := ({ limits } : Machine).after calls
    let m' := m.call call
    ∃ (outer : Array Scope) (scope : Scope), m.state.scopes = outer.push scope ∧
      (m'.1 = .ok () →
        ∃ scope', scope.KeptIn scope' ∧ m'.2.state.scopes = outer.push scope') ∧
      (∀ fault, m'.1 = .error fault →
        ∃ scope' opened, scope.KeptIn scope' ∧ m'.2.state.scopes = outer.push scope' ++ opened) ∧
      (∀ name body, call.value? = some (.operator name) → m.state.blocks = #[] →
        m.state.lookup? name = some (.block body) → m'.1 = .ok () →
          m'.2.state.scopes = m.state.scopes ∧
          ∀ n, m'.2.state.lookup? n = m.state.lookup? n) := by
  intro m m'
  have hw : m.state.WellFormed limits := after_wellFormed { limits } .initial calls
  have ⟨outer, scope, ho⟩ := Array.exists_push_of_size_pos hw.scopes_pos
  have hc : m' = m.perform call.op := m.call_eq call
  have ⟨opened, hg, hok⟩ := call.disciplined (.events m.limits) m.state
  have ⟨scope', hk, hs⟩ := hg outer scope ho
  refine ⟨outer, scope, ho, fun h => ?_, fun _ _ => ?_, fun name body hv hb hl h => ?_⟩
  · rw [hc] at h ⊢
    refine ⟨scope', hk, hs.trans ?_⟩
    rw [hok () h, Array.append_empty]
  · rw [hc]
    exact ⟨scope', opened, hk, hs⟩
  · rw [hc] at h ⊢
    have ⟨hresult, hstate⟩ := call.op_eq_eval (.events m.limits) m.state hv
    have hscopes := Op.eval_call_scopes hb hl (hresult.symm.trans h)
    have hscopes : (m.perform call.op).2.state.scopes = m.state.scopes :=
      (congrArg (·.scopes) hstate).trans hscopes
    exact ⟨hscopes, fun n => by rw [State.lookup?, hscopes]; rfl⟩

end StackScript
