import StackScript.Proofs.Observation

namespace StackScript

namespace Limits

-- The one admits no more than the other.
instance : LE Limits where
  le limits₁ limits₂ :=
    limits₁.stackSize ≤ limits₂.stackSize ∧ limits₁.callDepth ≤ limits₂.callDepth ∧
    limits₁.evaluations ≤ limits₂.evaluations

instance (limits₁ limits₂ : Limits) : Decidable (limits₁ ≤ limits₂) :=
  inferInstanceAs (Decidable (_ ∧ _ ∧ _))

end Limits

structure State.Within (limits : Limits) (s : State) : Prop where
  stack : s.stack.size ≤ limits.stackSize
  depth : s.depth ≤ limits.callDepth
  count : s.count ≤ limits.evaluations

theorem State.Within.initial (limits : Limits) : State.initial.Within limits :=
  ⟨Nat.zero_le _, Nat.zero_le _, Nat.zero_le _⟩

-- A run has gone beyond the limit that a fault tells of.
inductive Run.Beyond (limits : Limits) (r : Run ε Moment α) : Fault → Prop
  | stack (h : m ∈ r.trace) (hn : m.note = .changed) (hs : limits.stackSize < m.state.stack.size) :
    Beyond limits r (.stackOverflow limits.stackSize)
  | depth (h : m ∈ r.trace) (hd : limits.callDepth < m.state.depth) :
    Beyond limits r (.callDepthExceeded limits.callDepth)
  | count (h : limits.evaluations < r.state.count) :
    Beyond limits r (.evaluationsExceeded limits.evaluations)

-- A run that shows more, and has come further, is beyond the same limits.
theorem Run.Beyond.mono {r : Run ε Moment α} {r' : Run ε' Moment β} (ht : r.trace ⊆ r'.trace)
    (hc : r.state.count ≤ r'.state.count) : r.Beyond limits fault → r'.Beyond limits fault
  | stack h hn hs => stack (ht h) hn hs
  | depth h hd    => depth (ht h) hd
  | count h       => count (Nat.lt_of_lt_of_le h hc)

-- The run `r` under the limits is the run `r'`, either the whole of it or what comes before a limit.
-- `cause` gives the fault behind an error.
inductive Run.Shortens (cause : ε → Fault) (limits : Limits) (r r' : Run ε Moment α) : Prop
  | whole (h : r = r') (hs : ∀ x, r.result = .ok x → r.state.Within limits)
    (hm : ∀ m ∈ r.trace, m.state.Within limits)
  | cut (hr : r.result = .error e) (hl : (cause e).isLimit)
    (hc : ∀ n, cause e = .evaluationsExceeded n → r.state.count = n + 1)
    (hp : r.trace <+: r'.trace) (hb : ∀ x, r'.result = .ok x → r'.Beyond limits (cause e))

-- A step that a limit guards is made under both limits, under neither, or under the higher one only,
-- and then it is the step that goes beyond the lower one.
theorem Run.Shortens.guarded [Decidable p] [Decidable p'] {s t : State} {trace : List Moment}
    (hp : p → p') (hm : p → t.Within limits ∧ ∀ m ∈ trace, m.state.Within limits)
    (hl : fault.isLimit) (hc : ∀ n, fault = .evaluationsExceeded n → s.count = n + 1)
    (hb : ¬p → Run.Beyond limits (⟨.ok x, t, trace⟩ : Run Fault Moment α) fault) :
    Run.Shortens id limits (if p then ⟨.ok x, t, trace⟩ else ⟨.error fault, s, []⟩)
      (if p' then ⟨.ok x, t, trace⟩ else ⟨.error fault', s, []⟩) := by
  by_cases h : p
  case pos =>
    have ⟨ht, hm⟩ := hm h
    rw [if_pos h, if_pos (hp h)]
    exact .whole rfl (fun _ _ => ht) hm
  case neg =>
    rw [if_neg h]
    refine .cut rfl hl hc (List.nil_prefix) fun y hy => ?_
    split at hy
    case isTrue h' => rw [if_pos h']; exact hb h
    case isFalse   => cases hy

namespace Act

-- The same for what two actions do from any state. The count of evaluations never goes back.
def Shortens (cause : ε → Fault) (limits limits' : Limits) (a a' : Act ε Moment α) : Prop :=
  ∀ s : State,
    s.count ≤ (a' (.moments limits') s).state.count ∧
    (s.Within limits → (a (.moments limits) s).Shortens cause limits (a' (.moments limits') s))

namespace Shortens

variable {ε : Type} {cause : ε → Fault} {limits limits' : Limits}

theorem pure (x : α) : Shortens cause limits limits' (pure x) (pure x) :=
  fun _ => ⟨Nat.le_refl _, fun hs => .whole rfl (fun _ _ => hs) (by simp)⟩

theorem fail (e : ε) : Shortens (α := α) cause limits limits' (fail e) (fail e) :=
  fun _ => ⟨Nat.le_refl _, fun _ => .whole rfl (fun _ h => nomatch h) (by simp)⟩

theorem view (f : State → α) : Shortens cause limits limits' (view f) (view f) :=
  fun _ => ⟨Nat.le_refl _, fun hs => .whole rfl (fun _ _ => hs) (by simp [Act.view])⟩

-- What no limit guards is the same under all limits, if it takes nothing that is limited.
theorem change {f : State → State} (notes : State → List Note)
    (hc : ∀ s, (f s).count = s.count := by intro; rfl)
    (hd : ∀ s, (f s).depth ≤ s.depth := by intro; exact Nat.le_refl _)
    (hs : ∀ s, (f s).stack.size ≤ s.stack.size := by intro; exact Nat.le_refl _) :
    Shortens cause limits limits' (change f notes) (change f notes) := by
  intro s
  refine ⟨Nat.le_of_eq (hc s).symm, fun hw => ?_⟩
  have hw : (f s).Within limits :=
    ⟨Nat.le_trans (hs s) hw.stack, Nat.le_trans (hd s) hw.depth, hc s ▸ hw.count⟩
  refine .whole rfl (fun _ _ => hw) fun m hm => ?_
  have ⟨_, _, hm⟩ := List.mem_flatMap.mp hm
  cases List.mem_singleton.mp hm
  exact hw

theorem bind {a a' : Act ε Moment α} {f f' : α → Act ε Moment β}
    (ha : Shortens cause limits limits' a a') (hf : ∀ x, Shortens cause limits limits' (f x) (f' x)) :
    Shortens cause limits limits' (a >>= f) (a' >>= f') := by
  intro s
  have ⟨hn, hs⟩ := ha s
  rcases h' : a' (.moments limits') s with ⟨result', t', trace'⟩
  rw [h'] at hn hs
  refine ⟨?count, fun hw => ?run⟩
  case count =>
    cases result'
    case error => rw [bind_error h']; exact hn
    case ok x  => rw [bind_ok h']; exact Nat.le_trans hn (hf x t').1
  case run =>
    cases hs hw
    case whole h hs hm =>
      rw [h] at hs hm
      rcases result' with _ | x
      case error =>
        rw [bind_error h, bind_error h']
        exact .whole rfl (fun _ h => nomatch h) hm
      case ok =>
        rw [bind_ok h, bind_ok h']
        cases (hf x t').2 (hs x rfl)
        case whole h hs hm' =>
          refine .whole (by rw [h]) hs fun m hmem => ?_
          exact (List.mem_append.mp hmem).elim (hm m) (hm' m)
        case cut hr hl hc hp hb =>
          refine .cut hr hl hc ((List.prefix_append_right_inj trace').mpr hp) fun y hy => ?_
          exact (hb y hy).mono (List.subset_append_right _ _) (Nat.le_refl _)
    case cut hr hl hc hp hb =>
      rcases h : a (.moments limits) s with ⟨result, t, trace⟩
      rw [h] at hr hc hp
      cases hr
      rw [bind_error h]
      cases result'
      case error =>
        rw [bind_error h']
        exact .cut rfl hl hc hp fun _ h => nomatch h
      case ok x =>
        rw [bind_ok h']
        refine .cut rfl hl hc (hp.trans (List.prefix_append _ _)) fun _ _ => ?_
        exact (hb x rfl).mono (List.subset_append_left _ _) (hf x t').1

theorem forM {f f' : β → Act ε Moment Unit} (h : ∀ x, Shortens cause limits limits' (f x) (f' x)) :
    (xs : List β) → Shortens cause limits limits' (xs.forM f) (xs.forM f')
  | []      => pure ()
  | x :: xs => bind (h x) fun _ => forM h xs

theorem mapError {cause' : ε' → Fault} {f : State → ε → ε'} {a a' : Act ε Moment α}
    (hf : ∀ s e, cause' (f s e) = cause e) (h : Shortens cause limits limits' a a') :
    Shortens cause' limits limits' (a.mapError f) (a'.mapError f) := by
  intro s
  obtain ⟨hn, hs⟩ := h s
  rcases h₁ : a (.moments limits) s with ⟨result, t, trace⟩
  rcases h₂ : a' (.moments limits') s with ⟨result', t', trace'⟩
  rw [h₂] at hn
  rw [h₁, h₂] at hs
  have hstate : (a'.mapError f (.moments limits') s).state = t' := by
    cases result' <;> simp [Act.mapError, h₂]
  refine ⟨hstate ▸ hn, fun hw => ?_⟩
  cases hs hw
  case whole h hok hm =>
    cases h
    rcases result with _ | x <;> simp only [Act.mapError, h₁, h₂]
    case error => exact .whole rfl (fun _ h => by cases h) hm
    case ok    => exact .whole rfl (fun _ _ => hok x rfl) hm
  case cut e hr hl hc hp hb =>
    cases hr
    rw [← hf t e] at hl hc hb
    rcases result' with _ | x <;> simp only [Act.mapError, h₁, h₂]
    case error => exact .cut rfl hl hc hp fun _ h => by cases h
    case ok    =>
      have hb := hb x rfl
      exact .cut rfl hl hc hp fun _ _ => hb.mono (List.Subset.refl trace') (Nat.le_refl t'.count)

end Shortens
end Act

namespace Coupling

variable {limits limits' : Limits}

def shortened (limits limits' : Limits) : Coupling Moment Moment where
  watch₁         := .moments limits
  watch₂         := .moments limits'
  pre s₁ s₂      := s₁ = s₂
  post s _ r₁ r₂ := s.count ≤ r₂.state.count ∧ (s.Within limits → r₁.Shortens id limits r₂)

open Act

theorem shortened_of {a a' : Op Moment α} (h : Shortens id limits limits' a a') :
    (shortened limits limits').Holds a a'
  | s, _, rfl => h s

theorem shortens_of {a a' : Op Moment α} (h : (shortened limits limits').Holds a a') :
    Shortens id limits limits' a a' :=
  fun s => h s s rfl

theorem shortens_pop : Shortens id limits limits' Op.pop Op.pop := by
  refine .bind (.view _) fun top => ?_
  cases top
  case none => exact .fail _
  case some =>
    refine .bind (.change _ (fun _ => rfl) (fun _ => Nat.le_refl _) fun _ => ?_) fun _ => .pure _
    simp

theorem shortens_closeBlock : Shortens id limits limits' Op.closeBlock Op.closeBlock := by
  refine .bind (.view _) fun newest => ?_
  cases newest
  case none => exact .fail _
  case some => exact .bind (.change _) fun _ => .pure _

theorem shortens_bindName (name : String) (v : Value) :
    Shortens id limits limits' (Op.bindName name v) (Op.bindName name v) := by
  refine .bind (.view _) fun bound => ?_
  split <;> exact .change _

section Guarded

variable (hle : limits ≤ limits')
include hle

theorem shortens_startEvaluation (v : Value) :
    Shortens id limits limits' (Op.startEvaluation v) (Op.startEvaluation v) := by
  intro s
  simp only [Op.startEvaluation_run, Watch.moments]
  refine ⟨by split <;> exact Nat.le_succ _, fun hs => ?_⟩
  refine .guarded (fun h => Nat.lt_of_lt_of_le h hle.2.2) (fun h => ?_) rfl ?_ fun h => ?_
  · have ht : State.Within limits { s with count := s.count + 1 } := ⟨hs.stack, hs.depth, h⟩
    exact ⟨ht, by simpa using ht⟩
  · rintro _ ⟨⟩
    rfl
  · have he : s.count = limits.evaluations := Nat.le_antisymm hs.count (Nat.le_of_not_lt h)
    rw [he]
    exact .count (Nat.lt_succ_self _)

theorem shortens_push (v : Value) : Shortens id limits limits' (Op.push v) (Op.push v) := by
  intro s
  simp only [Op.push_run, Watch.moments]
  refine ⟨by split <;> exact Nat.le_refl _, fun hs => ?_⟩
  refine .guarded (fun h => Nat.lt_of_lt_of_le h hle.1) (fun h => ?_) rfl (by rintro _ ⟨⟩) fun h => ?_
  · have ht : State.Within limits { s with stack := s.stack.push v } :=
      ⟨by simpa using Nat.succ_le_of_lt h, hs.depth, hs.count⟩
    exact ⟨ht, by simpa using ht⟩
  · refine .stack List.mem_cons_self rfl ?_
    simpa using Nat.lt_succ_of_le (Nat.le_of_not_lt h)

theorem shortens_enter : Shortens id limits limits' Op.enter Op.enter := by
  intro s
  simp only [Op.enter_run, Watch.moments]
  refine ⟨by split <;> exact Nat.le_refl _, fun hs => ?_⟩
  refine .guarded (fun h => Nat.lt_of_lt_of_le h hle.2.1) (fun h => ?_) rfl (by rintro _ ⟨⟩) fun h => ?_
  · have ht : State.Within limits { s with depth := s.depth + 1 } := ⟨hs.stack, h, hs.count⟩
    exact ⟨ht, by simpa using ht⟩
  · exact .depth List.mem_cons_self (Nat.lt_succ_of_le (Nat.le_of_not_lt h))

theorem shortened_stable : (shortened limits limits').Stable where
  pure x            := shortened_of (.pure x)
  bind ha hf        := shortened_of (.bind (shortens_of ha) fun x => shortens_of (hf x))
  fail _            := shortened_of (.fail _)
  say d             := shortened_of (.change fun _ => [.said _])
  startEvaluation v := shortened_of (shortens_startEvaluation hle v)
  push v            := shortened_of (shortens_push hle v)
  pop               := shortened_of shortens_pop
  capture _ _ _ _ h := shortened_of (.change _) _ _ h
  bindName name v   := shortened_of (shortens_bindName name v)
  put               := shortened_of (.bind shortens_pop fun _ => .change _)
  isEmpty h         := by cases h; rfl
  lookup? _ h       := by cases h; rfl

theorem shortened_stepwise : (shortened limits limits').Stepwise where
  toClosed   :=
    (shortened_stable hle).closed (shortened_of (shortens_enter hle))
      (shortened_of (.change _ (fun _ => rfl) fun _ => Nat.sub_le _ _)) (shortened_of (.change _))
      (shortened_of (.change _))
  blank      := shortened_of (.change fun _ => [.changed])
  openBlock  := shortened_of (.change _)
  closeBlock := shortened_of shortens_closeBlock

end Guarded
end Coupling

open Act

namespace Program

variable {limits limits' : Limits} (hle : limits ≤ limits')
include hle

theorem stepToken_shortens (token : Token) :
    Shortens RunError.fault limits limits' (stepToken token) (stepToken token) :=
  .mapError (fun _ _ => rfl) <|
    Coupling.shortens_of ((Coupling.shortened_stepwise hle).step token.text)

-- The run lemma: what is cut short at one token is cut short there as a whole.
theorem run_shortens (source : String) :
    Shortens RunError.fault limits limits' (run source) (run source) := by
  refine .bind (.forM (stepToken_shortens hle) _) fun _ => .bind (.view _) fun blocks => ?_
  split
  case isTrue  => exact .change fun _ => [.said _]
  case isFalse => exact .pure ()

end Program

theorem start_shortens (hle : limits ≤ limits') (source : String) :
    (start (.moments limits) source).Shortens RunError.fault limits
      (start (.moments limits') source) :=
  (Program.run_shortens hle source .initial).2 (.initial limits)

theorem start_events (limits : Limits) (source : String) :
    let r := start (.moments limits) source
    start (.events limits) source = ⟨r.result, r.state, r.trace.filterMap Moment.event?⟩ := by
  have h := Program.run_recorded (.events limits) source .initial
  rwa [Run.seenBy, Watch.select_events] at h

theorem lower_limits_cut_short (source : String) (limits limits' : Limits) (hle : limits ≤ limits') :
    let r  := start (.events limits) source
    let r' := start (.events limits') source
    r.trace <+: r'.trace ∧
    (∀ e, r.result = .error e → e.fault.isLimit = false →
      r'.result = .error e ∧ r'.trace = r.trace) ∧
    (r.result = .ok () → r' = r) := by
  simp only [start_events]
  cases start_shortens hle source
  case whole h _ _ =>
    rw [h]
    exact ⟨List.prefix_rfl, fun _ h _ => ⟨h, rfl⟩, fun _ => rfl⟩
  case cut hr hl _ hp _ =>
    rw [hr]
    refine ⟨hp.filterMap _, ?_, nofun⟩
    rintro _ ⟨⟩ hn
    rw [hl] at hn
    cases hn

-- A program that fails inside a block, where it has used all that the lower limits admit.
def failingText : String :=
  "/f \x7b /a x \x7d def f"

theorem exists_error_of {result : Except ε α} {p : ε → Bool}
    (h : (match result with | .error e => p e | .ok _ => false) = true) :
    ∃ e, result = .error e ∧ p e = true := by
  cases result
  case error e => exact ⟨e, rfl, h⟩
  case ok      => cases h

theorem undefined_name_under_lower_limits :
    let limits : Limits := ⟨2, 1, 9⟩
    let r  := start (.events limits) failingText
    let r' := start (.events {}) failingText
    limits ≤ {} ∧ r.trace <+: r'.trace ∧
    ∃ e, r.result = .error e ∧ e.fault.isLimit = false ∧ e.count = 9 ∧
      r'.result = .error e ∧ r'.trace = r.trace := by
  intro limits r r'
  have hle : limits ≤ {} := by decide
  have ⟨e, hr, he⟩ : ∃ e, r.result = .error e ∧ decide (e.fault.isLimit = false ∧ e.count = 9) :=
    exists_error_of (by decide +kernel +zetaReduce)
  have ⟨hl, hc⟩ := of_decide_eq_true he
  have ⟨hp, hsame, _⟩ := lower_limits_cut_short failingText limits {} hle
  exact ⟨hle, hp, e, hr, hl, hc, hsame e hr hl⟩

end StackScript
