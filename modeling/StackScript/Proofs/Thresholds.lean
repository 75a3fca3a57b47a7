import StackScript.Proofs.History
import StackScript.Proofs.Session
import StackScript.Proofs.Shortening

namespace StackScript

-- The heights of the stack that the events of a run show.
def Run.heights (r : Run ε Event α) : List Nat :=
  r.trace.filterMap fun event => event.snapshot?.map (·.stack.size)

-- The depths of calls in the course of a run. Each change of the depth is a moment of its own.
def Run.depths (r : Run ε Moment α) : List Nat :=
  r.trace.map (·.state.depth)

namespace Run

variable {r : Run ε Moment α}

theorem mem_heights_of_changed (hm : m ∈ r.trace) (hn : m.note = .changed) :
    m.state.stack.size ∈ heights ⟨r.result, r.state, r.trace.filterMap Moment.event?⟩ := by
  have he : m.event? = some (.state m.state.toSnapshot) := by
    simp [Moment.event?, hn, Event.ofNote?]
  exact List.mem_filterMap.mpr ⟨_, List.mem_filterMap.mpr ⟨m, hm, he⟩, rfl⟩

theorem exists_of_mem_heights
    (h : n ∈ heights ⟨r.result, r.state, r.trace.filterMap Moment.event?⟩) :
    ∃ m ∈ r.trace, m.state.stack.size = n := by
  have ⟨event, he, hn⟩ := List.mem_filterMap.mp h
  have ⟨⟨note, s⟩, hm, he⟩ := List.mem_filterMap.mp he
  refine ⟨_, hm, ?_⟩
  cases note <;> cases he <;> cases hn <;> rfl

theorem mem_heights_of_snapshot {r : Run ε Event α} (he : event ∈ r.trace)
    (hs : event.snapshot? = some s) : s.stack.size ∈ r.heights :=
  List.mem_filterMap.mpr ⟨event, he, by rw [hs]; rfl⟩

end Run

theorem Op.step_shows (word : String) (hs : s.Balanced)
    (h : step word (.events limits) s = ⟨.ok x, t, events⟩) :
    ∃ event ∈ events, ∃ u, event.snapshot? = some u := by
  have hn : events ≠ [] := by
    rintro rfl
    exact step_tells word s x t h
  have hr := step_recorded (.events limits) word s
  rw [h, Run.seenBy, Watch.select_events] at hr
  have he : events = _ := congrArg Run.trace hr
  rw [he] at hn ⊢
  exact (step_accounted word hs).path.history.exists_snapshot hn

theorem Token.ofSource_ne_nil (source : String) : ofSource source ≠ [] := by
  have ⟨line, lines, hl⟩ := List.exists_cons_of_ne_nil (List.splitOn_ne_nil '\n' source.toList)
  have ⟨word, words, hw⟩ := List.exists_cons_of_ne_nil (List.splitOn_ne_nil ' ' (dropReturn line))
  simp [ofSource, hl, ofLine, hw, place]

namespace Program

variable {w : Watch κ} {s t : State}

theorem run_error_count (h : (run source w s).result = .error e) :
    e.count = (run source w s).state.count := by
  rcases hr : steps (Token.ofSource source) w s with ⟨_ | _, t, trace⟩
  case error e' =>
    have he : run source w s = ⟨.error e', t, trace⟩ := Act.bind_error hr
    rw [he] at h ⊢
    cases h
    have ⟨before, token, _, _, _, herr, hstate, _⟩ := steps_error (congrArg Run.result hr)
    rw [hr] at hstate
    simp only at hstate ⊢
    rw [hstate]
    unfold stepToken Act.mapError at herr ⊢
    split at herr <;> cases herr
    rfl
  case ok =>
    rw [run, Act.bind_ok hr, Act.view_bind] at h
    split at h <;> cases h

-- A program that runs to its end has shown its stack, if only at its first token.
theorem run_heights_ne_nil (h : (start (.events limits) source).result = .ok ()) :
    (start (.events limits) source).heights ≠ [] := by
  obtain ⟨token, rest, ht⟩ := List.exists_cons_of_ne_nil (Token.ofSource_ne_nil source)
  rw [start, run_eq_steps, ht] at h ⊢
  rcases hr : stepToken token (.events limits) .initial with ⟨_ | _, t, events⟩
  case error =>
    rw [steps_cons_error rest hr] at h
    cases h
  case ok =>
    have hw : State.initial.WellFormed limits := .initial
    have hb : State.initial.Balanced := hw.balanced
    obtain ⟨event, he, u, hu⟩ := Op.step_shows token.text hb (stepToken_ok hr)
    rw [steps_cons_ok rest hr]
    exact List.ne_nil_of_mem (Run.mem_heights_of_snapshot (List.mem_append_left _ he) hu)

end Program

-- The least limits that admit what two others admit.
def Limits.join (limits limits' : Limits) : Limits where
  stackSize   := max limits.stackSize limits'.stackSize
  callDepth   := max limits.callDepth limits'.callDepth
  evaluations := max limits.evaluations limits'.evaluations

theorem Limits.le_join_left (limits limits' : Limits) : limits ≤ limits.join limits' :=
  ⟨Nat.le_max_left _ _, Nat.le_max_left _ _, Nat.le_max_left _ _⟩

theorem Limits.le_join_right (limits limits' : Limits) : limits' ≤ limits.join limits' :=
  ⟨Nat.le_max_right _ _, Nat.le_max_right _ _, Nat.le_max_right _ _⟩

theorem run_eq_outcome (limits : Limits) (source : String) :
    run limits source = (start (.moments limits) source).outcome :=
  run_eq_start_outcome (.moments limits) source

section Ended

variable {source : String} {limits limits' : Limits}
variable (h : (start (.moments limits) source).result = .ok ())
include h

-- Any run is what its limits leave of one that gets to its end.
theorem start_shortens_of_ok (limits' : Limits) :
    (start (.moments limits') source).Shortens RunError.fault limits'
      (start (.moments limits) source) := by
  have hr := start_shortens (limits.le_join_right limits') source
  cases start_shortens (limits.le_join_left limits') source
  case whole he _ _ => rwa [he]
  case cut hr _ _ _ _ =>
    rw [hr] at h
    cases h

theorem exists_peaks :
    ∃ height depth, (start (.events limits) source).heights.max? = some height ∧
      (start (.moments limits) source).depths.max? = some depth := by
  have hn : (start (.events limits) source).heights ≠ [] :=
    Program.run_heights_ne_nil (by rw [start_events]; exact h)
  rw [start_events] at hn ⊢
  have ⟨height, hh⟩ := Option.isSome_iff_exists.mp (List.isSome_max?_of_ne_nil hn)
  have ⟨m, hm, _⟩ := Run.exists_of_mem_heights (List.max?_mem hh)
  have hn : (start (.moments limits) source).depths ≠ [] :=
    List.ne_nil_of_mem (List.mem_map_of_mem hm)
  have ⟨depth, hd⟩ := Option.isSome_iff_exists.mp (List.isSome_max?_of_ne_nil hn)
  exact ⟨height, depth, hh, hd⟩

variable (hh : (start (.events limits) source).heights.max? = some height)
variable (hd : (start (.moments limits) source).depths.max? = some depth)
include hh hd

theorem admitted_of_ok (h' : (start (.moments limits') source).result = .ok ()) :
    start (.moments limits') source = start (.moments limits) source ∧
    height ≤ limits'.stackSize ∧ depth ≤ limits'.callDepth ∧
    (start (.moments limits) source).state.count ≤ limits'.evaluations := by
  cases start_shortens_of_ok h limits'
  case cut hr _ _ _ _ =>
    rw [hr] at h'
    cases h'
  case whole he hs hm =>
    rw [he] at hs hm
    rw [start_events] at hh
    have ⟨m, hmem, hheight⟩ := Run.exists_of_mem_heights (List.max?_mem hh)
    have ⟨m', hmem', hdepth⟩ := List.mem_map.mp (List.max?_mem hd)
    exact ⟨he, hheight ▸ (hm m hmem).stack, hdepth ▸ (hm m' hmem').depth, (hs () h).count⟩

theorem fault_of_error (h' : (start (.moments limits') source).result = .error e) :
    (e.fault = .stackOverflow limits'.stackSize ∧ limits'.stackSize < height) ∨
    (e.fault = .callDepthExceeded limits'.callDepth ∧ limits'.callDepth < depth) ∨
    (e.fault = .evaluationsExceeded limits'.evaluations ∧
      limits'.evaluations < (start (.moments limits) source).state.count ∧
      e.count = limits'.evaluations + 1) := by
  cases start_shortens_of_ok h limits'
  case whole he _ _ =>
    rw [he, h] at h'
    cases h'
  case cut hr _ hc _ hb =>
    have hcount := Program.run_error_count hr
    rw [hr] at h'
    cases h'
    have hb := hb () h
    rw [start_events] at hh
    generalize e.fault = fault at hc hb ⊢
    cases hb
    case stack hm hn hs =>
      have hle := (List.max?_eq_some_iff.mp hh).2 _ (Run.mem_heights_of_changed hm hn)
      exact .inl ⟨rfl, Nat.lt_of_lt_of_le hs hle⟩
    case depth hm hlt =>
      have hle := (List.max?_eq_some_iff.mp hd).2 _ (List.mem_map_of_mem hm)
      exact .inr (.inl ⟨rfl, Nat.lt_of_lt_of_le hlt hle⟩)
    case count hlt => exact .inr (.inr ⟨rfl, hlt, hcount.trans (hc _ rfl)⟩)

end Ended

theorem limit_thresholds (source : String) (limits : Limits) (outcome : Outcome)
    (h : run limits source = .ok outcome) :
    ∃ height depth,
      (start (.events limits) source).heights.max? = some height ∧
      (start (.moments limits) source).depths.max? = some depth ∧
      ∀ limits' : Limits,
        ((∃ outcome', run limits' source = .ok outcome') ↔
          height ≤ limits'.stackSize ∧ depth ≤ limits'.callDepth ∧
          outcome.count ≤ limits'.evaluations) ∧
        (∀ outcome', run limits' source = .ok outcome' → outcome' = outcome) ∧
        (∀ e, run limits' source = .error e →
          (e.fault = .stackOverflow limits'.stackSize ∧ limits'.stackSize < height) ∨
          (e.fault = .callDepthExceeded limits'.callDepth ∧ limits'.callDepth < depth) ∨
          (e.fault = .evaluationsExceeded limits'.evaluations ∧
            limits'.evaluations < outcome.count ∧ e.count = limits'.evaluations + 1)) := by
  simp only [run_eq_outcome, Run.outcome_eq_ok, Run.outcome_eq_error] at h ⊢
  have ⟨hr, ho⟩ := h
  subst ho
  have ⟨height, depth, hh, hd⟩ := exists_peaks hr
  refine ⟨height, depth, hh, hd, fun limits' => ⟨⟨?_, fun hadmit => ?_⟩, ?_, fun e he => ?_⟩⟩
  · rintro ⟨_, hr', _⟩
    exact (admitted_of_ok hr hh hd hr').2
  · cases hr' : (start (.moments limits') source).result
    case ok => exact ⟨_, rfl, rfl⟩
    case error e =>
      rcases fault_of_error hr hh hd hr' with ⟨_, hlt⟩ | ⟨_, hlt⟩ | ⟨_, hlt, _⟩
      · exact absurd hadmit.1 (Nat.not_le.mpr hlt)
      · exact absurd hadmit.2.1 (Nat.not_le.mpr hlt)
      · exact absurd hadmit.2.2 (Nat.not_le.mpr hlt)
  · rintro _ ⟨hr', rfl⟩
    rw [(admitted_of_ok hr hh hd hr').1]
  · exact fault_of_error hr hh hd he

-- A program in which one block runs inside another.
def nestedCallText : String :=
  "/f \x7b /a g \x7d def /g \x7b /b \x7d def f"

theorem exists_ok_of {result : Except ε α} {p : α → Bool}
    (h : (match result with | .ok x => p x | .error _ => false) = true) :
    ∃ x, result = .ok x ∧ p x = true := by
  cases result
  case error => cases h
  case ok x  => exact ⟨x, rfl, h⟩

theorem nested_call_thresholds :
    ∃ outcome, run {} nestedCallText = .ok outcome ∧ outcome.count = 15 ∧
      ∀ limits, (∃ outcome', run limits nestedCallText = .ok outcome') ↔
        2 ≤ limits.stackSize ∧ 2 ≤ limits.callDepth ∧ 15 ≤ limits.evaluations := by
  have ⟨outcome, hr, hc⟩ : ∃ outcome, run {} nestedCallText = .ok outcome ∧ outcome.count == 15 :=
    exists_ok_of (by decide +kernel)
  have hc : outcome.count = 15 := eq_of_beq hc
  have hheight : (start (.events {}) nestedCallText).heights.max? = some 2 := by decide +kernel
  have hdepth : (start (.moments {}) nestedCallText).depths.max? = some 2 := by decide +kernel
  have ⟨height, depth, hh, hd, hlimits⟩ := limit_thresholds nestedCallText {} outcome hr
  cases hheight.symm.trans hh
  cases hdepth.symm.trans hd
  exact ⟨outcome, hr, hc, fun limits => hc ▸ (hlimits limits).1⟩

end StackScript
