import StackScript.Proofs.Flow
import StackScript.Proofs.History
import StackScript.Proofs.Session

namespace StackScript

-- What is governed up to some point, and from there on.
theorem Flow.Governs.append {flow : Flow} {result : Except ε α} {t : State} {trace : List Moment}
    {r : Run ε' Moment β} (h₁ : flow.Governs ⟨result, t, trace⟩) (h₂ : flow.Governs r) :
    flow.Governs ⟨r.result, r.state, trace ++ r.trace⟩ where
  state            := h₂.state
  trace m hm       := (List.mem_append.mp hm).elim (h₁.trace m) (h₂.trace m)
  applying m hm op := (List.mem_append.mp hm).elim (h₁.applying m · op) (h₂.applying m · op)

-- What is taken off the stack, or put out, was on top of it.
theorem Move.mem_stack (move : Move limits s notes t)
    (h : .popped v ∈ notes ∨ .output v ∈ notes) : v ∈ s.stack := by
  cases move
  case pop ho | put ho =>
    rw [ho]
    obtain rfl : v = _ := by simpa using h
    exact Array.mem_push_self
  all_goals simp at h

theorem Path.operand_of_popped {flow : Flow} (p : Path limits s moments t) (hs : s.Obeys flow)
    (hm : ∀ m ∈ moments, m.state.Obeys flow) :
    ∀ m ∈ moments, ∀ v, m.note = .popped v ∨ m.note = .output v → flow.operand v := by
  induction p
  case nil => simp
  case cons s notes t moments _ move _ hi =>
    have ht : t.Obeys flow := by
      cases move
      case count => exact ⟨hs.stack, hs.scopes, hs.blocks⟩
      all_goals exact hm _ (List.mem_append_left _ List.mem_cons_self)
    intro m h v hv
    cases List.mem_append.mp h
    case inl h =>
      obtain ⟨note, hn, rfl⟩ := List.mem_map.mp h
      refine hs.stack v (move.mem_stack ?_)
      rcases hv with rfl | rfl
      · exact .inl hn
      · exact .inr hn
    case inr h => exact hi ht (fun m h => hm m (List.mem_append_right _ h)) m h v hv

namespace Program

variable {κ : Type} {w : Watch κ} {limits : Limits} {s : State}

-- Induction on the tokens that a run takes.
@[elab_as_elim]
theorem steps_induction {motive : List Token → State → Run RunError κ Unit → Prop}
    (nil : ∀ s, motive [] s ⟨.ok (), s, []⟩)
    (error : ∀ token rest s e t trace, stepToken token w s = ⟨.error e, t, trace⟩ →
      motive (token :: rest) s ⟨.error e, t, trace⟩)
    (ok : ∀ token rest s t trace r, stepToken token w s = ⟨.ok (), t, trace⟩ → motive rest t r →
      motive (token :: rest) s ⟨r.result, r.state, trace ++ r.trace⟩)
    (tokens : List Token) (s : State) : motive tokens s (steps tokens w s) := by
  induction tokens generalizing s
  case nil => exact nil s
  case cons token rest hi =>
    rcases hr : stepToken token w s with ⟨_ | _, t, trace⟩
    case error => rw [steps_cons_error rest hr]; exact error _ _ _ _ _ _ hr
    case ok    => rw [steps_cons_ok rest hr]; exact ok _ _ _ _ _ _ hr (hi t)

-- The note that a source text ends inside a block makes no difference to what the run comes to.
theorem run_comes_to (source : String) :
    (run source w s).result = (steps (Token.ofSource source) w s).result ∧
    (run source w s).state = (steps (Token.ofSource source) w s).state := by
  rcases hr : steps (Token.ofSource source) w s with ⟨_ | _, t, trace⟩
  case error =>
    rw [run, Act.bind_error hr]
    exact ⟨rfl, rfl⟩
  case ok =>
    rw [run, Act.bind_ok hr, Act.view_bind]
    split <;> exact ⟨rfl, rfl⟩

theorem steps_governed {flow : Flow} (tokens : List Token) (hs : s.Obeys flow)
    (ht : ∀ token ∈ tokens, (Call.step token.text).Admitted flow) :
    flow.Governs (steps tokens (.moments limits) s) := by
  revert hs ht
  refine steps_induction ?nil ?error ?ok tokens s
  case nil =>
    intro s hs _
    exact ⟨hs, by simp, by simp⟩
  case error =>
    intro token rest s e t trace h hs ht
    have hg : flow.Governs (Op.step token.text (.moments limits) s) :=
      Op.step_governed hs (ht token List.mem_cons_self)
    rw [(stepToken_error h).1] at hg
    exact ⟨hg.state, hg.trace, hg.applying⟩
  case ok =>
    intro token rest s t trace r h hi hs ht
    have hg : flow.Governs (Op.step token.text (.moments limits) s) :=
      Op.step_governed hs (ht token List.mem_cons_self)
    rw [stepToken_ok h] at hg
    exact hg.append (hi hg.state fun token hm => ht token (List.mem_cons_of_mem _ hm))

theorem steps_path (tokens : List Token) (hs : s.Balanced) :
    Path limits s (steps tokens (.moments limits) s).trace
      (steps tokens (.moments limits) s).state := by
  revert hs
  refine steps_induction ?nil ?error ?ok tokens s
  case nil => exact fun _ _ => .nil
  case error =>
    intro token rest s e t trace h hs
    have ha : Accounted limits s (Op.step token.text (.moments limits) s) :=
      Op.step_accounted token.text hs
    rw [(stepToken_error h).1] at ha
    exact ha.path
  case ok =>
    intro token rest s t trace r h hi hs
    have ha : Accounted limits s (Op.step token.text (.moments limits) s) :=
      Op.step_accounted token.text hs
    rw [stepToken_ok h] at ha
    exact ha.path.append (hi (ha.balanced hs rfl))

theorem run_governed {flow : Flow} (source : String) (hs : s.Obeys flow)
    (ht : ∀ token ∈ Token.ofSource source, (Call.step token.text).Admitted flow) :
    flow.Governs (run source (.moments limits) s) := by
  have hg : flow.Governs (steps (Token.ofSource source) (.moments limits) s) :=
    steps_governed (Token.ofSource source) hs ht
  rcases hr : steps (Token.ofSource source) (.moments limits) s with ⟨_ | _, t, trace⟩ <;>
    rw [hr] at hg
  case error =>
    rw [run, Act.bind_error hr]
    exact hg
  case ok =>
    have ht : t.Obeys flow := hg.state
    rw [run, Act.bind_ok hr, Act.view_bind]
    refine hg.append ?_
    split
    case isTrue  => exact ⟨ht, by simp [Act.say, Act.note, Act.change, Watch.moments, ht], by
      simp [Act.say, Act.note, Act.change, Watch.moments]⟩
    case isFalse => exact ⟨ht, by simp, by simp⟩

end Program

-- The token of an error is the one that could not be taken, after all those before it.
theorem run_error_place (h : run limits source = .error e) :
    ∃ before after, Token.ofSource source = before ++ e.token :: after ∧
      let earlier := Program.steps before (.silent limits) .initial
      earlier.result = .ok () ∧
      (Op.step e.token.text (.silent limits) earlier.state).result = .error e.fault := by
  have herr := Run.outcome_eq_error.mp h
  rw [start, (Program.run_comes_to source).1] at herr
  obtain ⟨before, token, after, ht, hok, herr, _⟩ := Program.steps_error herr
  rcases hr : Program.stepToken token (.silent limits) _ with ⟨_ | _, _, _⟩ <;>
    rw [hr] at herr <;> cases herr
  obtain ⟨hs, rfl, _⟩ := Program.stepToken_error hr
  exact ⟨before, after, ht, hok, congrArg (·.result) hs⟩

theorem start_eq_steps (limits : Limits) (source : String) :
    let r := Program.steps (Token.ofSource source) (.moments limits) .initial
    start (.events limits) source = ⟨r.result, r.state, r.trace.filterMap Moment.event?⟩ := by
  have hr := Program.steps_recorded (.events limits) (Token.ofSource source) .initial
  rw [Run.seenBy, Watch.select_events] at hr
  rw [start, Program.run_eq_steps, hr]
  rfl

end StackScript
