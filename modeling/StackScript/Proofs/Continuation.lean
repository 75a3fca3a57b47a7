import StackScript.Proofs.Placement

namespace StackScript

-- The same token in a text with `lines` more lines above it.
def Token.lower (lines : Nat) (token : Token) : Token :=
  { token with line := token.line + lines }

def RunError.lower (lines : Nat) (e : RunError) : RunError :=
  { e with token := e.token.lower lines }

namespace Token

theorem place_lower (line lines column : Nat) (words : List (List Char)) :
    place (line + lines) column words = (place line column words).map (lower lines) := by
  induction words generalizing column
  case nil         => rfl
  case cons _ _ hi => simp [place, hi, lower]

theorem ofLines_lower (start lines : Nat) (texts : List (List Char)) :
    ofLines (start + lines) texts = (ofLines start texts).map (lower lines) := by
  induction texts generalizing start
  case nil => rfl
  case cons text texts hi =>
    rw [ofLines_cons, ofLines_cons, List.map_append, ← hi, ofLine, ofLine, place_lower,
      Nat.add_right_comm]

theorem ofLines_append (start : Nat) (texts₁ texts₂ : List (List Char)) :
    ofLines start (texts₁ ++ texts₂) =
      ofLines start texts₁ ++ ofLines (start + texts₁.length) texts₂ := by
  simp [ofLines, List.zipIdx_append]

-- A carriage return at the end of `a` is dropped in either text.
theorem ofSource_append (a b : String) :
    ofSource (a ++ "\n" ++ b) =
      ofSource a ++ (ofSource b).map (lower (1 + a.toList.count '\n')) := by
  have hl : (a ++ "\n" ++ b).toList = a.toList ++ '\n' :: b.toList := by simp
  rw [ofSource_eq, hl, List.splitOn_append_cons_self, ofLines_append, length_splitOn, ofLines_lower,
    Nat.add_comm (a.toList.count '\n') 1]
  rfl

end Token

namespace Program

variable {κ : Type} {w : Watch κ} {s : State}

theorem stepToken_lower (lines : Nat) (token : Token) :
    stepToken (token.lower lines) w s =
      let r := stepToken token w s
      ⟨r.result.mapError (·.lower lines), r.state, r.trace⟩ := by
  unfold stepToken Act.mapError
  rcases hr : Op.step token.text w s with ⟨_ | _, _, _⟩ <;> simp [Token.lower, hr] <;> rfl

-- The run lemma, by induction on the tokens.
theorem steps_lower (lines : Nat) (tokens : List Token) :
    steps (tokens.map (·.lower lines)) w s =
      let r := steps tokens w s
      ⟨r.result.mapError (·.lower lines), r.state, r.trace⟩ := by
  refine steps_induction ?nil ?error ?ok tokens s
  case nil => exact fun _ => rfl
  case error =>
    intro token rest s e t trace h
    have ht := stepToken_lower (w := w) (s := s) lines token
    rw [h] at ht
    exact steps_cons_error _ ht
  case ok =>
    intro token rest s t trace r h hi
    have ht := stepToken_lower (w := w) (s := s) lines token
    rw [h] at ht
    rw [List.map_cons, steps_cons_ok _ ht, hi]

theorem steps_append (tokens₁ tokens₂ : List Token) :
    steps (κ := κ) (tokens₁ ++ tokens₂) = (do steps tokens₁; steps tokens₂) :=
  List.forM_append

-- The words of tokens lead to the same as the tokens; only the faults have no place.
theorem forM_step_eq (tokens : List Token) :
    tokens.forM (Op.step ·.text) w s =
      let r := steps tokens w s
      ⟨r.result.mapError (·.fault), r.state, r.trace⟩ := by
  refine steps_induction ?nil ?error ?ok tokens s
  case nil => exact fun _ => rfl
  case error =>
    intro token rest s e t trace h
    exact Act.bind_error (stepToken_error h).1
  case ok =>
    intro token rest s t trace r h hi
    exact (Act.bind_ok (stepToken_ok h)).trans (by rw [hi])

end Program

theorem Machine.drive_tokens (m : Machine) (tokens : List Token) :
    let r := Program.steps tokens (.events m.limits) m.state
    m.drive (tokens.map (.step ·.text)) =
      (r.result.mapError (·.fault),
        { m with state := r.state, log := m.log ++ r.trace.toArray }) := by
  rw [drive_steps, perform, Program.forM_step_eq]

variable {limits : Limits} {a b : String}

-- After a failure the text below is not looked at.
theorem start_append_error (h : (start (.events limits) a).result = .error e) :
    start (.events limits) (a ++ "\n" ++ b) = start (.events limits) a := by
  simp only [start, Program.run_eq_steps] at h ⊢
  rcases hr : Program.steps (Token.ofSource a) (.events limits) .initial with ⟨_ | _, t, trace⟩ <;>
    rw [hr] at h <;> cases h
  rw [Token.ofSource_append, Program.steps_append, Act.bind_error hr]

theorem start_append_ok (h : (start (.events limits) a).result = .ok ()) :
    let first := start (.events limits) a
    let rest  := Program.steps (Token.ofSource b) (.events limits) first.state
    start (.events limits) (a ++ "\n" ++ b) =
      ⟨rest.result.mapError (·.lower (1 + a.toList.count '\n')), rest.state,
        first.trace ++ rest.trace⟩ := by
  simp only [start, Program.run_eq_steps] at h ⊢
  rcases hr : Program.steps (Token.ofSource a) (.events limits) .initial with ⟨_ | _, t, trace⟩ <;>
    rw [hr] at h <;> cases h
  rw [Token.ofSource_append, Program.steps_append, Act.bind_ok hr, Program.steps_lower]

theorem runWithEvents_eq_error :
    runWithEvents limits a = .error e ↔ (start (.events limits) a).result = .error e := by
  rw [← Run.outcome_eq_error, runWithEvents]
  cases (start (.events limits) a).outcome <;> simp [Except.map]

theorem runWithEvents_eq_ok :
    runWithEvents limits a = .ok (outcome, events) ↔
      let r := start (.events limits) a
      r.result = .ok () ∧ Outcome.ofState r.state = outcome ∧ r.trace = events := by
  simp only [← and_assoc, ← Run.outcome_eq_ok, runWithEvents]
  cases (start (.events limits) a).outcome <;> simp [Except.map]

-- The machine `m` has taken the first text, and its log are the events of it.
theorem texts_run_below_each_other (limits : Limits) (a b : String) :
    let both := a ++ "\n" ++ b
    (∀ e, runWithEvents limits a = .error e → runWithEvents limits both = .error e) ∧
    (∀ outcome events, runWithEvents limits a = .ok (outcome, events) →
      let m    := (({ limits } : Machine).drive ((Token.ofSource a).map (.step ·.text))).2
      let rest := Program.steps (Token.ofSource b) (.events limits) m.state
      (Outcome.ofState m.state = outcome ∧ m.log.toList = events) ∧
      (rest.result = .ok () →
        runWithEvents limits both = .ok (Outcome.ofState rest.state, events ++ rest.trace)) ∧
      ∀ e, rest.result = .error e →
        let line := e.token.line + (1 + a.toList.count '\n')
        runWithEvents limits both = .error { e with token := { e.token with line } }) := by
  intro both
  have hm : (({ limits } : Machine).drive ((Token.ofSource a).map (.step ·.text))).2 =
      { limits, state := (start (.events limits) a).state,
        log := (start (.events limits) a).trace.toArray } := by
    rw [Machine.drive_tokens, start, Program.run_eq_steps]
    simp
  simp only [runWithEvents_eq_error, runWithEvents_eq_ok, hm]
  refine ⟨fun e he => ?_, ?_⟩
  · rw [start_append_error he, he]
  · rintro outcome events ⟨hok, ho, ht⟩
    have hboth := start_append_ok (b := b) hok
    refine ⟨⟨ho, ht⟩, fun hr => ?_, fun e he => ?_⟩
    · rw [hboth, hr, ht]
      exact ⟨rfl, rfl, rfl⟩
    · rw [hboth, he]
      rfl

-- An unknown name above, and a block that is opened above and closed below, once more than that.
theorem block_closed_below :
    (runWithEvents {} "x" = .error ⟨⟨"x", 1, 1⟩, 1, .undefined "x"⟩ ∧
      runWithEvents {} ("x" ++ "\n" ++ "1") = .error ⟨⟨"x", 1, 1⟩, 1, .undefined "x"⟩) ∧
    ∃ outcome events, runWithEvents {} "/a \x7b\r" = .ok (outcome, events) ∧
      outcome.openBlocks = 1 ∧
      runWithEvents {} ("/a \x7b\r" ++ "\n" ++ "b \x7d \x7d") =
        .error ⟨⟨"\x7d", 2, 5⟩, 3, .blockUnderflow⟩ := by
  have h₁ : runWithEvents {} "x" = .error ⟨⟨"x", 1, 1⟩, 1, .undefined "x"⟩ := by rfl
  refine ⟨⟨h₁, (texts_run_below_each_other {} "x" "1").1 _ h₁⟩, _, _, rfl, rfl, ?_⟩
  exact ((texts_run_below_each_other {} "/a \x7b\r" "b \x7d \x7d").2 _ _ rfl).2.2
    ⟨⟨"\x7d", 1, 5⟩, 3, .blockUnderflow⟩ rfl

end StackScript
