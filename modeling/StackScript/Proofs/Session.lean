import Mathlib.Logic.Function.Iterate
import StackScript.Proofs.Observation
import StackScript.Session

namespace StackScript

namespace Act

variable {ε κ : Type}

-- Whatever `a` succeeds in leaves something in the trace.
def Tells (w : Watch κ) (a : Act ε κ α) : Prop :=
  ∀ s x t, a w s ≠ ⟨.ok x, t, []⟩

namespace Tells

variable {w : Watch κ} {a : Act ε κ α} {f : α → Act ε κ β}

theorem bind_left (h : Tells w a) : Tells w (a >>= f) := by
  intro s y u hr
  cases ha : a w s
  case mk result t trace =>
    cases result
    case error => simp [bind_error ha] at hr
    case ok x =>
      simp only [bind_ok ha, Run.mk.injEq, List.append_eq_nil_iff] at hr
      have ⟨_, _, htrace, _⟩ := hr
      exact h s x t (htrace ▸ ha)

theorem bind_right (h : ∀ x, Tells w (f x)) : Tells w (a >>= f) := by
  intro s y u hr
  cases ha : a w s
  case mk result t trace =>
    cases result
    case error => simp [bind_error ha] at hr
    case ok x =>
      simp only [bind_ok ha, Run.mk.injEq, List.append_eq_nil_iff] at hr
      have ⟨hresult, hstate, _, htrace⟩ := hr
      refine h x t y u ?_
      rw [← hresult, ← hstate, ← htrace]

theorem fail (e : ε) : Tells (α := α) w (fail e) :=
  fun _ _ _ h => nomatch h

theorem mapError {f : State → ε → ε'} (h : Tells w a) : Tells w (a.mapError f) := by
  intro s x t hr
  cases ha : a w s
  case mk result u trace =>
    cases result <;> simp only [Act.mapError, ha] at hr <;> cases hr
    case ok.refl => exact h s x t ha

end Tells
end Act

namespace Op

open Act

variable {limits : Limits}

theorem pop_tells : Tells (.events limits) pop := by
  intro s v t h
  rw [pop_run] at h
  cases hs : s.stack.back? <;> simp [hs, Watch.events, Event.ofNote?] at h

theorem push_tells (v : Value) : Tells (.events limits) (push v) := by
  intro s x t h
  rw [push_run] at h
  split at h <;> simp [Watch.events, Event.ofNote?] at h

theorem popBlock_tells (op : Native) : Tells (.events limits) (popBlock op) :=
  .bind_left pop_tells

theorem within_scoped_tells (body : Op Event Unit) :
    Tells (.events limits) (within .scoped body) := by
  refine .bind_right fun _ => .bind_left (.bind_left ?_)
  intro s x t h
  simp [pushScope, change, Watch.events, Event.ofNote?] at h

theorem callWithin_scoped_tells (body : List Value) :
    (calls : Nat) → Tells (.events limits) (callWithin calls .scoped body)
  | 0 | _ + 1 => within_scoped_tells _

-- Every built-in operation begins by taking an operand off the stack.
theorem apply_tells (call : Frame → List Value → Op Event Unit) (again : Value → Op Event Unit)
    (op : Native) : Tells (.events limits) (apply call again op) := by
  refine .bind_right fun _ => ?_
  cases op
  case branch => exact .bind_left (popBlock_tells _)
  all_goals exact .bind_left pop_tells

theorem eval_tells (v : Value) : Tells (.events limits) (eval v) := by
  suffices h : ∀ calls, Tells (.events limits) (evalCalling (callWithin calls) v) from
    fun s => h _ s
  intro calls
  refine .bind_right fun height => ?_
  suffices h : ∀ again, Tells (.events limits) (evalWith (callWithin calls) again v) by
    cases height <;> exact h _
  intro again
  refine .bind_right fun _ => .bind_right fun capturing => ?_
  split
  case isTrue =>
    intro s x t h
    simp [capture, change, Watch.events, Event.ofNote?] at h
  case isFalse =>
    cases v
    case operator name =>
      refine .bind_right fun found => ?_
      rcases found with _ | ⟨_ | _ | _ | body | op⟩
      case none        => exact .fail _
      case some.block  => exact callWithin_scoped_tells body calls
      case some.native => exact apply_tells _ _ op
      all_goals exact push_tells _
    all_goals exact push_tells _

theorem step_tells (word : String) : Tells (.events limits) (step word) := by
  refine .bind_right fun _ => ?_
  cases Lexeme.ofWord word
  case closing => exact .bind_right fun _ => eval_tells _
  case value   => exact eval_tells _
  all_goals
    intro s x t h
    simp [note, openBlock, change, Watch.events, Event.ofNote?] at h

end Op

namespace Program

variable {κ : Type} {w : Watch κ} {s t : State} {trace : List κ}

theorem stepToken_ok (h : stepToken token w s = ⟨.ok x, t, trace⟩) :
    Op.step token.text w s = ⟨.ok x, t, trace⟩ := by
  rcases hr : Op.step token.text w s with ⟨_ | _, _, _⟩ <;>
    simp only [stepToken, Act.mapError, hr] at h <;> cases h
  rfl

theorem stepToken_error (h : stepToken token w s = ⟨.error e, t, trace⟩) :
    Op.step token.text w s = ⟨.error e.fault, t, trace⟩ ∧ e.token = token ∧ e.count = t.count := by
  rcases hr : Op.step token.text w s with ⟨_ | _, _, _⟩ <;>
    simp only [stepToken, Act.mapError, hr] at h <;> cases h
  exact ⟨rfl, rfl, rfl⟩

theorem steps_cons_ok (rest : List Token) (h : stepToken token w s = ⟨.ok (), t, trace⟩) :
    steps (token :: rest) w s =
      ⟨(steps rest w t).result, (steps rest w t).state, trace ++ (steps rest w t).trace⟩ :=
  Act.bind_ok h

theorem steps_cons_error (rest : List Token) (h : stepToken token w s = ⟨.error e, t, trace⟩) :
    steps (token :: rest) w s = ⟨.error e, t, trace⟩ :=
  Act.bind_error h

theorem stepToken_state (token : Token) :
    (stepToken token w s).state = (Op.step token.text w s).state := by
  unfold stepToken Act.mapError
  split <;> simp [*]

theorem stepToken_trace (token : Token) :
    (stepToken token w s).trace = (Op.step token.text w s).trace := by
  unfold stepToken Act.mapError
  split <;> simp [*]

-- What a token comes to does not depend on whether its events or its diagnostics are kept.
theorem stepToken_diagnostics {limits : Limits} {events : List Event}
    (h : stepToken token (.events limits) s = ⟨result, t, events⟩) :
    stepToken token (.diagnostics limits) s =
      ⟨result, t, (Op.step token.text (.diagnostics limits) s).trace⟩ := by
  have he := stepToken_recorded (.events limits) token s
  have hd := stepToken_recorded (.diagnostics limits) token s
  simp only [h, Run.seenBy, Run.mk.injEq] at he
  obtain ⟨rfl, rfl, _⟩ := he
  rw [← stepToken_trace, hd]
  rfl

-- A run that fails does so at one token, after all tokens before it.
theorem steps_error {tokens : List Token} (h : (steps tokens w s).result = .error e) :
    ∃ before token after, tokens = before ++ token :: after ∧
      (steps before w s).result = .ok () ∧
      (stepToken token w (steps before w s).state).result = .error e ∧
      (steps tokens w s).state = (stepToken token w (steps before w s).state).state ∧
      (steps tokens w s).trace =
        (steps before w s).trace ++ (stepToken token w (steps before w s).state).trace := by
  induction tokens generalizing s
  case nil => cases h
  case cons token rest hi =>
    cases hr : stepToken token w s
    case mk result t trace =>
      cases result
      case error e' =>
        rw [steps_cons_error rest hr] at h ⊢
        cases h
        have hn : steps [] w s = ⟨.ok (), s, []⟩ := rfl
        exact ⟨[], token, rest, rfl, by simp [hn, hr]⟩
      case ok =>
        rw [steps_cons_ok rest hr] at h ⊢
        have ⟨before, token', after, ht, hok, herr, hstate, htrace⟩ := hi h
        refine ⟨token :: before, token', after, by simp [ht], ?_⟩
        rw [steps_cons_ok before hr]
        exact ⟨hok, herr, hstate, by simp [htrace]⟩

-- The note that a source text ends inside a block is no event and no change.
theorem run_eq_steps (limits : Limits) (source : String) :
    run source (.events limits) s = steps (Token.ofSource source) (.events limits) s := by
  cases hr : steps (Token.ofSource source) (.events limits) s
  case mk result t trace =>
    cases result
    case error => exact Act.bind_error hr
    case ok =>
      rw [run, Act.bind_ok hr, Act.view_bind]
      split <;> simp [Act.say, Act.note, Act.change, Watch.events, Event.ofNote?]

end Program

namespace Run

variable {r : Run ε κ Unit}

theorem outcome_eq_ok : r.outcome = .ok o ↔ r.result = .ok () ∧ Outcome.ofState r.state = o := by
  unfold outcome
  cases r.result <;> simp [Except.map]

theorem outcome_eq_error : r.outcome = .error e ↔ r.result = .error e := by
  unfold outcome
  cases r.result <;> simp [Except.map]

end Run

namespace Session

-- Polling `s` gives the items one by one, and then there is `t`.
inductive Yields : Session → List (Except RunError Event) → Session → Prop
  | nil  : Yields s [] s
  | cons : s.poll = (some item, t) → Yields t items u → Yields s (item :: items) u

-- There is nothing more to come, and no token left to take.
structure Spent (s : Session) : Prop where
  pending : s.pending = []
  phase   : s.phase = .over ∨ s.phase = .running ∧ s.tokens = []

variable {s s' t u : Session}

theorem Yields.append (h₁ : Yields s items₁ t) (h₂ : Yields t items₂ u) :
    Yields s (items₁ ++ items₂) u := by
  induction h₁
  case nil          => exact h₂
  case cons hp _ hi => exact .cons hp (hi h₂)

theorem Yields.of_poll_eq (h : s.poll = s'.poll) (hn : items ≠ []) :
    Yields s' items t → Yields s items t
  | .nil        => absurd rfl hn
  | .cons hp hy => .cons (h.trans hp) hy

theorem poll_pending (h : s.pending = event :: rest) :
    s.poll = (some (.ok event), { s with pending := rest }) := by
  unfold poll poll.go
  simp [h]

theorem poll_failing (h : s.pending = []) (hp : s.phase = .failing e) :
    s.poll = (some (.error e), { s with phase := .over }) := by
  unfold poll poll.go
  simp [h, hp]

theorem take_tokens (s : Session) (token : Token) (rest : List Token) :
    (s.take token rest).tokens = rest := by
  simp only [take]
  split <;> rfl

theorem poll_running (h : s.pending = []) (hp : s.phase = .running) (ht : s.tokens = token :: rest) :
    s.poll = (s.take token rest).poll := by
  rw [poll, poll.go.eq_def]
  simp only [h, hp, ht, poll, take_tokens]

theorem Spent.poll (h : s.Spent) :
    s.poll.1 = none ∧ s.poll.2.Spent ∧ s.poll.2.machine = s.machine := by
  have ⟨hp, ho⟩ := h
  unfold Session.poll poll.go
  cases ho
  case inl ho =>
    simp only [hp, ho]
    exact ⟨trivial, h, trivial⟩
  case inr ho =>
    simp only [hp, ho]
    exact ⟨trivial, ⟨hp, .inl rfl⟩, rfl⟩

-- The run lemma for a session at its end.
theorem Spent.iterate (h : s.Spent) (n : Nat) :
    ((fun s => s.poll.2)^[n] s).Spent ∧ ((fun s => s.poll.2)^[n] s).machine = s.machine := by
  induction n generalizing s
  case zero => exact ⟨h, rfl⟩
  case succ n hi =>
    have ⟨_, hs, he⟩ := h.poll
    have ⟨hn, hne⟩ := hi hs
    exact ⟨hn, hne.trans he⟩

theorem yields_pending (s : Session) (events : List Event) :
    Yields { s with pending := events } (events.map .ok) { s with pending := [] } := by
  induction events
  case nil             => exact .nil
  case cons event _ hi => exact .cons (poll_pending rfl) hi

-- The error that a run ends with, if it fails.
def ending : Except RunError Unit → List (Except RunError Event)
  | .ok _    => []
  | .error e => [.error e]

-- The phase that the result of a token leads to.
def phaseAfter : Except RunError Unit → Phase
  | .ok _    => .running
  | .error e => .failing e

section Take

variable {token : Token} {t : State} {events : List Event} (rest : List Token)

-- The machine that a session feeds has an empty log before a token is taken, so that what it logs
-- are the events of that token. After the token its log is empty again.
theorem take_ok (hlog : s.machine.log = #[])
    (h : Program.stepToken token (.events s.machine.limits) s.machine.state = ⟨.ok x, t, events⟩) :
    s.take token rest = ⟨rest, ⟨s.machine.limits, t, #[]⟩, events, .running,
      s.journal ++ (s.machine.remarks token.text).toArray⟩ := by
  have hstep := Program.stepToken_ok h
  simp [take, Machine.step, Machine.perform, Machine.takeLog, hstep, hlog]

theorem take_error (hlog : s.machine.log = #[])
    (h : Program.stepToken token (.events s.machine.limits) s.machine.state =
      ⟨.error e, t, events⟩) :
    s.take token rest = ⟨rest, ⟨s.machine.limits, t, #[]⟩, events, .failing e,
      (s.journal ++ (s.machine.remarks token.text).toArray).push (.failed e)⟩ := by
  obtain ⟨hstep, rfl, hcount⟩ := Program.stepToken_error h
  simp [take, Machine.step, Machine.perform, Machine.takeLog, hstep, hlog, ← hcount]

theorem take_eq (token : Token) (hlog : s.machine.log = #[]) :
    let r := Program.stepToken token (.events s.machine.limits) s.machine.state
    ∃ journal, s.take token rest =
      ⟨rest, ⟨s.machine.limits, r.state, #[]⟩, r.trace, phaseAfter r.result, journal⟩ := by
  intro r
  rcases hr : Program.stepToken token (.events s.machine.limits) s.machine.state
    with ⟨e | x, t, events⟩
  case error => exact ⟨_, by simp only [r, hr, take_error rest hlog hr]; rfl⟩
  case ok    => exact ⟨_, by simp only [r, hr, take_ok rest hlog hr]; rfl⟩

end Take

-- The run lemma for a session that is under way, by induction on the tokens that are left.
theorem yields_steps (limits : Limits) (tokens : List Token) (state : State)
    (journal : Array Diagnostic) :
    let r := Program.steps tokens (.events limits) state
    ∃ last, Yields ⟨tokens, ⟨limits, state, #[]⟩, [], .running, journal⟩
      (r.trace.map .ok ++ ending r.result) last ∧
      last.Spent ∧ last.machine = ⟨limits, r.state, #[]⟩ := by
  induction tokens generalizing state journal
  case nil => exact ⟨_, .nil, ⟨rfl, .inr ⟨rfl, rfl⟩⟩, rfl⟩
  case cons token rest hi =>
    let s : Session := ⟨token :: rest, ⟨limits, state, #[]⟩, [], .running, journal⟩
    have hpoll : s.poll = (s.take token rest).poll := poll_running rfl rfl rfl
    have ⟨journal', ht⟩ := take_eq (s := s) rest token rfl
    cases hr : Program.stepToken token (.events limits) state
    case mk result state' events =>
      simp only [s, hr] at ht
      have hpoll : s.poll = _ := hpoll.trans (congrArg poll ht)
      have hy := yields_pending
        ⟨rest, ⟨limits, state', #[]⟩, events, phaseAfter result, journal'⟩ events
      cases result
      case error e =>
        rw [Program.steps_cons_error rest hr]
        have he := hy.append (.cons (poll_failing rfl rfl) .nil)
        exact ⟨_, he.of_poll_eq hpoll (by simp [ending]), ⟨rfl, .inl rfl⟩, rfl⟩
      case ok x =>
        -- The token has left an event, so the poll ends before the next token is taken.
        have hn : events ≠ [] := by
          rintro rfl
          exact (Op.step_tells token.text).mapError state x state' hr
        have ⟨last, hl, hspent, hmachine⟩ := hi state' journal'
        rw [Program.steps_cons_ok rest hr]
        refine ⟨last, ?_, hspent, hmachine⟩
        simp only [List.map_append, List.append_assoc]
        exact (hy.append hl).of_poll_eq hpoll (by simp [hn])

theorem drain_failing (hp : s.phase = .failing e) :
    s.drain = (s.pending.map .ok ++ [.error e], { s with pending := [], phase := .over }) := by
  rw [drain, drain.go.eq_def]
  simp only [hp]

theorem drain_running (hp : s.phase = .running) (ht : s.tokens = token :: rest) :
    s.drain = (s.pending.map .ok ++ (s.take token rest).drain.1, (s.take token rest).drain.2) := by
  rw [drain, drain.go.eq_def]
  simp only [hp, ht, drain, take_tokens]

-- The record that a session leaves at its end.
def conclusion (r : Run RunError κ Unit) : Diagnostic :=
  match r.result with
  | .ok _    => .finished r.state.count
  | .error e => .failed e

-- What is drained from a session, what it leaves and what it has logged, told by the run over the
-- tokens that were left.
structure Drained (s : Session) (r : Run RunError Event Unit) (said : List Diagnostic) : Prop where
  items   : s.drain.1 = (s.pending ++ r.trace).map .ok ++ ending r.result
  state   : s.drain.2.machine.state = r.state
  journal : s.drain.2.journal = s.journal ++ (said ++ [conclusion r]).toArray

-- The run lemma for a session that is drained, by induction on the tokens that are left.
theorem drain_steps (limits : Limits) (tokens : List Token) (state : State) (pending : List Event)
    (journal : Array Diagnostic) :
    Drained ⟨tokens, ⟨limits, state, #[]⟩, pending, .running, journal⟩
      (Program.steps tokens (.events limits) state)
      (Program.steps tokens (.diagnostics limits) state).trace := by
  induction tokens generalizing state pending journal
  case nil =>
    have hr {κ : Type} (w : Watch κ) : Program.steps [] w state = ⟨.ok (), state, []⟩ := rfl
    simp only [hr]
    exact ⟨by simp [drain, drain.go, ending], rfl, by simp [drain, drain.go, finish, conclusion]⟩
  case cons token rest hi =>
    let s : Session := ⟨token :: rest, ⟨limits, state, #[]⟩, pending, .running, journal⟩
    have hd : s.drain = _ := drain_running rfl rfl
    let said := (Op.step token.text (.diagnostics limits) state).trace
    rcases hr : Program.stepToken token (.events limits) state with ⟨e | x, t, events⟩
    case error =>
      have ht : s.take token rest = ⟨rest, ⟨limits, t, #[]⟩, events, .failing e,
        (journal ++ said.toArray).push (.failed e)⟩ := take_error rest rfl hr
      rw [Program.steps_cons_error rest hr,
        Program.steps_cons_error rest (Program.stepToken_diagnostics hr)]
      refine ⟨?_, ?_, ?_⟩ <;> rw [hd, ht, drain_failing rfl] <;> simp [s, said, ending, conclusion]
    case ok =>
      have ht : s.take token rest = ⟨rest, ⟨limits, t, #[]⟩, events, .running,
        journal ++ said.toArray⟩ := take_ok rest rfl hr
      have ⟨hitems, hstate, hjournal⟩ := hi t events (journal ++ said.toArray)
      rw [Program.steps_cons_ok rest hr,
        Program.steps_cons_ok rest (Program.stepToken_diagnostics hr)]
      refine ⟨?_, ?_, ?_⟩ <;> rw [hd, ht]
      · simp [s, hitems]
      · exact hstate
      · simp [said, hjournal, conclusion]

end Session

-- What a run comes to does not depend on what is kept of it.
theorem run_eq_start_outcome (w : Watch κ) (source : String) :
    run w.limits source = (start w source).outcome := by
  have hs := Program.run_recorded (.silent w.limits) source .initial
  have hw := Program.run_recorded w source .initial
  simp only [run, start, hs, hw]
  rfl

theorem run_eq_runWithEvents (limits : Limits) (source : String) :
    run limits source = (runWithEvents limits source).map (·.1) := by
  refine (run_eq_start_outcome (.events limits) source).trans ?_
  rw [runWithEvents]
  cases (start (.events limits) source).outcome <;> rfl

theorem drain_ofSource (limits : Limits) (source : String) :
    let r    := start (.events limits) source
    let said := (Program.steps (Token.ofSource source) (.diagnostics limits) .initial).trace
    let d    := (Session.ofSource limits source).drain
    d.1 = r.trace.map .ok ++ Session.ending r.result ∧ d.2.machine.state = r.state ∧
      d.2.journal.toList = said ++ [Session.conclusion r] := by
  simp only [start, Program.run_eq_steps]
  have h := Session.drain_steps limits (Token.ofSource source) .initial [] #[]
  exact ⟨h.items, h.state, by simpa [Session.ofSource] using congrArg Array.toList h.journal⟩

theorem ways_to_run_agree (limits : Limits) (source : String) :
    run limits source = (runWithEvents limits source).map (·.1) ∧
    ∃ items last,
      (Session.ofSource limits source).Yields items last ∧
      (∀ n, let later := (fun s : Session => s.poll.2)^[n] last
        later.poll.1 = none ∧ later.machine = last.machine) ∧
      match runWithEvents limits source with
      | .ok (outcome, events) =>
        items = events.map .ok ∧ Outcome.ofState last.machine.state = outcome
      | .error e              =>
        ∃ before token after, Token.ofSource source = before ++ token :: after ∧
          let earlier := Program.steps before (.events limits) .initial
          let failing := Program.stepToken token (.events limits) earlier.state
          earlier.result = .ok () ∧ failing.result = .error e ∧
          last.machine.state = failing.state ∧
          items = (earlier.trace ++ failing.trace).map .ok ++ [.error e] := by
  refine ⟨run_eq_runWithEvents limits source, ?_⟩
  have ⟨last, hy, hspent, hmachine⟩ :=
    Session.yields_steps limits (Token.ofSource source) .initial #[]
  have hstate := congrArg Machine.state hmachine
  refine ⟨_, last, hy, ?_, ?_⟩
  · intro n
    have ⟨hn, he⟩ := hspent.iterate n
    exact ⟨hn.poll.1, he⟩
  · simp only [runWithEvents, start, Program.run_eq_steps, Run.outcome]
    cases hr : (Program.steps (Token.ofSource source) (.events limits) .initial).result
    case ok => simp [Except.map, Session.ending, hstate]
    case error e =>
      have ⟨before, token, after, ht, hok, herr, hs, htrace⟩ := Program.steps_error hr
      refine ⟨before, token, after, ht, hok, herr, hstate.trans hs, ?_⟩
      rw [htrace, Session.ending]

end StackScript
