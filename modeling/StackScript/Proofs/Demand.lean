import Mathlib.Order.Bounds.Defs
import StackScript.Proofs.Continuation

namespace StackScript
namespace Session

-- A run over the first `taken` tokens of a session, or up to the first one that fails.
def feed (s : Session) (taken : Nat) : Run RunError Event Unit :=
  Program.steps (s.tokens.take taken) (.events s.machine.limits) s.machine.state

section Feed

variable {first : Session} {taken : Nat}

theorem feed_succ (hok : (first.feed taken).result = .ok ())
    (ht : first.tokens[taken]? = some token) :
    let r := Program.stepToken token (.events first.machine.limits) (first.feed taken).state
    first.feed (taken + 1) = ⟨r.result, r.state, (first.feed taken).trace ++ r.trace⟩ := by
  intro r
  have hone : Program.steps [token] (.events first.machine.limits) (first.feed taken).state = r :=
    by simp [Program.steps, r]
  rcases hf : first.feed taken with ⟨_ | _, t, trace⟩ <;> rw [hf] at hok hone <;> cases hok
  rw [feed, List.take_add_one, ht, Option.toList_some, Program.steps_append, Act.bind_ok hf, hone]

-- A token that fails is the last of those that were fed.
theorem feed_error (hearlier : ∀ i < taken, (first.feed i).result = .ok ())
    (he : (first.feed taken).result = .error e) :
    ∃ index, taken = index + 1 ∧ first.tokens[index]? = some e.token := by
  cases taken
  case zero => cases he
  case succ index =>
    have hok := hearlier index (Nat.lt_succ_self index)
    cases ht : first.tokens[index]?
    case none =>
      rw [feed, List.take_add_one, ht, Option.toList_none, List.append_nil] at he
      rw [feed, he] at hok
      cases hok
    case some token =>
      rw [feed_succ hok ht] at he
      rcases hr : Program.stepToken token (.events first.machine.limits) (first.feed index).state
        with ⟨_ | _, t, trace⟩ <;> rw [hr] at he <;> cases he
      have ⟨_, htoken, _⟩ := Program.stepToken_error hr
      exact ⟨index, rfl, htoken ▸ ht⟩

theorem feed_trace_isPrefix (first : Session) (taken : Nat) :
    (first.feed taken).trace <+:
      (Program.steps first.tokens (.events first.machine.limits) first.machine.state).trace := by
  have hparts := List.take_append_drop taken first.tokens
  rcases hf : first.feed taken with ⟨_ | _, t, trace⟩
  case error =>
    have hs := Act.bind_error (f := fun _ => Program.steps (first.tokens.drop taken)) hf
    rw [← Program.steps_append, hparts] at hs
    rw [hs]
  case ok =>
    have hs := Act.bind_ok (f := fun _ => Program.steps (first.tokens.drop taken)) hf
    rw [← Program.steps_append, hparts] at hs
    rw [hs]
    exact List.prefix_append _ _

theorem getElem?_of_feed {i : Nat} (h : (first.feed taken).trace[i]? = some event) :
    (Program.steps first.tokens (.events first.machine.limits) first.machine.state).trace[i]? =
      some event := by
  have ⟨more, htrace⟩ := first.feed_trace_isPrefix taken
  rw [← htrace, List.getElem?_append_left (List.getElem?_eq_some_iff.mp h).1, h]

theorem drive_feed (first : Session) (hlog : first.machine.log = #[]) (taken : Nat) :
    let r := first.feed taken
    first.machine.drive ((first.tokens.take taken).map (.step ·.text)) =
      (r.result.mapError (·.fault), ⟨first.machine.limits, r.state, r.trace.toArray⟩) := by
  rw [Machine.drive_tokens]
  simp [feed, hlog]

end Feed

theorem poll_exhausted {s : Session} (h : s.pending = []) (hp : s.phase = .running)
    (ht : s.tokens = []) : s.poll = (none, s.finish) := by
  unfold poll poll.go
  simp [h, hp, ht]

-- A token that does not fail leaves an event.
theorem pending_take_ne_nil {s : Session} (hlog : s.machine.log = #[]) (token : Token)
    (rest : List Token) (hp : (s.take token rest).phase = .running) :
    (s.take token rest).pending ≠ [] := by
  have ⟨journal, htake⟩ := take_eq rest token hlog
  rw [htake] at hp ⊢
  rcases hr : Program.stepToken token (.events s.machine.limits) s.machine.state
    with ⟨_ | x, t, trace⟩ <;> rw [hr] at hp
  case error => cases hp
  case ok =>
    rintro rfl
    exact (Op.step_tells token.text).mapError s.machine.state x t hr

-- A session that has taken `taken` tokens since it was `first`, and none after one that failed. All
-- that its machine has logged was taken from it.
structure Fed (first : Session) (taken : Nat) (s : Session) : Prop where
  machine : s.machine = ⟨first.machine.limits, (first.feed taken).state, #[]⟩
  tokens  : s.tokens = first.tokens.drop taken
  earlier : ∀ i < taken, (first.feed i).result = .ok ()

-- A session that has given out `given` events since it was `first`, and nothing else. It has not
-- taken a token while there were events left to give out.
structure Giving (first : Session) (taken given : Nat) (s : Session) : Prop
    extends Fed first taken s where
  pending : s.pending = (first.feed taken).trace.drop given
  phase   : s.phase = phaseAfter (first.feed taken).result
  enough  : given ≤ (first.feed taken).trace.length
  needed  : ∀ i < taken, (first.feed i).trace.length ≤ given

-- What a poll of `s` comes to if `given` events were given out before.
inductive Polled (first : Session) (given : Nat) (s : Session) :
    Option (Except RunError Event) × Session → Prop
  | event : (first.feed taken).trace[given]? = some event → Giving first taken (given + 1) t →
            IsLeast { j | given + 1 ≤ (first.feed j).trace.length } taken →
            Polled first given s (some (.ok event), t)
  | error : (first.feed taken).result = .error e → Fed first taken t → t.Spent →
            Polled first given s (some (.error e), t)
  | over  : t.machine = s.machine → t.tokens = s.tokens → t.Spent →
            Polled first given s (none, t)

namespace Giving

variable {first s s' : Session} {taken given : Nat}

theorem refl (hlog : s.machine.log = #[]) (hpending : s.pending = [])
    (hphase : s.phase = .running) : Giving s 0 0 s where
  machine := by rw [← hlog]; rfl
  tokens  := rfl
  earlier := nofun
  pending := hpending
  phase   := hphase
  enough  := Nat.le_refl _
  needed  := nofun

theorem poll_event (h : Giving first taken given s) (hp : s.pending = event :: rest) :
    Polled first given s' s.poll := by
  have hdrop : (first.feed taken).trace.drop given = event :: rest := h.pending.symm.trans hp
  have hget : (first.feed taken).trace[given]? = some event := by
    rw [← List.head?_drop, hdrop]
    rfl
  have hlt : given < (first.feed taken).trace.length := (List.getElem?_eq_some_iff.mp hget).1
  rw [poll_pending hp]
  refine .event hget ⟨⟨h.machine, h.tokens, h.earlier⟩, ?_, h.phase, hlt, ?_⟩ ⟨hlt, ?_⟩
  · rw [← List.tail_drop, hdrop]
    rfl
  · exact fun i hi => Nat.le_succ_of_le (h.needed i hi)
  · intro j hj
    refine Nat.le_of_not_lt fun hlt => ?_
    exact absurd (h.needed j hlt) (Nat.not_le.mpr hj)

theorem poll_error (h : Giving first taken given s) (hp : s.pending = [])
    (he : (first.feed taken).result = .error e) : Polled first given s' s.poll := by
  have hphase := h.phase
  rw [he] at hphase
  rw [poll_failing hp hphase]
  exact .error he ⟨h.machine, h.tokens, h.earlier⟩ ⟨hp, .inl rfl⟩

-- The step lemma for a token: it is taken when all events of the tokens before it are given out.
theorem take (h : Giving first taken given s) (hp : s.pending = [])
    (hok : (first.feed taken).result = .ok ()) (ht : s.tokens = token :: rest) :
    Giving first (taken + 1) given (s.take token rest) := by
  have hgiven : (first.feed taken).trace.length = given :=
    Nat.le_antisymm (List.drop_eq_nil_iff.mp (h.pending.symm.trans hp)) h.enough
  have hdrop : first.tokens.drop taken = token :: rest := h.tokens.symm.trans ht
  have htoken : first.tokens[taken]? = some token := by
    rw [← List.head?_drop, hdrop]
    rfl
  have hrest : rest = first.tokens.drop (taken + 1) := by
    rw [← List.tail_drop, hdrop]
    rfl
  have hfeed := feed_succ hok htoken
  have ⟨journal, htake⟩ := take_eq (s := s) rest token (by rw [h.machine])
  rw [h.machine] at htake
  rw [htake]
  refine ⟨⟨by rw [hfeed], hrest, fun i hi => ?_⟩, ?_, by rw [hfeed], ?_, fun i hi => ?_⟩
  · rcases Nat.lt_succ_iff_lt_or_eq.mp hi with hlt | rfl
    · exact h.earlier i hlt
    · exact hok
  · rw [hfeed, ← hgiven]
    exact List.drop_left.symm
  · rw [hfeed, List.length_append, hgiven]
    exact Nat.le_add_right _ _
  · rcases Nat.lt_succ_iff_lt_or_eq.mp hi with hlt | rfl
    · exact h.needed i hlt
    · exact Nat.le_of_eq hgiven

-- The step lemma for a poll. A token that is taken fails or leaves an event, so one is enough.
theorem poll (h : Giving first taken given s) : Polled first given s s.poll := by
  cases hp : s.pending
  case cons event rest => exact h.poll_event hp
  case nil =>
    cases hr : (first.feed taken).result
    case error e => exact h.poll_error hp hr
    case ok =>
      have hphase : s.phase = .running := by rw [h.phase, hr]; rfl
      cases ht : s.tokens
      case nil =>
        rw [poll_exhausted hp hphase ht]
        exact .over rfl rfl ⟨hp, .inl rfl⟩
      case cons token rest =>
        have htaken := h.take hp hr ht
        rw [poll_running hp hphase ht]
        cases hp' : (s.take token rest).pending
        case cons event rest' => exact htaken.poll_event hp'
        case nil =>
          cases hr' : (first.feed (taken + 1)).result
          case error e => exact htaken.poll_error hp' hr'
          case ok =>
            have hphase' : (s.take token rest).phase = .running := by rw [htaken.phase, hr']; rfl
            have hlog : s.machine.log = #[] := by rw [h.machine]
            exact absurd hp' (pending_take_ne_nil hlog token rest hphase')

end Giving

-- What a session is at any time: under way, or at its end.
inductive Stands (first s : Session) : Prop
  | giving : Giving first taken given s → Stands first s
  | spent  : Fed first taken s → s.Spent → Stands first s

theorem Spent.poll_eq {s : Session} (h : s.Spent) :
    s.poll.2.machine = s.machine ∧ s.poll.2.tokens = s.tokens := by
  have ⟨hp, ho⟩ := h
  rcases ho with ho | ⟨ho, ht⟩
  · unfold Session.poll poll.go
    simp [hp, ho]
  · rw [poll_exhausted hp ho ht]
    exact ⟨rfl, rfl⟩

theorem Fed.of_eq {first s t : Session} {taken : Nat} (h : Fed first taken s)
    (hm : t.machine = s.machine) (ht : t.tokens = s.tokens) : Fed first taken t where
  machine := hm.trans h.machine
  tokens  := ht.trans h.tokens
  earlier := h.earlier

theorem Stands.polled {first s : Session} : Stands first s → ∃ given, Polled first given s s.poll
  | .giving h   => ⟨_, h.poll⟩
  | .spent _ hs =>
    have ⟨hm, ht⟩ := hs.poll_eq
    have hn := hs.poll
    ⟨0, by rw [← Prod.mk.eta (p := s.poll), hn.1]; exact .over hm ht hn.2.1⟩

theorem Stands.fed {first s : Session} : Stands first s → ∃ taken, Fed first taken s
  | .giving h  => ⟨_, h.toFed⟩
  | .spent h _ => ⟨_, h⟩

theorem Stands.poll {first s : Session} (h : Stands first s) : Stands first s.poll.2 := by
  obtain ⟨_, hp⟩ := h.polled
  match s.poll, hp with
  | _, .event _ hg _  => exact .giving hg
  | _, .error _ hf hs => exact .spent hf hs
  | _, .over hm ht hs =>
    have ⟨_, hf⟩ := h.fed
    exact .spent (hf.of_eq hm ht) hs

-- The session after a number of polls, and what it answers to the one that follows.
def after (s : Session) (polls : Nat) : Session :=
  (fun s => s.poll.2)^[polls] s

def answer (s : Session) (polls : Nat) : Option (Except RunError Event) :=
  (s.after polls).poll.1

theorem after_succ (s : Session) (polls : Nat) : s.after (polls + 1) = (s.after polls).poll.2 :=
  Function.iterate_succ_apply' _ _ _

theorem after_add (s : Session) (polls more : Nat) :
    s.after (polls + more) = (s.after polls).after more := by
  rw [Nat.add_comm]
  exact Function.iterate_add_apply _ _ _ _

-- The run lemmas, by induction on the polls: for all polls, for those at the end, and for those
-- that have been answered with events.
theorem Stands.after {first s : Session} (h : Stands first s) (polls : Nat) :
    Stands first (s.after polls) := by
  induction polls
  case zero => exact h
  case succ polls hi =>
    rw [after_succ]
    exact hi.poll

theorem Spent.after {s : Session} (h : s.Spent) (polls : Nat) :
    (s.after polls).Spent ∧ (s.after polls).machine = s.machine ∧
      (s.after polls).tokens = s.tokens := by
  induction polls
  case zero => exact ⟨h, rfl, rfl⟩
  case succ polls hi =>
    have ⟨hs, hm, ht⟩ := hi
    have ⟨hm', ht'⟩ := hs.poll_eq
    rw [after_succ]
    exact ⟨hs.poll.2.1, hm'.trans hm, ht'.trans ht⟩

theorem Giving.after {s : Session} (h : Giving s 0 0 s) (polls : Nat)
    (hevents : ∀ i < polls, ∃ event, s.answer i = some (.ok event)) :
    ∃ taken, Giving s taken polls (s.after polls) ∧
      IsLeast { j | polls ≤ (s.feed j).trace.length } taken := by
  induction polls
  case zero => exact ⟨0, h, Nat.zero_le _, fun j _ => Nat.zero_le j⟩
  case succ polls hi =>
    have ⟨taken, hg, _⟩ := hi fun i hlt => hevents i (Nat.lt_succ_of_lt hlt)
    have ⟨event, he⟩ := hevents polls (Nat.lt_succ_self polls)
    rw [after_succ]
    rw [answer] at he
    match hpoll : (s.after polls).poll, hg.poll with
    | _, .event _ hg' hleast => exact ⟨_, hg', hleast⟩
    | _, .error ..           => simp [hpoll] at he
    | _, .over ..            => simp [hpoll] at he

variable {s : Session} {polls : Nat}

theorem Giving.answer_eq (h : Giving s 0 0 s)
    (hevents : ∀ i < polls, ∃ event, s.answer i = some (.ok event)) :
    ∀ i < polls, s.answer i =
      (Program.steps s.tokens (.events s.machine.limits) s.machine.state).trace[i]?.map .ok := by
  intro i hlt
  have ⟨taken, hg, _⟩ := h.after i fun j hj => hevents j (Nat.lt_trans hj hlt)
  have ⟨event, he⟩ := hevents i hlt
  rw [answer] at he ⊢
  match hpoll : (s.after i).poll, hg.poll with
  | _, .error .. => simp [hpoll] at he
  | _, .over ..  => simp [hpoll] at he
  | _, .event hget _ _ =>
    rw [getElem?_of_feed hget]
    rfl

theorem Stands.answer_error (h : Stands s s) (he : s.answer polls = some (.error e)) :
    ∃ taken, (s.feed taken).result = .error e ∧ Fed s taken (s.after (polls + 1)) ∧
      (s.after (polls + 1)).Spent := by
  have ⟨_, hp⟩ := (h.after polls).polled
  rw [after_succ]
  rw [answer] at he
  match hpoll : (s.after polls).poll, hp with
  | _, .event ..       => simp [hpoll] at he
  | _, .over ..        => simp [hpoll] at he
  | _, .error hr hf hs =>
    obtain rfl : _ = e := by simpa [hpoll] using he
    exact ⟨_, hr, hf, hs⟩

theorem Stands.answer_none (h : Stands s s) (hn : s.answer polls = none) :
    (s.after (polls + 1)).Spent ∧ (s.after (polls + 1)).machine = (s.after polls).machine ∧
      (s.after (polls + 1)).tokens = (s.after polls).tokens := by
  have ⟨_, hp⟩ := (h.after polls).polled
  rw [after_succ]
  rw [answer] at hn
  match hpoll : (s.after polls).poll, hp with
  | _, .event ..      => simp [hpoll] at hn
  | _, .error ..      => simp [hpoll] at hn
  | _, .over hm ht hs => exact ⟨hs, hm, ht⟩

-- The run lemma for the polls that follow an answer of nothing.
theorem Stands.over (h : Stands s s) (hn : s.answer polls = none) (more : Nat) :
    s.answer (polls + more) = none ∧ (s.after (polls + more)).machine = (s.after polls).machine ∧
      (s.after (polls + more)).tokens = (s.after polls).tokens := by
  cases more
  case zero => exact ⟨hn, rfl, rfl⟩
  case succ more =>
    have ⟨hspent, hm, ht⟩ := h.answer_none hn
    have ⟨hs, hm', ht'⟩ := hspent.after more
    rw [answer, Nat.add_comm more 1, ← Nat.add_assoc, after_add]
    exact ⟨hs.poll.1, hm'.trans hm, ht'.trans ht⟩

end Session

-- Of the machine that a session feeds, the log is taken after every token: what it held has been
-- given out, or is pending.
theorem tokens_taken_on_demand (limits : Limits) (source : String) :
    let tokens := Token.ofSource source
    let s      := Session.ofSource limits source
    let fed (j : Nat) := ({ limits } : Machine).drive ((tokens.take j).map (.step ·.text))
    (∀ k, (∀ i < k, ∃ event, s.answer i = some (.ok event)) →
      (∀ i < k, s.answer i = (start (.events limits) source).trace[i]?.map .ok) ∧
      ∃ j, IsLeast { j | k ≤ (fed j).2.log.size } j ∧
        (s.after k).machine = (fed j).2.takeLog.2 ∧
        (s.after k).pending = (fed j).2.log.toList.drop k) ∧
    (∀ k e, s.answer k = some (.error e) →
      (∃ j, tokens[j]? = some e.token ∧ (fed j).1 = .ok () ∧ (fed (j + 1)).1 = .error e.fault ∧
        (s.after (k + 1)).machine = (fed (j + 1)).2.takeLog.2) ∧
      s.answer (k + 1) = none) ∧
    (∀ k, ∃ j, (s.after k).machine = (fed j).2.takeLog.2 ∧ (s.after k).tokens = tokens.drop j ∧
      ∀ i < j, (fed i).1 = .ok ()) ∧
    (∀ k, s.answer k = none → ∀ more, s.answer (k + more) = none ∧
      (s.after (k + more)).machine = (s.after k).machine ∧
      (s.after (k + more)).tokens = (s.after k).tokens) := by
  intro tokens s fed
  have hgiving : Session.Giving s 0 0 s := .refl rfl rfl rfl
  have hstands : Session.Stands s s := .giving hgiving
  have hfed (j : Nat) : fed j = ((s.feed j).result.mapError (·.fault),
      { limits, state := (s.feed j).state, log := (s.feed j).trace.toArray }) := s.drive_feed rfl j
  have hmachine {j : Nat} {t : Session} (h : Session.Fed s j t) :
      t.machine = (fed j).2.takeLog.2 := by
    rw [hfed, h.machine]
    rfl
  have hok {j : Nat} (h : (s.feed j).result = .ok ()) : (fed j).1 = .ok () := by
    rw [hfed, h]
    rfl
  refine ⟨fun k hevents => ?_, fun k e he => ?_, fun k => ?_, fun k => hstands.over⟩
  · obtain ⟨j, hg, hleast⟩ := hgiving.after k hevents
    refine ⟨?_, j, ?_, hmachine hg.toFed, ?_⟩
    · rw [start, Program.run_eq_steps]
      exact hgiving.answer_eq hevents
    · simpa [hfed] using hleast
    · rw [hfed]
      exact hg.pending
  · obtain ⟨taken, hr, hf, hspent⟩ := hstands.answer_error he
    obtain ⟨j, rfl, htoken⟩ := Session.feed_error hf.earlier hr
    refine ⟨⟨j, htoken, hok (hf.earlier j (Nat.lt_succ_self j)), ?_, hmachine hf⟩, hspent.poll.1⟩
    rw [hfed, hr]
    rfl
  · obtain ⟨j, hf⟩ := (hstands.after k).fed
    exact ⟨j, hmachine hf, hf.tokens, fun i hi => hok (hf.earlier i hi)⟩

theorem exists_error_of_any {item? : Option (Except RunError Event)}
    (h : item?.any (·.toOption.isNone) = true) : ∃ e, item? = some (.error e) := by
  match item? with
  | some (.error e) => exact ⟨e, rfl⟩

-- A text whose second token fails: its third one is never taken.
theorem third_token_left :
    let tokens := Token.ofSource "/a x /b"
    let s      := Session.ofSource {} "/a x /b"
    let fed (j : Nat) := ({ limits := {} } : Machine).drive ((tokens.take j).map (.step ·.text))
    (∃ event, s.answer 0 = some (.ok event)) ∧ (s.after 1).machine = (fed 1).2.takeLog.2 ∧
    (∃ e, s.answer 1 = some (.error e)) ∧
    s.answer 2 = none ∧ ∀ more, (s.after (2 + more)).tokens = [⟨"/b", 1, 6⟩] := by
  intro tokens s fed
  have ⟨hevents, herror, _, hover⟩ := tokens_taken_on_demand {} "/a x /b"
  have hfirst : ∀ i < 1, ∃ event, s.answer i = some (.ok event) := by
    intro i hi
    obtain rfl : i = 0 := by omega
    exact ⟨_, rfl⟩
  have hleast : IsLeast { j | 1 ≤ (fed j).2.log.size } 1 := by
    refine ⟨by decide +kernel, fun j hj => Nat.one_le_iff_ne_zero.mpr ?_⟩
    rintro rfl
    cases hj
  obtain ⟨_, j, hj, hmachine, _⟩ := hevents 1 hfirst
  obtain rfl : j = 1 := hj.unique hleast
  have hfails : (s.answer 1).any (·.toOption.isNone) = true := by decide +kernel
  obtain ⟨e, he⟩ := exists_error_of_any hfails
  have hnone : s.answer 2 = none := (herror 1 e he).2
  have hrest : (s.after 2).tokens = [⟨"/b", 1, 6⟩] := by decide +kernel
  refine ⟨hfirst 0 Nat.one_pos, hmachine, ⟨e, he⟩, hnone, fun more => ?_⟩
  exact (hover 2 hnone more).2.2.trans hrest

end StackScript
