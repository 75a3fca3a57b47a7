import StackScript.Proofs.Course

namespace StackScript

-- What the log can tell of a scope: the texts of what its names are bound to.
def Scope.texts (scope : Scope) (name : String) : Option String :=
  (scope.get? name).map Value.text

-- The evaluations that a fault has refused after they were counted.
def Fault.refused : Fault → Nat
  | evaluationsExceeded _ => 1
  | _                     => 0

def Fault.refusedBy : Except Fault α → Nat
  | .ok _    => 0
  | .error e => e.refused

namespace Diagnostic

-- The records that a machine leaves at the debug level.
def isMachineDebug (d : Diagnostic) : Bool :=
  d.level = .debug ∧ d.target = .machine

def isEvaluating : Diagnostic → Bool
  | evaluating _ => true
  | _            => false

def isScopePushed : Diagnostic → Bool
  | scopePushed _ => true
  | _             => false

def isScopePopped : Diagnostic → Bool
  | scopePopped _ => true
  | _             => false

-- What a record makes of the scopes that the records before it have led to. A record that does not
-- fit these scopes leads nowhere.
def replay (chain : Array (String → Option String)) :
    Diagnostic → Option (Array (String → Option String))
  | scopePushed index =>
    if index = chain.size then
      some (chain.push fun _ => none)
    else
      none
  | scopePopped index =>
    if 0 < index ∧ index + 1 = chain.size then
      some chain.pop
    else
      none
  | defined name v index =>
    if index + 1 = chain.size ∧ chain.back?.bind (· name) = none then
      some (Stack.amendLast chain fun texts n => if n = name then some v.text else texts n)
    else
      none
  | alreadyDefined name index =>
    if index + 1 = chain.size ∧ (chain.back?.bind (· name)).isSome then
      some chain
    else
      none
  | _ => some chain

-- The records that a replay goes through.
def ofNotes (notes : List Note) : List Diagnostic :=
  (notes.filterMap ofNote?).filter isMachineDebug

end Diagnostic

open Diagnostic

theorem Scope.texts_empty : Scope.empty.texts = fun _ => none :=
  rfl

theorem Scope.texts_insert (scope : Scope) (name : String) (v : Value) :
    (scope.insert name v).texts = fun n => if n = name then some v.text else scope.texts n := by
  funext n
  rw [texts, get?_insert]
  split <;> rfl

theorem replay_noted {d : Diagnostic} (h : d.isMachineDebug)
    (chain : Array (String → Option String)) :
    (ofNotes [.said d, .changed]).foldlM replay chain = replay chain d := by
  simp [ofNotes, List.filterMap_cons, ofNote?, h]

-- The step lemma, with one case per move.
theorem Move.replayed (m : Move limits s notes t) :
    (ofNotes notes).foldlM replay (s.scopes.map Scope.texts) = some (t.scopes.map Scope.texts) := by
  cases m
  case say d h =>
    have hn : ofNotes [.said d] = [] := by simp [ofNotes, ofNote?, isMachineDebug, h]
    rw [hn]
    rfl
  case define outer scope h hn =>
    rw [replay_noted rfl, h]
    simp [replay, Scope.texts_insert, Scope.texts, hn]
  case redefine outer scope hn h =>
    rw [replay_noted rfl, h]
    simp [replay, Scope.texts, hn]
  case pushScope =>
    rw [replay_noted rfl]
    simp [replay, Scope.texts_empty]
  case popScope outer scope h hs =>
    rw [replay_noted rfl, h]
    simp [replay, hs]
  all_goals rfl

-- The records of a run, as they are found in the full record of it.
theorem ofNotes_map_note (moments : List Moment) :
    ofNotes (moments.map (·.note)) =
      (moments.filterMap Moment.diagnostic?).filter isMachineDebug := by
  rw [ofNotes, List.filterMap_map]
  rfl

theorem ofNotes_append (notes₁ notes₂ : List Note) :
    ofNotes (notes₁ ++ notes₂) = ofNotes notes₁ ++ ofNotes notes₂ := by
  simp [ofNotes]

-- The run lemma: what is told of the moves of a path leads from the one end of it to the other.
theorem Path.replayed (p : Path limits s moments t) :
    (ofNotes (moments.map (·.note))).foldlM replay (s.scopes.map Scope.texts) =
      some (t.scopes.map Scope.texts) := by
  induction p
  case nil => rfl
  case cons u notes v moments w m p hi =>
    have hnotes : (Moment.record v notes).map (·.note) = notes := by
      simp [Moment.record, Function.comp_def]
    rw [List.map_append, hnotes, ofNotes_append, List.foldlM_append, m.replayed]
    exact hi

section Counts

variable {chain chain' : Array (String → Option String)}

-- The step lemma: the chain gets longer with a scope that is pushed and shorter with one that is
-- popped, and never loses the base scope.
theorem Diagnostic.replay_size (h : replay chain d = some chain') :
    chain'.size + [d].countP isScopePopped = chain.size + [d].countP isScopePushed ∧
      (0 < chain.size → 0 < chain'.size) := by
  cases d
  case scopePushed | defined | alreadyDefined =>
    simp only [replay, Option.ite_none_right_eq_some, Option.some.injEq] at h
    obtain ⟨_, rfl⟩ := h
    simp [isScopePopped, isScopePushed]
  case scopePopped =>
    simp only [replay, Option.ite_none_right_eq_some, Option.some.injEq] at h
    obtain ⟨⟨hpos, hsize⟩, rfl⟩ := h
    show chain.pop.size + 1 = chain.size + 0 ∧ (0 < chain.size → 0 < chain.pop.size)
    rw [Array.size_pop]
    omega
  all_goals
    cases h
    simp [isScopePopped, isScopePushed]

theorem Diagnostic.replay_sizes {records : List Diagnostic}
    (h : records.foldlM replay chain = some chain') :
    chain'.size + records.countP isScopePopped = chain.size + records.countP isScopePushed ∧
      (0 < chain.size → 0 < chain'.size) := by
  induction records generalizing chain
  case nil =>
    cases h
    exact ⟨rfl, id⟩
  case cons d records hi =>
    rw [List.foldlM_cons] at h
    have ⟨chain₁, h₁, h₂⟩ := Option.bind_eq_some_iff.mp h
    have ⟨hsize₁, hpos₁⟩ := replay_size h₁
    have ⟨hsize₂, hpos₂⟩ := hi h₂
    simp only [List.countP_singleton] at hsize₁
    simp only [List.countP_cons]
    exact ⟨by omega, hpos₂ ∘ hpos₁⟩

-- In no part of a log that can be replayed are more scopes popped than pushed.
theorem Diagnostic.popped_le_pushed {records : List Diagnostic} (hsize : chain.size = 1)
    (h : records.foldlM replay chain = some chain') (n : Nat) :
    (records.take n).countP isScopePopped ≤ (records.take n).countP isScopePushed := by
  rw [← List.take_append_drop n records, List.foldlM_append] at h
  have ⟨chain₁, h₁, _⟩ := Option.bind_eq_some_iff.mp h
  have ⟨hsize₁, hpos₁⟩ := replay_sizes h₁
  have hpos := hpos₁ (by omega)
  omega

end Counts

namespace Contract

variable {limits : Limits}

-- The count of evaluations grows with every record of one, and with one that is refused.
def counted (limits : Limits) : Contract Diagnostic where
  watch    := .diagnostics limits
  pre _    := True
  post s r := r.state.count = s.count + r.trace.countP isEvaluating + Fault.refusedBy r.result

-- An action that starts no evaluation.
theorem counted_of {a : Op Diagnostic α}
    (h : ∀ s, let r := a (.diagnostics limits) s
      r.state.count = s.count ∧ r.trace.countP isEvaluating = 0 ∧ Fault.refusedBy r.result = 0) :
    (counted limits).Holds a := by
  intro s _
  have ⟨hcount, htrace, hresult⟩ := h s
  simp only [counted]
  omega

theorem counted_bind {a : Op Diagnostic α} {f : α → Op Diagnostic β} (ha : (counted limits).Holds a)
    (hf : ∀ x, (counted limits).Holds (f x)) : (counted limits).Holds (a >>= f) := by
  intro s _
  have ha := ha s trivial
  simp only [counted] at ha ⊢
  rcases hr : a (.diagnostics limits) s with ⟨e | x, t, trace⟩ <;> rw [hr] at ha
  case error =>
    rw [Act.bind_error hr]
    exact ha
  case ok =>
    have ha : t.count = s.count + trace.countP isEvaluating := ha
    have hf := hf x t trivial
    simp only [counted] at hf
    rw [Act.bind_ok hr]
    simp only [List.countP_append]
    omega

theorem counted_startEvaluation (v : Value) : (counted limits).Holds (Op.startEvaluation v) := by
  intro s _
  simp only [counted, Op.startEvaluation_run]
  split <;> rfl

theorem counted_say {d : Diagnostic} (h : d.announces) : (counted limits).Holds (Act.say d) := by
  refine counted_of fun s => ?_
  cases d
  case stepping | applying => exact ⟨rfl, rfl, rfl⟩
  all_goals cases h

theorem counted_fail {e : Fault} (h : e.ofEvaluation) :
    (counted limits).Holds (α := α) (Act.fail e) := by
  refine counted_of fun s => ?_
  cases e
  case stackUnderflow | undefined | mismatch => exact ⟨rfl, rfl, rfl⟩
  all_goals cases h

theorem counted_stable : (counted limits).Stable where
  pure _          := counted_of fun _ => ⟨rfl, rfl, rfl⟩
  bind            := counted_bind
  fail            := counted_fail
  say             := counted_say
  startEvaluation := counted_startEvaluation
  push _          := counted_of fun _ => by rw [Op.push_run]; split <;> exact ⟨rfl, rfl, rfl⟩
  pop             := counted_of fun _ => by rw [Op.pop_run]; split <;> exact ⟨rfl, rfl, rfl⟩
  capture _ _ _ _ := rfl
  bindName _ _    := counted_of fun _ => by rw [Op.bindName_run]; split <;> exact ⟨rfl, rfl, rfl⟩
  put             := counted_of fun _ => by rw [Op.put_run]; split <;> exact ⟨rfl, rfl, rfl⟩

theorem counted_stepwise : (counted limits).Stepwise where
  toClosed   := counted_stable.closed
    (counted_of fun _ => by rw [Op.enter_run]; split <;> exact ⟨rfl, rfl, rfl⟩)
    (counted_of fun _ => ⟨rfl, rfl, rfl⟩) (counted_of fun _ => ⟨rfl, rfl, rfl⟩)
    (counted_of fun _ => ⟨rfl, rfl, rfl⟩)
  blank      := counted_of fun _ => ⟨rfl, rfl, rfl⟩
  openBlock  := counted_of fun _ => ⟨rfl, rfl, rfl⟩
  closeBlock := counted_of fun _ => by rw [Op.closeBlock_run]; split <;> exact ⟨rfl, rfl, rfl⟩

end Contract

theorem Op.step_counted (limits : Limits) (word : String) (s : State) :
    let r := step word (.diagnostics limits) s
    r.state.count = s.count + r.trace.countP isEvaluating + Fault.refusedBy r.result :=
  Contract.counted_stepwise.step word s trivial

theorem Watch.select_diagnostics (limits : Limits) (moments : List Moment) :
    (diagnostics limits).select moments = moments.filterMap Moment.diagnostic? := by
  induction moments
  case nil => rfl
  case cons m ms hi =>
    have h : (diagnostics limits).select (m :: ms) =
      m.diagnostic?.toList ++ (diagnostics limits).select ms := rfl
    rw [h, hi, List.filterMap_cons]
    cases m.diagnostic? <;> rfl

namespace Program

variable {s : State}

-- The run lemmas, by induction on the tokens.
theorem steps_counted (limits : Limits) (tokens : List Token) (s : State) :
    let r := steps tokens (.diagnostics limits) s
    r.state.count =
      s.count + r.trace.countP isEvaluating + Fault.refusedBy (r.result.mapError (·.fault)) := by
  refine steps_induction ?nil ?error ?ok tokens s
  case nil => exact fun _ => rfl
  case error =>
    intro token rest s e t trace h
    have hc := Op.step_counted limits token.text s
    rw [(stepToken_error h).1] at hc
    exact hc
  case ok =>
    intro token rest s t trace r h hi
    have hc := Op.step_counted limits token.text s
    rw [stepToken_ok h] at hc
    have hc : t.count = s.count + trace.countP isEvaluating := hc
    simp only [List.countP_append] at hi ⊢
    omega

theorem steps_scopes_size (limits : Limits) (tokens : List Token) (hs : s.Balanced)
    (hok : (steps tokens (.moments limits) s).result = .ok ()) :
    (steps tokens (.moments limits) s).state.scopes.size = s.scopes.size := by
  revert hs hok
  refine steps_induction ?nil ?error ?ok tokens s
  case nil   => exact fun _ _ _ => rfl
  case error => intros; contradiction
  case ok =>
    intro token rest s t trace r h hi hs hok
    have ha : Accounted limits s (Op.step token.text (.moments limits) s) :=
      Op.step_accounted token.text hs
    rw [stepToken_ok h] at ha
    exact (hi (ha.balanced hs rfl) hok).trans (ha.ok () rfl).2.1

theorem steps_log (limits : Limits) (tokens : List Token) (s : State) :
    let r := steps tokens (.moments limits) s
    steps tokens (.diagnostics limits) s =
      ⟨r.result, r.state, r.trace.filterMap Moment.diagnostic?⟩ := by
  have hr := steps_recorded (.diagnostics limits) tokens s
  rw [Run.seenBy, Watch.select_diagnostics] at hr
  exact hr

-- The last record may be that the source text ends inside a block. It tells nothing of the scopes.
theorem run_log (limits : Limits) (source : String) (s : State) :
    let r := steps (Token.ofSource source) (.diagnostics limits) s
    ∃ last, run source (.diagnostics limits) s = ⟨r.result, r.state, r.trace ++ last⟩ ∧
      last.countP isEvaluating = 0 ∧
      ∀ chain, (last.filter isMachineDebug).foldlM replay chain = some chain := by
  rcases hr : steps (Token.ofSource source) (.diagnostics limits) s with ⟨_ | _, t, trace⟩
  case error =>
    rw [run, Act.bind_error hr]
    exact ⟨[], by simp, rfl, fun _ => rfl⟩
  case ok =>
    rw [run, Act.bind_ok hr, Act.view_bind]
    split
    case isTrue  => exact ⟨_, rfl, rfl, fun _ => rfl⟩
    case isFalse => exact ⟨_, rfl, rfl, fun _ => rfl⟩

end Program

section Start

variable (limits : Limits) (source : String)

theorem start_replayed :
    let r := start (.diagnostics limits) source
    (r.trace.filter isMachineDebug).foldlM replay #[Scope.base.texts] =
      some (r.state.scopes.map Scope.texts) := by
  intro r
  have hb : State.initial.Balanced := ⟨Nat.one_pos, Nat.le_refl 1⟩
  have path : Path limits .initial _ _ := Program.steps_path (Token.ofSource source) hb
  have hpath := path.replayed
  have hinitial : State.initial.scopes.map Scope.texts = #[Scope.base.texts] := by
    simp [State.initial]
  rw [ofNotes_map_note, hinitial] at hpath
  obtain ⟨last, hr, _, hlast⟩ := Program.run_log limits source .initial
  have hr : r = _ := hr
  rw [Program.steps_log] at hr
  simp only [hr, List.filter_append, List.foldlM_append, hpath]
  exact hlast _

theorem start_counted :
    let r := start (.diagnostics limits) source
    r.state.count =
      r.trace.countP isEvaluating + Fault.refusedBy (r.result.mapError (·.fault)) := by
  intro r
  have hcount := Program.steps_counted limits (Token.ofSource source) .initial
  have hzero : State.initial.count = 0 := rfl
  obtain ⟨last, hr, hlast, _⟩ := Program.run_log limits source .initial
  have hr : r = _ := hr
  simp only [hr, List.countP_append]
  omega

theorem start_scopes_size (h : (start (.diagnostics limits) source).result = .ok ()) :
    (start (.diagnostics limits) source).state.scopes.size = 1 := by
  have hb : State.initial.Balanced := ⟨Nat.one_pos, Nat.le_refl 1⟩
  have ⟨hresult, hstate⟩ := Program.run_comes_to (w := .diagnostics limits) (s := .initial) source
  rw [Program.steps_log] at hresult hstate
  rw [start, hresult] at h
  rw [start, hstate]
  exact Program.steps_scopes_size limits (Token.ofSource source) hb h

end Start

theorem log_rebuilds_scopes (limits : Limits) (source : String) :
    let r       := start (.diagnostics limits) source
    let records := r.trace.filter isMachineDebug
    records.foldlM replay #[Scope.base.texts] = some (r.state.scopes.map Scope.texts) ∧
    (∀ n, (records.take n).countP isScopePopped ≤ (records.take n).countP isScopePushed) ∧
    match r.result with
    | .ok _    =>
      records.countP isScopePushed = records.countP isScopePopped ∧
      r.state.count = r.trace.countP isEvaluating
    | .error e =>
      records.countP isScopePushed = records.countP isScopePopped + (r.state.scopes.size - 1) ∧
      r.state.count = r.trace.countP isEvaluating + e.fault.refused := by
  intro r records
  have hreplay : records.foldlM replay #[Scope.base.texts] =
      some (r.state.scopes.map Scope.texts) :=
    start_replayed limits source
  have hcount : r.state.count =
      r.trace.countP isEvaluating + Fault.refusedBy (r.result.mapError (·.fault)) :=
    start_counted limits source
  have ⟨hsize, hpos⟩ := replay_sizes hreplay
  have hbase : #[Scope.base.texts].size = 1 := rfl
  rw [Array.size_map, hbase] at hsize hpos
  refine ⟨hreplay, popped_le_pushed rfl hreplay, ?_⟩
  cases hr : r.result
  case ok =>
    have hone : r.state.scopes.size = 1 := start_scopes_size limits source hr
    rw [hr] at hcount
    exact ⟨by omega, hcount⟩
  case error e =>
    have hpos := hpos Nat.one_pos
    rw [hr] at hcount
    exact ⟨by omega, hcount⟩

end StackScript
