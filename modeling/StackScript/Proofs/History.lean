import StackScript.Proofs.WellFormed

namespace StackScript

-- The changes that an event tells of by the state that they lead to.
inductive Snapshot.Change (s : Snapshot) : Snapshot → Prop
  | nothing :
    Change s s
  | push :
    Change s { s with stack := s.stack.push v }
  | pushScope :
    Change s { s with scopes := s.scopes.push .empty }
  | popScope {outer : Array Scope} (h : s.scopes = outer.push scope) (hs : 0 < outer.size) :
    Change s { s with scopes := outer }
  | define {outer : Array Scope} {scope : Scope} (h : s.scopes = outer.push scope)
    (hn : scope.get? name = none) :
    Change s { s with scopes := outer.push (scope.insert name v) }
  | opening :
    Change s { s with blocks := s.blocks.push #[] }
  | closing {older : Array (Array Value)} (h : s.blocks = older.push body) :
    Change s { s with blocks := older }
  | capture {older : Array (Array Value)} (h : s.blocks = older.push body) :
    Change s { s with blocks := older.push (body.push v) }

-- The events lead from the one snapshot to the other. What is put out is the operand that the event
-- before it has taken off the stack.
inductive History : Snapshot → List Event → Snapshot → Prop
  | nil :
    History s [] s
  | state (h : s.Change t) :
    History t events u → History s (.state t :: events) u
  | popped {s : Snapshot} (h : s.stack = older.push v) :
    History { s with stack := older } events u →
    History s (.popped v { s with stack := older } :: events) u
  | put {s : Snapshot} (h : s.stack = older.push v) :
    History { s with stack := older } events u →
    History s (.popped v { s with stack := older } :: .output v :: events) u

namespace History

variable {s t : Snapshot} {events : List Event}

-- The snapshot that the events carry last, if they carry one, is the one that they lead to.
theorem last_snapshot (h : History s events t) :
    (events.filterMap Event.snapshot?).getLast?.getD s = t := by
  induction h
  case nil => rfl
  all_goals simp_all [Event.snapshot?, List.getLast?_cons]

-- What is put out has been taken off the stack, so something was shown before it.
theorem exists_snapshot (h : History s events t) (hn : events ≠ []) :
    ∃ event ∈ events, ∃ u, event.snapshot? = some u := by
  cases h
  case nil                  => exact absurd rfl hn
  case state | popped | put => exact ⟨_, List.mem_cons_self, _, rfl⟩

theorem output_follows_popped (h : History s events t) (he : events = before ++ .output v :: rest) :
    ∃ snapshot, before.getLast? = some (.popped v snapshot) := by
  induction h generalizing before
  case nil => simp at he
  case state hi =>
    cases before <;> simp at he
    have ⟨snapshot, hs⟩ := hi he.2
    exact ⟨snapshot, by simp [List.getLast?_cons, hs]⟩
  case popped hi =>
    cases before <;> simp at he
    have ⟨snapshot, hs⟩ := hi he.2
    exact ⟨snapshot, by simp [List.getLast?_cons, hs]⟩
  case put hi =>
    cases before <;> simp at he
    case cons _ before =>
      have ⟨hp, he⟩ := he
      cases before <;> simp at he
      case nil => exact ⟨_, by simp [← hp, he.1]; rfl⟩
      case cons =>
        have ⟨snapshot, hs⟩ := hi he.2
        exact ⟨snapshot, by simp [List.getLast?_cons, hs]⟩

end History

-- Moves that change neither the stack nor the scopes nor the open blocks are no events.
theorem Path.history (p : Path limits s moments t) :
    History s.toSnapshot (moments.filterMap Moment.event?) t.toSnapshot := by
  induction p
  case nil => exact .nil
  case cons m p hi =>
    cases m
    case say | count | enter | leave => exact hi
    case blank | redefine            => exact .state .nothing hi
    case push                        => exact .state .push hi
    case pop h                       => exact .popped h hi
    case put h                       => exact .put h hi
    case opening                     => exact .state .opening hi
    case closing h                   => exact .state (.closing h) hi
    case capture h                   => exact .state (.capture h) hi
    case define h hn                 => exact .state (.define h hn) hi
    case pushScope                   => exact .state .pushScope hi
    case popScope h hs               => exact .state (.popScope h hs) hi

theorem Machine.history_gap_free (limits : Limits) (calls : List Call) (call : Call) :
    let m  := ({ limits } : Machine).after calls
    let m' := (m.call call).2
    ∃ events, m'.log = m.log ++ events.toArray ∧
      History m.state.toSnapshot events m'.state.toSnapshot ∧
      (events.filterMap Event.snapshot?).getLast?.getD m.state.toSnapshot = m'.state.toSnapshot ∧
      ∀ before v rest, events = before ++ .output v :: rest →
        ∃ snapshot, before.getLast? = some (.popped v snapshot) := by
  intro m m'
  have hw : m.state.WellFormed limits := after_wellFormed { limits } .initial calls
  have ⟨_, hstate, hlog⟩ := m.call_recorded call
  have p := (call.accounted m.limits hw.balanced).path
  have h := p.history
  rw [← hstate] at h
  exact ⟨_, hlog, h, h.last_snapshot, fun _ _ _ he => h.output_follows_popped he⟩

end StackScript
