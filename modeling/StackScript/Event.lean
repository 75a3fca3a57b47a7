import StackScript.Action

namespace StackScript

inductive Event
  | state (s : Snapshot)
  | popped (v : Value) (s : Snapshot)
  | output (v : Value)

namespace Event

def snapshot? : Event → Option Snapshot
  | state s    => some s
  | popped _ s => some s
  | output _   => none

def output? : Event → Option Value
  | output v => some v
  | _        => none

def ofNote? : Note → State → Option Event
  | .changed,  s => some (state s.toSnapshot)
  | .popped v, s => some (popped v s.toSnapshot)
  | .output v, _ => some (output v)
  | _,         _ => none

end Event

def Diagnostic.ofNote? : Note → Option Diagnostic
  | .said d => some d
  | _       => none

structure Moment where
  note  : Note
  state : State

def Moment.event? (m : Moment) : Option Event :=
  Event.ofNote? m.note m.state

def Moment.diagnostic? (m : Moment) : Option Diagnostic :=
  Diagnostic.ofNote? m.note

namespace Watch

def silent (limits : Limits) : Watch Empty where
  limits
  keep _ _ := []

def events (limits : Limits) : Watch Event where
  limits
  keep n s := (Event.ofNote? n s).toList

def diagnostics (limits : Limits) : Watch Diagnostic where
  limits
  keep n _ := (Diagnostic.ofNote? n).toList

def moments (limits : Limits) : Watch Moment where
  limits
  keep n s := [⟨n, s⟩]

end Watch
end StackScript
