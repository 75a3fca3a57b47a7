import StackScript.Eval
import StackScript.Event

namespace StackScript

-- A computation that is driven from outside. It can be driven on after a fault, from the state that
-- the fault left.
structure Machine where
  limits : Limits
  state  : State       := .initial
  -- The events that were not taken yet, oldest first.
  log    : Array Event := #[]

namespace Machine

def perform (m : Machine) (op : Op Event Unit) : Except Fault Unit × Machine :=
  let r := op (.events m.limits) m.state
  (r.result, { m with state := r.state, log := m.log ++ r.trace.toArray })

def step (m : Machine) (word : String) : Except Fault Unit × Machine :=
  m.perform (Op.step word)

def eval (m : Machine) (v : Value) : Except Fault Unit × Machine :=
  m.perform (Op.eval v)

def outputs (m : Machine) : List Value :=
  m.log.toList.filterMap Event.output?

def takeLog (m : Machine) : Array Event × Machine :=
  (m.log, { m with log := #[] })

-- What a machine says of itself when it takes a word. Its diagnostics are no part of the events.
def remarks (m : Machine) (word : String) : List Diagnostic :=
  (Op.step word (.diagnostics m.limits) m.state).trace

end Machine
end StackScript
