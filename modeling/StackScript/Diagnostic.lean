import StackScript.Fault

namespace StackScript

inductive Level
  | trace
  | debug
  | warn
deriving DecidableEq

def Level.text : Level → String
  | trace => "TRACE"
  | debug => "DEBUG"
  | warn  => "WARN"

-- What is logged. Whether and how it is written is another matter.
structure Record where
  level   : Level
  target  : String
  message : String
  fields  : List (String × String) := []
deriving DecidableEq

inductive Diagnostic
  | stepping (word : String)
  | evaluating (v : Value)
  | applying (op : Native)
  | scopePushed (index : Nat)
  | scopePopped (index : Nat)
  | defined (name : String) (v : Value) (index : Nat)
  | alreadyDefined (name : String) (index : Nat)
  | putting (v : Value)
  | endedInBlocks (blocks : Nat)
  | finished (evaluations : Nat)
  | failed (e : RunError)

namespace Diagnostic

inductive Target
  | machine
  | session
deriving DecidableEq

def Target.text : Target → String
  | machine => "stacklang::vm"
  | session => "stacklang::driver"

def level : Diagnostic → Level
  | stepping _ | evaluating _ | applying _ => .trace
  | _                                      => .debug

def target : Diagnostic → Target
  | finished _ | failed _ => .session
  | _                     => .machine

def message : Diagnostic → String
  | stepping _         => "step"
  | evaluating _       => "eval"
  | applying _         => "apply"
  | scopePushed _      => "push scope"
  | scopePopped _      => "pop scope"
  | defined _ _ _      => "def"
  | alreadyDefined _ _ => "already defined in this scope, ignoring"
  | putting _          => "puts"
  | endedInBlocks _    => "source ended with open blocks"
  | finished _         => "program finished"
  | failed _           => "program failed"

def fields : Diagnostic → List (String × String)
  | stepping word             => [("token", word)]
  | evaluating v              => [("value", v.text)]
  | applying op               => [("native", op.name)]
  | scopePushed index         => [("depth", toString index)]
  | scopePopped index         => [("depth", toString index)]
  | defined name v index      => [("name", name), ("value", v.text), ("depth", toString index)]
  | alreadyDefined name index => [("name", name), ("depth", toString index)]
  | putting v                 => [("value", v.text)]
  | endedInBlocks blocks      => [("open", toString blocks)]
  | finished evaluations      => [("evaluations", toString evaluations)]
  | failed e                  => [("error", e.message)]

def record (d : Diagnostic) : Record where
  level   := d.level
  target  := d.target.text
  message := d.message
  fields  := d.fields

end Diagnostic
end StackScript
