import StackScript.CommandLine.Word

namespace StackScript
namespace CommandLine

structure Arguments where
  file        : Option String := none
  stackSize   : Option Nat    := none
  callDepth   : Option Nat    := none
  evaluations : Option Nat    := none
  events      : Bool          := false
  delay       : Nat           := 0
  stats       : Bool          := false
deriving DecidableEq

-- Without a file, or with a dash for it, the program is read from the standard input.
def Arguments.source? (a : Arguments) : Option String :=
  a.file.filter (· ≠ "-")

inductive Flag
  | events
  | stats
deriving DecidableEq

namespace Flag

def all : List Flag :=
  [events, stats]

def name : Flag → String
  | events => "events"
  | stats  => "stats"

def letter : Flag → Char
  | events => 'e'
  | stats  => 's'

end Flag

inductive Setting
  | stackSize
  | callDepth
  | evaluations
  | delay
deriving DecidableEq

namespace Setting

def all : List Setting :=
  [stackSize, callDepth, evaluations, delay]

def name : Setting → String
  | stackSize   => "max-stack-size"
  | callDepth   => "max-call-depth"
  | evaluations => "op-limit"
  | delay       => "delay-ms"

def letter? : Setting → Option Char
  | stackSize   => some 'm'
  | callDepth   => some 'd'
  | evaluations => some 'l'
  | delay       => none

end Setting

-- One thing that is given on the command line.
inductive Given
  | file (name : String)
  | flag (f : Flag)
  | setting (s : Setting) (n : Nat)
deriving DecidableEq

namespace Given

def file? : Given → Option String
  | file name => some name
  | _         => none

def number? (s : Setting) : Given → Option Nat
  | setting s' n => if s' = s then some n else none
  | _            => none

-- What is given, without its value.
inductive Slot
  | file
  | flag (f : Flag)
  | setting (s : Setting)
deriving DecidableEq

def slot : Given → Slot
  | file _      => .file
  | flag f      => .flag f
  | setting s _ => .setting s

end Given

def Arguments.of (given : List Given) : Arguments where
  file        := given.findSome? Given.file?
  stackSize   := given.findSome? (Given.number? .stackSize)
  callDepth   := given.findSome? (Given.number? .callDepth)
  evaluations := given.findSome? (Given.number? .evaluations)
  events      := .flag .events ∈ given
  delay       := (given.findSome? (Given.number? .delay)).getD 0
  stats       := .flag .stats ∈ given

-- What comes of arguments that ask for no run.
structure Refusal where
  status  : UInt8
  output  : List String := []
  notices : List String := []

-- Everything that reads arguments is a parameter of the command.
abbrev ArgumentReader := List String → Except Refusal Arguments

end CommandLine
end StackScript
