import StackScript.CommandLine.Arguments
import StackScript.CommandLine.Logging
import StackScript.CommandLine.Statistics
import StackScript.Session

namespace StackScript
namespace CommandLine

inductive SourceError
  | missing
  -- The path leads through a file.
  | notDirectory
  | directory
  | notText
deriving DecidableEq

def SourceError.message : SourceError → String
  | missing      => "No such file or directory (os error 2)"
  | notDirectory => "Not a directory (os error 20)"
  | directory    => "Is a directory (os error 21)"
  | notText      => "stream did not contain valid UTF-8"

-- What the command finds when it is called, and the time that the run of the program will take.
structure Invocation where
  args    : List String
  env     : Environment
  fetch   : Option String → Except SourceError String
  elapsed : Duration

-- The lines of `progress` are printed while the program runs, with a pause in milliseconds after
-- each of them, and those of `results` after it. On the error stream `notices` follow the log.
structure Report where
  status   : UInt8
  progress : List String := []
  results  : List String := []
  log      : List Record := []
  notices  : List String := []
  pause    : Nat         := 0

namespace Report

def output (r : Report) : List String :=
  r.progress ++ r.results

def errors (r : Report) (logging : Logging) (env : Environment) : List String :=
  logging.lines env r.log ++ r.notices

def refused (refusal : Refusal) : Report where
  status  := refusal.status
  results := refusal.output
  notices := refusal.notices

def unread (e : SourceError) : Report where
  status  := 1
  notices := ["Error: " ++ e.message]

end Report

def eventLine? (all : Bool) : Event → Option String
  | .state s    => if all then some ("state   " ++ s.text) else none
  | .popped v s => if all then some ("pop " ++ v.text ++ "  " ++ s.text) else none
  | .output v   => some (if all then "output  " ++ v.text else v.text)

-- The state carried by the last event that carries one.
def lastState? (events : List Event) : Option Snapshot :=
  (events.filterMap Event.snapshot?).getLast?

def failureNotices (events : List Event) (e : RunError) : List String :=
  ((lastState? events).map ("Last state: " ++ ·.text)).toList ++ ["Error: " ++ e.message]

def unclosed (s : State) : List Record :=
  if s.blocks.isEmpty then
    []
  else
    [{ level   := .warn
       target  := "stacklang"
       message := "program ended inside an unclosed block"
       fields  := [("open", toString s.blocks.size)] }]

namespace Arguments

def limits (a : Arguments) (env : Environment) : Limits where
  stackSize   := a.stackSize.getD env.limits.stackSize
  callDepth   := a.callDepth.getD env.limits.callDepth
  evaluations := a.evaluations.getD env.limits.evaluations

-- The report on a session from which `items` were drained.
def reportOn (a : Arguments) (env : Environment) (elapsed : Duration) :
    List (Except RunError Event) × Session → Report
  | (items, session) =>
    let events   := items.filterMap Except.toOption
    let state    := session.machine.state
    let log      := env.warnings ++ session.journal.toList.map Diagnostic.record
    let progress := events.filterMap (eventLine? a.events)
    let pause    := if a.events then a.delay else 0
    match items.getLast? with
    | some (.error e) =>
      { status  := 1
        notices := failureNotices events e
        log, progress, pause }
    | _ =>
      { status  := 0
        results := state.stack.toList.map Value.text
        log     := log ++ unclosed state
        notices := if a.stats then statistics state.count elapsed else []
        progress, pause }

def reportRun (a : Arguments) (env : Environment) (elapsed : Duration) (text : String) : Report :=
  a.reportOn env elapsed (Session.ofSource (a.limits env) text).drain

end Arguments

def respond (read : ArgumentReader) (i : Invocation) : Report :=
  match read i.args with
  | .error refusal => .refused refusal
  | .ok a          =>
    match i.fetch a.source? with
    | .error e => .unread e
    | .ok text => a.reportRun i.env i.elapsed text

end CommandLine
end StackScript
