import StackScript.CommandLine.Arguments

namespace StackScript
namespace CommandLine

def usage : List String :=
  ["Usage: stacklang [OPTIONS] [FILE]",
    "  -m, --max-stack-size <N>",
    "  -d, --max-call-depth <N>",
    "  -l, --op-limit <N>",
    "  -e, --events",
    "      --delay-ms <N>",
    "  -s, --stats",
    "  -h, --help"]

-- A reader of arguments that goes through them from left to right. `awaiting` is a setting whose
-- number comes next, and after a double dash everything is a file.
structure Scan where
  given     : List Given     := []
  awaiting  : Option Setting := none
  filesOnly : Bool           := false

namespace Scan

def helped : Refusal where
  status := 0
  output := usage

def misused : Refusal where
  status  := 2
  notices := usage

def add (s : Scan) (g : Given) : Except Refusal Scan :=
  if g.slot ∈ s.given.map Given.slot then .error misused
  else .ok { s with given := s.given ++ [g] }

def addNumber (s : Scan) (setting : Setting) (text : List Char) : Except Refusal Scan :=
  match readWord (.ofList text) with
  | .ok n    => s.add (.setting setting n)
  | .error _ => .error misused

-- What follows two dashes: a name, or a name and a number with an equals sign between them.
def long (s : Scan) (text : List Char) : Except Refusal Scan :=
  if text = "help".toList then
    .error helped
  else
    let name := text.takeWhile (· ≠ '=')
    match Flag.all.find? (·.name.toList = text), Setting.all.find? (·.name.toList = name) with
    | some f, _            => s.add (.flag f)
    | none,   none         => .error misused
    | none,   some setting =>
      match text.dropWhile (· ≠ '=') with
      | []         => .ok { s with awaiting := some setting }
      | _ :: value => s.addNumber setting value

-- What follows one dash: letters, of which only the last may stand for a setting, and its number.
def short (s : Scan) : List Char → Except Refusal Scan
  | []      => .ok s
  | c :: cs =>
    if c = 'h' then
      .error helped
    else
      match Flag.all.find? (·.letter = c), Setting.all.find? (·.letter? = some c) with
      | some f, _            => do short (← s.add (.flag f)) cs
      | none,   none         => .error misused
      | none,   some setting =>
        match cs with
        | []           => .ok { s with awaiting := some setting }
        | '=' :: value => s.addNumber setting value
        | value        => s.addNumber setting value

def next (s : Scan) (arg : String) : Except Refusal Scan :=
  match s.awaiting with
  | some setting =>
    match arg.toList with
    | '-' :: _ :: _ => .error misused
    | text          => { s with awaiting := none }.addNumber setting text
  | none =>
    if s.filesOnly then
      s.add (.file arg)
    else
      match arg.toList with
      | ['-', '-']         => .ok { s with filesOnly := true }
      | '-' :: '-' :: text => s.long text
      | '-' :: c :: cs     => s.short (c :: cs)
      | _                  => s.add (.file arg)

def finish (s : Scan) : Except Refusal Arguments :=
  match s.awaiting with
  | some _ => .error misused
  | none   => .ok (.of s.given)

def read : ArgumentReader := fun args => do
  let s ← args.foldlM next {}
  s.finish

end Scan
end CommandLine
end StackScript
