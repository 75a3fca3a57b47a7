import StackScript.CommandLine.Environment

namespace StackScript
namespace CommandLine

-- How records are written is a parameter of the command. `filter?` reads a filter from its text, and
-- `filter` does so too but makes the best of a text that is none. `line n` is what is written for
-- the record that comes after `n` others, which stands for the time as well.
structure Logging where
  filter? : String → Option (Record → Bool)
  filter  : String → Record → Bool
  line    : Nat → Record → String

namespace Logging

def filterKey : String := "RUST_LOG"

def admits (l : Logging) (env : Environment) : Record → Bool :=
  ((env filterKey).bind l.filter?).getD (l.filter "warn")

def lines (l : Logging) (env : Environment) (records : List Record) : List String :=
  (records.filter (l.admits env)).mapIdx l.line

end Logging

-- Of the control characters, those that a terminal would take for a command are written as escapes.
def terminalControls : List Nat :=
  [0x07, 0x08, 0x0c, 0x1b, 0x7f]

def hexDigits (n : Nat) : List Char :=
  let digits := Nat.toDigits 16 n
  List.replicate (2 - digits.length) '0' ++ digits

def logChar (c : Char) : List Char :=
  if c.toNat ∈ terminalControls then
    '\\' :: 'x' :: hexDigits c.toNat
  else if 0x80 ≤ c.toNat ∧ c.toNat ≤ 0x9f then
    "\\u\x7b".toList ++ hexDigits c.toNat ++ "\x7d".toList
  else
    [c]

def logText (text : String) : String :=
  .ofList (text.toList.flatMap logChar)

namespace Logging

def admitsUpTo : String → Option (Record → Bool)
  | "off" | "error" => some fun _ => false
  | "warn" | "info" => some fun r => r.level = .warn
  | "debug"         => some fun r => r.level ≠ .trace
  | "trace"         => some fun _ => true
  | _               => none

-- Lines without colours, each with what `stamp` gives for the time. Of the filters only those are
-- known that are the name of a level.
def plain (stamp : Nat → String) : Logging where
  filter?     := admitsUpTo
  filter text := (admitsUpTo text).getD fun _ => false
  line n r    :=
    let gap := String.ofList (List.replicate (6 - r.level.text.length) ' ')
    stamp n ++ gap ++ r.level.text ++ " " ++ r.target ++ ": " ++ logText r.message ++
    String.join (r.fields.map fun (name, value) => " " ++ name ++ "=" ++ value)

end Logging
end CommandLine
end StackScript
