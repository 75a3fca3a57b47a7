import StackScript.CommandLine.Word
import StackScript.Diagnostic
import StackScript.Limits

namespace StackScript
namespace CommandLine

abbrev Environment := String → Option String

namespace Environment

def unreadable (key value : String) (e : WordError) : Record where
  level   := .warn
  target  := "stacklang::config"
  message :=
    "Failed to parse env var " ++ key ++ " with value " ++ value ++ ": " ++ e.message ++
    ", using the default"

def number? (env : Environment) (key : String) : Except Record (Option Nat) :=
  match env key with
  | none | some "" => .ok none
  | some value     =>
    match readWord value with
    | .ok n    => .ok (some n)
    | .error e => .error (unreadable key value e)

def numberOr (env : Environment) (standard : Nat) (key : String) : Nat :=
  match env.number? key with
  | .ok (some n) => n
  | _            => standard

def stackSizeKey : String := "STACKLANG_MAX_STACK_SIZE"

def callDepthKey : String := "STACKLANG_MAX_CALL_DEPTH"

def evaluationsKey : String := "STACKLANG_MAX_OP_COUNT"

def limits (env : Environment) : Limits :=
  let standard : Limits := {}
  { stackSize   := env.numberOr standard.stackSize stackSizeKey
    callDepth   := env.numberOr standard.callDepth callDepthKey
    evaluations := env.numberOr standard.evaluations evaluationsKey }

-- The variables are read in this order, whether or not an argument takes the place of one.
def warnings (env : Environment) : List Record :=
  [stackSizeKey, callDepthKey, evaluationsKey].filterMap fun key =>
    match env.number? key with
    | .ok _    => none
    | .error r => some r

end Environment
end CommandLine
end StackScript
