import StackScript.Token

namespace StackScript

inductive Expectation
  | twoNumbers
  | block
  | conditionNumber
  | symbol
deriving DecidableEq

def Expectation.text : Expectation → String
  | twoNumbers      => "two numbers"
  | block           => "a block"
  | conditionNumber => "a number as the condition result"
  | symbol          => "a symbol"

inductive Fault
  | stackUnderflow
  | blockUnderflow
  | undefined (name : String)
  | mismatch (op : Native) (expected : Expectation) (found : List Value)
  | stackOverflow (limit : Nat)
  | callDepthExceeded (limit : Nat)
  -- The number of evaluations that were still admitted.
  | evaluationsExceeded (count : Nat)

namespace Fault

def foundText (found : List Value) : String :=
  " and ".intercalate (found.map fun v => "`" ++ v.text ++ "` (" ++ v.kind ++ ")")

def message : Fault → String
  | stackUnderflow             => "Removing from an empty stack"
  | blockUnderflow             => "Block stack underflow: `\x7d` without a matching `\x7b`"
  | undefined name             => "`" ++ name ++ "` is not a defined operation"
  | mismatch op expected found =>
    "`" ++ op.name ++ "` expected " ++ expected.text ++ ", found " ++ foundText found
  | stackOverflow limit        => "Adding to a full stack (limit " ++ toString limit ++ ")"
  | callDepthExceeded limit    => "Call depth exceeded (limit " ++ toString limit ++ ")"
  | evaluationsExceeded count  =>
    "Operation limit exceeded (" ++ toString count ++ " evaluations)"

def isLimit : Fault → Bool
  | stackOverflow _       => true
  | callDepthExceeded _   => true
  | evaluationsExceeded _ => true
  | _                     => false

end Fault

-- A fault together with the token that was running and the evaluations started up to it.
structure RunError where
  token : Token
  count : Nat
  fault : Fault

def RunError.message (e : RunError) : String :=
  "Token `" ++ e.token.text ++ "` at line " ++ toString e.token.line ++
  ", column " ++ toString e.token.column ++
  " failed (instruction counter " ++ toString e.count ++ "): " ++ e.fault.message

end StackScript
