import StackScript.Stack
import StackScript.Token

namespace StackScript

inductive ReadError
  | unmatchedClose (line column : Nat)
  | unclosed (blocks : Nat)
  | notOneBlock (found : Nat)
deriving DecidableEq

def ReadError.message : ReadError → String
  | unmatchedClose line column =>
    "Unmatched `\x7d` at line " ++ toString line ++ ", column " ++ toString column ++ "."
  | unclosed blocks =>
    toString blocks ++ " block(s) left unclosed at the end of the input."
  | notOneBlock found =>
    "Expected exactly one block, found " ++ toString found ++ " value(s)."

-- What has been read of a text: the finished values, and the blocks still open, oldest first.
structure Draft where
  values : Array Value         := #[]
  blocks : Array (Array Value) := #[]

namespace Draft

def add (d : Draft) (v : Value) : Draft :=
  if d.blocks.isEmpty then
    { d with values := d.values.push v }
  else
    { d with blocks := Stack.amendLast d.blocks (·.push v) }

def read (d : Draft) (token : Token) : Except ReadError Draft :=
  match Lexeme.ofWord token.text with
  | .blank   => .ok d
  | .opening => .ok { d with blocks := d.blocks.push #[] }
  | .value v => .ok (d.add v)
  | .closing =>
    match d.blocks.back? with
    | none      => .error (.unmatchedClose token.line token.column)
    | some body => .ok ({ d with blocks := d.blocks.pop }.add (.block body.toList))

def finish (d : Draft) : Except ReadError (List Value) :=
  if d.blocks.isEmpty then .ok d.values.toList else .error (.unclosed d.blocks.size)

end Draft

namespace Value

def readAll (text : String) : Except ReadError (List Value) := do
  let draft ← (Token.ofSource text).foldlM Draft.read {}
  draft.finish

def readBlock (text : String) : Except ReadError (List Value) := do
  match ← readAll text with
  | [.block body] => .ok body
  | values        => .error (.notOneBlock values.length)

end Value
end StackScript
