import StackScript.Value

namespace StackScript

-- A word of a source text with its line and its column in bytes, both counted from one.
structure Token where
  text   : String
  line   : Nat
  column : Nat
deriving DecidableEq

namespace Token

def dropReturn (line : List Char) : List Char :=
  if line.getLast? = some '\r' then line.dropLast else line

def place (line : Nat) : Nat → List (List Char) → List Token
  | _,      []            => []
  | column, word :: words =>
    let text := String.ofList word
    ⟨text, line, column⟩ :: place line (column + text.utf8ByteSize + 1) words

-- The words of a line are what stands between its single spaces, so two neighbouring spaces have an
-- empty word between them.
def ofLine (line : List Char) (number : Nat) : List Token :=
  place number 1 ((dropReturn line).splitOn ' ')

def ofSource (source : String) : List Token :=
  ((source.toList.splitOn '\n').zipIdx 1).flatMap fun (line, number) => ofLine line number

end Token

inductive Lexeme
  | blank
  | opening
  | closing
  | value (v : Value)

-- A lone slash is an operator, and not a symbol without a name.
def Lexeme.ofWord (word : String) : Lexeme :=
  if word = "" then blank
  else if word = Value.openWord then opening
  else if word = Value.closeWord then closing
  else if word = "/" then value (.operator word)
  else
    match Number.read? word, word.toList with
    | some x, _           => value (.number x)
    | none,   '/' :: name => value (.symbol (.ofList name))
    | none,   _           => value (.operator word)

end StackScript
