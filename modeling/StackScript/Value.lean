import StackScript.Native
import StackScript.Number.Shortest

namespace StackScript

-- A symbol is a name used as data, an operator one that is looked up when it is evaluated.
inductive Value
  | number (x : Float)
  | symbol (name : String)
  | operator (name : String)
  | block (body : List Value)
  | native (op : Native)

namespace Value

def kind : Value → String
  | number _   => "number"
  | symbol _   => "symbol"
  | operator _ => "operator"
  | block _    => "block"
  | native _   => "native"

def number? : Value → Option Float
  | number x => some x
  | _        => none

def isNative : Value → Bool
  | native _ => true
  | _        => false

def isOperator : Value → Bool
  | operator _ => true
  | _          => false

def openWord : String := "\x7b"

def closeWord : String := "\x7d"

mutual

def words : Value → List String
  | number x      => [Number.text x]
  | symbol name   => ["/" ++ name]
  | operator name => [name]
  | block body    => openWord :: (wordsOfAll body ++ [closeWord])
  | native op     => ["--" ++ op.name ++ "--"]

def wordsOfAll : List Value → List String
  | []      => []
  | v :: vs => words v ++ wordsOfAll vs

end

def text (v : Value) : String :=
  " ".intercalate v.words

mutual

-- Structural equality, with numbers compared as numbers: `0` is `-0`, and a NaN is nothing.
def same : Value → Value → Bool
  | number x,    number y    => x == y
  | symbol a,    symbol b    => a == b
  | operator a,  operator b  => a == b
  | block vs,    block ws    => allSame vs ws
  | native a,    native b    => a == b
  | _,           _           => false

def allSame : List Value → List Value → Bool
  | [],      []      => true
  | v :: vs, w :: ws => same v w && allSame vs ws
  | _,       _       => false

end

end Value
end StackScript
