namespace StackScript

inductive Native
  | add
  | subtract
  | multiply
  | divide
  | less
  | branch
  | define
  | exchange
  | put
deriving DecidableEq

namespace Native

def all : List Native :=
  [add, subtract, multiply, divide, less, branch, define, exchange, put]

def name : Native → String
  | add      => "+"
  | subtract => "-"
  | multiply => "*"
  | divide   => "/"
  | less     => "<"
  | branch   => "if"
  | define   => "def"
  | exchange => "exch"
  | put      => "puts"

def ofName? (name : String) : Option Native :=
  all.find? (·.name == name)

end Native
end StackScript
