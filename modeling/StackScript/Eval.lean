import StackScript.Primitive

namespace StackScript

inductive Frame
  | scoped
  | inPlace
deriving DecidableEq

namespace Op

open Act

variable {κ : Type}

def binary (op : Native) (f : Float → Float → Float) : Op κ Unit := do
  let right ← pop
  let left ← pop
  match left, right with
  | .number a, .number b => push (.number (f a b))
  | _,         _         => fail (.mismatch op .twoNumbers [left, right])

def isTrue (x : Float) : Bool :=
  x != 0 && !x.isNaN

def test (call : Frame → List Value → Op κ Unit) (again : Value → Op κ Unit) : Op κ Unit := do
  match ← pop with
  | .block condition => call .inPlace condition
  | v                => again v

def choose (call : Frame → List Value → Op κ Unit) (consequent otherwise : List Value) :
    Op κ Unit := do
  match ← pop with
  | .number x => call .inPlace (if isTrue x then consequent else otherwise)
  | v         => fail (.mismatch .branch .conditionNumber [v])

def branch (call : Frame → List Value → Op κ Unit) (again : Value → Op κ Unit) : Op κ Unit := do
  let otherwise ← popBlock .branch
  let consequent ← popBlock .branch
  test call again
  choose call consequent otherwise

def define (again : Value → Op κ Unit) : Op κ Unit := do
  again (← pop)
  let v ← pop
  bindName (← popSymbol .define) v

-- Evaluates the second operand, then puts the topmost one and the second one back above it.
def exchange (again : Value → Op κ Unit) : Op κ Unit := do
  let last ← pop
  let second ← pop
  again second
  push last
  push second

-- `call` runs the body of a block one call deeper, and `again` evaluates an operand that was taken
-- off the stack.
def apply (call : Frame → List Value → Op κ Unit) (again : Value → Op κ Unit) (op : Native) :
    Op κ Unit := do
  say (.applying op)
  match op with
  | .add      => binary op (· + ·)
  | .subtract => binary op (· - ·)
  | .multiply => binary op (· * ·)
  | .divide   => binary op (· / ·)
  | .less     => binary op fun a b => if a < b then 1 else 0
  | .branch   => branch call again
  | .define   => define again
  | .exchange => exchange again
  | .put      => do output (← pop)

def evalWith (call : Frame → List Value → Op κ Unit) (again : Value → Op κ Unit) (v : Value) :
    Op κ Unit := do
  startEvaluation v
  if ← view (!·.blocks.isEmpty) then
    capture v
  else
    match v with
    | .operator name =>
      match ← view (·.lookup? name) with
      | none              => fail (.undefined name)
      | some (.block b)   => call .scoped b
      | some (.native op) => apply call again op
      | some v            => push v
    | v => push v

-- Evaluation recurs in two ways: into the body of a block, and into an operand that an operation
-- evaluates again. Such an operand has been taken off the stack, so on a stack of at most `height`
-- operands this comes to an end, and on the empty stack there is none.
def evalBelow (call : Frame → List Value → Op κ Unit) (height : Nat) : Value → Op κ Unit :=
  evalWith call <|
    match height with
    | 0          => fun _ => fail .stackUnderflow
    | height + 1 => evalBelow call height

def evalCalling (call : Frame → List Value → Op κ Unit) (v : Value) : Op κ Unit := do
  evalBelow call (← view (·.stack.size)) v

def inFrame : Frame → Op κ Unit → Op κ Unit
  | .inPlace, body => body
  | .scoped,  body => do
    pushScope
    body
    popScope

def within (frame : Frame) (body : Op κ Unit) : Op κ Unit := do
  enter
  inFrame frame body
  leave

-- Runs the body of a block when `calls` more blocks may run inside each other. A block is run one
-- call deeper than the operator that names it, and the call depth is limited.
def callWithin : Nat → Frame → List Value → Op κ Unit
  | 0,         frame, _    => within frame (return)
  | calls + 1, frame, body => within frame (body.forM (evalCalling (callWithin calls)))

def eval (v : Value) : Op κ Unit :=
  fun w s => evalCalling (callWithin (w.limits.callDepth - s.depth)) v w s

def step (word : String) : Op κ Unit := do
  say (.stepping word)
  match Lexeme.ofWord word with
  | .blank   => note .changed
  | .opening => openBlock
  | .closing => eval (.block (← closeBlock))
  | .value v => eval v

end Op
end StackScript
