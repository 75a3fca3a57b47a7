import StackScript.Action

namespace StackScript

abbrev Op (κ : Type) := Act Fault κ

namespace Op

open Act

variable {κ : Type}

-- An evaluation that the limit refuses has been counted all the same.
def startEvaluation (v : Value) : Op κ Unit := do
  change (fun s => { s with count := s.count + 1 }) fun _ => []
  require (fun limits s => s.count ≤ limits.evaluations) fun _ s =>
    .evaluationsExceeded (s.count - 1)
  say (.evaluating v)

def push (v : Value) : Op κ Unit := do
  require (fun limits s => s.stack.size < limits.stackSize) fun limits _ =>
    .stackOverflow limits.stackSize
  change (fun s => { s with stack := s.stack.push v }) fun _ => [.changed]

def pop : Op κ Value := do
  match ← view (·.stack.back?) with
  | none   => fail .stackUnderflow
  | some v =>
    change (fun s => { s with stack := s.stack.pop }) fun _ => [.popped v]
    return v

def popBlock (op : Native) : Op κ (List Value) := do
  match ← pop with
  | .block body => return body
  | v           => fail (.mismatch op .block [v])

def popSymbol (op : Native) : Op κ String := do
  match ← pop with
  | .symbol name => return name
  | v            => fail (.mismatch op .symbol [v])

def openBlock : Op κ Unit :=
  change (fun s => { s with blocks := s.blocks.push #[] }) fun _ => [.changed]

def closeBlock : Op κ (List Value) := do
  match ← view (·.blocks.back?) with
  | none      => fail .blockUnderflow
  | some body =>
    change (fun s => { s with blocks := s.blocks.pop }) fun _ => [.changed]
    return body.toList

def capture (v : Value) : Op κ Unit :=
  change (fun s => { s with blocks := Stack.amendLast s.blocks (·.push v) }) fun _ => [.changed]

def bindName (name : String) (v : Value) : Op κ Unit := do
  if ← view (·.isBound name) then
    change id fun s => [.said (.alreadyDefined name (s.scopes.size - 1)), .changed]
  else
    change (fun s => { s with scopes := Stack.amendLast s.scopes (·.insert name v) }) fun s =>
      [.said (.defined name v (s.scopes.size - 1)), .changed]

def output (v : Value) : Op κ Unit :=
  change id fun _ => [.said (.putting v), .output v]

def enter : Op κ Unit := do
  require (fun limits s => s.depth < limits.callDepth) fun limits _ =>
    .callDepthExceeded limits.callDepth
  change (fun s => { s with depth := s.depth + 1 }) fun _ => [.entered]

def leave : Op κ Unit :=
  change (fun s => { s with depth := s.depth - 1 }) fun _ => [.left]

def pushScope : Op κ Unit :=
  change (fun s => { s with scopes := s.scopes.push .empty }) fun s =>
    [.said (.scopePushed (s.scopes.size - 1)), .changed]

def popScope : Op κ Unit :=
  change (fun s => { s with scopes := s.scopes.pop }) fun s =>
    [.said (.scopePopped s.scopes.size), .changed]

end Op
end StackScript
