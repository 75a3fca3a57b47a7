import StackScript.Scope

namespace StackScript

-- The operands are listed bottom to top, the scopes base to innermost, and the block literals that
-- are still open oldest to newest.
structure Snapshot where
  stack  : Array Value         := #[]
  scopes : Array Scope         := #[]
  blocks : Array (Array Value) := #[]

namespace Snapshot

def top? (s : Snapshot) : Option Value :=
  s.stack.back?

def stackText (stack : Array Value) : String :=
  "stack: [" ++ " ".intercalate (stack.toList.map Value.text) ++ "]"

-- A base scope that binds nothing but built-in operations is not shown.
def scopeText (scope : Scope) (index : Nat) : String :=
  if index = 0 && scope.entries.all (·.2.isNative) then
    ""
  else
    " scope" ++ toString index ++ ": \x7b" ++
    String.join (scope.entries.map fun (name, v) => " " ++ name ++ "=" ++ v.text) ++ " \x7d"

def blockText (block : Array Value) (index : Nat) : String :=
  " open" ++ toString index ++ ": [" ++
  String.join (block.toList.map fun v => " " ++ v.text) ++ " ]"

def text (s : Snapshot) : String :=
  stackText s.stack ++
  String.join (s.scopes.toList.zipIdx.map fun (scope, i) => scopeText scope i) ++
  String.join (s.blocks.toList.zipIdx.map fun (block, i) => blockText block i)

def agree (p : α → α → Bool) : List α → List α → Bool
  | [],      []      => true
  | x :: xs, y :: ys => p x y && agree p xs ys
  | _,       _       => false

-- Equality of snapshots, with numbers compared as numbers.
def same (s₁ s₂ : Snapshot) : Bool :=
  Value.allSame s₁.stack.toList s₂.stack.toList &&
  agree Scope.same s₁.scopes.toList s₂.scopes.toList &&
  agree (fun b₁ b₂ => Value.allSame b₁.toList b₂.toList) s₁.blocks.toList s₂.blocks.toList

end Snapshot
end StackScript
