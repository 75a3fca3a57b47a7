import StackScript.Diagnostic
import StackScript.Limits
import StackScript.Snapshot
import StackScript.Stack

namespace StackScript

-- The depth is how many blocks are running inside each other, the count how many evaluations have
-- been started.
structure State extends Snapshot where
  depth : Nat := 0
  count : Nat := 0

namespace State

def initial : State :=
  { scopes := #[.base] }

def lookup? (s : State) (name : String) : Option Value :=
  s.scopes.findSomeRev? (·.get? name)

def isBound (s : State) (name : String) : Bool :=
  (s.scopes.back?.bind (·.get? name)).isSome

end State

inductive Note
  -- The stack, the scopes or the open blocks may have changed.
  | changed
  | popped (v : Value)
  | output (v : Value)
  | said (d : Diagnostic)
  | entered
  | left

-- The limits of a computation, and what is kept of its notes and of the states around them.
structure Watch (κ : Type) where
  limits : Limits
  keep   : Note → State → List κ

structure Run (ε κ α : Type) where
  result : Except ε α
  state  : State
  trace  : List κ

-- An action ends with a result or an error, and in both cases with a state and the trace of what
-- was kept. Nothing is undone on an error.
def Act (ε κ α : Type) :=
  Watch κ → State → Run ε κ α

namespace Act

variable {ε κ : Type}

@[inline]
protected def pure (x : α) : Act ε κ α :=
  fun _ s => ⟨.ok x, s, []⟩

@[inline]
protected def bind (a : Act ε κ α) (f : α → Act ε κ β) : Act ε κ β :=
  fun w s =>
    match a w s with
    | ⟨.error e, s, trace⟩ => ⟨.error e, s, trace⟩
    | ⟨.ok x, s, trace⟩    =>
      let r := f x w s
      ⟨r.result, r.state, trace ++ r.trace⟩

instance : Monad (Act ε κ) where
  pure := Act.pure
  bind := Act.bind

instance : LawfulMonad (Act ε κ) :=
  LawfulMonad.mk' _
    (fun a => by
      funext w s
      simp only [Functor.map, Act.bind]
      rcases a w s with ⟨_ | _, _, _⟩ <;> simp [Act.pure])
    (fun x f => by
      funext w s
      simp [Bind.bind, Pure.pure, Act.bind, Act.pure])
    (fun a f g => by
      funext w s
      simp only [Bind.bind, Act.bind]
      rcases a w s with ⟨_ | x, s', _⟩ <;> simp
      rcases f x w s' with ⟨_ | _, _, _⟩ <;> simp)

def fail (e : ε) : Act ε κ α :=
  fun _ s => ⟨.error e, s, []⟩

@[inline]
def view (f : State → α) : Act ε κ α :=
  fun _ s => ⟨.ok (f s), s, []⟩

@[inline]
def change (f : State → State) (notes : State → List Note) : Act ε κ Unit :=
  fun w s =>
    let s := f s
    ⟨.ok (), s, (notes s).flatMap (w.keep · s)⟩

def note (n : Note) : Act ε κ Unit :=
  change id fun _ => [n]

def say (d : Diagnostic) : Act ε κ Unit :=
  note (.said d)

@[inline]
def require (p : Limits → State → Bool) (e : Limits → State → ε) : Act ε κ Unit :=
  fun w s => ⟨if p w.limits s then .ok () else .error (e w.limits s), s, []⟩

-- Turns an error into one of another kind, which may depend on the state that it left.
def mapError (f : State → ε → ε') (a : Act ε κ α) : Act ε' κ α :=
  fun w s =>
    match a w s with
    | ⟨.error e, s, trace⟩ => ⟨.error (f s e), s, trace⟩
    | ⟨.ok x, s, trace⟩    => ⟨.ok x, s, trace⟩

end Act
end StackScript
