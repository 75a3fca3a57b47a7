import StackScript.Eval
import StackScript.Event

namespace StackScript

namespace Program

open Act

variable {κ : Type}

def stepToken (token : Token) : Act RunError κ Unit :=
  (Op.step token.text).mapError fun s fault => ⟨token, s.count, fault⟩

def steps (tokens : List Token) : Act RunError κ Unit :=
  tokens.forM stepToken

def run (source : String) : Act RunError κ Unit := do
  steps (Token.ofSource source)
  let blocks ← view (·.blocks)
  if !blocks.isEmpty then
    say (.endedInBlocks blocks.size)

end Program

structure Outcome where
  stack      : List Value
  count      : Nat
  openBlocks : Nat

def Outcome.ofState (s : State) : Outcome where
  stack      := s.stack.toList
  count      := s.count
  openBlocks := s.blocks.size

def start (w : Watch κ) (source : String) : Run RunError κ Unit :=
  Program.run source w .initial

def Run.outcome (r : Run ε κ Unit) : Except ε Outcome :=
  r.result.map fun _ => .ofState r.state

def run (limits : Limits) (source : String) : Except RunError Outcome :=
  (start (.silent limits) source).outcome

def runWithEvents (limits : Limits) (source : String) : Except RunError (Outcome × List Event) :=
  let r := start (.events limits) source
  r.outcome.map (·, r.trace)

end StackScript
