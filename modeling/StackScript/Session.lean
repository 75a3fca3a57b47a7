import StackScript.Machine
import StackScript.Program

namespace StackScript

inductive Session.Phase
  | running
  -- A token failed, and its error was not given out yet.
  | failing (e : RunError)
  | over

-- The events of a program on demand. A token is taken only when the events of the tokens before it
-- have all been given out. A fault follows the events that led to it, once, and ends the session.
structure Session where
  tokens  : List Token
  machine : Machine
  pending : List Event       := []
  phase   : Session.Phase    := .running
  journal : Array Diagnostic := #[]

namespace Session

def ofSource (limits : Limits) (source : String) : Session where
  tokens  := Token.ofSource source
  machine := { limits }

-- Feeds `token` to the machine, after which `rest` is left.
def take (s : Session) (token : Token) (rest : List Token) : Session :=
  let journal           := s.journal ++ (s.machine.remarks token.text).toArray
  let (result, machine) := s.machine.step token.text
  let (events, machine) := machine.takeLog
  match result with
  | .ok _ =>
    { tokens := rest, machine, pending := events.toList, phase := .running, journal }
  | .error fault =>
    let e : RunError := ⟨token, machine.state.count, fault⟩
    { tokens  := rest
      machine
      pending := events.toList
      phase   := .failing e
      journal := journal.push (.failed e) }

def finish (s : Session) : Session :=
  { s with phase := .over, journal := s.journal.push (.finished s.machine.state.count) }

-- The next event, or the error that ends the session, or nothing at its end.
def poll (s : Session) : Option (Except RunError Event) × Session :=
  go s.tokens s
where
  go : List Token → Session → Option (Except RunError Event) × Session
    | tokens, s =>
      match s.pending, s.phase with
      | event :: pending, _          => (some (.ok event), { s with pending })
      | [],               .failing e => (some (.error e), { s with phase := .over })
      | [],               .over      => (none, s)
      | [],               .running   =>
        match tokens with
        | []            => (none, s.finish)
        | token :: rest => go rest (s.take token rest)

def pollUpTo : Nat → Session → List (Except RunError Event) × Session
  | 0,     s => ([], s)
  | n + 1, s =>
    match s.poll with
    | (none, s)      => ([], s)
    | (some item, s) =>
      let (items, s) := pollUpTo n s
      (item :: items, s)

def drain (s : Session) : List (Except RunError Event) × Session :=
  go s.tokens s
where
  go : List Token → Session → List (Except RunError Event) × Session
    | tokens, s =>
      let events := s.pending.map .ok
      match s.phase with
      | .failing e => (events ++ [.error e], { s with pending := [], phase := .over })
      | .over      => (events, { s with pending := [] })
      | .running   =>
        match tokens with
        | []            => (events, { s with pending := [] }.finish)
        | token :: rest =>
          let (items, s) := go rest (s.take token rest)
          (events ++ items, s)

end Session
end StackScript
