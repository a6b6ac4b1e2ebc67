import Lexis.Lexer.Basic

/-!
# Sessions

A session is a lexer with its observers and the streams that were opened on it.
A stream is a run that its owner takes token by token; nothing happens before
the first token is asked for.
-/

namespace Lexis

inductive Stream where
  | fresh (source : Text) (options : RunOptions)
  | suspended (rule : StopRule) (p : Progress)
  | finished

/-- A lexer, its observers and the streams that were opened on it under numbers,
the newest one first.  A number means the newest stream that was given it. -/
structure Session where
  lexer : Lexer := {}
  observers : Observers := .none
  streams : List (Nat × Stream) := []

inductive Step where
  | run (source : Text) (options : RunOptions) (receiver : Receiver)
  | tryRun (source : Text) (options : RunOptions) (receiver : Receiver)
  | reset
  | setFilter (comments newlines : Option Bool)
  | tokens
  | openStream (id : Nat) (source : Text) (options : RunOptions)
  | next (id : Nat)
  | close (id : Nat)
  | drain (id : Nat)

inductive Answer where
  | done
  | nothing
  | tokens (tokens : List Token)
  | tried (result : Except LexError (List Token))
  | next (token : Option Token)
  | closed

namespace Lexer

/-- What the owner of a stream sees of a turn of its run, after earlier events. -/
def fromTurn (events : List Event) (rule : StopRule)
    (turn : Outcome (Option (Token × Progress))) : Outcome (Option Token) × Stream :=
  match turn.result with
  | .error e => (⟨turn.lexer, events ++ turn.events, .error e⟩, .finished)
  | .ok none => (⟨turn.lexer, events ++ turn.events, .ok none⟩, .finished)
  | .ok (some (token, p)) =>
      (⟨turn.lexer, events ++ turn.events, .ok (some token)⟩, .suspended rule p)

def next (l : Lexer) (o : Observers) : Stream → Outcome (Option Token) × Stream
  | .finished => (⟨l, [], .ok none⟩, .finished)
  | .suspended rule p => fromTurn [] rule (l.resume o rule p)
  | .fresh source options =>
      let begun := l.start o source options
      match begun.result with
      | .error e => (⟨begun.lexer, begun.events, .error e⟩, .finished)
      | .ok (rule, p) => fromTurn begun.events rule (begun.lexer.resume o rule p)

def drain (l : Lexer) (o : Observers) : Stream → Outcome (List Token)
  | .finished => ⟨l, [], .ok []⟩
  | .suspended rule p => l.drive o none rule p
  | .fresh source options => l.run o none source options

def close (l : Lexer) : Stream → Lexer
  | .suspended _ _ => { l with running := false }
  | _ => l

end Lexer

namespace Session

/-- The stream with this number; one that was never opened has finished. -/
def stream (s : Session) (id : Nat) : Stream := (s.streams.lookup id).getD .finished

def setStream (id : Nat) (stream : Stream) : List (Nat × Stream) → List (Nat × Stream)
  | [] => []
  | entry :: rest =>
      if entry.1 = id then (id, stream) :: rest else entry :: setStream id stream rest

def step (s : Session) : Step → Session × List Event × Except RunError Answer
  | .run source options receiver =>
      let done := s.lexer.run s.observers (some receiver) source options
      ({ s with lexer := done.lexer }, done.events, done.result.map fun _ ↦ .done)
  | .tryRun source options receiver =>
      let done := s.lexer.tryRun s.observers (some receiver) source options
      ({ s with lexer := done.lexer }, done.events, done.result.map .tried)
  | .reset => ({ s with lexer := s.lexer.reset }, [], .ok .done)
  | .setFilter comments newlines =>
      let old := s.lexer.filter
      let filter := ⟨comments.getD old.comments, newlines.getD old.newlines⟩
      ({ s with lexer := { s.lexer with filter } }, [], .ok .nothing)
  | .tokens => (s, [], .ok (.tokens s.lexer.tokens.toList))
  | .openStream id source options =>
      ({ s with streams := (id, .fresh source options) :: s.streams }, [], .ok .nothing)
  | .next id =>
      let (done, stream) := s.lexer.next s.observers (s.stream id)
      ({ s with lexer := done.lexer, streams := setStream id stream s.streams }, done.events,
        done.result.map .next)
  | .close id =>
      let streams := setStream id .finished s.streams
      ({ s with lexer := s.lexer.close (s.stream id), streams }, [], .ok .closed)
  | .drain id =>
      let done := s.lexer.drain s.observers (s.stream id)
      ({ s with lexer := done.lexer, streams := setStream id .finished s.streams }, done.events,
        done.result.map .tokens)

end Session

end Lexis
