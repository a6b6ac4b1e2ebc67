import Lexis.Run.Event

/-!
# Lexers

A lexer keeps the tokens of all its runs and the error of the last one.  Only one
run can be in progress at a time.
-/

namespace Lexis

structure Lexer where
  filter : Filter := {}
  tokens : Array Token := #[]
  lastError : Option LexError := none
  running : Bool := false

/-- What an operation on a lexer leaves behind: the lexer, the events that were
noted and the result. -/
structure Outcome (α : Type) where
  lexer : Lexer
  events : List Event
  result : Except RunError α

namespace Outcome

def after (later : Outcome (List Token)) (events : List Event) (token : Token) :
    Outcome (List Token) :=
  ⟨later.lexer, events ++ later.events, later.result.map (token :: ·)⟩

def abandon {α : Type} (l : Lexer) (events : List Event) (e : RunError) : Outcome α :=
  ⟨{ l with running := false }, events, .error e⟩

end Outcome

inductive Reply where
  | proceed
  | reset
  /-- Asks for another run, which is refused. -/
  | rerun
  | raise (message : Text)
  /-- Passes on an error in some other source text. -/
  | fail (error : LexError)

/-- A receiver of tokens, by what it answers to each one; the tokens of a run are
counted from 1. -/
abbrev Receiver := (call : Nat) → Token → Reply

namespace Lexer

def record? (l : Lexer) : Option LexRecord := l.lastError.map LexError.record

def reset (l : Lexer) : Lexer := { l with tokens := #[], lastError := none }

/-- Begins a run.  A run in progress and a bad limit are refused without any
change.  An observer that raises at the start leaves the lexer running. -/
def start (l : Lexer) (o : Observers) (source : Text) (options : RunOptions) :
    Outcome (StopRule × Progress) :=
  if l.running then ⟨l, [], .error .busy⟩
  else
    match options.rule with
    | .error limit => ⟨l, [], .error (.badLimit limit)⟩
    | .ok rule =>
        let l := { l with running := true, lastError := none }
        match o.notify (.started source.length) with
        | (events, none) => ⟨l, events, .ok (rule, .start source)⟩
        | (events, some e) => ⟨l, events, .error e⟩

/-- Ends a run in progress with an error, after `events`.  A lexical error is kept
and told to the observers, who may raise another one in its place. -/
def abort {α : Type} (l : Lexer) (o : Observers) (events : List Event) (e : RunError) :
    Outcome α :=
  match e with
  | .lexical error =>
      let (told, raised) := o.notify (.failed error)
      ⟨{ l with running := false, lastError := some error }, events ++ told,
        .error (raised.getD e)⟩
  | _ => .abandon l events e

def resume (l : Lexer) (o : Observers) (rule : StopRule) (p : Progress) :
    Outcome (Option (Token × Progress)) :=
  match p.advance l.filter rule with
  | .emitted token next =>
      let l := { l with tokens := l.tokens.push token }
      match o.notify (.appended p.count token) with
      | (events, none) => ⟨l, events, .ok (some (token, next))⟩
      | (events, some e) => l.abort o events e
  | .stopped reason =>
      match o.notify (.ended p.count reason) with
      | (events, none) => ⟨{ l with running := false }, events, .ok none⟩
      | (events, some e) => l.abort o events e
  | .failed error => l.abort o [] (.lexical error)

@[simp] theorem result_abort_ne_ok {α : Type} (l : Lexer) (o : Observers)
    (events : List Event) (e : RunError) (a : α) :
    (l.abort o events e : Outcome α).result ≠ .ok a := by
  cases e <;> simp [abort, Outcome.abandon]

theorem length_rest_of_resume {l : Lexer} {o : Observers} {rule : StopRule} {p next : Progress}
    {token : Token} (h : (l.resume o rule p).result = .ok (some (token, next))) :
    next.cursor.rest.length < p.cursor.rest.length := by
  unfold resume at h
  split at h
  · next t n hadvance =>
    dsimp only at h
    split at h
    · simp only [Except.ok.injEq, Option.some.injEq, Prod.mk.injEq] at h
      obtain ⟨-, rfl⟩ := h
      exact Progress.length_rest_of_advance hadvance
    · simp at h
  · split at h <;> simp at h
  · simp at h

def deliver (receiver : Option Receiver) (call : Nat) (token : Token) : List Event × Reply :=
  match receiver with
  | none => ([], .proceed)
  | some receive => ([.delivered token], receive call token)

/-- Goes through a run to its end.  The result is the tokens that were given
out.  A receiver that raises ends the run without a further event. -/
def drive (l : Lexer) (o : Observers) (receiver : Option Receiver) (rule : StopRule)
    (p : Progress) : Outcome (List Token) :=
  let turn := l.resume o rule p
  match _h : turn.result with
  | .error e => ⟨turn.lexer, turn.events, .error e⟩
  | .ok none => ⟨turn.lexer, turn.events, .ok []⟩
  | .ok (some (token, next)) =>
      let (delivery, reply) := deliver receiver (p.count + 1) token
      let events := turn.events ++ delivery
      match reply with
      | .proceed => (drive turn.lexer o receiver rule next).after events token
      | .reset => (drive turn.lexer.reset o receiver rule next).after events token
      | .rerun => .abandon turn.lexer events .busy
      | .raise message => .abandon turn.lexer events (.raised message)
      | .fail error => .abandon turn.lexer events (.lexical error)
termination_by p.cursor.rest.length
decreasing_by all_goals exact length_rest_of_resume _h

theorem drive_eq (l : Lexer) (o : Observers) (receiver : Option Receiver) (rule : StopRule)
    (p : Progress) :
    l.drive o receiver rule p =
      let turn := l.resume o rule p
      match turn.result with
      | .error e => ⟨turn.lexer, turn.events, .error e⟩
      | .ok none => ⟨turn.lexer, turn.events, .ok []⟩
      | .ok (some (token, next)) =>
          let (delivery, reply) := deliver receiver (p.count + 1) token
          let events := turn.events ++ delivery
          match reply with
          | .proceed => (drive turn.lexer o receiver rule next).after events token
          | .reset => (drive turn.lexer.reset o receiver rule next).after events token
          | .rerun => .abandon turn.lexer events .busy
          | .raise message => .abandon turn.lexer events (.raised message)
          | .fail error => .abandon turn.lexer events (.lexical error) := by
  rw [drive]
  dsimp only
  split <;> simp_all

def run (l : Lexer) (o : Observers) (receiver : Option Receiver) (source : Text)
    (options : RunOptions) : Outcome (List Token) :=
  let begun := l.start o source options
  match begun.result with
  | .error e => ⟨begun.lexer, begun.events, .error e⟩
  | .ok (rule, p) =>
      let driven := begun.lexer.drive o receiver rule p
      { driven with events := begun.events ++ driven.events }

/-- A run whose lexical error is a result.  Without one the result is the tokens
that the lexer has kept beyond those it had before. -/
def tryRun (l : Lexer) (o : Observers) (receiver : Option Receiver) (source : Text)
    (options : RunOptions) : Outcome (Except LexError (List Token)) :=
  let done := l.run o receiver source options
  let result :=
    match done.result with
    | .ok _ => .ok (.ok (done.lexer.tokens.toList.drop l.tokens.size))
    | .error (.lexical error) => .ok (.error error)
    | .error e => .error e
  ⟨done.lexer, done.events, result⟩

end Lexer

def tokenize (source : Text) (filter : Filter) (options : RunOptions) :
    Except RunError (List Token) :=
  let done := ({ filter } : Lexer).run .none none source options
  done.result.map fun _ ↦ done.lexer.tokens.toList

end Lexis
