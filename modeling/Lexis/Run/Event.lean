import Lexis.Run.Progress

/-!
# Events of a run

A run tells its observers when it starts, what tokens it gives out and how it
ends.  An observer may raise an error of its own, which ends the run; it may also
pass on the error of another source text.
-/

namespace Lexis

inductive Event where
  | started (length : Nat)
  | appended (index : Nat) (token : Token)
  | ended (count : Nat) (reason : StopReason)
  | failed (error : LexError)
  /-- A token is handed to whoever asked for the run. -/
  | delivered (token : Token)

inductive RunError where
  | busy
  | badLimit (limit : Binary64)
  | lexical (error : LexError)
  | raised (message : Text)

def RunError.message : RunError → Text
  | .busy => "Lexer is already running"
  | .badLimit limit => "maxTokens must be a non-negative integer, got: " ++ limit.text
  | .lexical error => error.report.message
  | .raised message => message

inductive Reaction where
  | ignores
  | notes
  | raises (message : Text)
  /-- Passes on an error in some other source text. -/
  | fails (error : LexError)

abbrev Observers := Event → Reaction

def Observers.none : Observers := fun _ ↦ .ignores

/-- Tells the observers of an event: what they note and what they raise. -/
def Observers.notify (o : Observers) (e : Event) : List Event × Option RunError :=
  match o e with
  | .ignores => ([], .none)
  | .notes => ([e], .none)
  | .raises message => ([e], some (.raised message))
  | .fails error => ([e], some (.lexical error))

end Lexis
