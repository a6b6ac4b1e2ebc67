import Lexis.Kind
import Lexis.Text.Classes

/-!
# Lexemes

A lexeme is what stands at the beginning of a source text.  The recognisers see
the first unit and the rest of the text, know nothing of positions, and give a
lexeme or a fault.  Offsets in a fault count from the first unit; the offset
just after the last unit stands for the end of the input.
-/

namespace Lexis

/-- A recognised beginning of a source text: its kind, its value and how many
units follow the first one. -/
structure Lexeme where
  kind : Kind
  value : Text
  extra : Nat
deriving DecidableEq

def Lexeme.plain (kind : Kind) (u : UInt16) (tail : Text) : Lexeme :=
  { kind, value := u :: tail, extra := tail.length }

inductive Defect where
  | unterminatedString
  | invalidUnit
  | duplicateExponent
  | missingExponent
  | emptyEscape
  | escapeOutOfRange (codePoint : Nat)
  | unterminatedComment
deriving DecidableEq

structure Fault where
  defect : Defect
  offset : Nat
deriving DecidableEq

/-- The fault seen from `n` units further left. -/
def Fault.shift (f : Fault) (n : Nat) : Fault := { f with offset := f.offset + n }

end Lexis
