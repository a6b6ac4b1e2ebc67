import Lexis.Lexeme.Literal
import Lexis.Lexeme.Numeral

/-!
# Recognising a lexeme

The first unit, with at most one more, decides what stands at the beginning of a
source text.  Where comments are not kept, they are recognised without a value.
-/

namespace Lexis.Lexeme

open Text

def word (u : UInt16) (rest : Text) : Lexeme :=
  let tail := rest.takeWhile isWordPart
  .plain (.ofWord (u :: tail)) u tail

/-- A comment.  Its value is only made when comments are kept. -/
def comment (kind : Kind) (keep : Bool) (u : UInt16) (tail : Text) : Lexeme :=
  { kind, value := if keep then u :: tail else [], extra := tail.length }

def lineComment (keep : Bool) (u : UInt16) (rest : Text) : Lexeme :=
  comment .lineComment keep u (rest.takeWhile (· != unit '\n'))

/-- The text up to and including the first `*/`. -/
def throughClose? : Text → Option Text
  | [] => none
  | [_] => none
  | u :: v :: rest =>
      if u = unit '*' ∧ v = unit '/' then some [u, v]
      else (throughClose? (v :: rest)).map (u :: ·)

def blockComment (keep : Bool) (slash asterisk : UInt16) (rest : Text) : Except Fault Lexeme :=
  match throughClose? rest with
  | some tail => .ok (comment .blockComment keep slash (asterisk :: tail))
  | none => .error ⟨.unterminatedComment, rest.length + 2⟩

def punctuation (p : Punctuation) : Lexeme :=
  ⟨.punctuation p, p.units, p.units.length - 1⟩

def slash (keep : Bool) (u : UInt16) (rest : Text) : Except Fault Lexeme :=
  match rest with
  | [] => .ok (punctuation .slash)
  | v :: tail =>
      if v = unit '/' then .ok (lineComment keep u rest)
      else if v = unit '*' then blockComment keep u v tail
      else .ok (punctuation .slash)

def dots (rest : Text) : Punctuation :=
  if rest.head? = some (unit '.') then
    if rest.tail.head? = some (unit '.') then .tripleDot else .doubleDot
  else .dot

/-- An operator or a bracket: one unit, or two where the next one extends it. -/
def operator (u : UInt16) (rest : Text) : Except Fault Lexeme :=
  let tail := (rest.take 1).filter (Punctuation.joins u)
  match Punctuation.ofText? (u :: tail) with
  | some p => .ok (.plain (.punctuation p) u tail)
  | none => .error ⟨.invalidUnit, 0⟩

def numeral (u : UInt16) (rest : Text) : Except Fault Lexeme :=
  match Numeral.based? u rest with
  | some lexeme => .ok lexeme
  | none => Numeral.decimal u rest

def recognise (keep : Bool) (u : UInt16) (rest : Text) : Except Fault Lexeme :=
  if u = unit '"' ∨ u = unit '\'' then Literal.string u rest
  else if isDigit u then numeral u rest
  else if u = unit '.' then
    if rest.head?.any isDigit then Numeral.decimal u rest else .ok (punctuation (dots rest))
  else if isWordStart u then .ok (word u rest)
  else if u = unit '\n' then .ok (.plain .newline u [])
  else if u = unit '/' then slash keep u rest
  else operator u rest

end Lexis.Lexeme
