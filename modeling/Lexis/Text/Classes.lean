import Lexis.Text.Basic

/-!
# Classes of code units

The classes that the lexical grammar is written in.  All of them hold ASCII
units only; `isSpace`, which the readers of numbers skip, is the wider Unicode
class.
-/

namespace Lexis.Text

def isDigit (u : UInt16) : Bool := unit '0' ≤ u && u ≤ unit '9'

def isHexDigit (u : UInt16) : Bool :=
  isDigit u || (unit 'a' ≤ u && u ≤ unit 'f') || (unit 'A' ≤ u && u ≤ unit 'F')

def isBinaryDigit (u : UInt16) : Bool := u == unit '0' || u == unit '1'

def isLetter (u : UInt16) : Bool :=
  (unit 'a' ≤ u && u ≤ unit 'z') || (unit 'A' ≤ u && u ≤ unit 'Z')

def isWordStart (u : UInt16) : Bool := isLetter u || u == unit '_'

def isWordPart (u : UInt16) : Bool := isWordStart u || isDigit u

/-- A blank between tokens.  Newlines are tokens of their own. -/
def isBlank (u : UInt16) : Bool := u == unit ' ' || u == unit '\t' || u == unit '\r'

def hexValue (u : UInt16) : Nat :=
  if isDigit u then u.toNat - (unit '0').toNat
  else if unit 'a' ≤ u then u.toNat - (unit 'a').toNat + 10
  else u.toNat - (unit 'A').toNat + 10

/-- White space in the wide sense: the ASCII controls U+0009 to U+000D, the
space separators of Unicode, the two line separators and the byte order mark. -/
def isSpace (u : UInt16) : Bool :=
  (0x09 ≤ u && u ≤ 0x0d) || u == 0x20 || u == 0xa0 || u == 0x1680 ||
  (0x2000 ≤ u && u ≤ 0x200a) || u == 0x2028 || u == 0x2029 || u == 0x202f ||
  u == 0x205f || u == 0x3000 || u == 0xfeff

def positional (base : Nat) (digits : Text) : Nat :=
  digits.foldl (fun n u ↦ n * base + hexValue u) 0

end Lexis.Text
