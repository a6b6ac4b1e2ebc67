import Lexis.Number.Binary64
import Lexis.Text.Classes

/-!
# Reading numbers at the start of a text

White space and a sign may come first; what follows the number is ignored.
-/

namespace Lexis.Decimal

open Text

def readSign : Text → Bool × Text
  | [] => (false, [])
  | u :: rest =>
      if u = unit '-' then (true, rest)
      else if u = unit '+' then (false, rest)
      else (false, u :: rest)

def readInteger? (t : Text) : Option Int :=
  let (negative, body) := readSign (t.dropWhile isSpace)
  let digits := body.takeWhile isDigit
  if digits.isEmpty then none else some (Binary64.signed negative (positional 10 digits))

/-- A decimal exponent, if the text begins with one: a marker, an optional sign
and at least one digit.  Without one the exponent is zero. -/
def readExponent : Text → Int
  | [] => 0
  | u :: rest =>
      if u = unit 'e' || u = unit 'E' then
        let (negative, body) := readSign rest
        Binary64.signed negative (positional 10 (body.takeWhile isDigit))
      else 0

def readFraction : Text → Text × Text
  | [] => ([], [])
  | u :: rest =>
      if u = unit '.' then (rest.takeWhile isDigit, rest.dropWhile isDigit) else ([], u :: rest)

/-- The number that a text begins with, after white space: an optional sign and
then `Infinity`, or digits with an optional fraction and exponent. -/
def readNumber? (t : Text) : Option Binary64 :=
  let (negative, body) := readSign (t.dropWhile isSpace)
  if (ofString "Infinity").isPrefixOf body then some (Binary64.infinity negative)
  else
    let whole := body.takeWhile isDigit
    let (fraction, rest) := readFraction (body.dropWhile isDigit)
    if whole.isEmpty && fraction.isEmpty then none
    else
      let exponent := readExponent rest - fraction.length
      some (Binary64.ofDecimal negative (positional 10 (whole ++ fraction)) exponent)

end Lexis.Decimal
