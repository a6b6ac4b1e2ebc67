import Lexis.Number.Decimal
import Lexis.Token.Basic

/-!
# The numbers that tokens denote

Integers are exact.  Decimal literals and strings are read as far as they look
like an integer, so an exponent is ignored; hexadecimal and binary literals are
read in their base; floats lose their fraction.
-/

namespace Lexis

inductive CoercionError where
  | notInteger (kind : Kind)
  | notFloat (kind : Kind)
  | notFinite (value : Text)
  | unsafeInteger (value : Text)
deriving DecidableEq

def CoercionError.message : CoercionError → Text
  | .notInteger kind => "Cannot convert " ++ kind.descriptor ++ " token to an integer"
  | .notFloat kind => "Cannot convert " ++ kind.descriptor ++ " token to a float"
  | .notFinite value => value ++ " is not a finite number"
  | .unsafeInteger value => value ++ " is outside the safe integer range; use toBigInt()"

namespace Token

/-- The number that the value begins with, zero if there is none. -/
def leadingFloat (t : Token) : Binary64 :=
  (Decimal.readNumber? t.value).getD (Binary64.zero false)

def exactInteger (t : Token) : Except CoercionError Int :=
  match t.kind with
  | .integer | .integerExp | .singleString | .doubleString =>
      .ok ((Decimal.readInteger? t.value).getD 0)
  | .float | .floatExp =>
      match t.leadingFloat.truncate? with
      | some n => .ok n
      | none => .error (.notFinite t.value)
  | .hex => .ok (Text.positional 16 ((t.value.drop 2).takeWhile Text.isHexDigit))
  | .binary => .ok (Text.positional 2 ((t.value.drop 2).takeWhile Text.isBinaryDigit))
  | kind => .error (.notInteger kind)

/-- The integer that a literal denotes, read off the floating point number nearest to
it, which must not be shared with another integer. -/
def integer (t : Token) : Except CoercionError Int := do
  let n ← t.exactInteger
  match (Binary64.ofInt n).safeInteger? with
  | some m => return m
  | none => throw (.unsafeInteger t.value)

def float (t : Token) : Except CoercionError Binary64 :=
  match t.kind with
  | .float | .floatExp | .integer | .integerExp | .singleString | .doubleString =>
      .ok t.leadingFloat
  | .hex | .binary => t.exactInteger.map Binary64.ofInt
  | kind => .error (.notFloat kind)

end Token

end Lexis
