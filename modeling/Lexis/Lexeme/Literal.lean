import Lexis.Lexeme.Basic

/-!
# String literals

A string literal runs to the next quote of its own form that no backslash
precedes.  A backslash and a letter denote a control unit or, for `x` and `X`,
the code point given by up to four or eight hexadecimal digits; before any other
unit the backslash is dropped.
-/

namespace Lexis.Literal

open Text

def control (u : UInt16) : UInt16 :=
  if u = unit 'r' then 0x0d
  else if u = unit 'n' then 0x0a
  else if u = unit 't' then 0x09
  else if u = unit '0' then 0x00
  else if u = unit 'b' then 0x08
  else if u = unit 'a' then 0x07
  else if u = unit 'f' then 0x0c
  else if u = unit 'v' then 0x0b
  else u

/-- The text that up to `limit` hexadecimal digits denote and how many there are.
Offsets count from the unit before the digits. -/
def codePoint (limit : Nat) (rest : Text) : Except Fault (Text × Nat) :=
  let digits := (rest.take limit).takeWhile isHexDigit
  let n := positional 16 digits
  if digits = [] then .error ⟨.emptyEscape, 0⟩
  else if 0x10ffff < n then .error ⟨.escapeOutOfRange n, digits.length⟩
  else .ok (ofCodePoint n, digits.length)

/-- What a backslash and `marker` denote before `rest`, and how many units of
`rest` belong to it.  Offsets count from the marker. -/
def escape (marker : UInt16) (rest : Text) : Except Fault (Text × Nat) :=
  if marker = unit 'x' then codePoint 4 rest
  else if marker = unit 'X' then codePoint 8 rest
  else .ok ([control marker], 0)

def prepend (text : Text) (n : Nat) : Except Fault (Text × Nat) → Except Fault (Text × Nat)
  | .ok (value, length) => .ok (text ++ value, n + length)
  | .error fault => .error (fault.shift n)

/-- The value of a literal after its opening quote and the number of units up to
and including the closing one.  The first `skip` units belong to an escape that
has already been decoded.  Offsets count from the unit before the text. -/
def body (quote : UInt16) : (skip : Nat) → Text → Except Fault (Text × Nat)
  | _, [] => .error ⟨.unterminatedString, 1⟩
  | skip + 1, _ :: rest => prepend [] 1 (body quote skip rest)
  | 0, u :: rest =>
      if u = quote then .ok ([], 1)
      else if u = unit '\\' then
        match rest with
        | [] => .error ⟨.unterminatedString, 2⟩
        | marker :: rest =>
            match escape marker rest with
            | .error fault => .error (fault.shift 2)
            | .ok (text, taken) => prepend text 2 (body quote taken rest)
      else prepend [u] 1 (body quote 0 rest)

def kind (quote : UInt16) : Kind :=
  if quote = unit '\'' then .singleString else .doubleString

def string (quote : UInt16) (rest : Text) : Except Fault Lexeme :=
  (body quote 0 rest).map fun (value, length) ↦ ⟨kind quote, value, length⟩

end Lexis.Literal
