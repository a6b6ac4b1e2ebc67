import Lexis.Lexeme.Basic

/-!
# Numerals

A decimal numeral is a run of digits with at most one point, anywhere in it, and
at most one exponent: a marker, an optional sign and at least one digit.  A
marker that begins no exponent, and a second marker, are faults.  A numeral in
base 16 or 2 is a zero, a marker and any number of digits.
-/

namespace Lexis.Numeral

open Text

def isMarker (u : UInt16) : Bool := u == unit 'e' || u == unit 'E'

def isSign (u : UInt16) : Bool := u == unit '-' || u == unit '+'

def kind (point exponent : Bool) : Kind :=
  match point, exponent with
  | false, false => .integer
  | true, false => .float
  | false, true => .integerExp
  | true, true => .floatExp

def prepend (units : Text) : Except Fault (Text × Kind) → Except Fault (Text × Kind)
  | .ok (tail, kind) => .ok (units ++ tail, kind)
  | .error fault => .error (fault.shift units.length)

/-- The rest of a decimal numeral, after units that hold a point or an exponent
as told.  Offsets count from the unit before. -/
def decimalTail (point exponent : Bool) : Text → Except Fault (Text × Kind)
  | [] => .ok ([], kind point exponent)
  | u :: rest =>
      if isDigit u then prepend [u] (decimalTail point exponent rest)
      else if u = unit '.' ∧ point = false then prepend [u] (decimalTail true exponent rest)
      else if isMarker u then
        if exponent then .error ⟨.duplicateExponent, 0⟩
        else
          match rest with
          | [] => .error ⟨.missingExponent, 2⟩
          | v :: rest =>
              if isDigit v then prepend [u, v] (decimalTail point true rest)
              else if isSign v then
                match rest with
                | [] => .error ⟨.missingExponent, 3⟩
                | w :: rest =>
                    if isDigit w then prepend [u, v, w] (decimalTail point true rest)
                    else .error ⟨.missingExponent, 3⟩
              else .error ⟨.missingExponent, 2⟩
      else .ok ([], kind point exponent)

def decimal (u : UInt16) (rest : Text) : Except Fault Lexeme :=
  (decimalTail (u == unit '.') false rest).map fun (tail, kind) ↦ .plain kind u tail

def based? (u : UInt16) : Text → Option Lexeme
  | [] => none
  | marker :: rest =>
      if u ≠ unit '0' then none
      else if marker = unit 'x' ∨ marker = unit 'X' then
        some (.plain .hex u (marker :: rest.takeWhile isHexDigit))
      else if marker = unit 'b' ∨ marker = unit 'B' then
        some (.plain .binary u (marker :: rest.takeWhile isBinaryDigit))
      else none

end Lexis.Numeral
