import Lexis.Text.Basic

/-!
# Quoted text

A text between double quotes in which quotes, backslashes and controls are
escaped, and so is every surrogate that is half of no pair.  All other units
stand for themselves, surrogate pairs included.
-/

namespace Lexis.Text

def hexEscape (u : UInt16) : Text :=
  let digit (n : Nat) : UInt16 := unit (Nat.digitChar (n % 16))
  [unit '\\', unit 'u', digit (u.toNat / 4096), digit (u.toNat / 256), digit (u.toNat / 16),
    digit u.toNat]

/-- A unit outside the surrogate range as it stands between quotes. -/
def quotedUnit (u : UInt16) : Text :=
  if u = unit '"' then "\\\""
  else if u = unit '\\' then "\\\\"
  else if u = 0x08 then "\\b"
  else if u = 0x09 then "\\t"
  else if u = 0x0a then "\\n"
  else if u = 0x0c then "\\f"
  else if u = 0x0d then "\\r"
  else if u < 0x20 then hexEscape u
  else [u]

def quotedBody : Text → Text
  | [] => []
  | [u] => if isHigh u || isLow u then hexEscape u else quotedUnit u
  | u :: v :: rest =>
      if isHigh u && isLow v then u :: v :: quotedBody rest
      else if isHigh u || isLow u then hexEscape u ++ quotedBody (v :: rest)
      else quotedUnit u ++ quotedBody (v :: rest)

def quoted (t : Text) : Text := unit '"' :: (quotedBody t ++ [unit '"'])

end Lexis.Text
