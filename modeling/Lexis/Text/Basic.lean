/-!
# Text as code units

A text is a list of 16-bit code units.  Every length, offset and column of the
library counts units, so a character above U+FFFF counts twice and half of a
surrogate pair may stand on its own.  Fixed wording is written as a `String`
and coerced.
-/

namespace Lexis

/-- A text is a sequence of 16-bit code units, not necessarily well formed. -/
abbrev Text := List UInt16

/-- The code unit of a character below U+10000. -/
abbrev unit (c : Char) : UInt16 := c.toNat.toUInt16

namespace Text

def isHigh (u : UInt16) : Bool := 0xd800 ≤ u && u ≤ 0xdbff

def isLow (u : UInt16) : Bool := 0xdc00 ≤ u && u ≤ 0xdfff

/-- The units of a code point: one below U+10000, a surrogate pair above.
A code point in the surrogate range gives that unit alone. -/
def ofCodePoint (n : Nat) : Text :=
  if n < 0x10000 then [n.toUInt16]
  else [(0xd800 + (n - 0x10000) / 0x400).toUInt16, (0xdc00 + (n - 0x10000) % 0x400).toUInt16]

def ofString (s : String) : Text :=
  s.toList.flatMap fun c ↦ ofCodePoint c.toNat

instance : Coe String Text := ⟨ofString⟩

def pairCodePoint (high low : UInt16) : Nat :=
  0x10000 + (high.toNat - 0xd800) * 0x400 + (low.toNat - 0xdc00)

/-- One step of reading characters from units: a character, or a unit that is
half of no pair. -/
inductive Scalar where
  | char (c : Char)
  | lone (u : UInt16)
deriving DecidableEq

def Scalar.char? : Scalar → Option Char
  | .char c => some c
  | .lone _ => none

/-- The characters of a text; a surrogate outside a pair is kept as it is. -/
def scalars : Text → List Scalar
  | [] => []
  | [u] => [if isHigh u || isLow u then .lone u else .char (Char.ofNat u.toNat)]
  | u :: v :: rest =>
      if isHigh u && isLow v then
        .char (Char.ofNat (pairCodePoint u v)) :: scalars rest
      else if isHigh u || isLow u then
        .lone u :: scalars (v :: rest)
      else
        .char (Char.ofNat u.toNat) :: scalars (v :: rest)

/-- The string with these units, where a surrogate outside a pair is shown as
the replacement character. -/
def display (t : Text) : String :=
  String.ofList (t.scalars.map fun s ↦ s.char?.getD (Char.ofNat 0xfffd))

def repaired (t : Text) : Text := ofString t.display

def ofNat (n : Nat) : Text := (Nat.toDigits 10 n).map unit

def ofInt : Int → Text
  | .ofNat n => ofNat n
  | .negSucc n => unit '-' :: ofNat (n + 1)

def ofNatHex (n : Nat) : Text := (Nat.toDigits 16 n).map unit

def join (separator : Text) : List Text → Text
  | [] => []
  | [piece] => piece
  | piece :: rest => piece ++ separator ++ join separator rest

def splitOn (separator : UInt16) : Text → List Text
  | [] => [[]]
  | u :: rest =>
      if u = separator then [] :: splitOn separator rest
      else
        match splitOn separator rest with
        | [] => [[u]]
        | part :: parts => (u :: part) :: parts

end Text

end Lexis
