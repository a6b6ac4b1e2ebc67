import Lexis.Text.Basic

/-!
# Reading bytes as text

UTF-8 bytes become code units.  Each maximal part of the bytes that is the
beginning of no well-formed sequence becomes one U+FFFD, and a byte order mark
is kept as a character.
-/

namespace Lexis.Text.Utf8

/-- A sequence that has begun: the bits so far, how many bytes are missing and
the range in which the next one must lie. -/
structure Pending where
  bits : Nat
  missing : Nat
  lower : UInt8 := 0x80
  upper : UInt8 := 0xbf

def replacement : Text := [0xfffd]

/-- A byte where a sequence may begin.  The ranges rule out overlong forms,
surrogates and values above U+10FFFF at the second byte. -/
def lead (b : UInt8) : Text × Option Pending :=
  if b < 0x80 then ([b.toUInt16], none)
  else if 0xc2 ≤ b && b ≤ 0xdf then ([], some ⟨b.toNat - 0xc0, 1, 0x80, 0xbf⟩)
  else if b = 0xe0 then ([], some ⟨0, 2, 0xa0, 0xbf⟩)
  else if b = 0xed then ([], some ⟨0xd, 2, 0x80, 0x9f⟩)
  else if 0xe1 ≤ b && b ≤ 0xef then ([], some ⟨b.toNat - 0xe0, 2, 0x80, 0xbf⟩)
  else if b = 0xf0 then ([], some ⟨0, 3, 0x90, 0xbf⟩)
  else if b = 0xf4 then ([], some ⟨4, 3, 0x80, 0x8f⟩)
  else if 0xf1 ≤ b && b ≤ 0xf3 then ([], some ⟨b.toNat - 0xf0, 3, 0x80, 0xbf⟩)
  else (replacement, none)

def step (pending : Option Pending) (b : UInt8) : Text × Option Pending :=
  match pending with
  | none => lead b
  | some p =>
      if p.lower ≤ b && b ≤ p.upper then
        let bits := p.bits * 0x40 + (b.toNat - 0x80)
        if p.missing = 1 then (ofCodePoint bits, none)
        else ([], some { bits, missing := p.missing - 1 })
      else
        let (units, next) := lead b
        (replacement ++ units, next)

def decodeFrom (pending : Option Pending) : List UInt8 → Text
  | [] => if pending.isSome then replacement else []
  | b :: rest =>
      let (units, next) := step pending b
      units ++ decodeFrom next rest

def decode (bytes : List UInt8) : Text := decodeFrom none bytes

end Lexis.Text.Utf8
