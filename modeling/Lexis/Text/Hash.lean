import Lexis.Text.Basic

/-!
# A 32-bit hash of texts

The FNV-1a hash taken over code units: each unit is xored into the state, which
is then multiplied by an odd constant.
-/

namespace Lexis.Text

def hashBasis : UInt32 := 2166136261

def hashPrime : UInt32 := 16777619

def hashStep (state : UInt32) (u : UInt16) : UInt32 := (state ^^^ u.toUInt32) * hashPrime

def hash (t : Text) : UInt32 := t.foldl hashStep hashBasis

end Lexis.Text
