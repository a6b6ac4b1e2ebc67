import Lexis.Lexeme.Recognise

/-!
# The lexical classes

Each kind of token has a class of texts that it is spelled with.  The classes are
stated without reference to the recognisers, so that a statement about all of
them is a specification of what is recognised.
-/

namespace Lexis

open Text

/-- A letter or an underscore, and then letters, digits and underscores. -/
def IsWord (w : Text) : Prop :=
  ∃ u tail, w = u :: tail ∧ isWordStart u ∧ ∀ v ∈ tail, isWordPart v

/-- A zero, one of two markers and any number of digits. -/
def IsBased (lower upper : UInt16) (isDigit : UInt16 → Bool) (w : Text) : Prop :=
  ∃ marker digits, w = unit '0' :: marker :: digits ∧
    (marker = lower ∨ marker = upper) ∧ ∀ d ∈ digits, isDigit d

namespace Numeral

def IsFigure (u : UInt16) : Prop := isDigit u ∨ u = unit '.'

def IsSignPart (sign : Text) : Prop := sign = [] ∨ ∃ s, sign = [s] ∧ isSign s

/-- A marker, an optional sign and a digit, between digits and points. -/
def HasExponent (w : Text) : Prop :=
  ∃ before marker sign digit after,
    w = before ++ marker :: (sign ++ digit :: after) ∧
      isMarker marker ∧ IsSignPart sign ∧ isDigit digit ∧
      (∀ u ∈ before, IsFigure u) ∧ ∀ u ∈ after, IsFigure u

/-- Digits and points, with an exponent among them or without one. -/
def Figures : (exponent : Bool) → Text → Prop
  | false, w => ∀ u ∈ w, IsFigure u
  | true, w => HasExponent w

/-- A digit, or a point before a digit. -/
def Begins (w : Text) : Prop :=
  ∃ u tail, w = u :: tail ∧ (isDigit u ∨ u = unit '.' ∧ ∃ v, tail.head? = some v ∧ isDigit v)

end Numeral

/-- A decimal numeral with or without its one point and its one exponent. -/
structure IsDecimal (point exponent : Bool) (w : Text) : Prop where
  begins : Numeral.Begins w
  figures : Numeral.Figures exponent w
  points : w.count (unit '.') = point.toNat

/-- A text that may stand between two quotes: each quote in it is escaped, and so
is the last unit if it follows a backslash. -/
inductive Enclosed (quote : UInt16) : Text → Prop
  | nil : Enclosed quote []
  | plain {u : UInt16} {rest : Text} (hquote : u ≠ quote) (hslash : u ≠ unit '\\')
      (h : Enclosed quote rest) : Enclosed quote (u :: rest)
  | escaped (u : UInt16) {rest : Text} (h : Enclosed quote rest) :
      Enclosed quote (unit '\\' :: u :: rest)

def IsQuoted (quote : UInt16) (w : Text) : Prop :=
  ∃ content, w = quote :: (content ++ [quote]) ∧ Enclosed quote content

/-- Two slashes and a text without a newline. -/
def IsLineComment (w : Text) : Prop :=
  ∃ content, w = unit '/' :: unit '/' :: content ∧ unit '\n' ∉ content

def closing : Text := [unit '*', unit '/']

/-- A text that is closed at its end and not before. -/
structure IsClosed (content : Text) : Prop where
  isSuffix : closing <:+ content
  first : ∀ i, closing <+: content.drop i → i + 2 = content.length

/-- A slash, an asterisk and a text up to where it is closed first. -/
def IsBlockComment (w : Text) : Prop :=
  ∃ content, w = unit '/' :: unit '*' :: content ∧ IsClosed content

section Heads

variable {u : UInt16} {w : Text}

theorem IsBased.head_eq {lower upper : UInt16} {isDigit : UInt16 → Bool}
    (h : IsBased lower upper isDigit (u :: w)) : u = unit '0' := by
  obtain ⟨marker, digits, hcons, -⟩ := h
  exact (List.cons.inj hcons).1

theorem IsQuoted.head_eq {quote : UInt16} (h : IsQuoted quote (u :: w)) : u = quote := by
  obtain ⟨content, hcons, -⟩ := h
  exact (List.cons.inj hcons).1

theorem IsLineComment.head_eq (h : IsLineComment (u :: w)) : u = unit '/' := by
  obtain ⟨content, hcons, -⟩ := h
  exact (List.cons.inj hcons).1

theorem IsBlockComment.head_eq (h : IsBlockComment (u :: w)) : u = unit '/' := by
  obtain ⟨content, hcons, -⟩ := h
  exact (List.cons.inj hcons).1

end Heads

def Kind.Spelling : Kind → Text → Prop
  | .invalid, _ => False
  | .newline, w => w = [unit '\n']
  | .identifier, w => IsWord w ∧ w ≠ "true" ∧ w ≠ "false" ∧ w ≠ "null"
  | .lineComment, w => IsLineComment w
  | .blockComment, w => IsBlockComment w
  | .trueWord, w => w = "true"
  | .falseWord, w => w = "false"
  | .nullWord, w => w = "null"
  | .integer, w => IsDecimal false false w
  | .float, w => IsDecimal true false w
  | .integerExp, w => IsDecimal false true w
  | .floatExp, w => IsDecimal true true w
  | .hex, w => IsBased (unit 'x') (unit 'X') isHexDigit w
  | .binary, w => IsBased (unit 'b') (unit 'B') isBinaryDigit w
  | .singleString, w => IsQuoted (unit '\'') w
  | .doubleString, w => IsQuoted (unit '"') w
  | .punctuation p, w => w = p.units

def IsLexeme (w : Text) : Prop := ∃ k : Kind, k.Spelling w

def IsLongestLexeme (text w : Text) : Prop :=
  w <+: text ∧ IsLexeme w ∧ ∀ v, v <+: text → IsLexeme v → v.length ≤ w.length

end Lexis
