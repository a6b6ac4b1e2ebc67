import Lexis.Kind
import Lexis.Position
import Lexis.Text.Quoted

/-!
# Tokens

A token is a classified piece of a source text with its place.  The offsets of
its first and last unit are both included.  The value of a string literal is
the text it denotes; every other token has the text that it is written with.
-/

namespace Lexis

structure Token where
  kind : Kind := .invalid
  position : Position := ⟨-1, -1⟩
  first : Int := -1
  last : Int := -1
  value : Text := []
deriving DecidableEq, Repr

namespace Token

def isIdentifier (t : Token) : Bool := t.kind == .identifier

def isBoolean (t : Token) : Bool := t.kind == .trueWord || t.kind == .falseWord

def isNull (t : Token) : Bool := t.kind == .nullWord

/-- The truth values and null count as literals. -/
def isLiteral (t : Token) : Bool := t.kind.isLiteral

def isInteger (t : Token) : Bool :=
  match t.kind with
  | .integer | .integerExp | .hex | .binary => true
  | _ => false

def isFloat (t : Token) : Bool := t.kind == .float || t.kind == .floatExp

def isString (t : Token) : Bool := t.kind == .singleString || t.kind == .doubleString

def isComment (t : Token) : Bool := t.kind.category == .comment

def isPunctuation (t : Token) : Bool := t.kind.category == .punctuation

def isNewline (t : Token) : Bool := t.kind == .newline

/-- The token for diagnostics: kind, quoted value, position and offsets. -/
def inspect (t : Token) : Text :=
  "<" ++ t.kind.name ++ " " ++ t.value.quoted ++ " " ++ t.position.bracketed ++ " " ++
    Binary64.integerText t.first ++ ".." ++ Binary64.integerText t.last ++ ">"

end Token

end Lexis
