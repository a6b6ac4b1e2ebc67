import Lexis.Punctuation

/-!
# Kinds of tokens

The closed list of token kinds with their names, their descriptions for people
and the categories that they fall into.
-/

namespace Lexis

inductive Kind where
  | invalid
  | newline
  | identifier
  | lineComment
  | blockComment
  | trueWord
  | falseWord
  | nullWord
  | integer
  | float
  | integerExp
  | floatExp
  | hex
  | binary
  | singleString
  | doubleString
  | punctuation (p : Punctuation)
deriving DecidableEq, Repr

inductive Category where
  | invalid
  | newline
  | identifier
  | comment
  | keyword
  | literal
  | punctuation
deriving DecidableEq, Repr

def Category.name : Category → String
  | .invalid => "invalid"
  | .newline => "newline"
  | .identifier => "identifier"
  | .comment => "comment"
  | .keyword => "keyword"
  | .literal => "literal"
  | .punctuation => "punctuation"

namespace Kind

def all : List Kind :=
  [.invalid, .newline, .identifier, .lineComment, .blockComment, .trueWord, .falseWord,
    .nullWord, .integer, .float, .integerExp, .floatExp, .hex, .binary, .singleString,
    .doubleString] ++ Punctuation.all.map .punctuation

def name : Kind → String
  | .invalid => "invalid"
  | .newline => "newline"
  | .identifier => "id"
  | .lineComment => "line_comment"
  | .blockComment => "block_comment"
  | .trueWord => "true_kw"
  | .falseWord => "false_kw"
  | .nullWord => "null_kw"
  | .integer => "integer_lit"
  | .float => "float_lit"
  | .integerExp => "integer_exp_lit"
  | .floatExp => "float_exp_lit"
  | .hex => "hex_lit"
  | .binary => "bin_lit"
  | .singleString => "single_string_lit"
  | .doubleString => "double_string_lit"
  | .punctuation p => p.name

def capitalName (k : Kind) : String := k.name.map Char.toUpper

def ofName? (t : Text) : Option Kind := all.find? fun k ↦ Text.ofString k.name = t

/-- How a literal kind is described, the three keywords included. -/
def literalText? : Kind → Option String
  | .trueWord => some "true"
  | .falseWord => some "false"
  | .nullWord => some "null"
  | .integer => some "integer"
  | .float => some "float"
  | .integerExp => some "integer exp"
  | .floatExp => some "float exp"
  | .hex => some "hexnum lit"
  | .binary => some "binary lit"
  | .singleString => some "'...' string"
  | .doubleString => some "\"...\" string"
  | _ => none

def punctuationText? : Kind → Option String
  | .punctuation p => some p.text
  | _ => none

def descriptor : Kind → String
  | .newline => "\\n"
  | .identifier => "identifier"
  | .lineComment => "// comment"
  | .blockComment => "/* comment */"
  | .punctuation p => p.text
  | k => k.literalText?.getD "invalid"

def category : Kind → Category
  | .invalid => .invalid
  | .newline => .newline
  | .identifier => .identifier
  | .lineComment | .blockComment => .comment
  | .trueWord | .falseWord | .nullWord => .keyword
  | .punctuation _ => .punctuation
  | _ => .literal

/-- Literals are the kinds with a value of their own, keywords included. -/
def isLiteral (k : Kind) : Bool := k.category == .literal || k.category == .keyword

def integers : List Kind := [.integer, .integerExp, .hex, .binary]

def floats : List Kind := [.float, .floatExp]

def strings : List Kind := [.singleString, .doubleString]

def booleans : List Kind := [.trueWord, .falseWord]

def keywords : List Kind := [.trueWord, .falseWord, .nullWord]

def separators : List Kind := [.newline, .lineComment, .blockComment]

def ofWord (word : Text) : Kind :=
  if word = Text.ofString "true" then .trueWord
  else if word = Text.ofString "false" then .falseWord
  else if word = Text.ofString "null" then .nullWord
  else .identifier

end Kind

end Lexis
