import Lexis.Text.Basic

/-!
# Punctuation

The forty-four operators and brackets.  The ones made of dots apart, they have one
unit or two, and three tables say which units go together.
-/

namespace Lexis

inductive Punctuation where
  | dot
  | doubleDot
  | tripleDot
  | bang
  | notEqual
  | question
  | hash
  | atSign
  | dollar
  | percent
  | parenOpen
  | parenClose
  | bracketOpen
  | bracketClose
  | curlOpen
  | curlClose
  | caret
  | tilde
  | grave
  | backslash
  | slash
  | comma
  | semicolon
  | greaterThan
  | shiftRight
  | greaterEqual
  | lessThan
  | shiftLeft
  | lesserEqual
  | equals
  | equality
  | pipe
  | doublePipe
  | ampersand
  | doubleAmpersand
  | colon
  | doubleColon
  | minus
  | doubleMinus
  | arrow
  | plus
  | doublePlus
  | asterisk
  | doubleAsterisk
deriving DecidableEq, Repr

namespace Punctuation

def all : List Punctuation :=
  [.dot, .doubleDot, .tripleDot, .bang, .notEqual, .question, .hash, .atSign, .dollar,
    .percent, .parenOpen, .parenClose, .bracketOpen, .bracketClose, .curlOpen, .curlClose,
    .caret, .tilde, .grave, .backslash, .slash, .comma, .semicolon, .greaterThan, .shiftRight,
    .greaterEqual, .lessThan, .shiftLeft, .lesserEqual, .equals, .equality, .pipe, .doublePipe,
    .ampersand, .doubleAmpersand, .colon, .doubleColon, .minus, .doubleMinus, .arrow, .plus,
    .doublePlus, .asterisk, .doubleAsterisk]

def name : Punctuation → String
  | .dot => "dot"
  | .doubleDot => "double_dot"
  | .tripleDot => "triple_dot"
  | .bang => "bang"
  | .notEqual => "not_equal"
  | .question => "question"
  | .hash => "hash"
  | .atSign => "at"
  | .dollar => "dollar"
  | .percent => "percent"
  | .parenOpen => "paren_open"
  | .parenClose => "paren_close"
  | .bracketOpen => "bracket_open"
  | .bracketClose => "bracket_close"
  | .curlOpen => "curl_open"
  | .curlClose => "curl_close"
  | .caret => "caret"
  | .tilde => "tilde"
  | .grave => "grave"
  | .backslash => "backslash"
  | .slash => "slash"
  | .comma => "comma"
  | .semicolon => "semicolon"
  | .greaterThan => "greater_than"
  | .shiftRight => "shift_right"
  | .greaterEqual => "greater_equal"
  | .lessThan => "less_than"
  | .shiftLeft => "shift_left"
  | .lesserEqual => "lesser_equal"
  | .equals => "equals"
  | .equality => "equality"
  | .pipe => "pipe"
  | .doublePipe => "or"
  | .ampersand => "ampersand"
  | .doubleAmpersand => "and"
  | .colon => "colon"
  | .doubleColon => "double_colon"
  | .minus => "minus"
  | .doubleMinus => "double_minus"
  | .arrow => "arrow"
  | .plus => "plus"
  | .doublePlus => "double_plus"
  | .asterisk => "asterisk"
  | .doubleAsterisk => "double_asterisk"

def text : Punctuation → String
  | .dot => "."
  | .doubleDot => ".."
  | .tripleDot => "..."
  | .bang => "!"
  | .notEqual => "!="
  | .question => "?"
  | .hash => "#"
  | .atSign => "@"
  | .dollar => "$"
  | .percent => "%"
  | .parenOpen => "("
  | .parenClose => ")"
  | .bracketOpen => "["
  | .bracketClose => "]"
  | .curlOpen => "\x7b"
  | .curlClose => "\x7d"
  | .caret => "^"
  | .tilde => "~"
  | .grave => "`"
  | .backslash => "\\"
  | .slash => "/"
  | .comma => ","
  | .semicolon => ";"
  | .greaterThan => ">"
  | .shiftRight => ">>"
  | .greaterEqual => ">="
  | .lessThan => "<"
  | .shiftLeft => "<<"
  | .lesserEqual => "<="
  | .equals => "="
  | .equality => "=="
  | .pipe => "|"
  | .doublePipe => "||"
  | .ampersand => "&"
  | .doubleAmpersand => "&&"
  | .colon => ":"
  | .doubleColon => "::"
  | .minus => "-"
  | .doubleMinus => "--"
  | .arrow => "->"
  | .plus => "+"
  | .doublePlus => "++"
  | .asterisk => "*"
  | .doubleAsterisk => "**"

def units (p : Punctuation) : Text := Text.ofString p.text

def ofText? (t : Text) : Option Punctuation := all.find? fun p ↦ p.units = t

def single : Text :=
  ['?', '#', '@', '$', '%', '(', ')', '[', ']', '\x7b', '\x7d', '^', '~', '`', '\\', ',',
    ';'].map unit

/-- The units that make a longer punctuation when they are repeated. -/
def doubling : Text := ['=', '|', '&', ':', '+', '*'].map unit

/-- The other units that begin a longer punctuation, with those that end it. -/
def extensions : List (UInt16 × Text) :=
  [(unit '!', [unit '=']), (unit '>', [unit '>', unit '=']), (unit '<', [unit '<', unit '=']),
    (unit '-', [unit '>', unit '-'])]

def joins (u next : UInt16) : Bool :=
  if single.contains u then false
  else if doubling.contains u then next == u
  else (extensions.lookup u).any (·.contains next)

end Punctuation

end Lexis
