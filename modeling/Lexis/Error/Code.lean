import Lexis.Text.Basic

/-!
# The registry of errors

Every error that can be reported has a code, an identifier, a description, a
message template and advice for people.
-/

namespace Lexis

inductive LexCode where
  | unterminatedString
  | invalidToken
  | duplicateExponent
  | malformedExponent
  | malformedUnicodeEscape
  | unterminatedBlockComment
deriving DecidableEq, Repr

inductive ErrorCode where
  | lexical (code : LexCode)
  | readMismatch
  | endOfStream
  | invalidConfig
deriving DecidableEq, Repr

inductive ErrorCategory where
  | lexer
  | reader
  | config
deriving DecidableEq, Repr

def ErrorCategory.name : ErrorCategory → String
  | .lexer => "lexer"
  | .reader => "reader"
  | .config => "config"

namespace ErrorCode

def all : List ErrorCode :=
  [.lexical .unterminatedString, .lexical .invalidToken, .lexical .duplicateExponent,
    .lexical .malformedExponent, .lexical .malformedUnicodeEscape,
    .lexical .unterminatedBlockComment, .readMismatch, .endOfStream, .invalidConfig]

/-- The identifier of an error: a letter for its category and three digits. -/
def id : ErrorCode → String
  | .lexical .unterminatedString => "GT-L001"
  | .lexical .invalidToken => "GT-L002"
  | .lexical .duplicateExponent => "GT-L003"
  | .lexical .malformedExponent => "GT-L004"
  | .lexical .malformedUnicodeEscape => "GT-L005"
  | .lexical .unterminatedBlockComment => "GT-L006"
  | .readMismatch => "GT-R001"
  | .endOfStream => "GT-R002"
  | .invalidConfig => "GT-C001"

def category : ErrorCode → ErrorCategory
  | .lexical _ => .lexer
  | .readMismatch | .endOfStream => .reader
  | .invalidConfig => .config

def name : ErrorCode → String
  | .lexical .unterminatedString => "unterminated_string"
  | .lexical .invalidToken => "invalid_token"
  | .lexical .duplicateExponent => "duplicate_exponent"
  | .lexical .malformedExponent => "malformed_exponent"
  | .lexical .malformedUnicodeEscape => "malformed_unicode_escape"
  | .lexical .unterminatedBlockComment => "unterminated_block_comment"
  | .readMismatch => "read_mismatch"
  | .endOfStream => "end_of_stream"
  | .invalidConfig => "invalid_config"

def description : ErrorCode → String
  | .lexical .unterminatedString => "Unterminated string"
  | .lexical .invalidToken => "Invalid token"
  | .lexical .duplicateExponent => "Duplicate exponent"
  | .lexical .malformedExponent => "Malformed exponent"
  | .lexical .malformedUnicodeEscape => "Malformed unicode escape"
  | .lexical .unterminatedBlockComment => "Unterminated block comment"
  | .readMismatch => "Token mismatch"
  | .endOfStream => "End of token stream"
  | .invalidConfig => "Invalid configuration"

def template : ErrorCode → String
  | .lexical .unterminatedString => "Unterminated string"
  | .lexical .invalidToken => "Invalid token: \x7btoken\x7d"
  | .lexical .duplicateExponent => "Malformed number literal: exponent already provided"
  | .lexical .malformedExponent =>
      "Malformed number literal: exponent expected but not provided"
  | .lexical .malformedUnicodeEscape => "Malformed unicode literal in string - \x7bdetails\x7d"
  | .lexical .unterminatedBlockComment => "Unterminated block comment"
  | .readMismatch => "Failed to read token"
  | .endOfStream => "Attempt to \x7baction\x7d past end of tokens"
  | .invalidConfig => "Invalid configuration: \x7bdetails\x7d"

def cause : ErrorCode → String
  | .lexical .unterminatedString =>
      "String opened with a quote but never closed before end of input."
  | .lexical .invalidToken => "Character does not start any recognized token."
  | .lexical .duplicateExponent => "Number literal contains a second e or E exponent marker."
  | .lexical .malformedExponent => "Exponent marker is not followed by at least one digit."
  | .lexical .malformedUnicodeEscape =>
      "A \\x or \\X escape has no hex digits, or names a value beyond U+10FFFF."
  | .lexical .unterminatedBlockComment =>
      "Block comment opened with /* but never closed with */."
  | .readMismatch => "Next token does not match the requested kind or value."
  | .endOfStream => "No tokens remain in the stream."
  | .invalidConfig => "Configuration file is not a mapping or has an unknown key or type."

def resolution : ErrorCode → String
  | .lexical .unterminatedString =>
      "Add the closing quote, or escape a quote meant as content."
  | .lexical .invalidToken =>
      "Remove the character or move it into a string literal or comment."
  | .lexical .duplicateExponent => "Keep a single exponent per number, e.g. 1.5e10."
  | .lexical .malformedExponent => "Add exponent digits after e, e+ or e-."
  | .lexical .malformedUnicodeEscape =>
      "Use \\xHHHH for up to 4 hex digits or \\XHHHHHHHH for up to 8 hex digits."
  | .lexical .unterminatedBlockComment => "Close the comment with */."
  | .readMismatch => "Check the token with peek() or nextIs() before reading."
  | .endOfStream => "Check isEof() before reading or skipping."
  | .invalidConfig =>
      "Use only skipComments, skipNewlines (booleans), maxTokens (integer) and untilKind " ++
        "(token kind)."

def ofId? (id : Text) : Option ErrorCode :=
  all.find? fun code ↦ Text.ofString code.id = id

def ofName? (name : Text) : Option ErrorCode :=
  all.find? fun code ↦ Text.ofString code.name = name

def explanation (code : ErrorCode) : Text :=
  code.id ++ ": " ++ code.description ++ "\n\nCause:\n  " ++ code.cause ++
    "\n\nResolution:\n  " ++ code.resolution

def explain? (id : Text) : Option Text := (ofId? id).map explanation

end ErrorCode

end Lexis
