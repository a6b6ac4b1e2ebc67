import Lexis.Lexer.Basic
import Lexis.Token.Coercion

/-!
# Errors of a reader

A read fails because the source fails, because no token is left, because the next
token is not the wanted one, or because it has no value of the wanted type.
-/

namespace Lexis

inductive EndAction where
  | read
  | skip
deriving DecidableEq, Repr

def EndAction.name : EndAction → String
  | .read => "read"
  | .skip => "skip"

inductive ReadError where
  | source (error : RunError)
  | noToken (action : EndAction)
  | mismatch (token : Token) (wording : Text)
  /-- The caller words the failure. -/
  | custom (message : Text)
  | coercion (error : CoercionError)
  | noBound
  | noTarget

namespace ReadError

def endReport (action : EndAction) : Report :=
  .ofShowable .endOfStream [("action", .text action.name)] none (by simp [Value.isShowable])

def mismatchReport (token : Token) (wording : Text) : Report :=
  { code := .readMismatch, wording, position := some token.position,
    context := some [("token", .text token.inspect)] }

def defaultWording : Text := ErrorCode.readMismatch.template

def message : ReadError → Text
  | .source error => error.message
  | .noToken action => (endReport action).message
  | .mismatch token wording => (mismatchReport token wording).message
  | .custom message => message
  | .coercion error => error.message
  | .noBound => "skipTokens requires count or kinds"
  | .noTarget => "skipToToken requires at least one token kind"

end ReadError

end Lexis
