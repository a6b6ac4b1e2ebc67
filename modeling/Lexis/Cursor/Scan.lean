import Lexis.Cursor.Basic
import Lexis.Error.Report
import Lexis.Lexeme.Recognise
import Lexis.Token.Basic

/-!
# Scanning one token

Scanning passes over blanks and recognises the lexeme that follows.  It gives
the token with its place and the cursor behind it, nothing at the end of the
input, or an error with its position.
-/

namespace Lexis

def Defect.code : Defect → LexCode
  | .unterminatedString => .unterminatedString
  | .invalidUnit => .invalidToken
  | .duplicateExponent => .duplicateExponent
  | .missingExponent => .malformedExponent
  | .emptyEscape => .malformedUnicodeEscape
  | .escapeOutOfRange _ => .malformedUnicodeEscape
  | .unterminatedComment => .unterminatedBlockComment

namespace Cursor

def token (c : Cursor) (lexeme : Lexeme) : Token :=
  { kind := lexeme.kind, position := c.position, first := c.offset,
    last := c.offset + lexeme.extra, value := lexeme.value }

def context (c : Cursor) : Defect → Fields
  | .invalidUnit =>
      let token := c.token ⟨.invalid, c.rest.take 1, 0⟩
      [("token", .text token.inspect)]
  | .emptyEscape => [("details", .text "no hex code provided")]
  | .escapeOutOfRange n =>
      [("details", .text ("code point " ++ Text.ofNatHex n ++ " is out of range"))]
  | _ => []

theorem isShowable_context (c : Cursor) (d : Defect) :
    ∀ field ∈ c.context d, field.2.isShowable = true := by
  cases d <;> simp [context, Value.isShowable]

def error (c : Cursor) (fault : Fault) : LexError :=
  { code := fault.defect.code, position := c.locate fault.offset,
    context := c.context fault.defect
    shows := Template.isSome_render (c.isShowable_context _) _ }

/-- The token at the cursor, which stands before no blank, and the cursor behind
it.  A comment has a value only if comments are kept. -/
def scanHere (c : Cursor) (keep : Bool) : Except LexError (Option (Token × Cursor)) :=
  match c.rest with
  | [] => .ok none
  | u :: rest =>
      match Lexeme.recognise keep u rest with
      | .error fault => .error (c.error fault)
      | .ok lexeme => .ok (some (c.token lexeme, c.advance (lexeme.extra + 1)))

def scan (c : Cursor) (keep : Bool) : Except LexError (Option (Token × Cursor)) :=
  c.skipBlanks.scanHere keep

theorem length_rest_skipBlanks_le (c : Cursor) : c.skipBlanks.rest.length ≤ c.rest.length := by
  simp [skipBlanks]

theorem length_rest_of_scanHere {c next : Cursor} {keep : Bool} {token : Token}
    (h : c.scanHere keep = .ok (some (token, next))) : next.rest.length < c.rest.length := by
  unfold scanHere at h
  split at h
  · simp at h
  · next u rest hrest =>
    split at h
    · simp at h
    · simp only [Except.ok.injEq, Option.some.injEq, Prod.mk.injEq] at h
      obtain ⟨-, rfl⟩ := h
      simp only [rest_advance, hrest, List.drop_succ_cons, List.length_drop, List.length_cons]
      omega

theorem length_rest_of_scan {c next : Cursor} {keep : Bool} {token : Token}
    (h : c.scan keep = .ok (some (token, next))) : next.rest.length < c.rest.length :=
  Nat.lt_of_lt_of_le (length_rest_of_scanHere h) c.length_rest_skipBlanks_le

end Cursor

end Lexis
