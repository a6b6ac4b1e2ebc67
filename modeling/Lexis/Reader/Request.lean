import Lexis.Reader.Basic

/-!
# Requests to a reader

Everything that can be asked of a reader, as data.
-/

namespace Lexis

inductive Request where
  | peek
  | peekKind
  | nextIs (kinds : List Kind) (value : Option Text)
  | isAtEnd
  | read (criteria : Criteria) (onFail : Option OnFail)
  | tryRead (criteria : Criteria)
  | readFloat (hash : Option Binary64) (onFail : Option OnFail)
  | readInteger (hash : Option Binary64) (onFail : Option OnFail)
  | readBoolean (hash : Option Binary64) (onFail : Option OnFail)
  | readString (hash : Option Binary64) (onFail : Option OnFail)
  | skip
  | skipSeparators
  | skipMany (count : Option Binary64) (kinds : Option (List Kind))
  | skipTo (kinds : List Kind) (through : Bool)
  | setSkipping (skips : Bool)

inductive Response where
  | token (token : Option Token)
  | kind (kind : Option Kind)
  | isNext (is : Option Bool)
  | isAtEnd (is : Bool)
  | attempt (attempt : Attempt)
  | float (value : Option Binary64)
  | integer (value : Option Int)
  | boolean (value : Option Bool)
  | text (value : Option Text)
  | done
  | nothing

def Token.isOneOf (t : Token) (kinds : List Kind) (value : Option Text) : Bool :=
  kinds.contains t.kind && value.all (· == t.value)

namespace Reader

variable {σ : Type} [Source σ]

def look (r : Reader σ) (view : Option Token → Response) :
    Except ReadError Response × Reader σ :=
  let (result, r) := r.peek
  ((result.map view).mapError .source, r)

def handle (r : Reader σ) : Request → Except ReadError Response × Reader σ
  | .peek => r.look .token
  | .peekKind => r.look fun t ↦ .kind (t.map (·.kind))
  | .nextIs kinds value => r.look fun t ↦ .isNext (t.map (·.isOneOf kinds value))
  | .isAtEnd => r.look fun t ↦ .isAtEnd t.isNone
  | .read criteria onFail =>
      let (result, r) := r.read criteria (onFail.getD (.wording ReadError.defaultWording))
      (result.map .token, r)
  | .tryRead criteria =>
      let (result, r) := r.tryRead criteria
      ((result.map .attempt).mapError .source, r)
  | .readFloat hash onFail =>
      let (result, r) := r.readAs (Kind.floats ++ Kind.integers) hash
        (onFail.getD (.wording "Expected float literal")) Token.float
      (result.map .float, r)
  | .readInteger hash onFail =>
      let (result, r) := r.readAs Kind.integers hash
        (onFail.getD (.wording "Expected integer literal")) Token.integer
      (result.map .integer, r)
  | .readBoolean hash onFail =>
      let (result, r) := r.readAs Kind.booleans hash
        (onFail.getD (.wording "Expected boolean literal")) fun t ↦ .ok (t.kind == .trueWord)
      (result.map .boolean, r)
  | .readString hash onFail =>
      let (result, r) := r.readAs Kind.strings hash
        (onFail.getD (.wording "Expected string literal")) fun t ↦ .ok t.value
      (result.map .text, r)
  | .skip =>
      let (result, r) := r.skip
      (result.map fun _ ↦ .done, r)
  | .skipSeparators =>
      let (result, r) := r.skipSeparators
      ((result.map fun _ ↦ .done).mapError .source, r)
  | .skipMany count kinds =>
      let (result, r) := r.skipMany count kinds
      (result.map fun _ ↦ .done, r)
  | .skipTo kinds through =>
      let (result, r) := r.skipTo kinds through
      (result.map fun _ ↦ .done, r)
  | .setSkipping skips => (.ok .nothing, { r with skipsSeparators := skips })

end Reader

end Lexis
