import Lexis.Run.Progress
import Lexis.Value

/-!
# Configuration

Options for a run as they come from a configuration document.  The document is an
object with at most four fields; anything else is refused with the first thing
that is wrong with it.
-/

namespace Lexis

structure Config where
  skipComments : Option Bool := none
  skipNewlines : Option Bool := none
  maxTokens : Option Binary64 := none
  untilKind : Option Kind := none

inductive ConfigError where
  | notObject
  | unknownKey (key : Text)
  | notBoolean (key : String)
  | badLimit
  | badKind (value : Value)
  /-- The document in the file of this name cannot be read, for a reason in words. -/
  | malformed (file message : Text)

namespace ConfigError

/-- What is said about the error.  There is nothing to say about a value that cannot be
shown. -/
def details? : ConfigError → Option Text
  | .notObject => some "expected a mapping"
  | .unknownKey key => some ("unknown key " ++ key)
  | .notBoolean key => some (key ++ " must be a boolean")
  | .badLimit => some "maxTokens must be a non-negative integer"
  | .badKind value => value.shown?.map ("untilKind must be a token kind, got " ++ ·)
  | .malformed file message => some (file ++ ": " ++ message)

def report? (e : ConfigError) : Option Report :=
  e.details?.map fun details ↦
    .ofShowable .invalidConfig [("details", .text details)] none (by simp [Value.isShowable])

/-- The message of the report or, if there is none, that of the attempt to show the value. -/
def message (e : ConfigError) : Text :=
  match e.report? with
  | some report => report.message
  | none => Value.unshowable

end ConfigError

/-- The array index that a name spells: digits without a leading zero, for a
number below the largest word of 32 bits. -/
def arrayIndex? (name : Text) : Option Nat :=
  let n := Text.positional 10 name
  if name.all Text.isDigit ∧ n < 4294967295 ∧ Text.ofNat n = name then some n else none

/-- The names of the fields in the order in which they are visited: first those
that spell an array index, from the least to the greatest, then the others as
they were written. -/
def Fields.visitOrder (fields : Fields) : List Text :=
  let names := fields.map (·.1)
  let indices := (names.filterMap arrayIndex?).mergeSort (· ≤ ·)
  indices.map Text.ofNat ++ names.filter fun name ↦ (arrayIndex? name).isNone

namespace Config

def keys : List Text := ["skipComments", "skipNewlines", "maxTokens", "untilKind"].map Text.ofString

def boolean (fields : Fields) (key : String) : Except ConfigError (Option Bool) :=
  match fields.get? key with
  | none => .ok none
  | some (.bool b) => .ok (some b)
  | some _ => .error (.notBoolean key)

def limit (fields : Fields) : Except ConfigError (Option Binary64) :=
  match fields.get? "maxTokens" with
  | none => .ok none
  | some (.number x) => if x.toNat?.isSome then .ok (some x) else .error .badLimit
  | some _ => .error .badLimit

def kindOf? : Value → Option Kind
  | .text t => Kind.ofName? t
  | _ => none

def kind (fields : Fields) : Except ConfigError (Option Kind) :=
  match fields.get? "untilKind" with
  | none => .ok none
  | some value =>
      match kindOf? value with
      | some k => .ok (some k)
      | none => .error (.badKind value)

def ofFields (fields : Fields) : Except ConfigError Config :=
  match fields.visitOrder.find? fun key ↦ !keys.contains key with
  | some key => .error (.unknownKey key)
  | none => do
      let skipComments ← boolean fields "skipComments"
      let skipNewlines ← boolean fields "skipNewlines"
      let maxTokens ← limit fields
      let untilKind ← kind fields
      return { skipComments, skipNewlines, maxTokens, untilKind }

/-- The configuration that a document describes; an empty document leaves all
options open. -/
def ofValue : Value → Except ConfigError Config
  | .null => .ok {}
  | .object fields => ofFields fields
  | _ => .error .notObject

def filter (c : Config) : Filter := ⟨c.skipComments.getD false, c.skipNewlines.getD false⟩

def options (c : Config) : RunOptions := ⟨c.untilKind, c.maxTokens⟩

/-- Options where those of `c` take precedence over those of `fallback`. -/
def orElse (c fallback : Config) : Config :=
  { skipComments := c.skipComments <|> fallback.skipComments,
    skipNewlines := c.skipNewlines <|> fallback.skipNewlines,
    maxTokens := c.maxTokens <|> fallback.maxTokens,
    untilKind := c.untilKind <|> fallback.untilKind }

end Config

end Lexis
