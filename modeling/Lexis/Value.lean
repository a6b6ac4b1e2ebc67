import Lexis.Number.Shortest

/-!
# Values

Values of unknown shape: what a configuration document holds and what error
messages are filled in with.  An object keeps its fields in the order in which
they were written.
-/

namespace Lexis

inductive Value where
  | null
  | bool (b : Bool)
  | number (x : Binary64)
  | text (t : Text)
  | list (items : List Value)
  | object (fields : List (Text × Value))
deriving Inhabited

abbrev Fields := List (Text × Value)

def Fields.get? (fields : Fields) (name : Text) : Option Value := fields.lookup name

namespace Value

mutual

/-- The value as it appears in a message: a list as its items with commas
between them, an object as a fixed word. -/
def display : Value → Text
  | .null => "null"
  | .bool b => if b then "true" else "false"
  | .number x => x.text
  | .text t => t
  | .list items => Text.join "," (displayItems items)
  | .object _ => "[object Object]"

/-- The items of a list as they appear in a message; null leaves no trace. -/
def displayItems : List Value → List Text
  | [] => []
  | .null :: rest => [] :: displayItems rest
  | item :: rest => display item :: displayItems rest

end

mutual

/-- Whether a value can be shown.  An object with a field `toString` hides the word that
stands for objects, and a list can be shown if all of its items can. -/
def isShowable : Value → Bool
  | .list items => allShowable items
  | .object fields => (Fields.get? fields "toString").isNone
  | _ => true

def allShowable : List Value → Bool
  | [] => true
  | item :: rest => item.isShowable && allShowable rest

end

def shown? (v : Value) : Option Text := if v.isShowable then some v.display else none

def unshowable : String := "Cannot convert object to primitive value"

end Value

end Lexis
