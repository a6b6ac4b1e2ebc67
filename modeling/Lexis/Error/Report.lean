import Lexis.Error.Code
import Lexis.Error.Template
import Lexis.Position
import Lexis.Text.Classes

/-!
# Reports

A report is a registered error that has happened: its wording, where it
happened and what is known about it.  Its message ends with the position, if
there is one.
-/

namespace Lexis

inductive RegistryError where
  | unknownId (id : Text)
  | unknownName (name : Text)
  | notLexical (name : Text)
  /-- The template asks for a value that cannot be shown. -/
  | unshowable

def RegistryError.message : RegistryError → Text
  | .unknownId id => "Unknown error ID: " ++ id
  | .unknownName name => "Unknown error code: " ++ name
  | .notLexical name => "Expected lexer error code, got: " ++ name
  | .unshowable => Value.unshowable

structure Report where
  code : ErrorCode
  wording : Text
  position : Option Position := none
  context : Option Fields := none

namespace Report

open Text

/-- The place of a report as the end of its message. -/
def suffix (position : Option Position) : Text :=
  match position with
  | none => []
  | some p => " at " ++ p.coordinates

def message (r : Report) : Text := r.wording ++ suffix r.position

/-- An integer at the start of a reversed text: digits and then an optional
minus sign.  The result is what follows. -/
def dropReversedInteger (t : Text) : Option Text :=
  let rest := t.dropWhile isDigit
  if rest.length = t.length then none
  else if rest.head? = some (unit '-') then some rest.tail
  else some rest

/-- A reversed text without the coordinates that it may begin with. -/
def dropReversedPlace (t : Text) : Option Text := do
  let rest ← dropReversedInteger t
  guard (rest.head? = some (unit ':'))
  let rest ← dropReversedInteger rest.tail
  guard ((ofString " at ").reverse.isPrefixOf rest)
  return rest.drop 4

/-- A text without one place at its end, whether or not it was put there by
`message`. -/
def withoutPlace (t : Text) : Text :=
  match dropReversedPlace t.reverse with
  | some rest => rest.reverse
  | none => t

def bareMessage (r : Report) : Text := withoutPlace r.message

def ofId (id wording : Text) (position : Option Position) (context : Option Fields) :
    Except RegistryError Report :=
  match ErrorCode.ofId? id with
  | some code => .ok { code, wording, position, context }
  | none => .error (.unknownId id)

/-- A report on an error with its template filled in, if all that the template asks
for can be shown. -/
def ofFields (code : ErrorCode) (fields : Fields) (position : Option Position) :
    Option Report :=
  (Template.render code.template fields).map fun wording ↦
    { code, wording, position, context := some fields }

def ofShowable (code : ErrorCode) (fields : Fields) (position : Option Position)
    (h : ∀ field ∈ fields, field.2.isShowable = true) : Report :=
  { code, wording := (Template.render code.template fields).get (Template.isSome_render h _),
    position, context := some fields }

theorem ofFields_eq_ofShowable {code : ErrorCode} {fields : Fields} {position : Option Position}
    (h : ∀ field ∈ fields, field.2.isShowable = true) :
    ofFields code fields position = some (ofShowable code fields position h) := by
  obtain ⟨wording, hwording⟩ := Option.isSome_iff_exists.mp (Template.isSome_render h code.template)
  simp [ofFields, ofShowable, hwording]

def create (id : Text) (fields : Fields) (position : Option Position) :
    Except RegistryError Report :=
  match ErrorCode.ofId? id with
  | none => .error (.unknownId id)
  | some code =>
      match ofFields code fields position with
      | some report => .ok report
      | none => .error .unshowable

end Report

/-- An error in a source text: what it is, where it is and what is known.  Its
template asks for nothing that cannot be shown. -/
@[ext] structure LexError where
  code : LexCode
  position : Position
  context : Fields := []
  shows : (Template.render (ErrorCode.lexical code).template context).isSome = true

structure LexRecord where
  code : LexCode
  description : Text
  position : Position
deriving DecidableEq

namespace LexError

def description (e : LexError) : Text :=
  (Template.render (ErrorCode.lexical e.code).template e.context).get e.shows

def report (e : LexError) : Report :=
  { code := .lexical e.code, wording := e.description, position := some e.position,
    context := some e.context }

def record (e : LexError) : LexRecord := ⟨e.code, e.description, e.position⟩

def ofName (name : Text) (position : Position) (context : Fields) :
    Except RegistryError LexError :=
  match ErrorCode.ofName? name with
  | none => .error (.unknownName name)
  | some (.lexical code) =>
      if shows : (Template.render (ErrorCode.lexical code).template context).isSome = true then
        .ok { code, position, context, shows }
      else .error .unshowable
  | some _ => .error (.notLexical name)

def summary (e : LexError) : Text :=
  "Lexer error at line " ++ Binary64.integerText e.position.line ++ ": " ++ e.description

end LexError

end Lexis
