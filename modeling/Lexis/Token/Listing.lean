import Lexis.Token.Basic

/-!
# Listings of tokens

Two forms: one line for each token with its position, kind and quoted value, or
an indented array of records with every field.
-/

namespace Lexis.Token

/-- The line of a token: `line:column kind "value"`. -/
def line (t : Token) : Text :=
  t.position.coordinates ++ " " ++ t.kind.name ++ " " ++ t.value.quoted

def lines (tokens : List Token) : Text := Text.join "\n" (tokens.map line)

/-- A field of a record: four spaces, the quoted name, a colon and the value. -/
def field (name : String) (value : Text) : Text :=
  "    " ++ Text.quoted name ++ ": " ++ value

def record (t : Token) : Text :=
  "  \x7b\n" ++
    Text.join ",\n"
      [field "kind" (Text.quoted t.kind.name), field "value" t.value.quoted,
        field "from" (Binary64.integerText t.first), field "to" (Binary64.integerText t.last),
        field "line" (Binary64.integerText t.position.line),
        field "column" (Binary64.integerText t.position.column)] ++
    "\n  \x7d"

def records (tokens : List Token) : Text :=
  match tokens with
  | [] => "[]"
  | _ => "[\n" ++ Text.join ",\n" (tokens.map record) ++ "\n]"

def listing (tokens : List Token) (asRecords : Bool) : Text :=
  if asRecords then records tokens else lines tokens

end Lexis.Token
