import Lexis.Config

/-!
# Command-line arguments

The words that request help, the version or an explanation win wherever they
stand.  Otherwise the arguments are options, in any order, and exactly one input.
-/

namespace Lexis

inductive Input where
  | file (path : Text)
  | stdin
  | inline (source : Text)
deriving DecidableEq

structure Flags where
  json : Bool := false
  verbose : Bool := false
  skipComments : Option Bool := none
  skipNewlines : Option Bool := none
  untilKind : Option Kind := none
  maxTokens : Option Binary64 := none
  configPath : Option Text := none
deriving DecidableEq

def Flags.config (f : Flags) : Config :=
  { skipComments := f.skipComments, skipNewlines := f.skipNewlines, maxTokens := f.maxTokens,
    untilKind := f.untilKind }

inductive Command where
  | lex (input : Input) (flags : Flags)
  | explain (id : Text)
  | help
  | version
deriving DecidableEq

inductive ArgumentError where
  | missingValue (flag : String)
  | unknownKind (name : Text)
  | badCount (value : Text)
  | manyInputs
  | unknownOption (argument : Text)
  | noInput
deriving DecidableEq

def ArgumentError.message : ArgumentError → Text
  | .missingValue flag => "Missing value after " ++ flag
  | .unknownKind name => "Unknown token kind: " ++ name
  | .badCount value => "Invalid token count: " ++ value
  | .manyInputs => "Multiple inputs given"
  | .unknownOption argument => "Unknown option: " ++ argument
  | .noInput => "Missing file argument"

namespace Command

/-- A token count: decimal digits only, whose number is not shared with another
integer. -/
def count? (value : Text) : Option Binary64 :=
  let count := Binary64.ofInt (Text.positional 10 value)
  if value ≠ [] ∧ value.all Text.isDigit = true ∧ count.safeInteger?.isSome = true then some count
  else none

def addInput (input : Option Input) (new : Input) : Except ArgumentError (Option Input) :=
  match input with
  | none => .ok (some new)
  | some _ => .error .manyInputs

def parseLex (input : Option Input) (flags : Flags) : List Text → Except ArgumentError Command
  | [] =>
      match input with
      | some input => .ok (.lex input flags)
      | none => .error .noInput
  | argument :: rest =>
      if argument = Text.ofString "--json" then parseLex input { flags with json := true } rest
      else if argument = Text.ofString "--verbose" then
        parseLex input { flags with verbose := true } rest
      else if argument = Text.ofString "--skip-comments" then
        parseLex input { flags with skipComments := some true } rest
      else if argument = Text.ofString "--skip-newlines" then
        parseLex input { flags with skipNewlines := some true } rest
      else if argument = Text.ofString "--until" then
        match rest with
        | [] => .error (.missingValue "--until")
        | name :: rest =>
            match Kind.ofName? name with
            | none => .error (.unknownKind name)
            | some kind => parseLex input { flags with untilKind := some kind } rest
      else if argument = Text.ofString "--max" then
        match rest with
        | [] => .error (.missingValue "--max")
        | value :: rest =>
            match count? value with
            | none => .error (.badCount value)
            | some n => parseLex input { flags with maxTokens := some n } rest
      else if argument = Text.ofString "--config" then
        match rest with
        | [] => .error (.missingValue "--config")
        | path :: rest => parseLex input { flags with configPath := some path } rest
      else if argument = Text.ofString "-e" then
        match rest with
        | [] => .error (if input.isSome then .manyInputs else .missingValue "-e")
        | source :: rest =>
            match addInput input (.inline source) with
            | .error e => .error e
            | .ok input => parseLex input flags rest
      else if argument = Text.ofString "-" then
        match addInput input .stdin with
        | .error e => .error e
        | .ok input => parseLex input flags rest
      else if argument.head? = some (unit '-') then .error (.unknownOption argument)
      else
        match addInput input (.file argument) with
        | .error e => .error e
        | .ok input => parseLex input flags rest

/-- The value after the first occurrence of a flag. -/
def valueAfter (flag : String) (arguments : List Text) : Except ArgumentError Text :=
  match (arguments.dropWhile (· ≠ Text.ofString flag)).drop 1 with
  | [] => .error (.missingValue flag)
  | value :: _ => .ok value

def parse (arguments : List Text) : Except ArgumentError Command :=
  let has (flag : String) : Bool := arguments.contains (Text.ofString flag)
  if has "--help" || has "-h" then .ok .help
  else if has "--version" || has "-v" then .ok .version
  else if has "--explain" then (valueAfter "--explain" arguments).map .explain
  else parseLex none {} arguments

end Command

end Lexis
