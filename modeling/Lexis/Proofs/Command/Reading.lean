import Lexis.Command.Program

/-!
# What the program reads

The source text comes from the arguments, from standard input or from a file.  The
configuration comes from the file that is asked for or else from the one in the working
directory, through a reader of documents that may be any function.  Both are found in exactly
one way.
-/

namespace Lexis.Program

/-- What an input gives: a text, or the error of the file or of standard input. -/
inductive Reads (env : Environment Id) : Input → Except FileError Text → Prop
  | inline {source : Text} : Reads env (.inline source) (.ok source)
  | input {bytes : List UInt8} (h : env.readInput = .ok bytes) :
      Reads env .stdin (.ok (Text.Utf8.decode bytes))
  | noInput {error : FileError} (h : env.readInput = .error error) :
      Reads env .stdin (.error error)
  | file {path : Text} {bytes : List UInt8} (h : env.readFile path = .ok bytes) :
      Reads env (.file path) (.ok (Text.Utf8.decode bytes))
  | noFile {path : Text} {error : FileError} (h : env.readFile path = .error error) :
      Reads env (.file path) (.error error)

inductive Chooses (env : Environment Id) (flags : Flags) : Option Text → Prop
  | asked {path : Text} (h : flags.configPath = some path) : Chooses env flags (some path)
  | found (h : flags.configPath = none) (hexists : env.fileExists ".gt-lex.yaml" = true) :
      Chooses env flags (some ".gt-lex.yaml")
  | absent (h : flags.configPath = none) (hexists : env.fileExists ".gt-lex.yaml" = false) :
      Chooses env flags none

/-- What the configuration is: that of the file, once its bytes are a text, the text is a document
and the document is accepted, or the first thing that is wrong. -/
inductive Configures (env : Environment Id) (flags : Flags) : Except LoadError Config → Prop
  | absent (h : Chooses env flags none) : Configures env flags (.ok {})
  | noFile {path : Text} {error : FileError} (h : Chooses env flags (some path))
      (hread : env.readFile path = .error error) : Configures env flags (.error (.file error))
  | malformed {path message : Text} {bytes : List UInt8} (h : Chooses env flags (some path))
      (hread : env.readFile path = .ok bytes)
      (hparse : env.parse (Text.Utf8.decode bytes) = .error message) :
      Configures env flags (.error (.config (.malformed (Path.name path) message)))
  | refused {path : Text} {bytes : List UInt8} {value : Value} {error : ConfigError}
      (h : Chooses env flags (some path)) (hread : env.readFile path = .ok bytes)
      (hparse : env.parse (Text.Utf8.decode bytes) = .ok value)
      (hvalue : Config.ofValue value = .error error) :
      Configures env flags (.error (.config error))
  | accepted {path : Text} {bytes : List UInt8} {value : Value} {config : Config}
      (h : Chooses env flags (some path)) (hread : env.readFile path = .ok bytes)
      (hparse : env.parse (Text.Utf8.decode bytes) = .ok value)
      (hvalue : Config.ofValue value = .ok config) : Configures env flags (.ok config)

variable {env : Environment Id} {input : Input} {flags : Flags}

theorem readSource_stdin (env : Environment Id) :
    readSource env .stdin = Except.map Text.Utf8.decode env.readInput := rfl

theorem readSource_file (env : Environment Id) (path : Text) :
    readSource env (.file path) = Except.map Text.Utf8.decode (env.readFile path) := rfl

theorem reads_iff {result : Except FileError Text} :
    Reads env input result ↔ readSource env input = result := by
  constructor
  · intro h
    cases h with
    | inline => rfl
    | input h | noInput h => rw [readSource_stdin, h]; rfl
    | file h | noFile h => rw [readSource_file, h]; rfl
  · rintro rfl
    cases input with
    | inline source => exact .inline
    | stdin =>
        rw [readSource_stdin]
        cases h : env.readInput with
        | error e => exact .noInput h
        | ok bytes => exact .input h
    | file path =>
        rw [readSource_file]
        cases h : env.readFile path with
        | error e => exact .noFile h
        | ok bytes => exact .file h

/-- The file that is used is settled before it is read. -/
def chosen (env : Environment Id) (flags : Flags) : Option Text :=
  match flags.configPath with
  | some path => some path
  | none => Config.find env Path.here

theorem find_here {exists? : Bool} (h : env.fileExists ".gt-lex.yaml" = exists?) :
    Config.find env Path.here = if exists? then some (Text.ofString ".gt-lex.yaml") else none := by
  have hpath : Path.inside Path.here Config.fileName = Text.ofString ".gt-lex.yaml" := by decide
  unfold Config.find
  rw [hpath]
  dsimp only [bind]
  rw [h]
  cases exists? <;> rfl

theorem chooses_iff {choice : Option Text} :
    Chooses env flags choice ↔ chosen env flags = choice := by
  constructor
  · intro h
    cases h with
    | asked h => simp only [chosen, h]
    | found h hexists | absent h hexists =>
        simp only [chosen, h]
        exact find_here hexists
  · rintro rfl
    cases h : flags.configPath with
    | some path => simpa only [chosen, h] using Chooses.asked h
    | none =>
        simp only [chosen, h]
        cases hexists : env.fileExists ".gt-lex.yaml" with
        | true =>
            rw [find_here hexists]
            exact .found h hexists
        | false =>
            rw [find_here hexists]
            exact .absent h hexists

theorem readConfig_eq (env : Environment Id) (flags : Flags) :
    readConfig env flags =
      match chosen env flags with
      | none => .ok {}
      | some path => Config.load env path := by
  unfold readConfig chosen
  cases flags.configPath with
  | some path => rfl
  | none =>
      dsimp only [bind]
      cases Config.find env Path.here <;> rfl

theorem configures_iff {result : Except LoadError Config} :
    Configures env flags result ↔ readConfig env flags = result := by
  rw [readConfig_eq]
  constructor
  · intro h
    cases h with
    | absent h => rw [chooses_iff.mp h]
    | noFile h hread =>
        rw [chooses_iff.mp h]
        simp only [Config.load, bind, hread]
        rfl
    | malformed h hread hparse =>
        rw [chooses_iff.mp h]
        simp only [Config.load, bind, hread, hparse]
        rfl
    | refused h hread hparse hvalue | accepted h hread hparse hvalue =>
        rw [chooses_iff.mp h]
        simp only [Config.load, bind, hread, hparse, hvalue]
        rfl
  · rintro rfl
    cases hchoice : chosen env flags with
    | none => exact .absent (chooses_iff.mpr hchoice)
    | some path =>
        have h := chooses_iff.mpr hchoice
        simp only [Config.load, bind]
        cases hread : env.readFile path with
        | error e => exact .noFile h hread
        | ok bytes =>
            dsimp only
            cases hparse : env.parse (Text.Utf8.decode bytes) with
            | error message => exact .malformed h hread hparse
            | ok value =>
                dsimp only
                cases hvalue : Config.ofValue value with
                | error e => exact .refused h hread hparse hvalue
                | ok config => exact .accepted h hread hparse hvalue

end Lexis.Program
