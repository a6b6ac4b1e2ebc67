import Lexis.Command.Arguments
import Lexis.Files.Environment
import Lexis.Lexer.Basic
import Lexis.Token.Listing

/-!
# The program

The command line from arguments to output.  The input is read before the
configuration, and the options of the command line take precedence over those of
the configuration.
-/

namespace Lexis

structure Output where
  stdout : Text := []
  stderr : Text := []
  exitCode : Nat := 0
deriving DecidableEq

inductive ProgramError where
  | arguments (error : ArgumentError)
  | file (error : FileError)
  | config (error : LoadError)
  | unknownId (id : Text)
  | run (error : RunError)

def ProgramError.summary : ProgramError → Text
  | .arguments error => error.message
  | .file error => error.summary
  | .config error => error.summary
  | .unknownId id => (RegistryError.unknownId id).message
  | .run (.lexical error) => error.summary
  | .run error => error.message

namespace Program

def version : String := "0.1.0"

def usage : String :=
  "Usage:\n" ++
  "  gt-lex <file>          Tokenize a file\n" ++
  "  gt-lex -               Read source from stdin\n" ++
  "  gt-lex -e <source>     Tokenize an inline source string\n" ++
  "  gt-lex --explain <id>  Describe an error id (e.g. GT-L001)\n" ++
  "\n" ++
  "Options:\n" ++
  "  --json                 Print tokens as a JSON array\n" ++
  "  --skip-comments        Drop comment tokens\n" ++
  "  --skip-newlines        Drop newline tokens\n" ++
  "  --until <kind>         Stop after the first token of this kind\n" ++
  "  --max <n>              Stop after n tokens\n" ++
  "  --config <path>        Read options from a YAML file (default: ./.gt-lex.yaml)\n" ++
  "  --verbose              Print a run summary to stderr\n" ++
  "  --help                 Show this help message\n" ++
  "  --version              Show version information"

def line (t : Text) : Text := t ++ "\n"

/-- Output on success; an empty text leaves no line. -/
def success (text : Text) (notes : Text) : Output :=
  { stdout := if text = [] then [] else line text, stderr := notes }

def failure (error : ProgramError) (notes : Text) : Output :=
  { stderr := notes ++ line error.summary, exitCode := 1 }

/-- Observers of a verbose run take note of its start and its end. -/
def observers (verbose : Bool) : Observers := fun event ↦
  match event with
  | .started _ | .ended _ _ => if verbose then .notes else .ignores
  | _ => .ignores

def note : Event → Text
  | .started length => line ("Lexing " ++ Text.ofNat length ++ " characters")
  | .ended count reason =>
      line ("Produced " ++ Text.ofNat count ++ " tokens (stopped by " ++ reason.name ++ ")")
  | _ => []

def listTokens (source : Text) (config : Config) (flags : Flags) : Output :=
  let lexer : Lexer := { filter := config.filter }
  let done := lexer.run (observers flags.verbose) none source config.options
  let notes := done.events.flatMap note
  match done.result with
  | .ok _ => success (Token.listing done.lexer.tokens.toList flags.json) notes
  | .error e => failure (.run e) notes

variable {m : Type → Type} [Monad m]

def readSource (env : Environment m) : Input → m (Except FileError Text)
  | .inline source => return .ok source
  | .stdin => return (← env.readInput).map Text.Utf8.decode
  | .file path => return (← env.readFile path).map Text.Utf8.decode

/-- The configuration: from the file that is asked for, or from the one in the
working directory if there is one. -/
def readConfig (env : Environment m) (flags : Flags) : m (Except LoadError Config) := do
  let path ← match flags.configPath with
    | some path => pure (some path)
    | none => Config.find env Path.here
  match path with
  | none => return .ok {}
  | some path => Config.load env path

def lex (env : Environment m) (input : Input) (flags : Flags) : m Output := do
  match ← readSource env input with
  | .error e => return failure (.file e) []
  | .ok source =>
      match ← readConfig env flags with
      | .error e => return failure (.config e) []
      | .ok config => return listTokens source (flags.config.orElse config) flags

def run (env : Environment m) (arguments : List Text) : m Output :=
  match Command.parse arguments with
  | .error e => return failure (.arguments e) []
  | .ok .help => return success usage []
  | .ok .version => return success version []
  | .ok (.explain id) =>
      match ErrorCode.explain? id with
      | some text => return success text []
      | none => return failure (.unknownId id) []
  | .ok (.lex input flags) => lex env input flags

end Program

end Lexis
