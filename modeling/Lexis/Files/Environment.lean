import Lexis.Config
import Lexis.Files.Directory

/-!
# Environments

The outside world as far as the program needs it: files, standard input and a
reader of configuration documents.  The program is written for any environment, so
that the same definitions run on real files and on a directory that is a value.
-/

namespace Lexis

/-- Access to files and to standard input, and the reader of documents: it gives the
value that a document describes, or says in words why it describes none. -/
structure Environment (m : Type → Type) where
  readFile : Text → m (Except FileError (List UInt8))
  fileExists : Text → m Bool
  readInput : m (Except FileError (List UInt8))
  parse : Text → Except Text Value

def Directory.environment (d : Directory) (input : List UInt8)
    (parse : Text → Except Text Value) : Environment Id where
  readFile path := d.read path
  fileExists path := d.contains path
  readInput := .ok input
  parse := parse

inductive LoadError where
  | file (error : FileError)
  | config (error : ConfigError)

def LoadError.summary : LoadError → Text
  | .file error => error.summary
  | .config error => error.message

namespace Config

def fileName : String := ".gt-lex.yaml"

variable {m : Type → Type} [Monad m]

def load (env : Environment m) (path : Text) : m (Except LoadError Config) := do
  match ← env.readFile path with
  | .error e => return .error (.file e)
  | .ok bytes =>
      match env.parse (Text.Utf8.decode bytes) with
      | .error message => return .error (.config (.malformed (Path.name path) message))
      | .ok value => return (ofValue value).mapError .config

def find (env : Environment m) (directory : Text) : m (Option Text) := do
  let path := Path.inside directory fileName
  if ← env.fileExists path then return some path else return none

end Config

end Lexis
