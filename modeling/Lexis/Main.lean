import Lexis.Command.Program

/-!
# The command line

The program on real files, for any reader of configuration documents.  All decisions
are taken by `Program.run`.
-/

namespace Lexis

/-- The code of the system for a path through something that is no directory. -/
def notDirectoryCode : UInt32 := 20

def fileError (path : Text) : IO.Error → FileError
  | .noFileOrDirectory .. => .notFound path
  | .inappropriateType _ code _ =>
      if code = notDirectoryCode then .notDirectory path else .isDirectory
  | e => .other (toString e)

def processEnvironment (parse : Text → Except Text Value) : Environment IO where
  readFile path := do
    try
      return .ok (← IO.FS.readBinFile path.display).toList
    catch e => return .error (fileError path e)
  fileExists path := do
    try
      let _ ← IO.FS.Handle.mk path.display .read
      return true
    catch _ => return false
  readInput := do
    try
      return .ok (← (← IO.getStdin).readBinToEnd).toList
    catch e => return .error (.other (toString e))
  parse := parse

def runProcess (parse : Text → Except Text Value) (arguments : List String) : IO UInt32 := do
  let output ← Program.run (processEnvironment parse) (arguments.map Text.ofString)
  IO.print output.stdout.display
  IO.eprint output.stderr.display
  return output.exitCode.toUInt32

end Lexis
