import Lexis.Files.Path
import Lexis.Text.Utf8

/-!
# Directories

A directory is a finite set of files and empty directories under relative paths.
The directories on the way to them exist too.
-/

namespace Lexis

inductive FileError where
  | notFound (path : Text)
  | notDirectory (path : Text)
  | isDirectory
  /-- Any other reason, in words. -/
  | other (message : Text)

namespace FileError

/-- The message of an error.  A path shows up with U+FFFD for what no character
stands for. -/
def message : FileError → Text
  | .notFound path => "ENOENT: no such file or directory, open '" ++ path.repaired ++ "'"
  | .notDirectory path => "ENOTDIR: not a directory, open '" ++ path.repaired ++ "'"
  | .isDirectory => "EISDIR: illegal operation on a directory, read"
  | .other message => message

def summary : FileError → Text
  | .notFound path => "File not found: " ++ path.repaired
  | e => e.message

end FileError

inductive Entry where
  | file (bytes : List UInt8)
  | directory

structure Directory where
  entries : List (List Text × Entry) := []

namespace Directory

def ofPaths (paths : List (Text × Entry)) : Directory :=
  ⟨paths.map fun (path, entry) ↦ ((Path.parts path).filter (· ≠ []), entry)⟩

/-- What stands under the parts of a path that has no `.` or `..`. -/
def entry? (d : Directory) (parts : List Text) : Option Entry :=
  match d.entries.lookup parts with
  | some entry => some entry
  | none =>
      if parts = [] ∨ d.entries.any (fun entry ↦ parts.isPrefixOf entry.1) = true then
        some .directory
      else none

/-- A place that a path leads to: an entry of the directory under the parts of its
path, the last one first, or some directory outside. -/
inductive Place where
  | inside (reversed : List Text) (entry : Entry)
  | outside

def follow (d : Directory) (path : Text) (place : Place) (part : Text) :
    Except FileError Place :=
  match place with
  | .inside _ (.file _) => .error (.notDirectory path)
  | .outside =>
      if part = [] ∨ part = Path.here ∨ part = Path.above then .ok .outside
      else .error (.notFound path)
  | .inside reversed .directory =>
      if part = [] ∨ part = Path.here then .ok place
      else if part = Path.above then
        match reversed with
        | [] => .ok .outside
        | _ :: rest => .ok (.inside rest .directory)
      else
        match d.entry? (part :: reversed).reverse with
        | some entry => .ok (.inside (part :: reversed) entry)
        | none => .error (.notFound path)

def locate (d : Directory) (path : Text) : Except FileError Place :=
  if path = [] then .error (.notFound path)
  else
    let start : Place := if path.head? = some (unit '/') then .outside else .inside [] .directory
    (Path.parts path).foldlM (d.follow path) start

def contains (d : Directory) (path : Text) : Bool :=
  match d.locate path with
  | .ok _ => true
  | .error _ => false

def read (d : Directory) (path : Text) : Except FileError (List UInt8) :=
  match d.locate path with
  | .error e => .error e
  | .ok (.inside _ (.file bytes)) => .ok bytes
  | .ok _ => .error .isDirectory

end Directory

end Lexis
