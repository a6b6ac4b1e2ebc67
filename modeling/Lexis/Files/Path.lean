import Lexis.Text.Basic

/-!
# Paths

A path is a text with slashes between its parts.
-/

namespace Lexis.Path

open Text

def parts (path : Text) : List Text := splitOn (unit '/') path

def here : Text := "."

def above : Text := ".."

/-- One part of a path after others, the nearest of which comes first: `.` and
empty parts vanish and `..` removes the part before it, unless there is none to
remove. -/
def push (absolute : Bool) (before : List Text) (part : Text) : List Text :=
  if part = [] ∨ part = here then before
  else if part = above then
    match before with
    | [] => if absolute then [] else [above]
    | last :: rest => if last = above then above :: before else rest
  else part :: before

def inside (directory name : Text) : Text :=
  let absolute := directory.head? == some (unit '/')
  let kept := ((parts directory ++ parts name).foldl (push absolute) []).reverse
  (if absolute then [unit '/'] else []) ++ join "/" kept

def name (path : Text) : Text := ((parts path).filter (· ≠ [])).getLast?.getD []

end Lexis.Path
