import Lexis.Position
import Lexis.Text.Classes

/-!
# Cursors

A cursor stands before the unread part of a source text.  It knows the offset
and the position of the unit that is read next.
-/

namespace Lexis

/-- A place in a source text: what is still unread, and the offset, line and
column of its first unit. -/
structure Cursor where
  offset : Nat
  line : Nat
  column : Nat
  rest : Text
deriving DecidableEq

namespace Cursor

def start (source : Text) : Cursor := ⟨0, 1, 1, source⟩

/-- Moves past one unit.  A line ends after its newline. -/
def step (c : Cursor) : Cursor :=
  match c.rest with
  | [] => c
  | u :: rest =>
      if u = unit '\n' then ⟨c.offset + 1, c.line + 1, 1, rest⟩
      else ⟨c.offset + 1, c.line, c.column + 1, rest⟩

def advance (c : Cursor) : (n : Nat) → Cursor
  | 0 => c
  | n + 1 => c.step.advance n

def position (c : Cursor) : Position := ⟨c.line, c.column⟩

/-- The position of the end of the input: that of the last unit, or column 0 of
a line that has not begun. -/
def endPosition (c : Cursor) : Position := ⟨c.line, (c.column : Int) - 1⟩

/-- The position `n` units further, where the end of the input has a position
too. -/
def locate (c : Cursor) (n : Nat) : Position :=
  let there := c.advance n
  if there.rest = [] then there.endPosition else there.position

def skipBlanks (c : Cursor) : Cursor := c.advance (c.rest.takeWhile Text.isBlank).length

@[simp] theorem rest_step (c : Cursor) : c.step.rest = c.rest.drop 1 := by
  unfold step
  split
  · next h => simp [h]
  · next h => split <;> simp [h]

@[simp] theorem rest_advance (c : Cursor) (n : Nat) : (c.advance n).rest = c.rest.drop n := by
  induction n generalizing c with
  | zero => rfl
  | succ n ih => rw [advance, ih, rest_step, List.drop_drop, Nat.add_comm]

end Cursor

end Lexis
