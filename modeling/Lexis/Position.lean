import Lexis.Number.Shortest

/-!
# Positions

A line and a column.  Lines count from 1; the first unit of a line has column 1,
and column 0 stands for the place before it.  Positions that do not come from a
source, such as that of a token made by hand, may be any integers; they are written as
numbers, so a large one is rounded.
-/

namespace Lexis

structure Position where
  line : Int := 0
  column : Int := 0
deriving DecidableEq, Repr

namespace Position

def coordinates (p : Position) : Text :=
  Binary64.integerText p.line ++ ":" ++ Binary64.integerText p.column

def bracketed (p : Position) : Text := "[" ++ p.coordinates ++ "]"

end Position

end Lexis
