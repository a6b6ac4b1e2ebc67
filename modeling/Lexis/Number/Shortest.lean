import Lexis.Number.Binary64

/-!
# Writing numbers

A number is written with the fewest decimal digits that read back as the same
number, and of those with the nearest.  The digits are laid out positionally
when the decimal point falls within `Layout.plainFrom` and `Layout.plainUpTo`,
and with an exponent otherwise.
-/

namespace Lexis.Binary64

/-- The place of the leading digit of `num / den`: the `k` with
`10 ^ (k - 1) ≤ num / den < 10 ^ k`, for positive arguments. -/
def decimalPlace (num den : Nat) : Int :=
  let length (n : Nat) : Int := (Nat.toDigits 10 n).length
  if den ≤ num then length (num / den)
  else
    let shift := length den - length num
    if den ≤ num * pow10 shift.toNat then 1 - shift else -shift

structure GridPoint where
  digits : Nat
  exponent : Int

/-- The neighbour of `num / den` on the grid of step `10 ^ exponent` that reads
back as `x`, the nearer one if both do and the even one on a tie. -/
def neighbour? (x : Binary64) (num den : Nat) (exponent : Int) : Option GridPoint :=
  let top := num * pow10 (-exponent).toNat
  let bottom := den * pow10 exponent.toNat
  let low := top / bottom
  let reads (digits : Nat) : Bool := ofDecimal false digits exponent == x
  if reads low && reads (low + 1) then some ⟨roundHalfEven top bottom, exponent⟩
  else if reads low then some ⟨low, exponent⟩
  else if reads (low + 1) then some ⟨low + 1, exponent⟩
  else none

/-- The shortest decimal that reads back as the positive number `x`, which is
`num / den`.  Seventeen digits always suffice. -/
def shortest (x : Binary64) (num den : Nat) : GridPoint :=
  let place := decimalPlace num den
  let grids := (List.range 17).map fun k : Nat ↦ place - ((k : Int) + 1)
  (grids.findSome? (neighbour? x num den)).getD ⟨num, 0⟩

/-- Where positional notation is used: the decimal point stands after
`plainFrom` to `plainUpTo` digits. -/
structure Layout where
  plainFrom : Int
  plainUpTo : Int

/-- Numbers from 1e-6 to below 1e21 are written positionally. -/
def layout : Layout := ⟨-5, 21⟩

def trimZeros (digits : List Char) : List Char :=
  (digits.reverse.dropWhile (· == '0')).reverse

def place (style : Layout) (digits : List Char) (point : Int) : List Char :=
  let zeros (n : Int) : List Char := List.replicate n.toNat '0'
  if style.plainFrom ≤ point && point ≤ style.plainUpTo then
    if point ≤ 0 then '0' :: '.' :: (zeros (-point) ++ digits)
    else if digits.length ≤ point then digits ++ zeros (point - digits.length)
    else digits.take point.toNat ++ '.' :: digits.drop point.toNat
  else
    let exponent := point - 1
    let mark := if exponent < 0 then ['e', '-'] else ['e', '+']
    let fraction := if digits.length ≤ 1 then [] else '.' :: digits.drop 1
    digits.take 1 ++ fraction ++ mark ++ Nat.toDigits 10 exponent.natAbs

def text (x : Binary64) : Text :=
  match x.view with
  | .nan => "NaN"
  | .infinite negative => if negative then "-Infinity" else "Infinity"
  | .finite negative significand exponent =>
      if significand = 0 then "0"
      else
        let num := significand * pow2 exponent.toNat
        let den := pow2 (-exponent).toNat
        let point := shortest (ofMagnitude false (x.bits.toNat % pow2 63)) num den
        let digits := Nat.toDigits 10 point.digits
        let body := place layout (trimZeros digits) (digits.length + point.exponent)
        (if negative then [unit '-'] else []) ++ body.map unit

/-- An integer written as the number nearest to it.  Up to `maxSafe` that number
is the integer, and its shortest digits are all its digits. -/
def integerText (n : Int) : Text :=
  if n.natAbs ≤ maxSafe then Text.ofInt n else (ofInt n).text

end Lexis.Binary64
