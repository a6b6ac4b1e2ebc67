import Lexis.Text.Basic

/-!
# Binary floating point numbers

A number is a 64-bit pattern.  All operations are exact integer computations on
the significand and the exponent, so nothing depends on the arithmetic of the
machine.  Rounding is to nearest, with ties to the even significand.
-/

namespace Lexis

abbrev pow2 (n : Nat) : Nat := Nat.pow 2 n

abbrev pow10 (n : Nat) : Nat := Nat.pow 10 n

/-- A floating point number, given by its sign, eleven exponent bits and
fifty-two fraction bits. -/
structure Binary64 where
  bits : UInt64
deriving DecidableEq

def roundHalfEven (num den : Nat) : Nat :=
  let quotient := num / den
  let twice := 2 * (num % den)
  if den < twice || (den == twice && quotient % 2 == 1) then quotient + 1 else quotient

namespace Binary64

inductive View where
  | nan
  | infinite (negative : Bool)
  /-- The number `significand * 2 ^ exponent`, with its sign. -/
  | finite (negative : Bool) (significand : Nat) (exponent : Int)
deriving DecidableEq

def view (x : Binary64) : View :=
  let n := x.bits.toNat
  let negative : Bool := pow2 63 ≤ n
  let field : Nat := n / pow2 52 % pow2 11
  let fraction : Nat := n % pow2 52
  if field = 2047 then if fraction = 0 then .infinite negative else .nan
  else if field = 0 then .finite negative fraction (-1074)
  else .finite negative (pow2 52 + fraction) ((field : Int) - 1075)

def ofMagnitude (negative : Bool) (magnitude : Nat) : Binary64 :=
  ⟨((if negative then pow2 63 else 0) + magnitude).toUInt64⟩

/-- The pattern that stands for every undefined number. -/
def nan : Binary64 := ⟨0x7ff8000000000000⟩

def zero (negative : Bool) : Binary64 := ofMagnitude negative 0

def infinity (negative : Bool) : Binary64 := ofMagnitude negative (2047 * pow2 52)

/-- The largest `k` with `2 ^ k ≤ num / den`, for positive arguments. -/
def floorLog2 (num den : Nat) : Int :=
  let k : Int := num.log2 - den.log2
  if num * pow2 (-k).toNat < den * pow2 k.toNat then k - 1 else k

/-- The number nearest to `num / den`.  The significand has fifty-three bits
unless that would push the exponent below its least value. -/
def ofRatio (negative : Bool) (num den : Nat) : Binary64 :=
  if num = 0 then zero negative
  else
    let exponent : Int := max (-1074) (floorLog2 num den - 52)
    let significand := roundHalfEven (num * pow2 (-exponent).toNat) (den * pow2 exponent.toNat)
    let magnitude := (exponent + 1074).toNat * pow2 52 + significand
    if 2047 * pow2 52 ≤ magnitude then infinity negative else ofMagnitude negative magnitude

def ofInt (n : Int) : Binary64 := ofRatio (n < 0) n.natAbs 1

/-- The number nearest to `digits * 10 ^ exponent`.  Decimals whose leading digit
lies far outside the range need no exact computation. -/
def ofDecimal (negative : Bool) (digits : Nat) (exponent : Int) : Binary64 :=
  let leading : Int := (Nat.toDigits 10 digits).length + exponent
  if digits = 0 || leading < -400 then zero negative
  else if 400 < leading then infinity negative
  else ofRatio negative (digits * pow10 exponent.toNat) (pow10 (-exponent).toNat)

def signed (negative : Bool) (n : Nat) : Int := if negative then -(n : Int) else n

def truncate? (x : Binary64) : Option Int :=
  match x.view with
  | .finite negative significand exponent =>
      some (signed negative (significand * pow2 exponent.toNat / pow2 (-exponent).toNat))
  | _ => none

/-- The integer that the number is, if it is one.  Both zeros are `0`. -/
def toInt? (x : Binary64) : Option Int :=
  match x.view with
  | .finite negative significand exponent =>
      if significand % pow2 (-exponent).toNat = 0 then
        some (signed negative (significand * pow2 exponent.toNat / pow2 (-exponent).toNat))
      else none
  | _ => none

def toNat? (x : Binary64) : Option Nat :=
  match x.toInt? with
  | some (.ofNat n) => some n
  | _ => none

/-- How often one can be subtracted before the number is no longer positive:
`none` when that never ends. -/
def countdown (x : Binary64) : Option Nat :=
  match x.view with
  | .nan => some 0
  | .infinite negative => if negative then some 0 else none
  | .finite negative significand exponent =>
      if negative then some 0
      else
        let scale := pow2 (-exponent).toNat
        some ((significand * pow2 exponent.toNat + (scale - 1)) / scale)

/-- The largest integer up to which every integer has a pattern of its own. -/
def maxSafe : Nat := pow2 53 - 1

/-- The integer that the number is, if no other integer is rounded to the same
number. -/
def safeInteger? (x : Binary64) : Option Int := x.toInt?.filter (·.natAbs ≤ maxSafe)

end Binary64

end Lexis
