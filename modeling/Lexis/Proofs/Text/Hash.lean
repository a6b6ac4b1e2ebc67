import Lexis.Text.Hash
import Mathlib.Algebra.Group.Nat.Defs
import Mathlib.Algebra.Group.Int.Defs

/-!
# The hash of a text

The hash can be computed with signed words, with unsigned ones or with natural numbers, as
long as thirty-two bits are kept.  Each step is a bijection of the states, since its factor
is odd, and takes different units to different states.  So what two texts have in common at
their ends does not matter, and one unit always does.
-/

namespace Lexis.Text

/-- The same fold over natural numbers. -/
def referenceHash (t : Text) : Nat :=
  t.foldl (fun h u ↦ ((h ^^^ u.toNat) * 16777619) % 2 ^ 32) 2166136261

/-- One step on integers of which the last thirty-two bits count.  The unit is mixed in and
the product is taken with signed words, and both times the result is a signed integer. -/
def signedStep (h : Int) (u : UInt16) : Int :=
  let mixed := (Int32.ofInt h ^^^ Int32.ofInt u.toNat).toInt
  (Int32.ofInt mixed * Int32.ofInt 16777619).toInt

def signedHash (t : Text) : Int := t.foldl signedStep 2166136261 % 2 ^ 32

/-! ## The three computations -/

theorem toNat_hashStep (s : UInt32) (u : UInt16) :
    (hashStep s u).toNat = ((s.toNat ^^^ u.toNat) * 16777619) % 2 ^ 32 := by
  rw [hashStep, UInt32.toNat_mul, UInt32.toNat_xor, UInt16.toNat_toUInt32]
  rfl

theorem toNat_foldl_hashStep (t : Text) (s : UInt32) :
    (t.foldl hashStep s).toNat =
      t.foldl (fun h u ↦ ((h ^^^ u.toNat) * 16777619) % 2 ^ 32) s.toNat := by
  induction t generalizing s with
  | nil => rfl
  | cons u t ih => rw [List.foldl_cons, List.foldl_cons, ih, toNat_hashStep]

theorem toNat_hash (t : Text) : t.hash.toNat = t.referenceHash :=
  toNat_foldl_hashStep t hashBasis

theorem ofInt_toNat (u : UInt16) : Int32.ofInt u.toNat = u.toUInt32.toInt32 := by
  calc
    Int32.ofInt u.toNat = Int32.ofNat u.toNat := rfl
    _ = (UInt32.ofNat u.toUInt32.toNat).toInt32 := by
      rw [UInt32.toInt32_ofNat', UInt16.toNat_toUInt32]
    _ = u.toUInt32.toInt32 := by rw [UInt32.ofNat_toNat]

theorem ofInt_signedStep {h : Int} {s : UInt32} (hs : Int32.ofInt h = s.toInt32) (u : UInt16) :
    Int32.ofInt (signedStep h u) = (hashStep s u).toInt32 := by
  simp only [signedStep, Int32.ofInt_toInt]
  rw [hs, ofInt_toNat, hashStep, UInt32.toInt32_mul, UInt32.toInt32_xor]
  rfl

theorem ofInt_foldl_signedStep (t : Text) {h : Int} {s : UInt32}
    (hs : Int32.ofInt h = s.toInt32) :
    Int32.ofInt (t.foldl signedStep h) = (t.foldl hashStep s).toInt32 := by
  induction t generalizing h s with
  | nil => exact hs
  | cons u t ih => exact ih (ofInt_signedStep hs u)

theorem emod_of_ofInt_eq {h : Int} {s : UInt32} (hs : Int32.ofInt h = s.toInt32) :
    h % 2 ^ 32 = s.toNat := by
  have hbits : BitVec.ofInt 32 h = s.toBitVec := congrArg Int32.toBitVec hs
  have hnat : (h % 2 ^ 32).toNat = s.toNat := by
    calc
      (h % 2 ^ 32).toNat = (BitVec.ofInt 32 h).toNat := (BitVec.toNat_ofInt h).symm
      _ = s.toNat := congrArg BitVec.toNat hbits
  have hnonneg : 0 ≤ h % 2 ^ 32 := Int.emod_nonneg h (by decide)
  rw [← hnat, Int.toNat_of_nonneg hnonneg]

theorem signedHash_eq (t : Text) : t.signedHash = t.hash.toNat :=
  emod_of_ofInt_eq (ofInt_foldl_signedStep t (s := hashBasis) rfl)

/-! ## Steps are bijections -/

/-- The factor of a step has an inverse. -/
theorem mul_hashPrime_injective {a b : UInt32} (h : a * hashPrime = b * hashPrime) : a = b := by
  have hinverse : hashPrime * 899433627 = 1 := by decide
  calc
    a = a * hashPrime * 899433627 := by rw [UInt32.mul_assoc, hinverse, UInt32.mul_one]
    _ = b * hashPrime * 899433627 := by rw [h]
    _ = b := by rw [UInt32.mul_assoc, hinverse, UInt32.mul_one]

theorem hashStep_left_inj {a b : UInt32} {u : UInt16} : hashStep a u = hashStep b u ↔ a = b := by
  constructor
  · intro h
    exact (UInt32.xor_left_inj _).mp (mul_hashPrime_injective h)
  · rintro rfl
    rfl

theorem hashStep_right_inj {a : UInt32} {u v : UInt16} :
    hashStep a u = hashStep a v ↔ u = v := by
  constructor
  · intro h
    exact UInt16.toUInt32_inj.mp ((UInt32.xor_right_inj _).mp (mul_hashPrime_injective h))
  · rintro rfl
    rfl

/-- A common continuation takes different states to different states. -/
theorem foldl_hashStep_inj (t : Text) {a b : UInt32} :
    t.foldl hashStep a = t.foldl hashStep b ↔ a = b := by
  induction t generalizing a b with
  | nil => rfl
  | cons u t ih => rw [List.foldl_cons, List.foldl_cons, ih, hashStep_left_inj]

theorem hash_append (a s : Text) : (a ++ s).hash = s.foldl hashStep a.hash := by
  rw [hash, List.foldl_append]
  rfl

theorem hash_append_inj (a b s : Text) : (a ++ s).hash = (b ++ s).hash ↔ a.hash = b.hash := by
  rw [hash_append, hash_append, foldl_hashStep_inj]

/-! ## One unit -/

/-- Two texts of one length that differ in one unit only. -/
structure DifferOnce (a b : Text) : Prop where
  length_eq : a.length = b.length
  exists_unit : ∃ i : Nat, a[i]? ≠ b[i]? ∧ ∀ j : Nat, j ≠ i → a[j]? = b[j]?

theorem DifferOnce.exists_append {a b : Text} (h : DifferOnce a b) :
    ∃ p s u v, u ≠ v ∧ a = p ++ u :: s ∧ b = p ++ v :: s := by
  obtain ⟨i, hi, hsame⟩ := h.exists_unit
  have hlt : i < a.length := by
    apply Nat.lt_of_not_le
    intro hle
    apply hi
    rw [List.getElem?_eq_none hle, List.getElem?_eq_none (h.length_eq ▸ hle)]
  have hlt' : i < b.length := h.length_eq ▸ hlt
  have htake : a.take i = b.take i := by
    apply List.ext_getElem?
    intro j
    rw [List.getElem?_take, List.getElem?_take]
    split
    · next hj => exact hsame j (Nat.ne_of_lt hj)
    · rfl
  have hdrop : a.drop (i + 1) = b.drop (i + 1) := by
    apply List.ext_getElem?
    intro j
    rw [List.getElem?_drop, List.getElem?_drop]
    exact hsame _ (by omega)
  rw [List.getElem?_eq_getElem hlt, List.getElem?_eq_getElem hlt', Ne, Option.some.injEq] at hi
  refine ⟨a.take i, a.drop (i + 1), a[i], b[i], hi, ?_, ?_⟩
  · rw [← List.drop_eq_getElem_cons hlt, List.take_append_drop]
  · rw [htake, hdrop, ← List.drop_eq_getElem_cons hlt', List.take_append_drop]

theorem DifferOnce.hash_ne {a b : Text} (h : DifferOnce a b) : a.hash ≠ b.hash := by
  obtain ⟨p, s, u, v, hne, rfl, rfl⟩ := h.exists_append
  rw [hash_append, hash_append, List.foldl_cons, List.foldl_cons, Ne, foldl_hashStep_inj,
    hashStep_right_inj]
  exact hne

end Lexis.Text
