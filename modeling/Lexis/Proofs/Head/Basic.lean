import Lexis.Proofs.Cursor.Position
import Mathlib.Logic.Function.Iterate

/-!
# The reading head

A head stands on a unit of a source text and sees the next one.  Only reading moves it, one
unit at a time, and at the end of the input it stays where it is.  So the number of reads
decides where it stands, and the units that are left bound what can still be read.
-/

namespace Lexis

/-- A head over a source text.  Before the first read its index is -1, and at the end of the
input it stands on no unit. -/
structure Head where
  source : Text
  index : Int
  char : Option UInt16
  position : Position
  atEnd : Bool
  char_of_atEnd : atEnd = true → char = none

namespace Head

def initial (source : Text) : Head := ⟨source, -1, some 0, ⟨1, 0⟩, false, by simp⟩

def unitAt (h : Head) (i : Int) : Option UInt16 := if i < 0 then none else h.source[i.toNat]?

def peekNext (h : Head) : Option UInt16 := if h.atEnd then none else h.unitAt (h.index + 1)

def readNext (h : Head) : Option UInt16 × Head :=
  if h.atEnd then (none, h)
  else
    let place : Position :=
      if h.char = some (unit '\n') then ⟨h.position.line + 1, 0⟩ else h.position
    match h.unitAt (h.index + 1) with
    | none => (none, ⟨h.source, h.index, none, place, true, fun _ ↦ rfl⟩)
    | some u =>
        (some u, ⟨h.source, h.index + 1, some u, ⟨place.line, place.column + 1⟩, false, by simp⟩)

def read (h : Head) : Head := h.readNext.2

/-- The text from an offset through the unit that the head stands on. -/
def sliceFrom (h : Head) (first : Int) : Text :=
  (h.source.drop first.toNat).take (h.index + 1 - first).toNat

/-- The units that are left, the one that the head stands on included. -/
def left (h : Head) : Nat := if h.atEnd then 0 else (h.source.length - 1 - h.index).toNat + 1

variable {h next : Head} {u : UInt16}

/-! ## One read -/

theorem readNext_fst (h : Head) : h.readNext.1 = h.peekNext := by
  unfold readNext peekNext
  split
  · rfl
  · cases h.unitAt (h.index + 1) <;> rfl

theorem readNext_eq (h : Head) : h.readNext = (h.peekNext, h.read) :=
  Prod.ext h.readNext_fst rfl

theorem readNext_of_atEnd (hend : h.atEnd = true) : h.readNext = (none, h) :=
  if_pos hend

theorem read_of_atEnd (hend : h.atEnd = true) : h.read = h :=
  congrArg Prod.snd (readNext_of_atEnd hend)

theorem peekNext_of_atEnd (hend : h.atEnd = true) : h.peekNext = none :=
  if_pos hend

theorem atEnd_of_char (hu : h.char = some u) : h.atEnd = false := by
  cases hend : h.atEnd with
  | false => rfl
  | true => simp [h.char_of_atEnd hend] at hu

theorem read_of_peekNext_eq_none (hend : h.atEnd = false) (hnext : h.peekNext = none) :
    h.read.atEnd = true := by
  have hunit : h.unitAt (h.index + 1) = none := by simpa [peekNext, hend] using hnext
  simp [read, readNext, hend, hunit]

theorem read_of_peekNext_eq_some (hnext : h.peekNext = some u) :
    h.atEnd = false ∧ h.read.atEnd = false ∧ h.read.index = h.index + 1 ∧
      h.read.source = h.source ∧ h.index + 1 < h.source.length := by
  have hend : h.atEnd = false := by
    cases hend : h.atEnd with
    | false => rfl
    | true => simp [peekNext_of_atEnd hend] at hnext
  have hunit : h.unitAt (h.index + 1) = some u := by simpa [peekNext, hend] using hnext
  have hlt : h.index + 1 < h.source.length := by
    unfold unitAt at hunit
    split at hunit
    · simp at hunit
    · obtain ⟨hlength, -⟩ := List.getElem?_eq_some_iff.mp hunit
      omega
  refine ⟨hend, ?_, ?_, ?_, hlt⟩ <;> simp [read, readNext, hend, hunit]

/-- Each read takes a unit away, the last one included. -/
theorem left_read_lt (hend : h.atEnd = false) : h.read.left < h.left := by
  cases hnext : h.peekNext with
  | none => simp [left, hend, read_of_peekNext_eq_none hend hnext]
  | some u =>
      obtain ⟨-, hread, hindex, hsource, hlt⟩ := read_of_peekNext_eq_some hnext
      simp only [left, hend, hread, hindex, hsource, Bool.false_eq_true, if_false]
      omega

theorem left_read_le (h : Head) : h.read.left ≤ h.left := by
  cases hend : h.atEnd with
  | false => exact Nat.le_of_lt (left_read_lt hend)
  | true => exact Nat.le_of_eq (congrArg left (read_of_atEnd hend))

theorem left_read_lt_of_peekNext (hnext : h.peekNext = some u) : h.read.left < h.left :=
  left_read_lt (read_of_peekNext_eq_some hnext).1

/-! ## Any number of reads -/

def Reaches (h next : Head) : Prop := ∃ n, next = read^[n] h

namespace Reaches

theorem refl (h : Head) : h.Reaches h := ⟨0, rfl⟩

theorem read (h : Head) : h.Reaches h.read := ⟨1, rfl⟩

theorem trans {a b c : Head} (hab : a.Reaches b) (hbc : b.Reaches c) : a.Reaches c := by
  obtain ⟨n, rfl⟩ := hab
  obtain ⟨m, rfl⟩ := hbc
  exact ⟨m + n, (Function.iterate_add_apply Head.read m n a).symm⟩

theorem of_read (hnext : h.read.Reaches next) : h.Reaches next := (read h).trans hnext

theorem eq_of_atEnd (hnext : h.Reaches next) (hend : h.atEnd = true) : next = h := by
  obtain ⟨n, rfl⟩ := hnext
  exact Function.iterate_fixed (read_of_atEnd hend) n

theorem left_le (hnext : h.Reaches next) : next.left ≤ h.left := by
  obtain ⟨n, rfl⟩ := hnext
  induction n with
  | zero => exact Nat.le_refl _
  | succ n ih =>
      rw [Function.iterate_succ_apply']
      exact Nat.le_trans (left_read_le _) ih

end Reaches

/-! ## Where reads lead -/

/-- The head on the unit at an offset, or at the end of the input. -/
def standing (source : Text) (n : Nat) : Head :=
  match source[n]? with
  | some u => ⟨source, n, some u, source.position n, false, by simp⟩
  | none => ⟨source, source.length - 1, none, source.endPosition, true, fun _ ↦ rfl⟩

variable {source : Text} {n : Nat}

theorem standing_of_some (hu : source[n]? = some u) :
    standing source n = ⟨source, n, some u, source.position n, false, by simp⟩ := by
  unfold standing
  split <;> simp_all

theorem standing_of_none (hnone : source[n]? = none) :
    standing source n =
      ⟨source, source.length - 1, none, source.endPosition, true, fun _ ↦ rfl⟩ := by
  unfold standing
  split <;> simp_all

theorem char_standing (source : Text) (n : Nat) : (standing source n).char = source[n]? := by
  cases hu : source[n]? with
  | none => rw [standing_of_none hu]
  | some u => rw [standing_of_some hu]

theorem source_standing (source : Text) (n : Nat) : (standing source n).source = source := by
  cases hu : source[n]? with
  | none => rw [standing_of_none hu]
  | some u => rw [standing_of_some hu]

theorem index_standing (hn : n < source.length) : (standing source n).index = n := by
  rw [standing_of_some (List.getElem?_eq_getElem hn)]

theorem position_standing (hn : n < source.length) :
    (standing source n).position = source.position n := by
  rw [standing_of_some (List.getElem?_eq_getElem hn)]

theorem read_initial (source : Text) : (initial source).read = standing source 0 := by
  cases hu : source[0]? with
  | none =>
      have hnil : source = [] := by simpa using hu
      subst hnil
      rfl
  | some u =>
      rw [standing_of_some hu, Text.position_zero]
      simp [read, readNext, initial, unitAt, hu, unit]

theorem peekNext_standing (source : Text) (n : Nat) :
    (standing source n).peekNext = source[n + 1]? := by
  cases hu : source[n]? with
  | none =>
      have hle : source.length ≤ n := List.getElem?_eq_none_iff.mp hu
      rw [standing_of_none hu, List.getElem?_eq_none (by omega)]
      rfl
  | some u =>
      rw [standing_of_some hu]
      simp [peekNext, unitAt]
      omega

/-- Leaving a unit gives the position of the next one or, at the end, that of the end. -/
theorem read_standing (source : Text) (n : Nat) :
    (standing source n).read = standing source (n + 1) := by
  cases hu : source[n]? with
  | none =>
      have hle : source.length ≤ n := List.getElem?_eq_none_iff.mp hu
      have hnext : source[n + 1]? = none := List.getElem?_eq_none (by omega)
      rw [standing_of_none hu, standing_of_none hnext]
      rfl
  | some u =>
      have hindex : ¬ (n : Int) + 1 < 0 := by omega
      cases hv : source[n + 1]? with
      | none =>
          have hlength : source.length = n + 1 := by
            have hlt := (List.getElem?_eq_some_iff.mp hu).1
            have hle := List.getElem?_eq_none_iff.mp hv
            omega
          have hlast : source.getLast? = some u := by
            rw [List.getLast?_eq_getElem?, hlength, Nat.add_sub_cancel, hu]
          rw [standing_of_some hu, standing_of_none hv, Text.endPosition_eq hlast, hlength]
          simp [read, readNext, unitAt, hindex, hv]
      | some v =>
          rw [standing_of_some hu, standing_of_some hv, Text.position_succ hu]
          by_cases hnewline : u = unit '\n'
          · simp [read, readNext, unitAt, hindex, hv, hnewline]
          · have hten : u ≠ 10 := hnewline
            simp [read, readNext, unitAt, hindex, hv, hten]

theorem readNext_standing (source : Text) (n : Nat) :
    (standing source n).readNext = (source[n + 1]?, standing source (n + 1)) := by
  rw [readNext_eq, peekNext_standing, read_standing]

theorem iterate_read_standing (source : Text) (n k : Nat) :
    read^[k] (standing source n) = standing source (n + k) := by
  induction k with
  | zero => rfl
  | succ k ih => rw [Function.iterate_succ_apply', ih, read_standing, Nat.add_assoc]

def Reachable (source : Text) (h : Head) : Prop := (initial source).read.Reaches h

theorem reachable_iff : Reachable source h ↔ ∃ n, h = standing source n := by
  unfold Reachable Reaches
  simp only [read_initial, iterate_read_standing, Nat.zero_add]

/-- What holds of a head after the first read.  On a unit it knows the unit and its position,
and at the end nothing changes any more. -/
structure Sound (source : Text) (h : Head) : Prop where
  source_eq : h.source = source
  le_index : -1 ≤ h.index
  index_lt : h.index < source.length
  atEnd_iff : h.atEnd = true ↔ h.char = none
  onUnit : h.atEnd = false → ∃ n : Nat, h.index = n ∧ h.char = source[n]? ∧
    h.position = source.position n
  ended : h.atEnd = true → h.index = source.length - 1 ∧ h.peekNext = none ∧
    h.readNext = (none, h)

theorem sound_standing (source : Text) (n : Nat) : (standing source n).Sound source := by
  cases hu : source[n]? with
  | none =>
      rw [standing_of_none hu]
      refine ⟨rfl, by dsimp only; omega, by dsimp only; omega, by simp, by simp, ?_⟩
      intro hend
      exact ⟨rfl, peekNext_of_atEnd hend, readNext_of_atEnd hend⟩
  | some u =>
      have hlt := (List.getElem?_eq_some_iff.mp hu).1
      rw [standing_of_some hu]
      refine ⟨rfl, by dsimp only; omega, by dsimp only; omega, by simp, ?_, by simp⟩
      intro _
      exact ⟨n, rfl, hu.symm, rfl⟩

theorem Reachable.sound (hreach : Reachable source h) : h.Sound source := by
  obtain ⟨n, rfl⟩ := reachable_iff.mp hreach
  exact sound_standing source n

end Head

end Lexis
