import Lexis.Text.Classes

/-!
# Digits and the numbers that they denote

Digits are counted by their place in a table, and a text of digits by the place of each
of them, without reference to the way in which numbers are read.  Main statements: the
value that is read digit by digit is this one, and the digits of a natural number, in
either case and after any number of zeros, have that number as their value.
-/

namespace Lexis.Text

/-- The lower case of an ASCII letter.  Any other unit is its own lower case. -/
def lower (u : UInt16) : UInt16 := if unit 'A' ≤ u && u ≤ unit 'Z' then u + 32 else u

def figures : Text := "0123456789abcdef"

/-- The value of a digit of either case.  A unit that is no digit has the value 16. -/
def figure (u : UInt16) : Nat := figures.idxOf (lower u)

/-- The number that digits denote in a base: each of them counts as often as the power
of the base says that belongs to its place. -/
def valueIn (base : Nat) : Text → Nat
  | [] => 0
  | u :: rest => figure u * Nat.pow base rest.length + valueIn base rest

/-- Digits that a natural number is written with in a base: those that it has, in either
case, after any number of zeros. -/
def Writes (base n : Nat) (digits : Text) : Prop :=
  ∃ zeros : Nat, digits.map lower =
    List.replicate zeros (unit '0') ++ (Nat.toDigits base n).map unit

/-! ## Digits -/

def digitUnits : Text := "0123456789abcdefABCDEF"

/-- A property that the units of a range are checked for holds of each of them. -/
theorem of_range (P : UInt16 → Prop) (low count : Nat) {u : UInt16}
    (h : ∀ i < count, P (UInt16.ofNat (low + i))) (hlow : low ≤ u.toNat)
    (hhigh : u.toNat < low + count) : P u := by
  have hu : UInt16.ofNat (low + (u.toNat - low)) = u := by
    rw [Nat.add_sub_of_le hlow, UInt16.ofNat_toNat]
  have hchecked := h (u.toNat - low) (by omega)
  rwa [hu] at hchecked

theorem mem_digitUnits_of_isHexDigit {u : UInt16} (h : isHexDigit u = true) :
    u ∈ digitUnits := by
  have hunits : (unit '0').toNat = 48 ∧ (unit '9').toNat = 57 ∧ (unit 'a').toNat = 97 ∧
      (unit 'f').toNat = 102 ∧ (unit 'A').toNat = 65 ∧ (unit 'F').toNat = 70 := by decide
  simp only [isHexDigit, isDigit, Bool.or_eq_true, Bool.and_eq_true, decide_eq_true_eq,
    UInt16.le_iff_toNat_le] at h
  have hranges : 48 ≤ u.toNat ∧ u.toNat < 48 + 10 ∨ 97 ≤ u.toNat ∧ u.toNat < 97 + 6 ∨
      65 ≤ u.toNat ∧ u.toNat < 65 + 6 := by omega
  rcases hranges with ⟨hlow, hhigh⟩ | ⟨hlow, hhigh⟩ | ⟨hlow, hhigh⟩ <;>
    exact of_range (· ∈ digitUnits) _ _ (by decide) hlow hhigh

theorem mem_digitUnits_of_isDigit {u : UInt16} (h : isDigit u = true) : u ∈ digitUnits :=
  mem_digitUnits_of_isHexDigit (by simp [isHexDigit, h])

theorem mem_digitUnits_of_figure_lt {u : UInt16} (h : figure u < 16) : u ∈ digitUnits := by
  have hlower : lower u ∈ figures := List.idxOf_lt_length_iff.mp h
  unfold lower at hlower
  split at hlower
  · next hupper =>
    have hback : u + 32 - 32 = u := UInt16.add_sub_cancel u 32
    have hchecked : (figures.all fun v ↦
        !(unit 'A' ≤ v - 32 && v - 32 ≤ unit 'Z') || digitUnits.contains (v - 32)) = true := by
      decide
    have hmem := List.all_eq_true.mp hchecked (u + 32) hlower
    rw [hback, hupper] at hmem
    simpa using hmem
  · have hchecked : figures.all digitUnits.contains = true := by decide
    simpa using List.all_eq_true.mp hchecked u hlower

/-- The table of the digits agrees with their classes and with the values that they are
read with. -/
theorem digit_checked {u : UInt16} (h : u ∈ digitUnits) :
    (isDigit u = true ↔ figure u < 10) ∧ (isBinaryDigit u = true ↔ figure u < 2) ∧
      isHexDigit u = true ∧ figure u < 16 ∧ hexValue u = figure u := by
  have hchecked : (digitUnits.all fun u ↦
      decide ((isDigit u = true ↔ figure u < 10) ∧ (isBinaryDigit u = true ↔ figure u < 2) ∧
        isHexDigit u = true ∧ figure u < 16 ∧ hexValue u = figure u)) = true := by decide
  exact of_decide_eq_true (List.all_eq_true.mp hchecked u h)

theorem isHexDigit_iff {u : UInt16} : isHexDigit u = true ↔ figure u < 16 :=
  ⟨fun h ↦ (digit_checked (mem_digitUnits_of_isHexDigit h)).2.2.2.1,
    fun h ↦ (digit_checked (mem_digitUnits_of_figure_lt h)).2.2.1⟩

theorem hexValue_eq_figure {u : UInt16} (h : figure u < 16) : hexValue u = figure u :=
  (digit_checked (mem_digitUnits_of_figure_lt h)).2.2.2.2

theorem isDigit_iff {u : UInt16} : isDigit u = true ↔ figure u < 10 := by
  constructor
  · intro h
    exact (digit_checked (mem_digitUnits_of_isDigit h)).1.mp h
  · intro h
    exact (digit_checked (mem_digitUnits_of_figure_lt (by omega))).1.mpr h

theorem isBinaryDigit_iff {u : UInt16} : isBinaryDigit u = true ↔ figure u < 2 := by
  constructor
  · intro h
    have hmem : u ∈ digitUnits := by
      simp only [isBinaryDigit, Bool.or_eq_true, beq_iff_eq] at h
      rcases h with rfl | rfl <;> decide
    exact (digit_checked hmem).2.1.mp h
  · intro h
    exact (digit_checked (mem_digitUnits_of_figure_lt (by omega))).2.1.mpr h

/-! ## Values -/

variable {base n : Nat} {digits : Text}

theorem foldl_eq_valueIn (h : ∀ u ∈ digits, figure u < 16) (n : Nat) :
    digits.foldl (fun n u ↦ n * base + hexValue u) n =
      n * Nat.pow base digits.length + valueIn base digits := by
  induction digits generalizing n with
  | nil => simp [valueIn]
  | cons u rest ih =>
      have hpow : Nat.pow base (rest.length + 1) = Nat.pow base rest.length * base := rfl
      rw [List.foldl_cons, ih fun v hv ↦ h v (List.mem_cons_of_mem u hv),
        hexValue_eq_figure (h u List.mem_cons_self), valueIn, List.length_cons, hpow, Nat.add_mul,
        Nat.mul_assoc, Nat.mul_comm base, Nat.add_assoc]

/-- To read a number digit by digit is to add up the values of all places. -/
theorem positional_eq_valueIn (h : ∀ u ∈ digits, figure u < 16) :
    positional base digits = valueIn base digits := by
  rw [positional, foldl_eq_valueIn h, Nat.zero_mul, Nat.zero_add]

theorem valueIn_append (base : Nat) (digits : Text) (u : UInt16) :
    valueIn base (digits ++ [u]) = valueIn base digits * base + figure u := by
  induction digits with
  | nil => simp [valueIn]
  | cons v rest ih =>
      have hpow : Nat.pow base (rest.length + 1) = Nat.pow base rest.length * base := rfl
      rw [List.cons_append, valueIn, valueIn, ih, List.length_append, List.length_singleton,
        hpow, Nat.add_mul, Nat.mul_assoc, Nat.add_assoc]

theorem valueIn_replicate (base zeros : Nat) (digits : Text) :
    valueIn base (List.replicate zeros (unit '0') ++ digits) = valueIn base digits := by
  have hzero : figure (unit '0') = 0 := by decide
  induction zeros with
  | zero => rfl
  | succ zeros ih =>
      rw [List.replicate_succ, List.cons_append, valueIn, hzero, Nat.zero_mul, Nat.zero_add, ih]

theorem figure_lower (u : UInt16) : figure (lower u) = figure u := by
  have hlower : lower (lower u) = lower u := by
    by_cases hupper : (unit 'A' ≤ u && u ≤ unit 'Z') = true
    · have hunits : (unit 'A').toNat = 65 ∧ (unit 'Z').toNat = 90 := by decide
      simp only [Bool.and_eq_true, decide_eq_true_eq, UInt16.le_iff_toNat_le] at hupper
      exact of_range (fun u ↦ lower (lower u) = lower u) 65 26 (by decide) (by omega) (by omega)
    · have hsame : lower u = u := if_neg hupper
      rw [hsame, hsame]
  rw [figure, hlower, figure]

theorem valueIn_map_lower (base : Nat) (digits : Text) :
    valueIn base (digits.map lower) = valueIn base digits := by
  induction digits with
  | nil => rfl
  | cons u rest ih => rw [List.map_cons, valueIn, valueIn, ih, figure_lower, List.length_map]

theorem figure_digitChar {d : Nat} (h : d < 16) : figure (unit (Nat.digitChar d)) = d := by
  revert d
  decide

/-- The digits of a number have this number as their value. -/
theorem valueIn_toDigits (hone : 1 < base) (hbase : base ≤ 16) (n : Nat) :
    (∀ c ∈ Nat.toDigits base n, figure (unit c) < base) ∧
      valueIn base ((Nat.toDigits base n).map unit) = n := by
  induction n using Nat.strongRecOn with
  | ind n ih =>
      rw [Nat.toDigits_eq_if hone]
      split
      · next hlt =>
        have hfigure : figure (unit n.digitChar) = n := figure_digitChar (by omega)
        simp [valueIn, hfigure, hlt]
      · next hle =>
        obtain ⟨hdigits, hvalue⟩ := ih (n / base) (Nat.div_lt_self (by omega) hone)
        have hlast : n % base < base := Nat.mod_lt n (by omega)
        have hfigure : figure (unit (n % base).digitChar) = n % base :=
          figure_digitChar (by omega)
        constructor
        · intro c hc
          rcases List.mem_append.mp hc with hc | hc
          · exact hdigits c hc
          · rw [List.mem_singleton.mp hc, hfigure]
            exact hlast
        · rw [List.map_append, List.map_singleton, valueIn_append, hvalue, hfigure,
            Nat.div_add_mod']

/-- However a number is written, its digits belong to the base and have it as their
value. -/
theorem Writes.valueIn_eq (h : Writes base n digits) (hone : 1 < base) (hbase : base ≤ 16) :
    digits ≠ [] ∧ (∀ u ∈ digits, figure u < base) ∧ valueIn base digits = n := by
  obtain ⟨zeros, hmap⟩ := h
  obtain ⟨hdigits, hvalue⟩ := valueIn_toDigits hone hbase n
  refine ⟨?_, ?_, ?_⟩
  · rintro rfl
    have hlength := congrArg List.length hmap
    have hpos := @Nat.length_toDigits_pos base n
    simp only [List.map_nil, List.length_nil, List.length_append, List.length_map] at hlength
    omega
  · intro u hu
    have hmem : lower u ∈ List.replicate zeros (unit '0') ++ (Nat.toDigits base n).map unit := by
      rw [← hmap]
      exact List.mem_map_of_mem hu
    rw [← figure_lower]
    rcases List.mem_append.mp hmem with hzero | hdigit
    · have hfigure : figure (unit '0') = 0 := by decide
      rw [(List.mem_replicate.mp hzero).2, hfigure]
      omega
    · obtain ⟨c, hc, hunit⟩ := List.mem_map.mp hdigit
      rw [← hunit]
      exact hdigits c hc
  · rw [← valueIn_map_lower, hmap, valueIn_replicate, hvalue]

end Lexis.Text
