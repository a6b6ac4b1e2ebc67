import Lexis.Config

/-!
# The order in which fields are visited

Fields whose names spell array indices come first, by their numbers, and the others follow as
they were written.  The name that a search finds is the first one in this order.
-/

namespace Lexis

theorem ofNat_of_arrayIndex? {name : Text} {n : Nat} (h : arrayIndex? name = some n) :
    Text.ofNat n = name := by
  unfold arrayIndex? at h
  dsimp only at h
  split at h
  · next hname =>
    rw [← Option.some.inj h]
    exact hname.2.2
  · simp at h

namespace Fields

def names (fields : Fields) : List Text := fields.map (·.1)

inductive Precedes (fields : Fields) (a b : Text) : Prop
  | indices {n m : Nat} (ha : arrayIndex? a = some n) (hb : arrayIndex? b = some m) (hlt : n < m)
  | index {n : Nat} (ha : arrayIndex? a = some n) (hb : arrayIndex? b = none)
  | written (ha : arrayIndex? a = none) (hb : arrayIndex? b = none)
      (hlt : fields.names.idxOf a < fields.names.idxOf b)

/-- The first name with a property. -/
structure IsFirst (fields : Fields) (p : Text → Prop) (name : Text) : Prop where
  mem : name ∈ fields.names
  holds : p name
  precedes : ∀ other ∈ fields.names, p other → other ≠ name → fields.Precedes name other

variable {fields : Fields} {a b name : Text}

theorem Precedes.not_symm (h : fields.Precedes a b) : ¬ fields.Precedes b a := by
  intro hsymm
  cases h with
  | indices ha hb hlt =>
      cases hsymm with
      | indices hb' ha' hlt' =>
          obtain rfl := Option.some.inj (ha.symm.trans ha')
          obtain rfl := Option.some.inj (hb.symm.trans hb')
          omega
      | index _ ha' => simp [ha] at ha'
      | written hb' => simp [hb] at hb'
  | index ha hb =>
      cases hsymm with
      | indices hb' => simp [hb] at hb'
      | index hb' => simp [hb] at hb'
      | written _ ha' => simp [ha] at ha'
  | written ha hb hlt =>
      cases hsymm with
      | indices _ ha' => simp [ha] at ha'
      | index hb' => simp [hb] at hb'
      | written _ _ hlt' => omega

theorem IsFirst.unique {p : Text → Prop} (ha : fields.IsFirst p a) (hb : fields.IsFirst p b) :
    a = b := by
  by_cases heq : a = b
  · exact heq
  · have hab := ha.precedes b hb.mem hb.holds (Ne.symm heq)
    have hba := hb.precedes a ha.mem ha.holds heq
    exact absurd hba hab.not_symm

/-! ## What is visited -/

theorem mem_visitOrder : name ∈ fields.visitOrder ↔ name ∈ fields.names := by
  unfold visitOrder
  simp only [List.mem_append, List.mem_map, List.mem_mergeSort, List.mem_filterMap,
    List.mem_filter]
  constructor
  · rintro (⟨n, ⟨written, hwritten, hindex⟩, rfl⟩ | ⟨hname, -⟩)
    · rw [ofNat_of_arrayIndex? hindex]
      exact List.mem_map.mpr hwritten
    · exact List.mem_map.mpr hname
  · intro hname
    cases hindex : arrayIndex? name with
    | none => exact .inr ⟨List.mem_map.mp hname, rfl⟩
    | some n =>
        refine .inl ⟨n, ⟨name, List.mem_map.mp hname, hindex⟩, ofNat_of_arrayIndex? hindex⟩

/-- The entry that a search finds occurs before all others that it might find. -/
theorem idxOf_lt_of_find? {q : Text → Bool} {xs : List Text} (h : xs.find? q = some a)
    (hb : b ∈ xs) (hq : q b = true) (hne : b ≠ a) : xs.idxOf a < xs.idxOf b := by
  induction xs with
  | nil => simp at h
  | cons x xs ih =>
      by_cases hx : q x = true
      · obtain rfl : x = a := by simpa [List.find?_cons_of_pos hx] using h
        have hbx : (x == b) = false := by simpa using Ne.symm hne
        rw [List.idxOf_cons_self, List.idxOf_cons, hbx]
        exact Nat.succ_pos _
      · rw [List.find?_cons_of_neg hx] at h
        have hxa : (x == a) = false := by
          rw [beq_eq_false_iff_ne]
          rintro rfl
          exact hx (List.find?_some h)
        have hxb : (x == b) = false := by
          rw [beq_eq_false_iff_ne]
          rintro rfl
          exact hx hq
        have hmem : b ∈ xs := by
          apply (List.mem_cons.mp hb).resolve_left
          rintro rfl
          exact hx hq
        rw [List.idxOf_cons, List.idxOf_cons, hxa, hxb]
        exact Nat.succ_lt_succ (ih h hmem)

theorem le_of_find? {q : Nat → Bool} {xs : List Nat} {n m : Nat} (hsorted : xs.Pairwise (· ≤ ·))
    (h : xs.find? q = some n) (hm : m ∈ xs) (hq : q m = true) : n ≤ m := by
  obtain ⟨-, before, after, rfl, hbefore⟩ := List.find?_eq_some_iff_append.mp h
  have hlater := (List.pairwise_cons.mp (List.pairwise_append.mp hsorted).2.1).1
  rcases List.mem_append.mp hm with hmem | hmem
  · have hrefused := hbefore m hmem
    simp [hq] at hrefused
  · rcases List.mem_cons.mp hmem with rfl | hmem
    · exact Nat.le_refl m
    · exact hlater m hmem

def indices (fields : Fields) : List Nat := (fields.names.filterMap arrayIndex?).mergeSort (· ≤ ·)

theorem visitOrder_eq (fields : Fields) :
    fields.visitOrder =
      fields.indices.map Text.ofNat ++ fields.names.filter fun name ↦ (arrayIndex? name).isNone :=
  rfl

theorem pairwise_indices (fields : Fields) : fields.indices.Pairwise (· ≤ ·) := by
  have htrans (n m k : Nat) (hnm : decide (n ≤ m) = true) (hmk : decide (m ≤ k) = true) :
      decide (n ≤ k) = true := by
    rw [decide_eq_true_iff] at hnm hmk ⊢
    omega
  have htotal (n m : Nat) : (decide (n ≤ m) || decide (m ≤ n)) = true := by
    rw [Bool.or_eq_true, decide_eq_true_iff, decide_eq_true_iff]
    omega
  apply (List.pairwise_mergeSort htrans htotal _).imp
  intro n m hle
  exact of_decide_eq_true hle

theorem mem_indices {n : Nat} :
    n ∈ fields.indices ↔ ∃ name ∈ fields.names, arrayIndex? name = some n := by
  simp [indices]

theorem isFirst_of_find? {q : Text → Bool} (h : fields.visitOrder.find? q = some name) :
    fields.IsFirst (q · = true) name := by
  refine ⟨mem_visitOrder.mp (List.mem_of_find?_eq_some h), List.find?_some h, ?_⟩
  intro other hother hq hne
  rw [visitOrder_eq, List.find?_append, List.find?_map] at h
  cases hfound : fields.indices.find? (q ∘ Text.ofNat) with
  | some n =>
      rw [hfound, Option.map_some, Option.some_or] at h
      obtain rfl : Text.ofNat n = name := Option.some.inj h
      obtain ⟨written, -, hindex⟩ := mem_indices.mp (List.mem_of_find?_eq_some hfound)
      have hn : arrayIndex? (Text.ofNat n) = some n := by rwa [ofNat_of_arrayIndex? hindex]
      cases hm : arrayIndex? other with
      | none => exact .index hn hm
      | some m =>
          have hother' : Text.ofNat m = other := ofNat_of_arrayIndex? hm
          have hle : n ≤ m := by
            apply le_of_find? fields.pairwise_indices hfound (mem_indices.mpr ⟨other, hother, hm⟩)
            rwa [Function.comp, hother']
          have hnm : n ≠ m := by
            rintro rfl
            exact hne hother'.symm
          exact .indices hn hm (by omega)
  | none =>
      -- no index was found, so the name is the first of the others
      rw [hfound, Option.map_none, Option.none_or, List.find?_filter] at h
      have hname := List.find?_some h
      simp only [Option.isNone_iff_eq_none, decide_eq_true_eq] at hname
      cases hm : arrayIndex? other with
      | none => exact .written hname.1 hm (idxOf_lt_of_find? h hother (by simp [hm, hq]) hne)
      | some m =>
          have hrefused := List.find?_eq_none.mp hfound m (mem_indices.mpr ⟨other, hother, hm⟩)
          rw [Function.comp, ofNat_of_arrayIndex? hm] at hrefused
          exact absurd hq hrefused

/-- A search among the names finds the first one, if there is one at all. -/
theorem find?_visitOrder_eq_some_iff {q : Text → Bool} :
    fields.visitOrder.find? q = some name ↔ fields.IsFirst (q · = true) name := by
  constructor
  · exact isFirst_of_find?
  · intro hfirst
    cases hfound : fields.visitOrder.find? q with
    | none =>
        have hrefused := List.find?_eq_none.mp hfound name (mem_visitOrder.mpr hfirst.mem)
        exact absurd hfirst.holds hrefused
    | some found => rw [(isFirst_of_find? hfound).unique hfirst]

end Fields

end Lexis
