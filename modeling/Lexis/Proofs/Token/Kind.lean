import Lexis.Kind

/-!
# Names of kinds

Every kind is in the table, and its name is a word that no other kind has.
-/

namespace Lexis.Kind

theorem mem_all (kind : Kind) : kind ∈ all := by
  cases kind with
  | punctuation p =>
      apply List.mem_append_right
      apply List.mem_map_of_mem
      cases p <;> decide
  | _ => decide

/-- Kinds are found by their names, in which there is no white space. -/
theorem name_checked (kind : Kind) :
    ofName? kind.name = some kind ∧ unit ' ' ∉ Text.ofString kind.name ∧
      unit '\n' ∉ Text.ofString kind.name := by
  have hchecked : (all.all fun kind ↦ ofName? kind.name == some kind &&
      (Text.ofString kind.name).all fun u ↦ u != unit ' ' && u != unit '\n') = true := by
    decide +kernel
  have hkind := List.all_eq_true.mp hchecked kind (mem_all kind)
  rw [Bool.and_eq_true, beq_iff_eq, List.all_eq_true] at hkind
  refine ⟨hkind.1, ?_, ?_⟩
  · intro hmem
    exact absurd (hkind.2 _ hmem) (by decide)
  · intro hmem
    exact absurd (hkind.2 _ hmem) (by decide)

theorem ofName?_name (kind : Kind) : ofName? kind.name = some kind := (name_checked kind).1

theorem eq_name_of_ofName? {name : Text} {kind : Kind} (h : ofName? name = some kind) :
    name = kind.name := by
  have hfound := List.find?_some h
  exact (of_decide_eq_true hfound).symm

theorem name_injective {kind kind' : Kind}
    (h : Text.ofString kind.name = Text.ofString kind'.name) : kind = kind' := by
  apply Option.some.inj
  rw [← ofName?_name, ← ofName?_name, h]

end Lexis.Kind
