import Lexis.Value

/-!
# Message templates

A placeholder is a name in braces.  It is replaced by the value of the field
with that name, or by nothing when there is none; what is inserted is not read
again.  An opening brace directly before another one is an ordinary unit.  A
template with a placeholder that is never closed is used as it stands, unless a
value before it cannot be shown.
-/

namespace Lexis.Template

abbrev opening : UInt16 := 0x7b

abbrev closing : UInt16 := 0x7d

inductive Obstacle where
  | unclosed
  | unshowable
deriving DecidableEq, Repr

def filling (fields : Fields) (name : Text) : Option Text :=
  match fields.get? name with
  | none => some []
  | some value => value.shown?

/-- Fills in the placeholders from left to right.  Inside a placeholder `name`
holds the units read so far, the last one first. -/
def fill (fields : Fields) : (name : Option Text) → Text → Except Obstacle Text
  | none, [] => .ok []
  | some _, [] => .error .unclosed
  | none, u :: rest =>
      if u = opening ∧ rest.head? ≠ some opening then fill fields (some []) rest
      else (fill fields none rest).map (u :: ·)
  | some name, u :: rest =>
      if u = closing then
        match filling fields name.reverse with
        | none => .error .unshowable
        | some text => (fill fields none rest).map (text ++ ·)
      else fill fields (some (u :: name)) rest

/-- The message that a template and its fields give.  There is none if a value that
is asked for cannot be shown. -/
def render (template : Text) (fields : Fields) : Option Text :=
  match fill fields none template with
  | .ok text => some text
  | .error .unclosed => some template
  | .error .unshowable => none

/-! ## Fields that can all be shown -/

theorem isSome_filling {fields : Fields} (h : ∀ field ∈ fields, field.2.isShowable = true)
    (name : Text) : (filling fields name).isSome = true := by
  unfold filling
  split
  · rfl
  · next value hvalue =>
    obtain ⟨before, after, hfields, -⟩ := List.lookup_eq_some_iff.mp hvalue
    have hmem : (name, value) ∈ fields := by simp [hfields]
    simp [Value.shown?, h _ hmem]

theorem fill_ne_unshowable {fields : Fields} (h : ∀ field ∈ fields, field.2.isShowable = true)
    (name : Option Text) (t : Text) : fill fields name t ≠ .error .unshowable := by
  have hmap (x : Except Obstacle Text) (f : Text → Text) (hx : x ≠ .error .unshowable) :
      x.map f ≠ .error .unshowable := by
    cases x <;> simp_all [Except.map]
  fun_induction fill fields name t with
  | case1 | case2 => simp
  | case3 _ _ _ ih | case7 _ _ _ _ ih => exact ih
  | case4 _ _ _ ih | case6 _ _ _ _ ih => exact hmap _ _ ih
  | case5 name _ hnone =>
      have hsome := isSome_filling h name.reverse
      simp [hnone] at hsome

theorem isSome_render {fields : Fields} (h : ∀ field ∈ fields, field.2.isShowable = true)
    (template : Text) : (render template fields).isSome = true := by
  unfold render
  split
  · rfl
  · rfl
  · next hfill => exact absurd hfill (fill_ne_unshowable h none template)

end Lexis.Template
