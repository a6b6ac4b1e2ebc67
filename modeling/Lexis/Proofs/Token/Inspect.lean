import Lexis.Proofs.Token.Listing

/-!
# What a diagnostic shows of a token

Two points stand between the offsets of a token, and a number may have a point in it too.
But a digit follows that one, so it is clear where the first offset ends.  Main statement: a
diagnostic tells tokens apart as a record does.
-/

namespace Lexis

namespace Binary64

theorem digit_after_point_leading {digits exponent a b : List Char}
    (hdigits : ∀ c ∈ digits, c.isDigit = true) (hexponent : '.' ∉ exponent)
    (h : leading digits ++ exponent = a ++ '.' :: b) :
    ∃ d rest, b = d :: rest ∧ d.isDigit = true := by
  have hnot : '.' ∉ digits := fun hpoint ↦ absurd (hdigits _ hpoint) (by decide)
  have hmem : '.' ∈ leading digits ++ exponent := h ▸ List.mem_append_right a List.mem_cons_self
  match digits with
  | [] => exact absurd hmem hexponent
  | [c] =>
      rcases List.mem_cons.mp hmem with rfl | hpoint
      · exact absurd List.mem_cons_self hnot
      · exact absurd hpoint hexponent
  | c :: d :: rest =>
      have hleading : leading (c :: d :: rest) = c :: '.' :: d :: rest := rfl
      rw [hleading] at h
      match a with
      | [] =>
          obtain ⟨rfl, -⟩ := List.cons.inj h
          exact absurd List.mem_cons_self hnot
      | [_] =>
          obtain ⟨-, hrest⟩ := List.cons.inj (List.cons.inj h).2
          exact ⟨d, rest ++ exponent, hrest.symm, hdigits d (by simp)⟩
      | _ :: _ :: a =>
          -- There is no other point behind that one.
          have hrest : d :: rest ++ exponent = a ++ '.' :: b :=
            (List.cons.inj (List.cons.inj h).2).2
          have hpoint : '.' ∈ d :: rest ++ exponent :=
            hrest ▸ List.mem_append_right a List.mem_cons_self
          rcases List.mem_append.mp hpoint with hin | hin
          · exact absurd (List.mem_cons_of_mem c hin) hnot
          · exact absurd hin hexponent

theorem digit_after_point {n : Nat} {a b : List Char} (h : written n = a ++ '.' :: b) :
    ∃ d rest, b = d :: rest ∧ d.isDigit = true := by
  have hnot (k : Nat) : '.' ∉ Nat.toDigits 10 k := by
    intro hpoint
    have hdigit := Nat.isDigit_of_mem_toDigits (by decide) (by decide) hpoint
    exact absurd hdigit (by decide)
  rcases Nat.lt_or_ge n (pow10 21) with hlt | hge
  · rw [written_of_lt hlt] at h
    exact absurd (h ▸ List.mem_append_right a List.mem_cons_self) (hnot n)
  · rw [(written_of_le hge).2] at h
    exact digit_after_point_leading (fun c ↦ isDigit_of_mem_trimZeros) (by simp [hnot]) h

/-- A digit follows each point in a text. -/
def PointsInside (t : Text) : Prop :=
  ∀ a b, t = a ++ unit '.' :: b → ∃ d rest, b = d :: rest ∧ Text.isDigit d = true

variable {t t' rest rest' : Text} {n m : Int}

theorem pointsInside_of_not_mem (h : unit '.' ∉ t) : PointsInside t := by
  rintro a b rfl
  exact absurd (List.mem_append_right a List.mem_cons_self) h

theorem pointsInside_written (k : Nat) : PointsInside ((written k).map unit) := by
  intro a b h
  obtain ⟨before, tail, hsplit, rfl, htail⟩ := List.map_eq_append_iff.mp h
  obtain ⟨c, behind, rfl, hpoint, rfl⟩ := List.map_eq_cons_iff.mp htail
  have hlt : c.toNat < 65536 :=
    toNat_lt_of_mem_written (hsplit ▸ List.mem_append_right before List.mem_cons_self)
  have hcode := congrArg UInt16.toNat hpoint
  rw [toNat_unit hlt] at hcode
  obtain rfl : c = '.' := Char.toNat_inj.mp hcode
  obtain ⟨d, rest, rfl, hd⟩ := digit_after_point hsplit
  exact ⟨unit d, rest.map unit, rfl, isDigit_unit hd⟩

theorem PointsInside.sign_append (h : PointsInside t) (n : Int) : PointsInside (sign n ++ t) := by
  unfold sign
  split
  · intro a b hsplit
    cases a with
    | nil => exact absurd (List.cons.inj hsplit).1 (by decide)
    | cons u a => exact h a b (List.cons.inj hsplit).2
  · exact h

theorem pointsInside_integerText (n : Int) : PointsInside (integerText n) := by
  cases shown n with
  | finite k _ htext =>
      rw [htext]
      exact (pointsInside_written k).sign_append n
  | infinite _ htext =>
      rw [htext]
      exact (pointsInside_of_not_mem (by decide)).sign_append n

theorem PointsInside.eq_of_append (ht : PointsInside t)
    (h : t ++ rest = unit '.' :: unit '.' :: rest') :
    t = [] := by
  cases t with
  | nil => rfl
  | cons u t =>
      obtain ⟨rfl, htail⟩ := List.cons.inj h
      obtain ⟨d, behind, rfl, hd⟩ := ht [] t rfl
      obtain ⟨rfl, -⟩ := List.cons.inj htail
      exact absurd hd (by decide)

/-- Two points show where a text ends whose own points are inside. -/
theorem PointsInside.append_inj (ht : PointsInside t) (ht' : PointsInside t')
    (h : t ++ unit '.' :: unit '.' :: rest = t' ++ unit '.' :: unit '.' :: rest') :
    t = t' ∧ rest = rest' := by
  have hbehind {a b : Text} (hab : PointsInside (a ++ b)) : PointsInside b := by
    rintro before after rfl
    exact hab (a ++ before) after (List.append_assoc ..).symm
  rcases List.append_eq_append_iff.mp h with ⟨more, rfl, hmore⟩ | ⟨more, rfl, hmore⟩
  · obtain rfl : more = [] := (hbehind ht').eq_of_append hmore.symm
    exact ⟨(List.append_nil t).symm, (List.cons.inj (List.cons.inj hmore).2).2⟩
  · obtain rfl : more = [] := (hbehind ht).eq_of_append hmore.symm
    exact ⟨List.append_nil t', (List.cons.inj (List.cons.inj hmore).2).2.symm⟩

end Binary64

namespace Token

open Binary64

variable {t u : Token} {rest rest' : Text}

theorem inspect_append (t : Token) (rest : Text) :
    t.inspect ++ rest =
      unit '<' :: (Text.ofString t.kind.name ++ unit ' ' ::
        (t.value.quoted ++ unit ' ' :: unit '[' ::
          (integerText t.position.line ++ unit ':' ::
            (integerText t.position.column ++ unit ']' :: unit ' ' ::
              (integerText t.first ++ unit '.' :: unit '.' ::
                (integerText t.last ++ unit '>' :: rest)))))) := by
  have hopen : Text.ofString "<" = [unit '<'] := by decide
  have hspace : Text.ofString " " = [unit ' '] := by decide
  have hbracket : Text.ofString "[" = [unit '['] := by decide
  have hcolon : Text.ofString ":" = [unit ':'] := by decide
  have hend : Text.ofString "]" = [unit ']'] := by decide
  have hpoints : Text.ofString ".." = [unit '.', unit '.'] := by decide
  have hclose : Text.ofString ">" = [unit '>'] := by decide
  simp only [inspect, Position.bracketed, Position.coordinates, hopen, hspace, hbracket, hcolon,
    hend, hpoints, hclose, List.append_assoc, List.cons_append, List.nil_append]

/-- A diagnostic shows where it ends and what it tells. -/
theorem inspect_append_inj (h : t.inspect ++ rest = u.inspect ++ rest') :
    t.fields = u.fields ∧ rest = rest' := by
  rw [inspect_append, inspect_append] at h
  obtain ⟨hname, h⟩ := append_cons_inj (Kind.name_checked t.kind).2.1
    (Kind.name_checked u.kind).2.1 (List.cons.inj h).2
  obtain ⟨hvalue, h⟩ := Text.quoted_append_inj h
  obtain ⟨hline, h⟩ := integerText_append_inj (by decide) (by decide)
    (List.cons.inj (List.cons.inj h).2).2
  obtain ⟨hcolumn, h⟩ := integerText_append_inj (by decide) (by decide) h
  obtain ⟨hfirst, h⟩ := (pointsInside_integerText t.first).append_inj
    (pointsInside_integerText u.first) (List.cons.inj h).2
  obtain ⟨hlast, hrest⟩ := integerText_append_inj (by decide) (by decide) h
  refine ⟨?_, hrest⟩
  rw [fields, fields, Kind.name_injective hname, hvalue, integerText_eq_iff.mp hfirst, hlast,
    hline, hcolumn]

/-- A diagnostic shows the kind, the value, the position and the offsets of a token. -/
theorem inspect_eq_iff : t.inspect = u.inspect ↔ t.fields = u.fields := by
  constructor
  · intro h
    exact (inspect_append_inj (congrArg (· ++ []) h)).1
  · intro h
    obtain ⟨hkind, hvalue, hfirst, hlast, hline, hcolumn⟩ : _ ∧ _ ∧ _ ∧ _ ∧ _ ∧ _ := by
      simpa only [fields, Prod.mk.injEq] using h
    unfold inspect Position.bracketed Position.coordinates
    rw [hkind, hvalue, integerText_eq_iff.mpr hfirst, integerText_eq_iff.mpr hlast,
      integerText_eq_iff.mpr hline, integerText_eq_iff.mpr hcolumn]

/-- Tokens whose numbers are exact have a diagnostic each. -/
theorem eq_of_inspect (ht : t.Exact) (hu : u.Exact) (h : t.inspect = u.inspect) : t = u :=
  (fields_eq_iff ht hu).mp (inspect_eq_iff.mp h)

end Token

end Lexis
