import Lexis.Proofs.Number.Positional
import Lexis.Text.Quoted

/-!
# Reading quoted text

Every unit stands between the quotes as a piece from which it can be read back, and no piece
begins with a quote or has a newline in it.  Main statement: a quoted text ends where its
reader expects it, and it shows what was quoted.
-/

namespace Lexis.Text

/-- The letters of the short escapes, with the units that they stand for. -/
def shortEscapes : List (UInt16 × UInt16) :=
  [(unit '"', unit '"'), (unit '\\', unit '\\'), (unit 'b', 0x08), (unit 't', 0x09),
    (unit 'n', 0x0a), (unit 'f', 0x0c), (unit 'r', 0x0d)]

def readUnit (t : Text) : UInt16 × Text :=
  let letter := t.tail.headD 0
  if t.headD 0 = unit '\\' then
    match shortEscapes.lookup letter with
    | some u => (u, t.drop 2)
    | none => (UInt16.ofNat (valueIn 16 ((t.drop 2).take 4)), t.drop 6)
  else (t.headD 0, t.tail)

/-- A piece of quoted text that stands for a unit. -/
structure Stands (u : UInt16) (piece : Text) : Prop where
  ne_nil : piece ≠ []
  head : piece.headD 0 ≠ unit '"'
  newline : unit '\n' ∉ piece
  reads : ∀ rest, readUnit (piece ++ rest) = (u, rest)

/-- Pieces that stand for the units of a text, one after the other. -/
inductive Quotes : Text → Text → Prop
  | nil : Quotes [] []
  | cons {u : UInt16} {t piece body : Text} (h : Stands u piece) (ht : Quotes t body) :
      Quotes (u :: t) (piece ++ body)

/-! ## Pieces -/

theorem stands_self {u : UInt16} (hquote : u ≠ unit '"') (hslash : u ≠ unit '\\')
    (hnewline : u ≠ unit '\n') : Stands u [u] where
  ne_nil := List.cons_ne_nil _ _
  head := hquote
  newline := by simpa using hnewline.symm
  reads := by
    intro rest
    unfold readUnit
    exact if_neg hslash

theorem stands_short {u letter : UInt16} (hlookup : shortEscapes.lookup letter = some u)
    (hnewline : letter ≠ unit '\n') : Stands u [unit '\\', letter] where
  ne_nil := List.cons_ne_nil _ _
  head := by
    show unit '\\' ≠ unit '"'
    decide
  newline := by
    rw [List.mem_cons, List.mem_singleton, not_or]
    exact ⟨by decide, hnewline.symm⟩
  reads := by
    intro rest
    unfold readUnit
    rw [if_pos (by rfl)]
    dsimp only [List.cons_append, List.nil_append, List.tail_cons, List.headD_cons]
    rw [hlookup]
    rfl

theorem figure_hexDigit (n : Nat) : figure (unit (Nat.digitChar (n % 16))) = n % 16 :=
  figure_digitChar (Nat.mod_lt n (by decide))

theorem ne_newline_of_figure {u : UInt16} (h : figure u < 16) : u ≠ unit '\n' := by
  rintro rfl
  exact absurd h (by decide)

theorem stands_hexEscape (u : UInt16) : Stands u (hexEscape u) where
  ne_nil := List.cons_ne_nil _ _
  head := by
    show unit '\\' ≠ unit '"'
    decide
  newline := by
    intro hmem
    simp only [hexEscape, List.mem_cons, List.not_mem_nil, or_false] at hmem
    have hdigit (n : Nat) : unit '\n' ≠ unit (Nat.digitChar (n % 16)) := by
      apply Ne.symm
      apply ne_newline_of_figure
      rw [figure_hexDigit]
      exact Nat.mod_lt n (by decide)
    rcases hmem with hslash | hletter | hdigits
    · exact absurd hslash (by decide)
    · exact absurd hletter (by decide)
    · rcases hdigits with h | h | h | h <;> exact hdigit _ h
  reads := by
    intro rest
    have hlookup : shortEscapes.lookup (unit 'u') = none := by decide
    have hvalue : valueIn 16 ((hexEscape u).drop 2) = u.toNat := by
      have hlt : u.toNat < 65536 := u.toNat_lt
      simp only [hexEscape, List.drop_succ_cons, List.drop_zero, valueIn, figure_hexDigit]
      simp
      omega
    have hread : readUnit (hexEscape u ++ rest) =
        (UInt16.ofNat (valueIn 16 ((hexEscape u).drop 2)), rest) := by
      unfold readUnit
      rw [if_pos (by rfl)]
      dsimp only [hexEscape, List.cons_append, List.nil_append, List.tail_cons, List.headD_cons]
      rw [hlookup]
      rfl
    rw [hread, hvalue, UInt16.ofNat_toNat]

theorem stands_quotedUnit (u : UInt16) : Stands u (quotedUnit u) := by
  unfold quotedUnit
  iterate 7
    split
    · next h => exact h ▸ stands_short rfl (by decide)
  split
  · exact stands_hexEscape u
  · next hquote hslash _ _ hnewline _ _ _ => exact stands_self hquote hslash hnewline

theorem stands_of_surrogate {u : UInt16} (h : (isHigh u || isLow u) = true) : Stands u [u] := by
  have hne {v : UInt16} (hv : (isHigh v || isLow v) = false) : u ≠ v := by
    rintro rfl
    rw [hv] at h
    exact absurd h (by decide)
  exact stands_self (hne (by decide)) (hne (by decide)) (hne (by decide))

/-! ## Texts -/

theorem quotes_quotedBody (t : Text) : Quotes t (quotedBody t) := by
  fun_induction quotedBody t with
  | case1 => exact .nil
  | case2 u hsurrogate =>
      rw [← List.append_nil (hexEscape u)]
      exact .cons (stands_hexEscape u) .nil
  | case3 u hsurrogate =>
      rw [← List.append_nil (quotedUnit u)]
      exact .cons (stands_quotedUnit u) .nil
  | case4 u v rest hpair ih =>
      rw [Bool.and_eq_true] at hpair
      have hu : Stands u [u] := stands_of_surrogate (by simp [hpair])
      have hv : Stands v [v] := stands_of_surrogate (by simp [hpair])
      exact .cons hu (.cons hv ih)
  | case5 u v rest hpair hsurrogate ih => exact .cons (stands_hexEscape u) ih
  | case6 u v rest hpair hsurrogate ih => exact .cons (stands_quotedUnit u) ih

theorem Quotes.not_mem_newline {t body : Text} (h : Quotes t body) : unit '\n' ∉ body := by
  induction h with
  | nil => exact List.not_mem_nil
  | cons hpiece _ ih =>
      rw [List.mem_append, not_or]
      exact ⟨hpiece.newline, ih⟩

theorem Stands.headD_append {u : UInt16} {piece : Text} (h : Stands u piece) (rest : Text) :
    (piece ++ rest).headD 0 ≠ unit '"' := by
  cases piece with
  | nil => exact absurd rfl h.ne_nil
  | cons v tail => exact h.head

/-- What is quoted can be read off, piece by piece, up to the closing quote. -/
theorem Quotes.eq_of_append_eq {t t' body body' rest rest' : Text} (h : Quotes t body)
    (h' : Quotes t' body') (hsame : body ++ unit '"' :: rest = body' ++ unit '"' :: rest') :
    t = t' ∧ rest = rest' := by
  induction h generalizing t' body' with
  | nil =>
      cases h' with
      | nil => exact ⟨rfl, (List.cons.inj hsame).2⟩
      | @cons u t piece body hpiece hbody =>
          rw [List.append_assoc] at hsame
          have hhead := hpiece.headD_append (body ++ unit '"' :: rest')
          rw [← hsame] at hhead
          exact absurd rfl hhead
  | @cons u t piece body hpiece hbody ih =>
      rw [List.append_assoc] at hsame
      cases h' with
      | nil =>
          have hhead := hpiece.headD_append (body ++ unit '"' :: rest)
          rw [hsame] at hhead
          exact absurd rfl hhead
      | cons hpiece' hbody' =>
          rw [List.append_assoc] at hsame
          have hread := hpiece.reads (body ++ unit '"' :: rest)
          rw [hsame, hpiece'.reads, Prod.mk.injEq] at hread
          obtain ⟨rfl, hrest⟩ := hread
          obtain ⟨rfl, rfl⟩ := ih hbody' hrest.symm
          exact ⟨rfl, rfl⟩

theorem quoted_append (t rest : Text) :
    quoted t ++ rest = unit '"' :: (quotedBody t ++ unit '"' :: rest) := by
  unfold quoted
  rw [List.cons_append, List.append_assoc]
  rfl

/-- A quoted text shows where it ends and what was quoted. -/
theorem quoted_append_inj {t t' rest rest' : Text} (h : quoted t ++ rest = quoted t' ++ rest') :
    t = t' ∧ rest = rest' := by
  rw [quoted_append, quoted_append] at h
  exact (quotes_quotedBody t).eq_of_append_eq (quotes_quotedBody t') (List.cons.inj h).2

theorem not_mem_quoted (t : Text) : unit '\n' ∉ quoted t := by
  unfold quoted
  rw [List.mem_cons, List.mem_append, List.mem_singleton, not_or, not_or]
  exact ⟨by decide, (quotes_quotedBody t).not_mem_newline, by decide⟩

end Lexis.Text
