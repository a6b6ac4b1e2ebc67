import Lexis.Proofs.Lexeme.Cut
import Lexis.Proofs.Lexeme.Fault

/-!
# Recognising before a blank

No lexeme but a string or a comment has a blank in it, and those two say by
themselves where they end.  So a lexeme is still recognised when a blank and any
other text are put behind it.  Only a line comment would go on: it needs a newline.
-/

namespace Lexis

open Text

def blanks : Text := [unit ' ', unit '\t', unit '\r']

theorem isBlank_iff_mem_blanks {u : UInt16} : isBlank u ↔ u ∈ blanks := by
  simp [isBlank, blanks, or_assoc]

def BlankAhead (text : Text) : Prop := ∀ u, text.head? = some u → u ∈ blanks

theorem BlankAhead.head {b : Text} {P : UInt16 → Prop} [DecidablePred P] (h : BlankAhead b)
    (hblanks : blanks.all (decide <| P ·) = true) (u : UInt16) (hu : b.head? = some u) : P u :=
  of_decide_eq_true (List.all_eq_true.mp hblanks u (h u hu))

theorem takeWhile_eq_nil {p : UInt16 → Bool} {b : Text}
    (hstop : ∀ u, b.head? = some u → p u = false) : b.takeWhile p = [] := by
  cases b with
  | nil => rfl
  | cons u b => exact List.takeWhile_cons_of_neg (by simp [hstop u rfl])

theorem takeWhile_eq_left {p : UInt16 → Bool} {a b : Text} (ha : ∀ u ∈ a, p u)
    (hstop : ∀ u, b.head? = some u → p u = false) : (a ++ b).takeWhile p = a := by
  rw [List.takeWhile_append_of_pos ha, takeWhile_eq_nil hstop, List.append_nil]

theorem takeWhile_append_of_stop {p : UInt16 → Bool} {a b : Text}
    (hstop : ∀ u, b.head? = some u → p u = false) : (a ++ b).takeWhile p = a.takeWhile p := by
  rw [List.takeWhile_append, takeWhile_eq_nil hstop, List.append_nil]
  split
  · next hall => exact ((List.takeWhile_prefix p).eq_of_length hall).symm
  · rfl

/-- What may come behind a lexeme of a kind: a newline behind a line comment, and a
blank behind all others. -/
def Kind.EndsBefore (k : Kind) (after : Text) : Prop :=
  if k = .lineComment then ∀ u, after.head? = some u → u = unit '\n' else BlankAhead after

theorem Kind.EndsBefore.blankAhead {k : Kind} {after : Text} (h : k.EndsBefore after)
    (hk : k ≠ .lineComment) : BlankAhead after := by
  rwa [EndsBefore, if_neg hk] at h

theorem Kind.EndsBefore.newline {k : Kind} {after : Text} (h : k.EndsBefore after)
    (hk : k = .lineComment) : ∀ u, after.head? = some u → u = unit '\n' := by
  rwa [EndsBefore, if_pos hk] at h

theorem Punctuation.joins_eq_false_of_mem_blanks {u v : UInt16} (hv : v ∈ blanks) :
    joins u v = false := by
  cases hjoins : joins u v with
  | false => rfl
  | true =>
      obtain ⟨p, hp⟩ := Option.isSome_iff_exists.mp (isSome_ofText?_of_joins hjoins)
      have hunits : p.units.all (!isBlank ·) = true := by cases p <;> decide
      rw [units_of_ofText? hp] at hunits
      simp [isBlank_iff_mem_blanks.mpr hv] at hunits

/-! ## String literals -/

namespace Literal

variable {a b : Text}

theorem codePoint_append (hb : BlankAhead b) (limit : Nat) :
    codePoint limit (a ++ b) = codePoint limit a := by
  have hdigits : ((a ++ b).take limit).takeWhile isHexDigit =
      (a.take limit).takeWhile isHexDigit := by
    rw [List.take_append]
    apply takeWhile_append_of_stop
    intro u hu
    apply hb.head (by decide) u
    rw [List.head?_take] at hu
    split at hu
    · simp at hu
    · exact hu
  unfold codePoint
  rw [hdigits]

theorem escape_append (hb : BlankAhead b) (marker : UInt16) :
    escape marker (a ++ b) = escape marker a := by
  unfold escape
  rw [codePoint_append hb, codePoint_append hb]

theorem body_append {quote : UInt16} {skip n : Nat} {value : Text} (hb : BlankAhead b)
    (h : body quote skip a = .ok (value, n)) : body quote skip (a ++ b) = .ok (value, n) := by
  fun_induction body quote skip a generalizing value n with
  | case1 => simp at h
  | case2 skip u rest ih =>
      obtain ⟨later, taken, hlater, rfl, rfl⟩ := prepend_eq_ok h
      rw [List.cons_append, body, ih hlater]
      rfl
  | case3 rest => rw [List.cons_append, body_quote, h]
  | case4 => simp at h
  | case5 => simp at h
  | case6 marker rest text taken hescape hfree ih =>
      obtain ⟨later, length, hlater, rfl, rfl⟩ := prepend_eq_ok h
      rw [List.cons_append, List.cons_append, body_escape hfree, escape_append hb, hescape]
      dsimp only
      rw [ih hlater]
      rfl
  | case7 u rest hfree hslash ih =>
      obtain ⟨later, taken, hlater, rfl, rfl⟩ := prepend_eq_ok h
      rw [List.cons_append, body_plain hfree hslash, ih hlater]
      rfl

theorem string_append {quote : UInt16} {x : Lexeme} (hb : BlankAhead b)
    (h : string quote a = .ok x) : string quote (a ++ b) = .ok x := by
  unfold string at h ⊢
  cases hbody : body quote 0 a with
  | error fault =>
      rw [hbody] at h
      simp [Except.map] at h
  | ok read =>
      obtain ⟨value, n⟩ := read
      rw [body_append hb hbody, ← hbody]
      exact h

end Literal

/-! ## Numerals -/

namespace Numeral

variable {a b : Text}

theorem Run.append {point exponent : Bool} {tail : Text} {k : Kind} (hb : BlankAhead b)
    (h : Run point exponent a tail k) : Run point exponent (a ++ b) tail k := by
  induction h with
  | @stop point exponent rest hstop =>
      refine .stop fun u hu ↦ ?_
      cases rest with
      | nil =>
          have hends : isDigit u = false ∧ u ≠ unit '.' ∧ isMarker u = false :=
            hb.head (P := fun u ↦ isDigit u = false ∧ u ≠ unit '.' ∧ isMarker u = false)
              (by decide) u hu
          exact ⟨hends.1, fun hpoint ↦ absurd hpoint hends.2.1, hends.2.2⟩
      | cons v rest => exact hstop u hu
  | digit hu _ ih => exact .digit hu ih
  | point _ ih => exact .point ih
  | @exponent point marker digit sign rest tail k hmarker hsign hdigit _ ih =>
      have hrun := Run.exponent hmarker hsign hdigit ih
      simpa using hrun

theorem decimal_append {u : UInt16} {x : Lexeme} (hb : BlankAhead b)
    (h : decimal u a = .ok x) : decimal u (a ++ b) = .ok x := by
  obtain ⟨tail, k, hrun, rfl⟩ := run_of_decimal h
  rw [decimal, decimalTail_of_run (hrun.append hb)]
  rfl

theorem based?_append (hb : BlankAhead b) (u : UInt16) : based? u (a ++ b) = based? u a := by
  cases a with
  | nil =>
      cases b with
      | nil => rfl
      | cons v b =>
          have hmarker : ¬ (v = unit 'x' ∨ v = unit 'X') ∧ ¬ (v = unit 'b' ∨ v = unit 'B') :=
            hb.head (P := fun v ↦ ¬ (v = unit 'x' ∨ v = unit 'X') ∧ ¬ (v = unit 'b' ∨ v = unit 'B'))
              (by decide) v rfl
          simp only [List.nil_append, based?, hmarker.1, hmarker.2, if_false, ite_self]
  | cons marker a =>
      have hhex : (a ++ b).takeWhile isHexDigit = a.takeWhile isHexDigit :=
        takeWhile_append_of_stop (hb.head (by decide))
      have hbinary : (a ++ b).takeWhile isBinaryDigit = a.takeWhile isBinaryDigit :=
        takeWhile_append_of_stop (hb.head (by decide))
      rw [List.cons_append, based?, based?, hhex, hbinary]

end Numeral

namespace Lexeme

variable {a b : Text} {x : Lexeme}

theorem numeral_append {u : UInt16} (hb : BlankAhead b) (h : numeral u a = .ok x) :
    numeral u (a ++ b) = .ok x := by
  unfold numeral at h ⊢
  rw [Numeral.based?_append hb]
  split at h
  · exact h
  · exact Numeral.decimal_append hb h

/-! ## Words, comments and punctuation -/

theorem word_append (hb : BlankAhead b) (u : UInt16) : word u (a ++ b) = word u a := by
  unfold word
  rw [takeWhile_append_of_stop (hb.head (by decide))]

theorem throughClose?_append {tail : Text} (h : throughClose? a = some tail) :
    throughClose? (a ++ b) = some tail := by
  fun_induction throughClose? a generalizing tail with
  | case1 => simp at h
  | case2 => simp at h
  | case3 u v rest hclose =>
      rw [List.cons_append, List.cons_append, throughClose?, if_pos hclose]
      exact h
  | case4 u v rest hopen ih =>
      obtain ⟨later, hlater, rfl⟩ := Option.map_eq_some_iff.mp h
      rw [List.cons_append, List.cons_append, throughClose?, if_neg hopen, ← List.cons_append,
        ih hlater]
      rfl

theorem blockComment_append {keep : Bool} {u v : UInt16} (h : blockComment keep u v a = .ok x) :
    blockComment keep u v (a ++ b) = .ok x := by
  unfold blockComment at h ⊢
  split at h
  · next tail hclose =>
    rw [throughClose?_append hclose]
    exact h
  · simp at h

theorem slash_append {keep : Bool} (hb : x.kind.EndsBefore b)
    (h : slash keep (unit '/') a = .ok x) : slash keep (unit '/') (a ++ b) = .ok x := by
  cases a with
  | nil =>
      cases h
      cases b with
      | nil => rfl
      | cons v b =>
          have hopens : v ≠ unit '/' ∧ v ≠ unit '*' :=
            (hb.blankAhead (by decide)).head (P := fun v ↦ v ≠ unit '/' ∧ v ≠ unit '*')
              (by decide) v rfl
          rw [List.nil_append, slash, if_neg hopens.1, if_neg hopens.2]
  | cons v a =>
      rw [slash] at h
      rw [List.cons_append, slash]
      split at h
      · next hv =>
        cases h
        rw [if_pos hv, lineComment, lineComment, ← List.cons_append, takeWhile_append_of_stop]
        intro u hu
        simp [hb.newline rfl u hu]
      · next hv =>
        rw [if_neg hv]
        split at h
        · next hblock =>
          rw [if_pos hblock]
          exact blockComment_append h
        · next hblock =>
          rw [if_neg hblock]
          exact h

theorem dots_append (hb : BlankAhead b) : dots (a ++ b) = dots a := by
  have hdot : b.head? ≠ some (unit '.') := by
    intro hhead
    exact hb.head (P := (· ≠ unit '.')) (by decide) _ hhead rfl
  unfold dots
  match a with
  | [] =>
      rw [List.nil_append, if_neg hdot]
      rfl
  | [v] =>
      rw [List.cons_append, List.nil_append, List.tail_cons, if_neg hdot]
      rfl
  | v :: w :: a => rfl

theorem operator_append (hb : BlankAhead b) (u : UInt16) : operator u (a ++ b) = operator u a := by
  have htail : ((a ++ b).take 1).filter (Punctuation.joins u) =
      (a.take 1).filter (Punctuation.joins u) := by
    cases a with
    | cons v a => rfl
    | nil =>
        cases b with
        | nil => rfl
        | cons v b => simp [Punctuation.joins_eq_false_of_mem_blanks (hb v rfl)]
  unfold operator
  rw [htail]

theorem point_append {u : UInt16} (hb : BlankAhead b)
    (h : (if a.head?.any isDigit then Numeral.decimal u a else .ok (punctuation (dots a))) =
      .ok x) :
    (if (a ++ b).head?.any isDigit then Numeral.decimal u (a ++ b)
      else .ok (punctuation (dots (a ++ b)))) = .ok x := by
  have hdigit : (a ++ b).head?.any isDigit = a.head?.any isDigit := by
    cases a with
    | cons v a => rfl
    | nil =>
        cases b with
        | nil => rfl
        | cons v b =>
            have hblank : isDigit v = false :=
              hb.head (P := fun v ↦ isDigit v = false) (by decide) v rfl
            simp [hblank]
  rw [hdigit, dots_append hb]
  split at h
  · next hpoint =>
    rw [if_pos hpoint]
    exact Numeral.decimal_append hb h
  · next hpoint =>
    rw [if_neg hpoint]
    exact h

/-- A lexeme is recognised in the same way when another text is put behind it, as
long as a blank or, for a line comment, a newline parts them. -/
theorem recognise_append {keep : Bool} {u : UInt16} (hb : x.kind.EndsBefore b)
    (h : recognise keep u a = .ok x) : recognise keep u (a ++ b) = .ok x := by
  by_cases hslash : u = unit '/'
  · subst hslash
    exact slash_append hb h
  have hb : BlankAhead b := by
    apply hb.blankAhead
    intro hkind
    obtain ⟨tail, hreads⟩ := reads_of_recognise h
    have hcomment := hreads.spelling
    rw [hkind] at hcomment
    exact hslash (IsLineComment.head_eq hcomment)
  unfold recognise at h ⊢
  rw [if_neg hslash] at h ⊢
  rw [word_append hb, operator_append hb]
  split at h
  · next hquote =>
    rw [if_pos hquote]
    exact Literal.string_append hb h
  next hquote =>
  rw [if_neg hquote]
  split at h
  · next hdigit =>
    rw [if_pos hdigit]
    exact numeral_append hb h
  next hdigit =>
  rw [if_neg hdigit]
  split at h
  · next hpoint =>
    rw [if_pos hpoint]
    exact point_append hb h
  · next hpoint =>
    rw [if_neg hpoint]
    exact h

end Lexeme

end Lexis
