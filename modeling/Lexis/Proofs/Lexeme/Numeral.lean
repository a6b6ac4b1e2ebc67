import Lexis.Proofs.Lexeme.Spelling

/-!
# Decimal numerals are read to their end

A successful reading of a decimal numeral is a run of four kinds of moves.  What
the moves read is spelled as a numeral, and no longer beginning of the text is.
-/

namespace Lexis.Numeral

open Text

/-- Successful reading: `Run point exponent rest tail k` reads `tail` at the
beginning of `rest`, after units that hold a point or an exponent as told, and
finds a numeral of kind `k`. -/
inductive Run : (point exponent : Bool) → (rest tail : Text) → Kind → Prop
  | stop {point exponent : Bool} {rest : Text}
      (h : ∀ u, rest.head? = some u →
        isDigit u = false ∧ (u = unit '.' → point = true) ∧ isMarker u = false) :
      Run point exponent rest [] (kind point exponent)
  | digit {point exponent : Bool} {u : UInt16} {rest tail : Text} {k : Kind}
      (hu : isDigit u) (h : Run point exponent rest tail k) :
      Run point exponent (u :: rest) (u :: tail) k
  | point {exponent : Bool} {rest tail : Text} {k : Kind} (h : Run true exponent rest tail k) :
      Run false exponent (unit '.' :: rest) (unit '.' :: tail) k
  | exponent {point : Bool} {marker digit : UInt16} {sign rest tail : Text} {k : Kind}
      (hmarker : isMarker marker) (hsign : IsSignPart sign) (hdigit : isDigit digit)
      (h : Run point true rest tail k) :
      Run point false (marker :: (sign ++ digit :: rest)) (marker :: (sign ++ digit :: tail)) k

theorem prepend_eq_ok {units tail : Text} {k : Kind} {r : Except Fault (Text × Kind)}
    (h : prepend units r = .ok (tail, k)) :
    ∃ later, r = .ok (later, k) ∧ tail = units ++ later := by
  cases r with
  | error fault => simp [prepend] at h
  | ok read =>
      obtain ⟨later, kind⟩ := read
      simp only [prepend, Except.ok.injEq, Prod.mk.injEq] at h
      obtain ⟨rfl, rfl⟩ := h
      exact ⟨later, rfl, rfl⟩

theorem run_of_decimalTail {point exponent : Bool} {rest tail : Text} {k : Kind}
    (h : decimalTail point exponent rest = .ok (tail, k)) : Run point exponent rest tail k := by
  fun_induction decimalTail point exponent rest generalizing tail with
  | case1 point exponent =>
      simp only [Except.ok.injEq, Prod.mk.injEq] at h
      obtain ⟨rfl, rfl⟩ := h
      exact .stop (by simp)
  | case2 point exponent u rest hu ih =>
      obtain ⟨later, hlater, rfl⟩ := prepend_eq_ok h
      exact .digit hu (ih hlater)
  | case3 point exponent u rest _ hpoint ih =>
      obtain ⟨rfl, rfl⟩ := hpoint
      obtain ⟨later, hlater, rfl⟩ := prepend_eq_ok h
      exact .point (ih hlater)
  | case4 => simp at h
  | case5 => simp at h
  | case6 point exponent u _ _ hmarker hexponent v rest hv ih =>
      obtain ⟨later, hlater, rfl⟩ := prepend_eq_ok h
      obtain rfl : exponent = false := by simpa using hexponent
      exact .exponent hmarker (.inl rfl) hv (ih hlater)
  | case7 => simp at h
  | case8 point exponent u _ _ hmarker hexponent s _ hs v rest hv ih =>
      obtain ⟨later, hlater, rfl⟩ := prepend_eq_ok h
      obtain rfl : exponent = false := by simpa using hexponent
      exact .exponent hmarker (.inr ⟨s, rfl, hs⟩) hv (ih hlater)
  | case9 => simp at h
  | case10 => simp at h
  | case11 point exponent u rest hdigit hpoint hmarker =>
      simp only [Except.ok.injEq, Prod.mk.injEq] at h
      obtain ⟨rfl, rfl⟩ := h
      refine .stop fun v hv ↦ ?_
      obtain rfl : u = v := by simpa using hv
      refine ⟨by simpa using hdigit, fun hu ↦ ?_, by simpa using hmarker⟩
      cases point with
      | true => rfl
      | false => exact absurd ⟨hu, rfl⟩ hpoint

/-! ## What the moves read -/

theorem not_isFigure_of_isMarker {u : UInt16} (h : isMarker u) : ¬ IsFigure u := by
  have hu : u = unit 'e' ∨ u = unit 'E' := by simpa [isMarker] using h
  rintro (hdigit | hpoint)
  · rcases hu with rfl | rfl <;> revert hdigit <;> decide
  · rcases hu with rfl | rfl <;> revert hpoint <;> decide

theorem isDigit_eq_false_of_isSign {u : UInt16} (h : isSign u) : isDigit u = false := by
  have hu : u = unit '-' ∨ u = unit '+' := by simpa [isSign] using h
  rcases hu with rfl | rfl <;> decide

theorem ne_point_of_isDigit {u : UInt16} (h : isDigit u) : u ≠ unit '.' := by
  rintro rfl
  revert h
  decide

theorem count_sign {sign : Text} (h : IsSignPart sign) : sign.count (unit '.') = 0 := by
  rcases h with rfl | ⟨s, rfl, hs⟩
  · rfl
  · have hu : s = unit '-' ∨ s = unit '+' := by simpa [isSign] using hs
    rcases hu with rfl | rfl <;> decide

theorem hasExponent_cons_of_isFigure {u : UInt16} {w : Text} (hu : IsFigure u) :
    HasExponent (u :: w) ↔ HasExponent w := by
  constructor
  · rintro ⟨before, marker, sign, digit, after, hw, hmarker, hsign, hdigit, hbefore, hafter⟩
    cases before with
    | nil =>
        obtain rfl : u = marker := by simpa using congrArg List.head? hw
        exact absurd hu (not_isFigure_of_isMarker hmarker)
    | cons v before =>
        simp only [List.cons_append, List.cons.injEq] at hw
        refine ⟨before, marker, sign, digit, after, hw.2, hmarker, hsign, hdigit, ?_, hafter⟩
        intro x hx
        exact hbefore x (List.mem_cons_of_mem v hx)
  · rintro ⟨before, marker, sign, digit, after, rfl, hmarker, hsign, hdigit, hbefore, hafter⟩
    refine ⟨u :: before, marker, sign, digit, after, rfl, hmarker, hsign, hdigit, ?_, hafter⟩
    intro x hx
    rcases List.mem_cons.mp hx with rfl | hx
    · exact hu
    · exact hbefore x hx

theorem figures_cons {exponent : Bool} {u : UInt16} {w : Text} (hu : IsFigure u) :
    Figures exponent (u :: w) ↔ Figures exponent w := by
  cases exponent with
  | false => simp [Figures, hu]
  | true => exact hasExponent_cons_of_isFigure hu

/-- A run of moves reads a beginning of the text. -/
theorem Run.isPrefix {point exponent : Bool} {rest tail : Text} {k : Kind}
    (h : Run point exponent rest tail k) : tail <+: rest := by
  induction h with
  | stop => exact List.nil_prefix
  | digit _ _ ih => exact (List.prefix_cons_inj _).mpr ih
  | point _ ih => exact (List.prefix_cons_inj _).mpr ih
  | exponent _ _ _ _ ih =>
      refine (List.prefix_cons_inj _).mpr ((List.prefix_append_right_inj _).mpr ?_)
      exact (List.prefix_cons_inj _).mpr ih

/-- The kind that a run finds tells the points and the exponent, those before it
included. -/
theorem Run.figures {point exponent : Bool} {rest tail : Text} {k : Kind}
    (h : Run point exponent rest tail k) :
    ∃ point' exponent', k = kind point' exponent' ∧
      point.toNat + tail.count (unit '.') = point'.toNat ∧
      (exponent = true → exponent' = true) ∧ Figures (exponent' && !exponent) tail := by
  induction h with
  | @stop point exponent _ _ =>
      exact ⟨point, exponent, rfl, by simp, id, by cases exponent <;> simp [Figures]⟩
  | digit hu _ ih =>
      obtain ⟨point', exponent', hk, hcount, hexponent, hfigures⟩ := ih
      refine ⟨point', exponent', hk, ?_, hexponent, (figures_cons (.inl hu)).mpr hfigures⟩
      rw [List.count_cons_of_ne (ne_point_of_isDigit hu)]
      exact hcount
  | point _ ih =>
      obtain ⟨point', exponent', hk, hcount, hexponent, hfigures⟩ := ih
      refine ⟨point', exponent', hk, ?_, hexponent, (figures_cons (.inr rfl)).mpr hfigures⟩
      simp only [List.count_cons_self, Bool.toNat_true, Bool.toNat_false] at hcount ⊢
      omega
  | @exponent point marker digit sign _ tail _ hmarker hsign hdigit _ ih =>
      obtain ⟨point', exponent', hk, hcount, hexponent, hfigures⟩ := ih
      obtain rfl : exponent' = true := hexponent rfl
      refine ⟨point', true, hk, ?_, by simp, ?_⟩
      · have hne : marker ≠ unit '.' := fun he ↦ not_isFigure_of_isMarker hmarker (.inr he)
        rw [List.count_cons_of_ne hne, List.count_append, count_sign hsign,
          List.count_cons_of_ne (ne_point_of_isDigit hdigit)]
        simpa using hcount
      · exact ⟨[], marker, sign, digit, tail, rfl, hmarker, hsign, hdigit, by simp, hfigures⟩

/-! ## No longer text is a numeral -/

/-- A text that continues a numeral which holds a point or an exponent as told. -/
def Continues (point exponent : Bool) (w : Text) : Prop :=
  point.toNat + w.count (unit '.') ≤ 1 ∧ (Figures false w ∨ exponent = false ∧ HasExponent w)

theorem Continues.tail {point exponent : Bool} {u : UInt16} {w : Text} (hu : isDigit u)
    (h : Continues point exponent (u :: w)) : Continues point exponent w := by
  obtain ⟨hcount, hfigures⟩ := h
  rw [List.count_cons_of_ne (ne_point_of_isDigit hu)] at hcount
  refine ⟨hcount, hfigures.imp ?_ fun hexp ↦ ⟨hexp.1, ?_⟩⟩
  · exact (figures_cons (.inl hu)).mp
  · exact (hasExponent_cons_of_isFigure (.inl hu)).mp hexp.2

theorem Continues.tail_of_point {point exponent : Bool} {w : Text}
    (h : Continues point exponent (unit '.' :: w)) : Continues true exponent w := by
  obtain ⟨hcount, hfigures⟩ := h
  rw [List.count_cons_self] at hcount
  refine ⟨?_, hfigures.imp ?_ fun hexp ↦ ⟨hexp.1, ?_⟩⟩
  · simp only [Bool.toNat_true]
    omega
  · exact (figures_cons (.inr rfl)).mp
  · exact (hasExponent_cons_of_isFigure (.inr rfl)).mp hexp.2

/-- After a marker only an exponent continues a numeral. -/
theorem Continues.tail_of_isMarker {point exponent : Bool} {marker : UInt16} {w : Text}
    (hmarker : isMarker marker) (h : Continues point exponent (marker :: w)) :
    ∃ sign digit after, w = sign ++ digit :: after ∧ IsSignPart sign ∧ isDigit digit ∧
      Continues point true after := by
  obtain ⟨hcount, hfigures | ⟨-, hexp⟩⟩ := h
  · exact absurd (hfigures marker List.mem_cons_self) (not_isFigure_of_isMarker hmarker)
  · obtain ⟨before, m, sign, digit, after, hw, hm, hsign, hdigit, hbefore, hafter⟩ := hexp
    cases before with
    | cons v before =>
        obtain rfl : marker = v := by simpa using congrArg List.head? hw
        exact absurd (hbefore marker List.mem_cons_self) (not_isFigure_of_isMarker hmarker)
    | nil =>
        simp only [List.nil_append, List.cons.injEq] at hw
        obtain ⟨rfl, rfl⟩ := hw
        refine ⟨sign, digit, after, rfl, hsign, hdigit, ?_, .inl hafter⟩
        simp only [List.count_cons, List.count_append] at hcount
        omega

/-- Only a digit, the first point or a marker continues a numeral. -/
theorem Continues.head {point exponent : Bool} {u : UInt16} {w : Text}
    (h : Continues point exponent (u :: w)) :
    isDigit u ∨ (u = unit '.' ∧ point = false) ∨ isMarker u := by
  have hfigure : IsFigure u ∨ isMarker u := by
    obtain ⟨-, hfigures | ⟨-, before, m, sign, digit, after, hw, hm, -, -, hbefore, -⟩⟩ := h
    · exact .inl (hfigures u List.mem_cons_self)
    · cases before with
      | nil =>
          obtain rfl : u = m := by simpa using congrArg List.head? hw
          exact .inr hm
      | cons v before =>
          obtain rfl : u = v := by simpa using congrArg List.head? hw
          exact .inl (hbefore u List.mem_cons_self)
  rcases hfigure with (hdigit | rfl) | hmarker
  · exact .inl hdigit
  · have hcount := h.1
    rw [List.count_cons_self] at hcount
    cases point with
    | true =>
        simp only [Bool.toNat_true] at hcount
        omega
    | false => exact .inr (.inl ⟨rfl, rfl⟩)
  · exact .inr (.inr hmarker)

/-- An exponent is read in one way only. -/
theorem sign_eq_of_isPrefix {sign sign' after rest : Text} {digit digit' : UInt16}
    (hsign : IsSignPart sign) (hsign' : IsSignPart sign') (hdigit : isDigit digit)
    (hdigit' : isDigit digit') (h : sign' ++ digit' :: after <+: sign ++ digit :: rest) :
    sign' = sign ∧ after <+: rest := by
  rcases hsign with rfl | ⟨s, rfl, hs⟩
  · rcases hsign' with rfl | ⟨s', rfl, hs'⟩
    · simp only [List.nil_append, List.cons_prefix_cons] at h
      exact ⟨rfl, h.2⟩
    · simp only [List.cons_append, List.nil_append, List.cons_prefix_cons] at h
      rw [← h.1, isDigit_eq_false_of_isSign hs'] at hdigit
      simp at hdigit
  · rcases hsign' with rfl | ⟨s', rfl, hs'⟩
    · simp only [List.cons_append, List.nil_append, List.cons_prefix_cons] at h
      rw [h.1, isDigit_eq_false_of_isSign hs] at hdigit'
      simp at hdigit'
    · simp only [List.cons_append, List.nil_append, List.cons_prefix_cons] at h
      exact ⟨by rw [h.1], h.2.2⟩

/-- A run of moves reads the longest text that continues the numeral. -/
theorem Run.length_le {point exponent : Bool} {rest tail w : Text} {k : Kind}
    (h : Run point exponent rest tail k) (hw : w <+: rest) (hc : Continues point exponent w) :
    w.length ≤ tail.length := by
  induction h generalizing w with
  | stop hstop =>
      cases w with
      | nil => simp
      | cons u w =>
          obtain ⟨after, rfl⟩ := hw
          obtain ⟨hdigit, hpoint, hmarker⟩ := hstop u rfl
          rcases hc.head with h | ⟨h, hfalse⟩ | h
          · simp [hdigit] at h
          · simp [hpoint h] at hfalse
          · simp [hmarker] at h
  | digit hu _ ih =>
      cases w with
      | nil => simp
      | cons v w =>
          obtain ⟨rfl, hrest⟩ := List.cons_prefix_cons.mp hw
          simpa using ih hrest (hc.tail hu)
  | point _ ih =>
      cases w with
      | nil => simp
      | cons v w =>
          obtain ⟨rfl, hrest⟩ := List.cons_prefix_cons.mp hw
          simpa using ih hrest hc.tail_of_point
  | exponent hmarker hsign hdigit _ ih =>
      cases w with
      | nil => simp
      | cons v w =>
          obtain ⟨rfl, hrest⟩ := List.cons_prefix_cons.mp hw
          obtain ⟨sign', digit', after, rfl, hsign', hdigit', hafter⟩ := hc.tail_of_isMarker hmarker
          obtain ⟨rfl, hlater⟩ := sign_eq_of_isPrefix hsign hsign' hdigit hdigit' hrest
          have hle := ih hlater hafter
          simp only [List.length_cons, List.length_append]
          omega

/-! ## Whole numerals -/

theorem run_of_decimal {u : UInt16} {rest : Text} {x : Lexeme} (h : decimal u rest = .ok x) :
    ∃ tail k, Run (u == unit '.') false rest tail k ∧ x = .plain k u tail := by
  unfold decimal at h
  cases hread : decimalTail (u == unit '.') false rest with
  | error fault =>
      rw [hread] at h
      simp [Except.map] at h
  | ok read =>
      obtain ⟨tail, k⟩ := read
      rw [hread] at h
      simp only [Except.map, Except.ok.injEq] at h
      exact ⟨tail, k, run_of_decimalTail hread, h.symm⟩

theorem Run.head?_eq {point exponent : Bool} {v : UInt16} {rest tail : Text} {k : Kind}
    (hv : isDigit v) (h : Run point exponent (v :: rest) tail k) : tail.head? = some v := by
  cases h with
  | stop hstop =>
      have hfalse := (hstop v rfl).1
      simp [hv] at hfalse
  | digit => rfl
  | point => rfl
  | exponent => rfl

/-- A decimal numeral that is read is spelled as one. -/
theorem isDecimal_of_decimal {u : UInt16} {rest : Text} {x : Lexeme}
    (hu : isDigit u ∨ u = unit '.' ∧ rest.head?.any isDigit) (h : decimal u rest = .ok x) :
    ∃ tail point exponent, tail <+: rest ∧ x = .plain (kind point exponent) u tail ∧
      IsDecimal point exponent (u :: tail) := by
  obtain ⟨tail, k, hrun, rfl⟩ := run_of_decimal h
  obtain ⟨point, exponent, rfl, hcount, -, hfigures⟩ := hrun.figures
  rw [Bool.not_false, Bool.and_true] at hfigures
  refine ⟨tail, point, exponent, hrun.isPrefix, rfl, ?_, ?_, ?_⟩
  · refine ⟨u, tail, rfl, hu.imp_right fun hpoint ↦ ⟨hpoint.1, ?_⟩⟩
    cases rest with
    | nil => simp at hpoint
    | cons v rest =>
        have hv : isDigit v := by simpa using hpoint.2
        exact ⟨v, hrun.head?_eq hv, hv⟩
  · exact (figures_cons (hu.imp_right And.left)).mpr hfigures
  · rw [List.count_cons, ← hcount]
    cases u == unit '.' with
    | false => simp
    | true => simp [Nat.add_comm]

theorem continues_of_isDecimal {point exponent : Bool} {u : UInt16} {w : Text}
    (h : IsDecimal point exponent (u :: w)) : Continues (u == unit '.') false w := by
  have hu : IsFigure u := by
    obtain ⟨v, tail, hv, hfirst⟩ := h.begins
    obtain ⟨rfl, rfl⟩ : u = v ∧ w = tail := by simpa using hv
    exact hfirst.imp_right And.left
  constructor
  · have hpoints := h.points
    rw [List.count_cons] at hpoints
    have hle : point.toNat ≤ 1 := Bool.toNat_le point
    generalize (u == unit '.') = isPoint at hpoints ⊢
    cases isPoint <;> simp at hpoints ⊢ <;> omega
  · have hfigures := (figures_cons hu).mp h.figures
    cases exponent with
    | false => exact .inl hfigures
    | true => exact .inr ⟨rfl, hfigures⟩

/-- No longer beginning of the text is a decimal numeral. -/
theorem length_le_of_decimal {point exponent : Bool} {u : UInt16} {rest w : Text} {x : Lexeme}
    (h : decimal u rest = .ok x) (hw : w <+: rest) (hdecimal : IsDecimal point exponent (u :: w)) :
    w.length ≤ x.extra := by
  obtain ⟨tail, k, hrun, rfl⟩ := run_of_decimal h
  exact hrun.length_le hw (continues_of_isDecimal hdecimal)

/-- The points and the exponent of a numeral are in its text. -/
theorem isDecimal_unique {point exponent point' exponent' : Bool} {w : Text}
    (h : IsDecimal point exponent w) (h' : IsDecimal point' exponent' w) :
    point = point' ∧ exponent = exponent' := by
  have hplain : Figures false w → ¬ HasExponent w := by
    rintro hw ⟨before, marker, sign, digit, after, rfl, hmarker, -⟩
    exact not_isFigure_of_isMarker hmarker (hw marker (by simp))
  constructor
  · have hpoints := h.points.symm.trans h'.points
    cases point <;> cases point' <;> simp_all
  · cases exponent <;> cases exponent'
    · rfl
    · exact absurd h'.figures (hplain h.figures)
    · exact absurd h.figures (hplain h'.figures)
    · rfl

theorem spelling_kind {point exponent : Bool} {w : Text} :
    (kind point exponent).Spelling w ↔ IsDecimal point exponent w := by
  cases point <;> cases exponent <;> rfl

end Lexis.Numeral
