import Lexis.Proofs.Cursor.Position
import Lexis.Proofs.Lexeme.Cut
import Lexis.Proofs.Run.Course

/-!
# Where a run fails

A run that fails does so where a token begins.  The same run over the part of the
source text before this token comes to its end and gives out the same tokens.
-/

namespace Lexis

open Text

namespace Cursor

/-- The cursor with an end of the input at this offset. -/
def upTo (c : Cursor) (offset : Nat) : Cursor :=
  { c with rest := c.rest.take (offset - c.offset) }

@[simp] theorem upTo_start (source : Text) (n : Nat) :
    (start source).upTo n = start (source.take n) := rfl

theorem upTo_offset (c : Cursor) : (c.upTo c.offset).rest = [] := by
  simp [upTo]

variable {c next : Cursor} {n offset : Nat}

theorem step_upTo (hn : c.offset < offset) : (c.upTo offset).step = c.step.upTo offset := by
  obtain ⟨m, hm⟩ : ∃ m, offset - c.offset = m + 1 := ⟨offset - c.offset - 1, by omega⟩
  have hrest : offset - (c.offset + 1) = m := by omega
  unfold step upTo
  rw [hm]
  cases hcons : c.rest with
  | nil => simp [hcons]
  | cons u rest =>
      rw [List.take_succ_cons]
      by_cases hu : u = unit '\n'
      · simp only [hu, if_true, hrest]
      · simp only [hu, if_false, hrest]

theorem advance_upTo (hlength : n ≤ c.rest.length) (hn : c.offset + n ≤ offset) :
    (c.upTo offset).advance n = (c.advance n).upTo offset := by
  induction n generalizing c with
  | zero => rfl
  | succ n ih =>
      have hrest : c.rest ≠ [] := List.ne_nil_of_length_pos (by omega)
      have hstep := offset_step hrest
      rw [advance, advance, step_upTo (by omega)]
      apply ih
      · rw [rest_step, List.length_drop]
        omega
      · omega

theorem skipBlanks_upTo (h : c.skipBlanks.offset ≤ offset) :
    (c.upTo offset).skipBlanks = c.skipBlanks.upTo offset := by
  have hlength := c.length_blanks_le
  rw [skipBlanks, offset_advance hlength] at h
  have hblanks : (c.upTo offset).rest.takeWhile isBlank = c.rest.takeWhile isBlank :=
    takeWhile_take (by omega)
  rw [skipBlanks, skipBlanks, hblanks, advance_upTo hlength h]

theorem scan_upTo {t : Token} (h : c.scan true = .ok (some (t, next)))
    (hnext : next.offset ≤ offset) :
    (c.upTo offset).scan true = .ok (some (t, next.upTo offset)) := by
  obtain ⟨u, rest, x, hrest, hx, rfl, rfl⟩ := scanHere_eq_some h
  obtain ⟨tail, hreads⟩ := Lexeme.reads_of_recognise hx
  have hextra : x.extra ≤ rest.length := by
    rw [hreads.extra]
    exact hreads.isPrefix.length_le
  have hlength : x.extra + 1 ≤ c.skipBlanks.rest.length := by
    rw [hrest, List.length_cons]
    omega
  rw [offset_advance hlength] at hnext
  obtain ⟨m, hm⟩ : ∃ m, offset - c.skipBlanks.offset = m + 1 :=
    ⟨offset - c.skipBlanks.offset - 1, by omega⟩
  have hcut : (c.skipBlanks.upTo offset).rest = u :: rest.take m := by
    rw [upTo, hrest, hm, List.take_succ_cons]
  have hshort : Lexeme.recognise true u (rest.take m) = .ok x := by
    apply Lexeme.recognise_of_append (b := rest.drop m)
    · rw [List.take_append_drop]
      exact hx
    · rw [List.length_take]
      omega
  rw [scan, skipBlanks_upTo (by omega), scanHere_of_recognise hcut hshort,
    advance_upTo hlength hnext]
  rfl

/-- A run fails where a token begins, and comes to its end when the input ends
there. -/
theorem exists_failure {source : Text} {e : LexError} (hc : c.At source)
    (h : c.course.ending = .error e) :
    ∃ d : Cursor, d.At source ∧ c.offset ≤ d.offset ∧ d.scanHere true = .error e ∧
      (c.upTo d.offset).course = ⟨c.course.tokens, .ok .exhausted⟩ := by
  induction c using Cursor.course.induct with
  | case1 c e' hscan =>
      rw [course_of_scan_error hscan] at h ⊢
      obtain rfl := Except.error.inj h
      -- With the input cut off here, nothing but blanks is left.
      refine ⟨c.skipBlanks, hc.skipBlanks, c.offset_le_skipBlanks, hscan, ?_⟩
      apply course_of_scan_none
      rw [scan, skipBlanks_upTo (Nat.le_refl _), scanHere, upTo_offset]
  | case2 c hscan =>
      rw [course_of_scan_none hscan] at h
      simp at h
  | case3 c t next hscan ih =>
      rw [course_of_scan_some hscan] at h ⊢
      obtain ⟨hnext, n, -, hle, hlt, -⟩ := hc.of_scan hscan
      obtain ⟨d, hd, hoffset, hfails, hcourse⟩ := ih hnext h
      refine ⟨d, hd, by omega, hfails, ?_⟩
      rw [course_of_scan_some (scan_upTo hscan hoffset), hcourse]
      rfl

end Cursor

end Lexis
