import Lexis.Proofs.Run.Failure
import Lexis.Proofs.Run.Tiling

/-!
# Cutting a source text behind a token

A run over the text up to the end of a token gives out the tokens up to this one.
A run over the text behind it gives out those that follow: a scan depends on nothing
but the unread text, and the offset and the position only say where its token
stands.
-/

namespace Lexis

open Text

/-- A token without its position, with its offsets counted from another offset. -/
def Token.seenFrom (offset : Int) (t : Token) : Kind × Text × Int × Int :=
  (t.kind, t.value, t.first - offset, t.last - offset)

namespace Cursor

variable {c d next : Cursor} {t : Token} {shift : Int} {n : Nat}

/-- Two cursors before the same text, the first of them `shift` units further on. -/
structure Twin (shift : Int) (c d : Cursor) : Prop where
  rest_eq : c.rest = d.rest
  offset_eq : (c.offset : Int) = d.offset + shift

namespace Twin

theorem advance (h : Twin shift c d) (hn : n ≤ c.rest.length) :
    Twin shift (c.advance n) (d.advance n) := by
  have hd : n ≤ d.rest.length := h.rest_eq ▸ hn
  have hoffset := h.offset_eq
  constructor
  · rw [rest_advance, rest_advance, h.rest_eq]
  · rw [offset_advance hn, offset_advance hd]
    omega

theorem skipBlanks (h : Twin shift c d) : Twin shift c.skipBlanks d.skipBlanks := by
  have hblanks : (d.rest.takeWhile isBlank).length = (c.rest.takeWhile isBlank).length := by
    rw [h.rest_eq]
  rw [Cursor.skipBlanks, Cursor.skipBlanks, hblanks]
  exact h.advance c.length_blanks_le

theorem seenFrom_token (h : Twin shift c d) (x : Lexeme) :
    (d.token x).seenFrom 0 = (c.token x).seenFrom shift := by
  have hoffset := h.offset_eq
  simp only [Token.seenFrom, token, Prod.mk.injEq, true_and]
  omega

theorem scan (h : Twin shift c d) (hscan : c.scan true = .ok (some (t, next))) :
    ∃ (s : Token) (after : Cursor), d.scan true = .ok (some (s, after)) ∧
      s.seenFrom 0 = t.seenFrom shift ∧ Twin shift next after := by
  obtain ⟨u, rest, x, hrest, hx, rfl, rfl⟩ := scanHere_eq_some hscan
  obtain ⟨tail, hreads⟩ := Lexeme.reads_of_recognise hx
  have hextra : x.extra + 1 ≤ c.skipBlanks.rest.length := by
    have hle := hreads.isPrefix.length_le
    rw [hrest, hreads.extra, List.length_cons]
    omega
  have hsame : d.skipBlanks.rest = u :: rest := h.skipBlanks.rest_eq ▸ hrest
  exact ⟨_, _, scanHere_of_recognise hsame hx, h.skipBlanks.seenFrom_token x,
    h.skipBlanks.advance hextra⟩

theorem scan_eq_none (h : Twin shift c d) (hscan : c.scan true = .ok none) :
    d.scan true = .ok none := by
  have hnil : d.skipBlanks.rest = [] := h.skipBlanks.rest_eq ▸ rest_eq_nil_of_scanHere hscan
  rw [Cursor.scan, scanHere, hnil]

/-- Runs from two such cursors give out the same tokens, `shift` units apart. -/
theorem course (h : Twin shift c d) {reason : StopReason}
    (hend : c.course.ending = .ok reason) :
    d.course.ending = .ok reason ∧
      d.course.tokens.map (Token.seenFrom 0) = c.course.tokens.map (Token.seenFrom shift) := by
  induction c using Cursor.course.induct generalizing d with
  | case1 c e hscan =>
      rw [course_of_scan_error hscan] at hend
      simp at hend
  | case2 c hscan =>
      rw [course_of_scan_none hscan] at hend ⊢
      rw [course_of_scan_none (h.scan_eq_none hscan)]
      exact ⟨hend, rfl⟩
  | case3 c t next hscan ih =>
      obtain ⟨s, after, hafter, hs, hnext⟩ := h.scan hscan
      rw [course_of_scan_some hscan] at hend ⊢
      rw [course_of_scan_some hafter]
      obtain ⟨hending, htokens⟩ := ih hnext hend
      refine ⟨hending, ?_⟩
      rw [Course.tokens_cons, Course.tokens_cons, List.map_cons, List.map_cons, hs, htokens]

end Twin

theorem course_of_rest_eq_nil (h : c.rest = []) : c.course = ⟨[], .ok .exhausted⟩ := by
  apply course_of_scan_none
  have hskip : c.skipBlanks.rest = [] := by simp [skipBlanks, h]
  rw [scan, scanHere, hskip]

/-- Behind each token that a run gives out stands a cursor.  With an end of the input
there, the run ends with this token; from there on, it goes on with the next one. -/
theorem exists_boundary {source : Text} {k : Nat} (hc : c.In source)
    (hk : c.course.tokens[k]? = some t) :
    ∃ d : Cursor, d.In source ∧ c.offset ≤ d.offset ∧ d.offset = t.last + 1 ∧
      (c.upTo d.offset).course = ⟨c.course.tokens.take (k + 1), .ok .exhausted⟩ ∧
      d.course = ⟨c.course.tokens.drop (k + 1), c.course.ending⟩ := by
  induction c using Cursor.course.induct generalizing k with
  | case1 c e hscan => simp [course_of_scan_error hscan] at hk
  | case2 c hscan => simp [course_of_scan_none hscan] at hk
  | case3 c s next hscan ih =>
      obtain ⟨hnext, hfirst, -, hoffset, hrecognised⟩ := scanned_of_scan hc hscan
      have hle : c.offset ≤ next.offset := by
        obtain ⟨m, u, rest, x, -, -, -, -, hm, hlast⟩ := hrecognised
        omega
      rw [course_of_scan_some hscan] at hk ⊢
      cases k with
      | zero =>
          -- The scan of this token does not look behind it.
          obtain rfl : s = t := by simpa using hk
          refine ⟨next, hnext, hle, hoffset, ?_, rfl⟩
          rw [course_of_scan_some (scan_upTo hscan (Nat.le_refl _)),
            course_of_rest_eq_nil (upTo_offset next)]
          rfl
      | succ k =>
          obtain ⟨d, hd, hbehind, hlast, hbefore, hafter⟩ := ih hnext (by simpa using hk)
          refine ⟨d, hd, by omega, hlast, ?_, hafter⟩
          rw [course_of_scan_some (scan_upTo hscan hbehind), hbefore]
          rfl

end Cursor

/-! ## A single token -/

theorem Punctuation.not_isBlank_head (p : Punctuation) : p.units.head?.any isBlank = false := by
  cases p <;> decide

theorem Lexeme.isBlank_eq_false {keep : Bool} {u : UInt16} {rest : Text} {x : Lexeme}
    (h : recognise keep u rest = .ok x) : isBlank u = false := by
  cases hblank : isBlank u with
  | false => rfl
  | true =>
      -- Only an operator is looked for at a blank, and none begins with one.
      have hoperator : recognise keep u rest = operator u rest := by
        simp only [isBlank, Bool.or_eq_true, beq_iff_eq] at hblank
        rcases hblank with (rfl | rfl) | rfl <;> rfl
      rw [hoperator, operator] at h
      split at h
      · next p hp =>
        have hhead := p.not_isBlank_head
        rw [Punctuation.units_of_ofText? hp] at hhead
        simp [hblank] at hhead
      · simp at h

/-- A text that is recognised as a whole is a token on its own. -/
theorem Cursor.course_start_of_recognise {u : UInt16} {tail : Text} {x : Lexeme}
    (h : Lexeme.recognise true u tail = .ok x) (hx : x.extra = tail.length) :
    (start (u :: tail)).course =
      ⟨[⟨x.kind, ⟨1, 1⟩, 0, tail.length, x.value⟩], .ok .exhausted⟩ := by
  have hskip : (start (u :: tail)).skipBlanks = start (u :: tail) := by
    simp [skipBlanks, start, Lexeme.isBlank_eq_false h, advance]
  have hscan : (start (u :: tail)).scan true =
      .ok (some ((start (u :: tail)).token x, (start (u :: tail)).advance (x.extra + 1))) := by
    rw [scan, hskip]
    exact scanHere_of_recognise rfl h
  rw [course_of_scan_some hscan, course_of_rest_eq_nil (by simp [start, hx])]
  simp [Course.cons, token, start, position, hx]

theorem Token.Recognised.course_spelling {source : Text} {t : Token}
    (h : t.Recognised true source) :
    (Cursor.start (t.spelling source)).course =
      ⟨[⟨t.kind, ⟨1, 1⟩, 0, t.last - t.first, t.value⟩], .ok .exhausted⟩ := by
  obtain ⟨n, u, rest, tail, x, -, hx, hreads, htext, hkind, hvalue, hfirst, hlast⟩ := h.reads
  obtain ⟨after, rfl⟩ := hreads.isPrefix
  have halone : Lexeme.recognise true u tail = .ok x :=
    Lexeme.recognise_of_append hx (Nat.le_of_eq hreads.extra)
  have hlength : t.last - t.first = tail.length := by omega
  rw [htext, Cursor.course_start_of_recognise halone hreads.extra, hkind, hvalue, hlength]

end Lexis
