import Lexis.Proofs.Cursor.Scan

/-!
# The position of an offset

The position of an offset is a count over the units before it.  A cursor carries
it along: each unit that the cursor passes changes both in the same way.  Later
offsets have later positions.
-/

namespace Lexis

namespace Position

def Before (a b : Position) : Prop :=
  a.line < b.line ∨ a.line = b.line ∧ a.column < b.column

theorem Before.trans {a b c : Position} (hab : a.Before b) (hbc : b.Before c) : a.Before c := by
  unfold Before at hab hbc ⊢
  omega

theorem Before.not_symm {a b : Position} (h : a.Before b) : ¬ b.Before a := by
  unfold Before at h ⊢
  omega

theorem not_before_self (a : Position) : ¬ a.Before a := by
  unfold Before
  omega

end Position

namespace Text

/-- The offset of the last newline before an offset, or -1 if there is none. -/
def lastNewline (source : Text) (offset : Nat) : Int :=
  ((List.range offset).filter fun i ↦ source[i]? == some (unit '\n')).getLast?.elim (-1) Int.ofNat

/-- The line of an offset is one more than the number of newlines before it; its
column is the distance to the last of them. -/
def position (source : Text) (offset : Nat) : Position where
  line := 1 + (source.take offset).count (unit '\n')
  column := offset - source.lastNewline offset

variable {source : Text} {n m : Nat}

theorem lastNewline_succ {u : UInt16} (hu : source[n]? = some u) :
    source.lastNewline (n + 1) = if u = unit '\n' then (n : Int) else source.lastNewline n := by
  unfold lastNewline
  rw [List.range_succ, List.filter_append]
  by_cases hnewline : u = unit '\n'
  · have hlast : [n].filter (fun i ↦ source[i]? == some (unit '\n')) = [n] := by
      simp [hu, hnewline]
    rw [hlast, if_pos hnewline, List.getLast?_concat]
    rfl
  · have hlast : [n].filter (fun i ↦ source[i]? == some (unit '\n')) = [] := by
      rw [List.filter_cons_of_neg, List.filter_nil]
      rw [hu]
      simpa using hnewline
    rw [hlast, if_neg hnewline, List.append_nil]

theorem position_zero (source : Text) : source.position 0 = ⟨1, 1⟩ := rfl

theorem position_succ {u : UInt16} (hu : source[n]? = some u) :
    source.position (n + 1) =
      if u = unit '\n' then ⟨(source.position n).line + 1, 1⟩
      else ⟨(source.position n).line, (source.position n).column + 1⟩ := by
  have htake : source.take (n + 1) = source.take n ++ [u] := by
    rw [List.take_add_one, hu]
    rfl
  unfold position
  rw [htake, lastNewline_succ hu, List.count_append]
  by_cases hnewline : u = unit '\n'
  · simp only [hnewline, if_true, List.count_singleton_self, Position.mk.injEq]
    omega
  · have hcount : [u].count (unit '\n') = 0 :=
      List.count_eq_zero.mpr (by simpa using Ne.symm hnewline)
    simp only [hnewline, if_false, hcount, Position.mk.injEq]
    omega

/-! ## The order of positions -/

theorem position_before_succ (hn : n < source.length) :
    (source.position n).Before (source.position (n + 1)) := by
  have hu : source[n]? = some source[n] := List.getElem?_eq_getElem hn
  rw [position_succ hu]
  unfold Position.Before
  split
  · exact .inl (Int.lt_succ _)
  · exact .inr ⟨rfl, Int.lt_succ _⟩

/-- Later offsets have later positions. -/
theorem position_before (hnm : n < m) (hm : m ≤ source.length) :
    (source.position n).Before (source.position m) := by
  induction m with
  | zero => omega
  | succ m ih =>
      have hlast : (source.position m).Before (source.position (m + 1)) :=
        position_before_succ (by omega)
      rcases Nat.lt_succ_iff_lt_or_eq.mp hnm with hlt | rfl
      · exact (ih hlt (by omega)).trans hlast
      · exact hlast

theorem not_position_before (hnm : n ≤ m) (hm : m ≤ source.length) :
    ¬ (source.position m).Before (source.position n) := by
  rcases Nat.lt_or_eq_of_le hnm with hlt | rfl
  · exact (position_before hlt hm).not_symm
  · exact Position.not_before_self _

theorem lastNewline_lt (source : Text) (n : Nat) : source.lastNewline n < n := by
  unfold lastNewline
  cases hlast : ((List.range n).filter fun i ↦ source[i]? == some (unit '\n')).getLast? with
  | none =>
      simp only [Option.elim_none]
      omega
  | some i =>
      have hmem := List.mem_filter.mp (List.mem_of_getLast? hlast)
      have hlt : i < n := List.mem_range.mp hmem.1
      simpa using hlt

/-- Lines begin at the start of the source text and behind each newline. -/
theorem column_eq_one_iff (hn : n ≤ source.length) :
    (source.position n).column = 1 ↔ n = 0 ∨ source[n - 1]? = some (unit '\n') := by
  cases n with
  | zero => simp [position_zero]
  | succ n =>
      have hu : source[n]? = some source[n] := List.getElem?_eq_getElem (by omega)
      have hpositive : 0 < (source.position n).column := by
        have hlt := lastNewline_lt source n
        simp only [position]
        omega
      rw [position_succ hu, Nat.add_sub_cancel, hu]
      by_cases hnewline : source[n] = unit '\n'
      · simp [hnewline]
      · simp only [hnewline, if_false, Option.some.injEq, or_false]
        omega

/-! ## The end of a source text -/

/-- The position of the last unit or, behind a newline, column 0 of the next
line. -/
def endPosition (source : Text) : Position :=
  match source.getLast? with
  | none => ⟨1, 0⟩
  | some u =>
      let last := source.position (source.length - 1)
      if u = unit '\n' then ⟨last.line + 1, 0⟩ else last

theorem endPosition_eq {u : UInt16} (hu : source.getLast? = some u) :
    source.endPosition =
      if u = unit '\n' then ⟨(source.position (source.length - 1)).line + 1, 0⟩
      else source.position (source.length - 1) := by
  unfold endPosition
  rw [hu]

/-- The end is one column before the position that a further unit would have. -/
theorem endPosition_eq_position (source : Text) :
    source.endPosition =
      ⟨(source.position source.length).line, (source.position source.length).column - 1⟩ := by
  cases hlast : source.getLast? with
  | none =>
      rw [List.getLast?_eq_none_iff.mp hlast]
      rfl
  | some u =>
      have hne : source ≠ [] := by
        rintro rfl
        simp at hlast
      have hlength : source.length - 1 + 1 = source.length := by
        have hpos := List.length_pos_iff.mpr hne
        omega
      have hu : source[source.length - 1]? = some u := by
        rw [← List.getLast?_eq_getElem?, hlast]
      rw [endPosition_eq hlast, ← hlength, position_succ hu, Nat.add_sub_cancel]
      by_cases hnewline : u = unit '\n'
      · rw [if_pos hnewline, if_pos hnewline]
        rfl
      · rw [if_neg hnewline, if_neg hnewline]
        simp

/-- The end does not come before any unit. -/
theorem not_endPosition_before (hn : n < source.length) :
    ¬ source.endPosition.Before (source.position n) := by
  have hbefore := position_before hn (Nat.le_refl source.length)
  rw [endPosition_eq_position]
  unfold Position.Before at hbefore ⊢
  dsimp only
  omega

end Text

/-! ## Cursors -/

namespace Cursor

structure At (source : Text) (c : Cursor) : Prop extends c.In source where
  position_eq : c.position = source.position c.offset

variable {source : Text} {c next : Cursor} {n : Nat}

theorem at_start (source : Text) : (start source).At source :=
  ⟨in_start source, rfl⟩

theorem position_step {u : UInt16} {rest : Text} (h : c.rest = u :: rest) :
    c.step.position =
      if u = unit '\n' then ⟨c.position.line + 1, 1⟩
      else ⟨c.position.line, c.position.column + 1⟩ := by
  unfold step
  rw [h]
  by_cases hu : u = unit '\n'
  · simp only [hu, if_true]
    rfl
  · simp only [hu, if_false]
    rfl

theorem At.step (h : c.At source) (hrest : c.rest ≠ []) : c.step.At source := by
  obtain ⟨u, rest, hcons⟩ := List.exists_cons_of_ne_nil hrest
  have hu : source[c.offset]? = some u := by
    have hget := h.getElem? 0
    rw [hcons] at hget
    exact hget
  have hin : (c.advance 1).In source := h.toIn.advance (by simp [hcons])
  refine ⟨hin, ?_⟩
  rw [offset_step hrest, position_step hcons, h.position_eq, Text.position_succ hu]

theorem At.advance (h : c.At source) (hn : n ≤ c.rest.length) : (c.advance n).At source := by
  induction n generalizing c with
  | zero => exact h
  | succ n ih =>
      have hrest : c.rest ≠ [] := List.ne_nil_of_length_pos (by omega)
      apply ih (h.step hrest)
      rw [rest_step, List.length_drop]
      omega

/-- The cursor before the units from an offset on. -/
theorem at_of_drop {rest : Text} {u : UInt16} (h : source.drop n = u :: rest) :
    ((start source).advance n).At source ∧ ((start source).advance n).offset = n ∧
      ((start source).advance n).rest = u :: rest := by
  have hn : n ≤ (start source).rest.length := by
    rcases Nat.lt_or_ge source.length n with hlt | hge
    · rw [List.drop_eq_nil_of_le (Nat.le_of_lt hlt)] at h
      simp at h
    · exact hge
  refine ⟨(at_start source).advance hn, ?_, ?_⟩
  · rw [offset_advance hn, start, Nat.zero_add]
  · rw [rest_advance]
    exact h

theorem At.skipBlanks (h : c.At source) : c.skipBlanks.At source :=
  h.advance c.length_blanks_le

/-- The next scan begins behind the token, which has the position of its first
unit. -/
theorem At.of_scan {keep : Bool} {t : Token} (h : c.At source)
    (hscan : c.scan keep = .ok (some (t, next))) :
    next.At source ∧ ∃ n : Nat, t.first = n ∧ c.offset ≤ n ∧ n < next.offset ∧
      t.position = source.position n := by
  obtain ⟨u, rest, x, hrest, hx, rfl, rfl⟩ := scanHere_eq_some hscan
  obtain ⟨tail, hreads⟩ := Lexeme.reads_of_recognise hx
  have hskip := h.skipBlanks
  have hextra : x.extra + 1 ≤ c.skipBlanks.rest.length := by
    have hle := hreads.isPrefix.length_le
    rw [hrest, hreads.extra, List.length_cons]
    omega
  refine ⟨hskip.advance hextra, c.skipBlanks.offset, rfl, c.offset_le_skipBlanks, ?_,
    hskip.position_eq⟩
  rw [offset_advance hextra]
  omega

theorem At.endPosition_eq (h : c.At source) (hrest : c.rest = []) :
    c.endPosition = source.endPosition := by
  have hoffset : c.offset = source.length := by
    have hlength := h.length_rest
    have hle := h.offset_le
    rw [hrest, List.length_nil] at hlength
    omega
  have hposition := h.position_eq
  rw [hoffset] at hposition
  rw [source.endPosition_eq_position, ← hposition]
  rfl

theorem At.locate_of_lt (h : c.At source) (hn : n < c.rest.length) :
    c.locate n = source.position (c.offset + n) := by
  have hrest : (c.advance n).rest ≠ [] := by
    rw [rest_advance]
    exact List.ne_nil_of_length_pos (by rw [List.length_drop]; omega)
  rw [locate, if_neg hrest, (h.advance (by omega)).position_eq, offset_advance (by omega)]

theorem At.locate_length (h : c.At source) : c.locate c.rest.length = source.endPosition := by
  have hrest : (c.advance c.rest.length).rest = [] := by
    rw [rest_advance, List.drop_length]
  rw [locate, if_pos hrest, (h.advance (Nat.le_refl _)).endPosition_eq hrest]

end Cursor

end Lexis
