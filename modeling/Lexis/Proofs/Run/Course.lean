import Lexis.Proofs.Cursor.Scan
import Lexis.Run.Progress

/-!
# The course of a run

The course of a run is what it gives out and how it ends.  A run that nothing
restricts has a course that only depends on its cursor; the course of every other
run is that one, filtered and cut off.
-/

namespace Lexis

/-- What a run gives out and how it ends: by a stop or by an error. -/
structure Course where
  tokens : List Token
  ending : Except LexError StopReason

namespace Course

def cons (t : Token) (course : Course) : Course := { course with tokens := t :: course.tokens }

@[simp] theorem tokens_cons (t : Token) (course : Course) :
    (course.cons t).tokens = t :: course.tokens := rfl

@[simp] theorem ending_cons (t : Token) (course : Course) :
    (course.cons t).ending = course.ending := rfl

end Course

def Cursor.course (c : Cursor) : Course :=
  match _h : c.scan true with
  | .error e => ⟨[], .error e⟩
  | .ok none => ⟨[], .ok .exhausted⟩
  | .ok (some (t, next)) => next.course.cons t
termination_by c.rest.length
decreasing_by exact length_rest_of_scan _h

def Progress.course (filter : Filter) (rule : StopRule) (p : Progress) : Course :=
  match _h : p.advance filter rule with
  | .stopped reason => ⟨[], .ok reason⟩
  | .failed e => ⟨[], .error e⟩
  | .emitted t next => (next.course filter rule).cons t
termination_by p.cursor.rest.length
decreasing_by exact length_rest_of_advance _h

/-! ## Comments that are not kept -/

def Token.kept (keep : Bool) (t : Token) : Token :=
  if t.isComment && !keep then { t with value := [] } else t

def Lexeme.kept (keep : Bool) (x : Lexeme) : Lexeme :=
  if x.kind.category == .comment && !keep then { x with value := [] } else x

theorem Kind.eq_of_category_eq_comment {k : Kind} (h : k.category = .comment) :
    k = .lineComment ∨ k = .blockComment := by
  cases k <;> simp_all [Kind.category]

namespace Lexeme

theorem kept_of_category_ne {keep : Bool} {x : Lexeme} (h : x.kind.category ≠ .comment) :
    x.kept keep = x := by
  simp [kept, h]

theorem kept_comment {keep : Bool} {k : Kind} {u : UInt16} {tail : Text}
    (h : k.category = .comment) : (comment k true u tail).kept keep = comment k keep u tail := by
  cases keep <;> simp [kept, comment, h]

theorem slash_eq_map_kept (keep : Bool) (u : UInt16) (rest : Text) :
    slash keep u rest = (slash true u rest).map (kept keep) := by
  cases rest with
  | nil => exact (congrArg Except.ok (kept_of_category_ne (by decide))).symm
  | cons v tail =>
      simp only [slash]
      split
      · exact (congrArg Except.ok (kept_comment rfl)).symm
      · split
        · unfold blockComment
          split
          · exact (congrArg Except.ok (kept_comment rfl)).symm
          · rfl
        · exact (congrArg Except.ok (kept_of_category_ne (by decide))).symm

/-- Only comments are recognised in another way when they are not kept. -/
theorem recognise_eq_map_kept (keep : Bool) (u : UInt16) (rest : Text) :
    recognise keep u rest = (recognise true u rest).map (kept keep) := by
  by_cases hslash : u = unit '/'
  · subst hslash
    exact slash_eq_map_kept keep _ rest
  · have hsame : recognise keep u rest = recognise true u rest := by
      simp only [recognise, if_neg hslash]
    rw [hsame]
    cases hx : recognise true u rest with
    | error fault => rfl
    | ok x =>
        obtain ⟨tail, hreads⟩ := reads_of_recognise hx
        have hcategory : x.kind.category ≠ .comment := by
          intro hcomment
          have hspelling := hreads.spelling
          rcases Kind.eq_of_category_eq_comment hcomment with hkind | hkind
          · rw [hkind] at hspelling
            exact hslash (IsLineComment.head_eq hspelling)
          · rw [hkind] at hspelling
            exact hslash (IsBlockComment.head_eq hspelling)
        exact (congrArg Except.ok (kept_of_category_ne hcategory)).symm

end Lexeme

namespace Cursor

theorem token_kept (c : Cursor) (keep : Bool) (x : Lexeme) :
    c.token (x.kept keep) = (c.token x).kept keep := by
  unfold Lexeme.kept Token.kept Token.isComment
  split
  · next h => rw [if_pos (by simpa [token] using h)]; rfl
  · next h => rw [if_neg (by simpa [token] using h)]

@[simp] theorem extra_kept (keep : Bool) (x : Lexeme) : (x.kept keep).extra = x.extra := by
  unfold Lexeme.kept
  split <;> rfl

/-- Comments that are not kept are scanned in the same places. -/
theorem scan_eq_map_kept (c : Cursor) (keep : Bool) :
    c.scan keep = (c.scan true).map (Option.map fun found ↦ (found.1.kept keep, found.2)) := by
  unfold scan scanHere
  cases c.skipBlanks.rest with
  | nil => rfl
  | cons u rest =>
      simp only
      rw [Lexeme.recognise_eq_map_kept]
      cases Lexeme.recognise true u rest with
      | error fault => rfl
      | ok x => simp [Except.map, token_kept]

theorem course_of_scan_error {c : Cursor} {e : LexError} (h : c.scan true = .error e) :
    c.course = ⟨[], .error e⟩ := by
  rw [course]
  split <;> simp_all

theorem course_of_scan_none {c : Cursor} (h : c.scan true = .ok none) :
    c.course = ⟨[], .ok .exhausted⟩ := by
  rw [course]
  split <;> simp_all

theorem course_of_scan_some {c next : Cursor} {t : Token}
    (h : c.scan true = .ok (some (t, next))) : c.course = next.course.cons t := by
  rw [course]
  split <;> simp_all

end Cursor

/-! ## One token of a restricted run -/

theorem Filter.drops_kept (filter : Filter) (keep : Bool) (t : Token) :
    filter.drops (t.kept keep) = filter.drops t := by
  unfold Token.kept
  split <;> rfl

theorem Token.kept_of_not_drops {filter : Filter} {t : Token} (h : filter.drops t = false) :
    t.kept (!filter.comments) = t := by
  unfold Token.kept
  rw [if_neg]
  intro hcomment
  simp only [Bool.not_not, Bool.and_eq_true] at hcomment
  simp [Filter.drops, hcomment.1, hcomment.2] at h

theorem Token.kind_kept (keep : Bool) (t : Token) : (t.kept keep).kind = t.kind := by
  unfold Token.kept
  split <;> rfl

namespace Progress

variable {filter : Filter} {rule : StopRule} {p : Progress}

theorem course_eq (filter : Filter) (rule : StopRule) (p : Progress) :
    p.course filter rule =
      match p.advance filter rule with
      | .stopped reason => ⟨[], .ok reason⟩
      | .failed e => ⟨[], .error e⟩
      | .emitted t next => (next.course filter rule).cons t := by
  rw [course]
  split <;> simp_all

theorem count_of_advance {t : Token} {next : Progress}
    (h : p.advance filter rule = .emitted t next) : next.count = p.count + 1 := by
  fun_induction advance filter rule p with
  | case1 => simp at h
  | case2 => simp at h
  | case3 => simp at h
  | case4 => simp at h
  | case5 p _ _ t cursor hscan reached _ ih => exact ih h
  | case6 p _ _ t cursor hscan reached _ =>
      simp only [Turn.emitted.injEq] at h
      obtain ⟨-, rfl⟩ := h
      rfl

theorem course_of_reached (h : p.reached = true) : p.course filter rule = ⟨[], .ok .reached⟩ := by
  have hadvance : p.advance filter rule = .stopped .reached := by rw [advance_eq, if_pos h]
  rw [course_eq, hadvance]

theorem course_of_full (hreached : p.reached = false) (h : p.full rule = true) :
    p.course filter rule = ⟨[], .ok .limited⟩ := by
  have hadvance : p.advance filter rule = .stopped .limited := by
    rw [advance_eq, if_neg (by simp [hreached]), if_pos h]
  rw [course_eq, hadvance]

theorem course_of_scan_error (hreached : p.reached = false) (hfull : p.full rule = false)
    {e : LexError} (h : p.cursor.scan true = .error e) : p.course filter rule = ⟨[], .error e⟩ := by
  have hadvance : p.advance filter rule = .failed e := by
    rw [advance_eq, if_neg (by simp [hreached]), if_neg (by simp [hfull]),
      Cursor.scan_eq_map_kept, h]
    rfl
  rw [course_eq, hadvance]

theorem course_of_scan_none (hreached : p.reached = false) (hfull : p.full rule = false)
    (h : p.cursor.scan true = .ok none) : p.course filter rule = ⟨[], .ok .exhausted⟩ := by
  have hadvance : p.advance filter rule = .stopped .exhausted := by
    rw [advance_eq, if_neg (by simp [hreached]), if_neg (by simp [hfull]),
      Cursor.scan_eq_map_kept, h]
    rfl
  rw [course_eq, hadvance]

/-- A run goes on behind each token, whether it gives it out or drops it. -/
theorem course_of_scan_some (hreached : p.reached = false) (hfull : p.full rule = false)
    {t : Token} {next : Cursor} (h : p.cursor.scan true = .ok (some (t, next))) :
    p.course filter rule =
      if filter.drops t then
        ({ p with cursor := next, reached := rule.untilKind == some t.kind } : Progress).course
          filter rule
      else
        (({ cursor := next, count := p.count + 1,
            reached := rule.untilKind == some t.kind } : Progress).course filter rule).cons t := by
  have hadvance : p.advance filter rule =
      if filter.drops t then
        ({ p with cursor := next, reached := rule.untilKind == some t.kind } : Progress).advance
          filter rule
      else .emitted t
        { cursor := next, count := p.count + 1, reached := rule.untilKind == some t.kind } := by
    rw [advance_eq, if_neg (by simp [hreached]), if_neg (by simp [hfull]),
      Cursor.scan_eq_map_kept, h]
    simp only [Except.map, Option.map, Filter.drops_kept, Token.kind_kept]
    split
    · rfl
    · next hdrops => rw [Token.kept_of_not_drops (by simpa using hdrops)]
  by_cases hdrops : filter.drops t = true
  · rw [if_pos hdrops] at hadvance ⊢
    rw [course_eq, hadvance, ← course_eq]
  · rw [if_neg hdrops] at hadvance ⊢
    rw [course_eq, hadvance]

end Progress

end Lexis
