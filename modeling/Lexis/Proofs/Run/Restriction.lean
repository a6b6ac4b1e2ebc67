import Lexis.Proofs.Run.Course

/-!
# Restricting the course of a run

A run with a filter and a rule to stop by gives out what an unrestricted run
gives out up to its first token of the kind to stop at, less what the filter
drops, and no more than the limit.
-/

namespace Lexis

namespace StopRule

def stopsAt (rule : StopRule) (t : Token) : Bool := rule.untilKind == some t.kind

/-- The tokens up to the first one of the kind to stop at, which is included. -/
def through (rule : StopRule) : List Token → List Token
  | [] => []
  | t :: ts => if rule.stopsAt t then [t] else t :: rule.through ts

def cut (rule : StopRule) (ts : List Token) : List Token :=
  match rule.limit with
  | none => ts
  | some n => ts.take n

def after (rule : StopRule) (n : Nat) : StopRule :=
  { rule with limit := rule.limit.map (· - n) }

end StopRule

def Filter.keeps (filter : Filter) : Kind → Bool
  | .lineComment | .blockComment => !filter.comments
  | .newline => !filter.newlines
  | _ => true

def Filter.leaves (filter : Filter) (ts : List Token) : List Token :=
  ts.filter fun t ↦ filter.keeps t.kind

namespace StopRule

/-- Whether the kind to stop at occurs before the limit is reached: fewer tokens
than the limit are left before its first occurrence. -/
def reaches (rule : StopRule) (filter : Filter) (ts : List Token) : Bool :=
  ts.any rule.stopsAt &&
    rule.limit.all fun n ↦ (filter.leaves (ts.takeWhile fun t ↦ !rule.stopsAt t)).length < n

def fills (rule : StopRule) (filter : Filter) (ts : List Token) : Bool :=
  rule.limit.any fun n ↦ n ≤ (filter.leaves ts).length

end StopRule

def Course.restrict (filter : Filter) (rule : StopRule) (free : Course) : Course where
  tokens := rule.cut (filter.leaves (rule.through free.tokens))
  ending :=
    if rule.reaches filter free.tokens then .ok .reached
    else if rule.fills filter free.tokens then .ok .limited
    else free.ending

variable {filter : Filter} {rule : StopRule}

theorem Filter.keeps_eq_not_drops (filter : Filter) (t : Token) :
    filter.keeps t.kind = !filter.drops t := by
  obtain ⟨kind, position, first, last, value⟩ := t
  cases kind <;> rfl

theorem Filter.leaves_cons (filter : Filter) (t : Token) (ts : List Token) :
    filter.leaves (t :: ts) =
      if filter.drops t then filter.leaves ts else t :: filter.leaves ts := by
  have hkeeps := filter.keeps_eq_not_drops t
  cases h : filter.drops t <;> simp [Filter.leaves, hkeeps, h]

theorem Progress.full_iff {p : Progress} :
    p.full rule = true ↔ (rule.after p.count).limit = some 0 := by
  unfold Progress.full StopRule.after
  cases rule.limit with
  | none => simp
  | some n => simp [Nat.sub_eq_zero_iff_le]

namespace StopRule

theorem after_succ (rule : StopRule) (n : Nat) : (rule.after n).after 1 = rule.after (n + 1) := by
  unfold after
  cases rule.limit with
  | none => rfl
  | some m => simp [Nat.sub_sub]

@[simp] theorem stopsAt_after (rule : StopRule) (n : Nat) :
    (rule.after n).stopsAt = rule.stopsAt := rfl

@[simp] theorem through_after (rule : StopRule) (n : Nat) (ts : List Token) :
    (rule.after n).through ts = rule.through ts := by
  induction ts with
  | nil => rfl
  | cons t ts ih => simp [through, ih]

theorem through_sublist (rule : StopRule) (ts : List Token) : (rule.through ts).Sublist ts := by
  induction ts with
  | nil => exact .slnil
  | cons t ts ih =>
      unfold through
      split
      · exact (List.nil_sublist ts).cons_cons t
      · exact ih.cons_cons t

/-- A limit that is not used up is absent or allows one token more. -/
theorem limit_cases (h : rule.limit ≠ some 0) :
    rule.limit = none ∧ (rule.after 1).limit = none ∨
      ∃ m, rule.limit = some (m + 1) ∧ (rule.after 1).limit = some m := by
  cases hlimit : rule.limit with
  | none => exact .inl ⟨rfl, by simp [after, hlimit]⟩
  | some n =>
      have hn : n ≠ 0 := fun hzero ↦ h (by rw [hlimit, hzero])
      obtain ⟨m, rfl⟩ := Nat.exists_eq_succ_of_ne_zero hn
      exact .inr ⟨m, rfl, by simp [after, hlimit]⟩

end StopRule

namespace Course

theorem restrict_of_limit_zero (free : Course) (h : rule.limit = some 0) :
    free.restrict filter rule = ⟨[], .ok .limited⟩ := by
  simp [restrict, StopRule.cut, StopRule.reaches, StopRule.fills, h]

theorem restrict_nil {ending : Except LexError StopReason} (h : rule.limit ≠ some 0) :
    restrict filter rule ⟨[], ending⟩ = ⟨[], ending⟩ := by
  have hcut : rule.cut [] = [] := by
    unfold StopRule.cut
    split <;> simp
  have hfills : rule.fills filter [] = false := by
    rcases StopRule.limit_cases h with ⟨hlimit, -⟩ | ⟨m, hlimit, -⟩ <;>
      simp [StopRule.fills, Filter.leaves, hlimit]
  simp [restrict, StopRule.through, StopRule.reaches, hfills, Filter.leaves, hcut]

theorem restrict_cons_of_stopsAt {t : Token} (free : Course) (h : rule.limit ≠ some 0)
    (hstop : rule.stopsAt t = true) :
    (free.cons t).restrict filter rule =
      ⟨if filter.drops t then [] else [t], .ok .reached⟩ := by
  have hleaves : filter.leaves [t] = if filter.drops t then [] else [t] :=
    filter.leaves_cons t []
  have hcut : rule.cut (filter.leaves [t]) = filter.leaves [t] := by
    have hle : (filter.leaves [t]).length ≤ 1 := List.length_filter_le _ _
    rcases StopRule.limit_cases h with ⟨hlimit, -⟩ | ⟨m, hlimit, -⟩
    · simp [StopRule.cut, hlimit]
    · simp only [StopRule.cut, hlimit]
      exact List.take_of_length_le (by omega)
  have hreaches : rule.reaches filter (t :: free.tokens) = true := by
    rcases StopRule.limit_cases h with ⟨hlimit, -⟩ | ⟨m, hlimit, -⟩ <;>
      simp [StopRule.reaches, Filter.leaves, hstop, hlimit]
  rw [hleaves] at hcut
  simp only [restrict, tokens_cons, StopRule.through, hstop, if_true, hreaches, hleaves, hcut]

theorem restrict_cons_of_drops {t : Token} (free : Course) (hstop : rule.stopsAt t = false)
    (hdrops : filter.drops t = true) :
    (free.cons t).restrict filter rule = free.restrict filter rule := by
  have hreaches : rule.reaches filter (t :: free.tokens) = rule.reaches filter free.tokens := by
    simp [StopRule.reaches, Filter.leaves_cons, hstop, hdrops]
  have hfills : rule.fills filter (t :: free.tokens) = rule.fills filter free.tokens := by
    simp [StopRule.fills, Filter.leaves_cons, hdrops]
  have hleaves : filter.leaves (rule.through (t :: free.tokens)) =
      filter.leaves (rule.through free.tokens) := by
    simp [StopRule.through, Filter.leaves_cons, hstop, hdrops]
  simp only [restrict, tokens_cons, ending_cons, hreaches, hfills, hleaves]

theorem restrict_cons_of_leaves {t : Token} (free : Course) (h : rule.limit ≠ some 0)
    (hstop : rule.stopsAt t = false) (hdrops : filter.drops t = false) :
    (free.cons t).restrict filter rule = (free.restrict filter (rule.after 1)).cons t := by
  have hreaches : rule.reaches filter (t :: free.tokens) =
      (rule.after 1).reaches filter free.tokens := by
    rcases StopRule.limit_cases h with ⟨hlimit, hafter⟩ | ⟨m, hlimit, hafter⟩
    · simp [StopRule.reaches, hlimit, hafter, hstop]
    · simp only [StopRule.reaches, hlimit, hafter, StopRule.stopsAt_after, List.any_cons,
        List.takeWhile_cons, hstop, Bool.false_or, Bool.not_false, if_true, Option.all_some,
        Filter.leaves_cons, hdrops, Bool.false_eq_true, if_false, List.length_cons,
        Nat.add_lt_add_iff_right]
      rfl
  have hfills : rule.fills filter (t :: free.tokens) = (rule.after 1).fills filter free.tokens := by
    rcases StopRule.limit_cases h with ⟨hlimit, hafter⟩ | ⟨m, hlimit, hafter⟩ <;>
      simp [StopRule.fills, Filter.leaves_cons, hlimit, hafter, hdrops]
  have hcut : rule.cut (filter.leaves (rule.through (t :: free.tokens))) =
      t :: (rule.after 1).cut (filter.leaves (rule.through free.tokens)) := by
    rcases StopRule.limit_cases h with ⟨hlimit, hafter⟩ | ⟨m, hlimit, hafter⟩ <;>
      simp [StopRule.cut, StopRule.through, Filter.leaves_cons, hlimit, hafter, hstop, hdrops]
  simp only [restrict, cons, hreaches, hfills, hcut, StopRule.through_after]

/-- A restriction leaves out tokens and adds none. -/
theorem tokens_restrict_sublist (filter : Filter) (rule : StopRule) (free : Course) :
    (free.restrict filter rule).tokens.Sublist free.tokens := by
  have hcut (ts : List Token) : (rule.cut ts).Sublist ts := by
    unfold StopRule.cut
    split
    · exact List.Sublist.refl ts
    · exact List.take_sublist _ ts
  have hleaves (ts : List Token) : (filter.leaves ts).Sublist ts := List.filter_sublist
  exact (hcut _).trans ((hleaves _).trans (rule.through_sublist free.tokens))

end Course

/-- The course of a run is the unrestricted one from its cursor on, under the
filter and under what is left of the rule. -/
theorem Progress.course_eq_restrict {p : Progress} (h : p.reached = false) :
    p.course filter rule = p.cursor.course.restrict filter (rule.after p.count) := by
  generalize hc : p.cursor = c
  induction c using Cursor.course.induct generalizing p with
  | case1 c e hscan =>
      subst hc
      rw [Cursor.course_of_scan_error hscan]
      cases hfull : p.full rule with
      | true =>
          rw [course_of_full h hfull, Course.restrict_of_limit_zero _ (full_iff.mp hfull)]
      | false =>
          rw [course_of_scan_error h hfull hscan, Course.restrict_nil]
          exact fun hzero ↦ by simp [full_iff.mpr hzero] at hfull
  | case2 c hscan =>
      subst hc
      rw [Cursor.course_of_scan_none hscan]
      cases hfull : p.full rule with
      | true =>
          rw [course_of_full h hfull, Course.restrict_of_limit_zero _ (full_iff.mp hfull)]
      | false =>
          rw [course_of_scan_none h hfull hscan, Course.restrict_nil]
          exact fun hzero ↦ by simp [full_iff.mpr hzero] at hfull
  | case3 c t next hscan ih =>
      subst hc
      rw [Cursor.course_of_scan_some hscan]
      cases hfull : p.full rule with
      | true =>
          rw [course_of_full h hfull, Course.restrict_of_limit_zero _ (full_iff.mp hfull)]
      | false =>
          have hzero : (rule.after p.count).limit ≠ some 0 :=
            fun hzero ↦ by simp [full_iff.mpr hzero] at hfull
          rw [course_of_scan_some h hfull hscan]
          cases hstop : rule.stopsAt t with
          | true =>
              have hreached : (rule.untilKind == some t.kind) = true := hstop
              rw [Course.restrict_cons_of_stopsAt _ hzero hstop, course_of_reached hreached,
                course_of_reached hreached]
              split <;> rfl
          | false =>
              have hreached : (rule.untilKind == some t.kind) = false := hstop
              rw [← rule.stopsAt_after p.count] at hstop
              cases hdrops : filter.drops t with
              | true =>
                  rw [if_pos rfl, ih hreached rfl, Course.restrict_cons_of_drops _ hstop hdrops]
              | false =>
                  rw [if_neg (by simp), ih hreached rfl,
                    Course.restrict_cons_of_leaves _ hzero hstop hdrops, StopRule.after_succ]

end Lexis
