import Lexis.Proofs.Lexer.Course
import Lexis.Proofs.Number.Exact

/-!
# Options of a run

Options do not change what is recognised.  A source text has one course that all
unrestricted runs take, and the course of every other run is a function of it.
-/

namespace Lexis

namespace RunOptions

/-- How many tokens a run may give out that is asked for no more than a number says. -/
inductive Limits : Option Binary64 → Option Nat → Prop where
  | unlimited : Limits none none
  | natural {x : Binary64} {n : Nat} (h : x.Is n) : Limits (some x) (some n)

variable {options : RunOptions} {rule : StopRule} {x : Binary64}

theorem limits_ofInt {n : Nat} (h : n ≤ Binary64.maxSafe) :
    Limits (some (Binary64.ofInt n)) (some n) :=
  .natural (Binary64.is_ofInt h)

theorem rule_eq_ok_iff :
    options.rule = .ok rule ↔
      rule.untilKind = options.untilKind ∧ Limits options.maxTokens rule.limit := by
  obtain ⟨untilKind, maxTokens⟩ := options
  obtain ⟨stop, limit⟩ := rule
  unfold RunOptions.rule
  dsimp only
  constructor
  · intro h
    split at h
    · cases h
      exact ⟨rfl, .unlimited⟩
    · split at h
      · next n hn =>
        cases h
        exact ⟨rfl, .natural (Binary64.toNat?_eq_some_iff.mp hn)⟩
      · cases h
  · rintro ⟨rfl, hlimits⟩
    cases hlimits with
    | unlimited => rfl
    | natural h => simp [Binary64.toNat?_eq_some_iff.mpr h]

/-- Only a number that is not natural is refused. -/
theorem rule_eq_error_iff :
    options.rule = .error x ↔ options.maxTokens = some x ∧ ∀ n, ¬ x.Is n := by
  have hnone : x.toNat? = none ↔ ∀ n, ¬ x.Is n := by
    rw [Option.eq_none_iff_forall_ne_some]
    exact forall_congr' fun n ↦ not_congr Binary64.toNat?_eq_some_iff
  rw [← hnone]
  unfold RunOptions.rule
  split
  · next h => simp [h]
  · next y h =>
    split
    · next n hn =>
      simp only [h, reduceCtorEq, Option.some.injEq, false_iff, not_and]
      rintro rfl
      simp [hn]
    · next hn =>
      simp only [h, Except.error.injEq, Option.some.injEq]
      exact ⟨by rintro rfl; exact ⟨rfl, hn⟩, And.left⟩

end RunOptions

namespace Course

variable {filter : Filter} {rule : StopRule} {free : Course}

def EndsByItself (course : Course) : Prop :=
  course.ending = .ok .exhausted ∨ ∃ e, course.ending = .error e

theorem endsByItself (c : Cursor) : c.course.EndsByItself := by
  induction c using Cursor.course.induct with
  | case1 c e hscan => exact .inr ⟨e, by rw [Cursor.course_of_scan_error hscan]⟩
  | case2 c hscan => exact .inl (by rw [Cursor.course_of_scan_none hscan])
  | case3 c t next hscan ih =>
      rw [Cursor.course_of_scan_some hscan]
      exact ih

theorem EndsByItself.ne_reached (h : free.EndsByItself) : free.ending ≠ .ok .reached := by
  rcases h with h | ⟨e, h⟩ <;> simp [h]

theorem EndsByItself.ne_limited (h : free.EndsByItself) : free.ending ≠ .ok .limited := by
  rcases h with h | ⟨e, h⟩ <;> simp [h]

theorem ending_restrict_eq_reached_iff (h : free.EndsByItself) :
    (free.restrict filter rule).ending = .ok .reached ↔
      rule.reaches filter free.tokens = true := by
  have hne := h.ne_reached
  unfold restrict
  dsimp only
  split
  · simp_all
  · split <;> simp_all

theorem ending_restrict_eq_limited_iff (h : free.EndsByItself) :
    (free.restrict filter rule).ending = .ok .limited ↔
      rule.reaches filter free.tokens = false ∧ rule.fills filter free.tokens = true := by
  have hne := h.ne_limited
  unfold restrict
  dsimp only
  split
  · simp_all
  · split <;> simp_all

theorem ending_restrict_of_not (hreaches : rule.reaches filter free.tokens = false)
    (hfills : rule.fills filter free.tokens = false) :
    (free.restrict filter rule).ending = free.ending := by
  simp [restrict, hreaches, hfills]

end Course

namespace Lexer

/-- All runs over a source text with these settings take this course, as long as
nobody disturbs them. -/
def Takes (source : Text) (filter : Filter) (options : RunOptions) (course : Course) : Prop :=
  ∀ (l : Lexer) (o : Observers) (receiver : Option Receiver), l.filter = filter →
    l.running = false → o.Calm → Proceeds receiver →
      l.run o receiver source options = l.completed o receiver source course

theorem takes_restrict {source : Text} {filter : Filter} {options : RunOptions} {rule : StopRule}
    (hrule : options.rule = .ok rule) :
    Takes source filter options ((Cursor.start source).course.restrict filter rule) := by
  rintro l o receiver rfl hl ho hr
  exact run_eq_completed hl ho hr hrule

/-- A limit that is no natural number is refused at once. -/
theorem run_of_not_natural {l : Lexer} {x : Binary64} {untilKind : Option Kind} (o : Observers)
    (receiver : Option Receiver) (source : Text) (hl : l.running = false) (hx : ∀ n, ¬ x.Is n) :
    l.run o receiver source ⟨untilKind, some x⟩ = ⟨l, [], .error (.badLimit x)⟩ := by
  have hrule : RunOptions.rule ⟨untilKind, some x⟩ = .error x :=
    RunOptions.rule_eq_error_iff.mpr ⟨rfl, hx⟩
  simp [run, start, hl, hrule]

/-- The unrestricted course of a source text decides what a run with options gives
out and how it ends. -/
theorem exists_course_of_options (source : Text) :
    (∃ free : Course, Takes source {} {} free ∧ free.EndsByItself ∧
      ∀ (filter : Filter) (untilKind : Option Kind) (maxTokens : Option Binary64)
        (limit : Option Nat), RunOptions.Limits maxTokens limit →
        let rule : StopRule := ⟨untilKind, limit⟩
        ∃ ending, Takes source filter ⟨untilKind, maxTokens⟩
            ⟨rule.cut (filter.leaves (rule.through free.tokens)), ending⟩ ∧
          (ending = .ok .reached ↔ rule.reaches filter free.tokens = true) ∧
          (ending = .ok .limited ↔
            rule.reaches filter free.tokens = false ∧ rule.fills filter free.tokens = true) ∧
          (rule.reaches filter free.tokens = false → rule.fills filter free.tokens = false →
            ending = free.ending)) ∧
    ∀ m ≤ Binary64.maxSafe, RunOptions.Limits (some (Binary64.ofInt m)) (some m) := by
  have hends := Course.endsByItself (Cursor.start source)
  refine ⟨⟨(Cursor.start source).course, ?_, hends, ?_⟩, fun m hm ↦ RunOptions.limits_ofInt hm⟩
  · have hfree : Takes source {} {} ((Cursor.start source).course.restrict {} {}) :=
      takes_restrict rfl
    rwa [Course.restrict_default] at hfree
  · intro filter untilKind maxTokens limit hlimits rule
    have hrule : RunOptions.rule ⟨untilKind, maxTokens⟩ = .ok rule :=
      RunOptions.rule_eq_ok_iff.mpr ⟨rfl, hlimits⟩
    refine ⟨((Cursor.start source).course.restrict filter rule).ending, takes_restrict hrule,
      Course.ending_restrict_eq_reached_iff hends, Course.ending_restrict_eq_limited_iff hends,
      Course.ending_restrict_of_not⟩

/-- Two tokens are asked for and up to the first newline: the comment does not count, and the
quote that is not closed is not met.  One token is the limit before the newline is. -/
theorem exists_course_of_options_before_error :
    ∃ free : Course, Takes "a //b\n '" {} {} free ∧ (∃ e, free.ending = .error e) ∧
      Takes "a //b\n '" { comments := true } ⟨some .newline, some (Binary64.ofInt 2)⟩
        ⟨[⟨.identifier, ⟨1, 1⟩, 0, 0, "a"⟩, ⟨.newline, ⟨1, 6⟩, 5, 5, "\n"⟩], .ok .reached⟩ ∧
      Takes "a //b\n '" { comments := true } ⟨some .newline, some (Binary64.ofInt 1)⟩
        ⟨[⟨.identifier, ⟨1, 1⟩, 0, 0, "a"⟩], .ok .limited⟩ := by
  obtain ⟨⟨free, hfree, hends, hoptions⟩, hnatural⟩ := exists_course_of_options "a //b\n '"
  obtain ⟨two, htwo, hreached, -⟩ :=
    hoptions { comments := true } (some .newline) _ _ (hnatural 2 (by decide))
  obtain ⟨one, hone, -, hlimited, -⟩ :=
    hoptions { comments := true } (some .newline) _ _ (hnatural 1 (by decide))
  have hrun := hfree {} .none none rfl rfl Observers.calm_none proceeds_none
  have htokens : free.tokens =
      [⟨.identifier, ⟨1, 1⟩, 0, 0, "a"⟩, ⟨.lineComment, ⟨1, 3⟩, 2, 4, "//b"⟩,
        ⟨.newline, ⟨1, 6⟩, 5, 5, "\n"⟩] := by
    have hkept := congrArg (fun done ↦ done.lexer.tokens.toList) hrun
    simp only [completed, Array.empty_append] at hkept
    rw [← hkept]
    decide +kernel
  have hfails : free.failure.isSome = true := by
    have hkept := congrArg (fun done ↦ done.lexer.lastError) hrun
    simp only [completed] at hkept
    rw [← hkept]
    decide +kernel
  refine ⟨free, hfree, ?_, ?_, ?_⟩
  · rcases hends with hend | hfailed
    · simp [Course.failure, hend] at hfails
    · exact hfailed
  · rw [htokens] at htwo hreached
    rw [hreached.mpr (by decide)] at htwo
    exact htwo
  · rw [htokens] at hone hlimited
    rw [hlimited.mpr (by decide)] at hone
    exact hone

end Lexer

end Lexis
