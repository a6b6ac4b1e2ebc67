import Lexis.Proofs.Lexer.Course
import Lexis.Proofs.Reader.Lists

/-!
# Readers of a stream

A reader of a stream makes the tokens as it reads.  It cannot be told from a reader of
the list of tokens that the whole run keeps, but for the one request, if any, in which
the list is found to end and the run to fail.
-/

namespace Lexis

/-! ## What a stream gives out -/

namespace LexStream

variable {o : Observers} {rule : StopRule}

theorem supply_of_finished {s : LexStream} (h : s.stream = .finished) :
    Source.supply s = ⟨[], none⟩ := by
  obtain ⟨l, o, stream⟩ := s
  obtain rfl : stream = .finished := h
  rw [Source.supply_eq]
  rfl

/-- A stream gives out the tokens of its run and fails as the run does, and then it has
finished. -/
theorem supply_suspended (ho : o.Calm) (l : Lexer) (p : Progress) :
    ∃ done : LexStream, done.stream = .finished ∧
      Source.supply (⟨l, o, .suspended rule p⟩ : LexStream) =
        ⟨(p.course l.filter rule).tokens,
          (p.course l.filter rule).failure.map fun e ↦ (.lexical e, done)⟩ := by
  have hpull (l : Lexer) (p : Progress) :
      Source.pull (⟨l, o, .suspended rule p⟩ : LexStream) =
        ((Lexer.fromTurn [] rule (l.resume o rule p)).1.result,
          ⟨(Lexer.fromTurn [] rule (l.resume o rule p)).1.lexer, o,
            (Lexer.fromTurn [] rule (l.resume o rule p)).2⟩) := rfl
  -- Each token is kept in the lexer, so the induction is for every lexer with this filter.
  generalize hf : l.filter = filter
  induction p using Progress.course.induct filter rule generalizing l with
  | case1 p reason hadvance =>
      subst hf
      rw [Source.supply_eq, hpull, Lexer.resume_of_stopped ho hadvance, Progress.course_eq,
        hadvance]
      exact ⟨⟨l, o, .finished⟩, rfl, rfl⟩
  | case2 p e hadvance =>
      subst hf
      rw [Source.supply_eq, hpull, Lexer.resume_of_failed ho hadvance, Progress.course_eq,
        hadvance]
      exact ⟨_, rfl, rfl⟩
  | case3 p t next hadvance ih =>
      subst hf
      obtain ⟨done, hdone, hsupply⟩ := ih { l with tokens := l.tokens.push t } rfl
      rw [Source.supply_eq, hpull, Lexer.resume_of_emitted ho hadvance, Progress.course_eq,
        hadvance]
      refine ⟨done, hdone, ?_⟩
      exact congrArg (Supply.cons t) hsupply

theorem pull_ofText {options : RunOptions} (ho : o.Calm) (hrule : options.rule = .ok rule)
    (source : Text) (filter : Filter) :
    Source.pull (ofText source filter options o) =
      Source.pull (⟨{ filter, running := true }, o, .suspended rule (.start source)⟩ :
        LexStream) := by
  have hstart := @Lexer.start_eq o rule { filter } source options rfl (ho _) hrule
  simp only [Source.pull, pull, ofText, Lexer.next, hstart, Lexer.fromTurn]
  split <;> rfl

/-- The stream of a new lexer gives out the tokens that a run of this lexer keeps.  It
ends if the run succeeds, and else it fails as the run does. -/
theorem supply_ofText {options : RunOptions} (ho : o.Calm) (hrule : options.rule = .ok rule)
    (source : Text) (filter : Filter) :
    let run := ({ filter } : Lexer).run o none source options
    ∃ failure,
      Source.supply (ofText source filter options o) = ⟨run.lexer.tokens.toList, failure⟩ ∧
      ((∃ ts, run.result = .ok ts) ∧ failure = none ∨
        ∃ error done, run.result = .error (.lexical error) ∧
          failure = some (.lexical error, done) ∧ done.stream = .finished) := by
  intro run
  obtain ⟨done, hdone, hsupply⟩ :=
    @supply_suspended o rule ho { filter, running := true } (.start source)
  rw [Source.supply_eq, ← pull_ofText ho hrule, ← Source.supply_eq] at hsupply
  have hstart := @Lexer.start_eq o rule { filter } source options rfl (ho _) hrule
  have htokens : run.lexer.tokens.toList = ((Progress.start source).course filter rule).tokens := by
    simp only [run, Lexer.run, hstart, Lexer.drive_eq_course ho Lexer.proceeds_none]
    simp [Lexer.finish]
  have hresult : run.result = ((Progress.start source).course filter rule).result := by
    simp only [run, Lexer.run, hstart, Lexer.drive_eq_course ho Lexer.proceeds_none]
  refine ⟨_, by rw [hsupply, htokens], ?_⟩
  rw [hresult, Course.result, Course.failure]
  cases ((Progress.start source).course filter rule).ending with
  | ok reason => exact .inl ⟨⟨_, rfl⟩, rfl⟩
  | error error => exact .inr ⟨error, done, rfl, rfl, hdone⟩

end LexStream

/-! ## A reader of a stream beside a reader of a list -/

namespace Reader

variable {σ : Type} [Source σ]

/-- The request in which the source is first asked for more than it has. -/
def FindsEnd (r : Reader σ) (q : Request) : Prop :=
  r.ahead ≠ .ended ∧ (r.handle q).2.ahead = .ended

/-- A reader that has the same left as a reader of a list, and whose source then fails
once unless that list is already known to have ended. -/
structure Beside (failure : Option (RunError × σ)) (lazy : Reader σ)
    (eager : Reader (List Token)) : Prop where
  remainder_eq : lazy.remainder = eager.remainder
  failure_eq : lazy.supply.failure = if eager.ahead = .ended then none else failure
  fused : ∀ e done, failure = some (e, done) → Source.supply done = ⟨[], none⟩

variable {failure : Option (RunError × σ)} {lazy : Reader σ} {eager : Reader (List Token)}

/-- A request to both readers: they answer alike, but for a failure in place of the end. -/
theorem Beside.handle (h : Beside failure lazy eager) (q : Request) :
    Beside failure (lazy.handle q).2 (eager.handle q).2 ∧
      (∀ e done, failure = some (e, done) → eager.FindsEnd q →
        (lazy.handle q).1 = .error (.source e)) ∧
      (failure = none ∨ ¬ eager.FindsEnd q → (lazy.handle q).1 = (eager.handle q).1) := by
  obtain ⟨hremainder, hfailure, hfused⟩ := h
  obtain ⟨hanswer, hleft, -, hended⟩ :=
    (eager.follows_handle q).of_failure_eq_none eager.failure_list
  have hfollows := lazy.follows_handle q
  rw [hremainder] at hfollows
  unfold FindsEnd
  rw [hanswer, hended]
  generalize eager.remainder.handle q = plain at hfollows hleft ⊢
  generalize eager.remainder.overruns q = beyond at hfollows hended ⊢
  generalize lazy.handle q = done at hfollows ⊢
  cases hfollows with
  | within hsame hkept hahead =>
      refine ⟨⟨hsame.trans hleft.symm, ?_, hfused⟩, ?_, fun _ ↦ rfl⟩
      · simp [hkept, hfailure, hended]
      · simp
  | ended hnone hsame hahead =>
      refine ⟨⟨hsame.trans hleft.symm, ?_, hfused⟩, ?_, fun _ ↦ rfl⟩
      · simp [supply_of_ended hahead, hended]
      · intro e done hsome hfinds
        simp [hfailure, hfinds.1, hsome] at hnone
  | @failed e done r' hsome htokens hsource hahead hcurrent hskips =>
      -- The list cannot have been at its end: a source fails only once.
      rw [hfailure] at hsome
      have hopen : eager.ahead ≠ .ended := fun hclosed ↦ by simp [hclosed] at hsome
      rw [if_neg hopen] at hsome
      have hsupply : r'.supply = ⟨[], none⟩ := by rw [supply, hahead, hsource, hfused e done hsome]
      refine ⟨⟨?_, ?_, hfused⟩, ?_, ?_⟩
      · rw [hleft, remainder, hsupply, ← htokens, hcurrent, hskips]
      · simp [hsupply, hended]
      · intro e' done' hsome' _
        obtain ⟨rfl, -⟩ := Prod.mk.inj (Option.some.inj (hsome.symm.trans hsome'))
        rfl
      · rintro (hnone | hfinds)
        · simp [hnone] at hsome
        · exact absurd ⟨hopen, .inr rfl⟩ hfinds

theorem Beside.after (h : Beside failure lazy eager) (requests : List Request) :
    Beside failure (lazy.after requests) (eager.after requests) := by
  induction requests generalizing lazy eager with
  | nil => exact h
  | cons q rest ih => exact ih (h.handle q).1

/-- After whatever requests, a reader of a stream answers each request as a reader of
the tokens that the run keeps, and has taken the same token last.  If the run fails then
the request in which the list is found to end fails with the error of the run instead;
there is only one such request, since the list stays at its end. -/
theorem handle_stream_eq_list {o : Observers} {options : RunOptions} {rule : StopRule}
    (ho : o.Calm) (hrule : options.rule = .ok rule) (source : Text) (filter : Filter)
    (skips : Bool) (earlier : List Request) (q : Request) :
    let run := ({ filter } : Lexer).run o none source options
    let stream := LexStream.ofText source filter options o
    let kept := run.lexer.tokens.toList
    let lazy := ({ source := stream, skipsSeparators := skips } : Reader LexStream).after earlier
    let eager := ({ source := kept, skipsSeparators := skips } : Reader (List Token)).after earlier
    (lazy.handle q).2.current = (eager.handle q).2.current ∧
      (∀ e, run.result = .error e → (∃ error, e = .lexical error) ∧
        (eager.FindsEnd q → (lazy.handle q).1 = .error (.source e))) ∧
      ((∃ ts, run.result = .ok ts) ∨ ¬ eager.FindsEnd q →
        (lazy.handle q).1 = (eager.handle q).1) ∧
      (eager.ahead = .ended → (eager.handle q).2.ahead = .ended) := by
  intro run stream kept lazy eager
  obtain ⟨failure, hsupply, hends⟩ := LexStream.supply_ofText ho hrule source filter
  have hfused (e : RunError) (done : LexStream) (hsome : failure = some (e, done)) :
      Source.supply done = ⟨[], none⟩ := by
    rcases hends with ⟨-, hnone⟩ | ⟨_, done', -, hfailure, hdone⟩
    · simp [hnone] at hsome
    · obtain ⟨-, rfl⟩ := Prod.mk.inj (Option.some.inj (hfailure.symm.trans hsome))
      exact LexStream.supply_of_finished hdone
  have hstart : Beside failure { source := stream, skipsSeparators := skips }
      { source := kept, skipsSeparators := skips } := by
    refine ⟨?_, congrArg Supply.failure hsupply, hfused⟩
    rw [remainder_list]
    exact congrArg (fun supply : Supply LexStream ↦ Remainder.mk supply.tokens none skips) hsupply
  obtain ⟨hnext, hfails, hagrees⟩ := (hstart.after earlier).handle q
  refine ⟨congrArg Remainder.current hnext.remainder_eq, ?_, ?_, ?_⟩
  · intro e herror
    rcases hends with ⟨⟨ts, hok⟩, -⟩ | ⟨error, done, hfailed, hsome, -⟩
    · cases hok.symm.trans herror
    · obtain rfl : e = .lexical error := Except.error.inj (herror.symm.trans hfailed)
      exact ⟨⟨error, rfl⟩, hfails _ done hsome⟩
  · rintro (⟨ts, hok⟩ | hfinds)
    · rcases hends with ⟨-, hnone⟩ | ⟨error, done, hfailed, -⟩
      · exact hagrees (.inl hnone)
      · cases hok.symm.trans hfailed
    · exact hagrees (.inr hfinds)
  · intro hended
    exact ((eager.follows_handle q).of_failure_eq_none eager.failure_list).2.2.2.mpr (.inl hended)

/-- A string is left open behind a comment that is dropped.  The skip that runs into it
has taken the name before, and a read after it finds no token. -/
theorem handle_stream_eq_list_open_string :
    let stream := LexStream.ofText "a /*x*/ b '" { comments := true } {} fun _ ↦ .notes
    let lazy := ({ source := stream } : Reader LexStream).after [.skip]
    let done := lazy.handle (.skipTo [.newline] true)
    (∃ error, done.1 = .error (.source (.lexical error))) ∧
      done.2.current = some ⟨.identifier, ⟨1, 9⟩, 8, 8, "b"⟩ ∧
      (done.2.handle (.read {} none)).1 = .error (.noToken .read) := by
  intro stream lazy done
  have hcalm : Observers.Calm fun _ ↦ .notes := fun _ ↦ rfl
  have hagrees (earlier : List Request) (q : Request) := handle_stream_eq_list hcalm
    (rfl : RunOptions.rule {} = .ok {}) "a /*x*/ b '" { comments := true } true earlier q
  generalize hrun : Lexer.run { filter := { comments := true } } (fun _ ↦ .notes) none
    "a /*x*/ b '" {} = run at hagrees
  have hkept : run.lexer.tokens.toList =
      [⟨.identifier, ⟨1, 1⟩, 0, 0, "a"⟩, ⟨.identifier, ⟨1, 9⟩, 8, 8, "b"⟩] := by
    rw [← hrun]
    decide +kernel
  have hfailed : run.result.toOption = none := by
    rw [← hrun]
    decide +kernel
  simp only [hkept] at hagrees
  obtain ⟨hcurrent, hfails, -⟩ := hagrees [.skip] (.skipTo [.newline] true)
  obtain ⟨-, -, hsame, -⟩ := hagrees [.skip, .skipTo [.newline] true] (.read {} none)
  refine ⟨?_, hcurrent.trans (by decide +kernel), ?_⟩
  · cases hresult : run.result with
    | ok ts => simp [hresult, Except.toOption] at hfailed
    | error e =>
        obtain ⟨⟨error, rfl⟩, hanswer⟩ := hfails e hresult
        exact ⟨error, hanswer ⟨by decide +kernel, by decide +kernel⟩⟩
  · refine (hsame (.inr fun hfinds ↦ absurd hfinds.1 (by decide +kernel))).trans ?_
    rw [((follows_handle _ _).of_failure_eq_none (failure_list _)).1,
      (remainder_after (failure_list _) _).1, remainder_list]
    rfl

end Reader

end Lexis
