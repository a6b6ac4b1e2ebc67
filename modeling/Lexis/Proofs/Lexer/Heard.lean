import Lexis.Proofs.Lexer.Interleaving
import Lexis.Proofs.Lexer.Trace

/-!
# What is heard of streams

A stream is heard as far as its owner has taken it.  Whatever else happens in the session,
what is heard of it is a beginning of the trace of its run, and its end is heard only if it
has come there by itself.
-/

namespace Lexis

namespace Session

def tells (s : Session) (id : Nat) (o : Observers) (x : Step) : List Event :=
  if x.takes id then ({ s with observers := o }.step x).2.1 else []

def told (s : Session) (id : Nat) : List (Observers × Step) → List Event
  | [] => []
  | (o, x) :: rest => s.tells id o x ++ (s.turn o x).told id rest

/-- How a stream is left that has given out this many tokens in all, and what it has told
of its end. -/
inductive Left (o : Observers) (rule : StopRule) (count : Nat) (closed : Prop) :
    (last : List Event) → Stream → Prop
  | suspended {p : Progress} (h : p.count = count) :
      Left o rule count closed [] (.suspended rule p)
  | raised (h : ¬ o.Calm) : Left o rule count closed [] .finished
  | closed (h : closed) : Left o rule count closed [] .finished
  | ended (reason : StopReason) : Left o rule count closed [.ended count reason] .finished
  | failed (e : LexError) : Left o rule count closed [.failed e] .finished

variable {s : Session} {id : Nat} {o : Observers} {x : Step} {rule : StopRule} {p : Progress}

theorem tells_next (s : Session) (id : Nat) (o : Observers) :
    s.tells id o (.next id) = (s.lexer.next o (s.stream id)).1.events := by
  rw [tells, if_pos (by simp [Step.takes])]
  rfl

theorem tells_drain (s : Session) (id : Nat) (o : Observers) :
    s.tells id o (.drain id) = (s.lexer.drain o (s.stream id)).events := by
  rw [tells, if_pos (by simp [Step.takes])]
  rfl

theorem tells_of_not_takes (h : x.takes id = false) : s.tells id o x = [] := by
  simp [tells, h]

theorem exists_of_isSuspended {stream : Stream} (h : stream.isSuspended = true) :
    ∃ rule p, stream = .suspended rule p := by
  cases stream with
  | suspended rule p => exact ⟨rule, p, rfl⟩
  | fresh source options => simp [Stream.isSuspended] at h
  | finished => simp at h

theorem eq_of_takes (h : x.takes id = true) : x = .next id ∨ x = .drain id := by
  cases x <;> simp_all [Step.takes]

/-- A step that asks a stream for tokens, when observers raise at tokens only. -/
structure Asked (s : Session) (id : Nat) (o : Observers) (rule : StopRule) (count : Nat)
    (x : Step) (last : List Event) : Prop where
  tells : s.tells id o x = o.heard none (account count (s.gives id o x) ++ last)
  left : Left o rule (count + (s.gives id o x).length) False last ((s.turn o x).stream id)
  record : ((s.turn o x).stream id).isSuspended = true →
    (s.turn o x).lexer.lastError = s.lexer.lastError
  raised : ∀ message, ({ s with observers := o }.step x).2.2 = .error (.raised message) →
    last = [] ∧ (s.turn o x).lexer.tokens.toList = s.lexer.tokens.toList ++ s.gives id o x ∧
      (s.turn o x).lexer.lastError = s.lexer.lastError

theorem asked_next (ho : o.Mild) (h : s.stream id = .suspended rule p) :
    ∃ last, s.Asked id o rule p.count (.next id) last := by
  have hnext : s.lexer.next o (s.stream id) =
      Lexer.fromTurn [] rule (s.lexer.resume o rule p) := by
    rw [h]
    rfl
  have hanswer : ({ s with observers := o }.step (.next id)).2.2 =
      (s.lexer.next o (s.stream id)).1.result.map .next := rfl
  have hgives := gives_next s id o
  have htells := tells_next s id o
  have hstream := stream_turn_next s id o
  have hturn := turn_next s id o
  rw [hnext] at hgives htells hstream hturn hanswer
  rcases Lexer.resume_of_mild ho s.lexer rule p with
    ⟨t, next, hcount, hresume⟩ | ⟨t, message, hraises, hresume⟩ | ⟨reason, hresume⟩ | ⟨e, hresume⟩
  all_goals
    rw [hresume] at hgives htells hstream hturn hanswer
    simp only [Lexer.fromTurn, Outcome.abandon, List.nil_append, Option.toList_some,
      Option.toList_none, Except.map] at hgives htells hstream hturn hanswer
  · refine ⟨[], ?_, ?_, ?_, ?_⟩
    · rw [htells, hgives, List.append_nil]
    · rw [hstream, hgives]
      exact .suspended hcount
    · intro _
      rw [hturn]
    · intro message hraised
      simp [hanswer] at hraised
  · have hgot : s.gives id o (.next id) = [t] := by
      rw [hgives]
      simp
    refine ⟨[], ?_, ?_, ?_, ?_⟩
    · rw [htells, hgot, List.append_nil]
    · rw [hstream]
      exact .raised hraises
    · intro hsuspended
      simp [hstream] at hsuspended
    · intro message _
      rw [hturn, hgot]
      exact ⟨rfl, Array.toList_push, rfl⟩
  · refine ⟨[.ended p.count reason], ?_, ?_, ?_, ?_⟩
    · rw [htells, hgives]
      rfl
    · rw [hstream, hgives]
      exact .ended reason
    · intro hsuspended
      simp [hstream] at hsuspended
    · intro message hraised
      simp [hanswer] at hraised
  · have hgot : s.gives id o (.next id) = [] := by
      rw [hgives]
      simp
    refine ⟨[.failed e], ?_, ?_, ?_, ?_⟩
    · rw [htells, hgot]
      rfl
    · rw [hstream]
      exact .failed e
    · intro hsuspended
      simp [hstream] at hsuspended
    · intro message hraised
      simp [hanswer] at hraised

theorem asked_drain (ho : o.Mild) (h : s.stream id = .suspended rule p) :
    ∃ last, s.Asked id o rule p.count (.drain id) last := by
  have hdrain : s.lexer.drain o (s.stream id) = s.lexer.drive o none rule p := by
    rw [h]
    rfl
  have hanswer : ({ s with observers := o }.step (.drain id)).2.2 =
      (s.lexer.drain o (s.stream id)).result.map .tokens := rfl
  obtain ⟨ts, last, hevents, htokens, hfinishes⟩ := Lexer.drive_of_mild ho s.lexer rule p
  rw [← hdrain] at hevents htokens hfinishes
  have hkept :
      (s.lexer.drain o (s.stream id)).lexer.tokens.toList.drop s.lexer.tokens.size = ts := by
    rw [htokens, ← Array.length_toList, List.drop_left]
  have hgives : s.gives id o (.drain id) = ts := by
    rw [gives_drain]
    cases hfinishes with
    | ended reason hresult => rw [hresult]
    | failed e hresult =>
        rw [hresult]
        exact hkept
    | raised _ hresult _ =>
        rw [hresult]
        exact hkept
  refine ⟨last, ?_, ?_, ?_, ?_⟩
  · rw [tells_drain, hevents, hgives]
  · rw [stream_turn_drain, hgives]
    cases hfinishes with
    | ended reason _ => exact .ended reason
    | failed e _ => exact .failed e
    | raised hraises _ _ => exact .raised hraises
  · intro hsuspended
    rw [stream_turn_drain] at hsuspended
    simp at hsuspended
  · intro message hraised
    rw [hanswer] at hraised
    cases hfinishes with
    | ended reason hresult => simp [hresult, Except.map] at hraised
    | failed e hresult => simp [hresult, Except.map] at hraised
    | raised _ _ hlast =>
        refine ⟨rfl, ?_, hlast⟩
        rw [turn_drain, htokens, hgives]

theorem exists_asked (ho : o.Mild) (h : s.stream id = .suspended rule p)
    (htakes : x.takes id = true) : ∃ last, s.Asked id o rule p.count x last := by
  rcases eq_of_takes htakes with rfl | rfl
  · exact asked_next ho h
  · exact asked_drain ho h

theorem told_append (s : Session) (id : Nat) (turns later : List (Observers × Step)) :
    s.told id (turns ++ later) = s.told id turns ++ (s.after turns).told id later := by
  induction turns generalizing s with
  | nil => rfl
  | cons turn rest ih =>
      rw [List.cons_append, told, told, after, ih, List.append_assoc]

theorem given_append (s : Session) (id : Nat) (turns later : List (Observers × Step)) :
    s.given id (turns ++ later) = s.given id turns ++ (s.after turns).given id later := by
  induction turns generalizing s with
  | nil => rfl
  | cons turn rest ih =>
      rw [List.cons_append, given, given, after, ih, List.append_assoc]

theorem after_append (s : Session) (turns later : List (Observers × Step)) :
    s.after (turns ++ later) = (s.after turns).after later := by
  induction turns generalizing s with
  | nil => rfl
  | cons turn rest ih => exact ih (s.turn turn.1 turn.2)

/-- Nothing is heard of a stream that has finished. -/
theorem told_of_finished {turns : List (Observers × Step)} (h : s.stream id = .finished)
    (hopens : ∀ turn ∈ turns, turn.2.opens id = false) : s.told id turns = [] := by
  induction turns generalizing s with
  | nil => rfl
  | cons turn rest ih =>
      obtain ⟨o, x⟩ := turn
      have hopen := hopens _ List.mem_cons_self
      have hrest := ih (turn_of_finished (o := o) h hopen).1 fun turn hturn ↦
        hopens turn (List.mem_cons_of_mem _ hturn)
      rw [told, hrest, List.append_nil]
      rcases spares_or_eq hopen with hspares | rfl | rfl | rfl
      · exact tells_of_not_takes hspares.takes
      · rw [tells_next, h]
        rfl
      · rw [tells_drain, h]
        rfl
      · exact tells_of_not_takes rfl

theorem Left.imp {count : Nat} {closed closed' : Prop} {last : List Event} {stream : Stream}
    (h : Left o rule count closed last stream) (himp : closed → closed') :
    Left o rule count closed' last stream := by
  cases h with
  | suspended h => exact .suspended h
  | raised h => exact .raised h
  | closed h => exact .closed (himp h)
  | ended reason => exact .ended reason
  | failed e => exact .failed e

/-- What is heard of a stream that has begun, whatever else happens in the session. -/
theorem told_of_suspended {turns : List (Observers × Step)} (ho : o.Mild)
    (h : s.stream id = .suspended rule p) (hobservers : ∀ turn ∈ turns, turn.1 = o)
    (hopens : ∀ turn ∈ turns, turn.2.opens id = false) :
    ∃ last,
      s.told id turns = o.heard none (account p.count (s.given id turns) ++ last) ∧
        Left o rule (p.count + (s.given id turns).length)
          (∃ turn ∈ turns, turn.2.closes id = true) last ((s.after turns).stream id) := by
  induction turns generalizing s p with
  | nil =>
      refine ⟨[], rfl, ?_⟩
      rw [after, h]
      exact .suspended rfl
  | cons turn rest ih =>
      obtain ⟨observers, x⟩ := turn
      obtain rfl : observers = o := hobservers _ List.mem_cons_self
      have hobserversRest := fun turn hturn ↦ hobservers turn (List.mem_cons_of_mem _ hturn)
      have hopensRest := fun turn hturn ↦ hopens turn (List.mem_cons_of_mem _ hturn)
      have hlater {s' : Session} {q : Progress} (hstream : s'.stream id = .suspended rule q) :=
        ih hstream hobserversRest hopensRest
      have hclosed : (∃ turn ∈ rest, turn.2.closes id = true) →
          ∃ turn ∈ (observers, x) :: rest, turn.2.closes id = true := by
        rintro ⟨turn, hturn, hcloses⟩
        exact ⟨turn, List.mem_cons_of_mem _ hturn, hcloses⟩
      rw [told, given, after]
      by_cases htakes : x.takes id = true
      · obtain ⟨last, hasked⟩ := exists_asked ho h htakes
        have hleft := hasked.left
        rw [hasked.tells]
        generalize hstream : (s.turn observers x).stream id = stream at hleft
        by_cases hfinished : stream = .finished
        · -- It has finished for good.
          subst hfinished
          obtain ⟨hgiven, hafter⟩ := given_of_finished hstream hopensRest
          rw [told_of_finished hstream hopensRest, hgiven, hafter, List.append_nil, List.append_nil]
          exact ⟨last, rfl, hleft.imp False.elim⟩
        · cases hleft with
          | suspended hcount =>
              obtain ⟨last, htold, hleft⟩ := hlater hstream
              refine ⟨last, ?_, ?_⟩
              · rw [htold, hcount, account_append, List.append_nil, List.append_assoc,
                  ← Observers.heard_append]
              · rw [List.length_append, ← Nat.add_assoc, ← hcount]
                exact hleft.imp hclosed
          | _ => exact absurd rfl hfinished
      · have hnot : x.takes id = false := by simpa using htakes
        rw [tells_of_not_takes hnot, gives_of_not_takes hnot]
        rcases spares_or_eq (hopens _ List.mem_cons_self) with hspares | rfl | rfl | rfl
        · obtain ⟨last, htold, hleft⟩ := hlater ((stream_turn_of_spares hspares).trans h)
          exact ⟨last, htold, hleft.imp hclosed⟩
        · simp [Step.takes] at hnot
        · simp [Step.takes] at hnot
        · have hstream := stream_turn_close s id observers
          obtain ⟨hgiven, hafter⟩ := given_of_finished hstream hopensRest
          rw [told_of_finished hstream hopensRest, hgiven, hafter]
          refine ⟨[], rfl, .closed ⟨_, List.mem_cons_self, ?_⟩⟩
          simp [Step.closes]

/-- A step on a stream that has begun goes on to the next token of its run or tells of its
end. -/
theorem tells_next_suspended (ho : o.Calm) (h : s.stream id = .suspended rule p) :
    (∃ t next, p.course s.lexer.filter rule = (next.course s.lexer.filter rule).cons t ∧
      next.count = p.count + 1 ∧ (s.turn o (.next id)).stream id = .suspended rule next ∧
      s.tells id o (.next id) = (o.notify (.appended p.count t)).1) ∨
    (s.turn o (.next id)).stream id = .finished ∧
      s.tells id o (.next id) = (p.course s.lexer.filter rule).events o none p.count := by
  have hnext : s.lexer.next o (s.stream id) =
      Lexer.fromTurn [] rule (s.lexer.resume o rule p) := by
    rw [h]
    rfl
  rw [stream_turn_next, tells_next, hnext, Progress.course_eq]
  cases hadvance : p.advance s.lexer.filter rule with
  | emitted t next =>
      rw [Lexer.resume_of_emitted ho hadvance]
      exact .inl ⟨t, next, rfl, Progress.count_of_advance hadvance, rfl, rfl⟩
  | stopped reason =>
      rw [Lexer.resume_of_stopped ho hadvance]
      exact .inr ⟨rfl, rfl⟩
  | failed e =>
      rw [Lexer.resume_of_failed ho hadvance]
      exact .inr ⟨rfl, rfl⟩

/-- All that a run tells from here on is heard of a stream that goes on to its end. -/
theorem told_of_orderly {turns : List (Observers × Step)} (h : s.stream id = .suspended rule p)
    (horderly : s.Orderly turns) (hobservers : ∀ turn ∈ turns, turn.1 = o)
    (hopens : ∀ turn ∈ turns, turn.2.opens id = false)
    (hcloses : ∀ turn ∈ turns, turn.2.closes id = false)
    (hfinished : (s.after turns).stream id = .finished) :
    s.told id turns = (p.course s.lexer.filter rule).events o none p.count := by
  induction turns generalizing s p with
  | nil =>
      rw [after, h] at hfinished
      simp at hfinished
  | cons turn rest ih =>
      obtain ⟨observers, x⟩ := turn
      obtain rfl : observers = o := hobservers _ List.mem_cons_self
      obtain ⟨hadmits, hrest⟩ := horderly
      have hopensRest : ∀ turn ∈ rest, turn.2.opens id = false :=
        fun turn hturn ↦ hopens turn (List.mem_cons_of_mem _ hturn)
      have hfilter : (s.turn observers x).lexer.filter = s.lexer.filter :=
        hadmits.filter_eq (suspended_pos (by rw [h]; rfl))
      have hlater {q : Progress} (hstream : (s.turn observers x).stream id = .suspended rule q) :
          (s.turn observers x).told id rest =
            (q.course s.lexer.filter rule).events observers none q.count := by
        rw [← hfilter]
        exact ih hstream hrest (fun turn hturn ↦ hobservers turn (List.mem_cons_of_mem _ hturn))
          hopensRest (fun turn hturn ↦ hcloses turn (List.mem_cons_of_mem _ hturn)) hfinished
      rw [told]
      rcases spares_or_eq (hopens _ List.mem_cons_self) with hspares | rfl | rfl | rfl
      · rw [tells_of_not_takes hspares.takes, hlater ((stream_turn_of_spares hspares).trans h)]
        rfl
      · rcases tells_next_suspended hadmits.calm h with
          ⟨t, next, hcourse, hcount, hstream, htells⟩ | ⟨hstream, htells⟩
        · rw [htells, hlater hstream, hcourse, Course.events_cons, hcount]
          simp [Lexer.deliver]
        · rw [htells, told_of_finished hstream hopensRest, List.append_nil]
      · have hstream := stream_turn_drain s id observers
        rw [told_of_finished hstream hopensRest, List.append_nil, tells_drain, h, Lexer.drain,
          Lexer.drive_eq_course hadmits.calm Lexer.proceeds_none]
      · have hclose := hcloses _ List.mem_cons_self
        simp [Step.closes] at hclose

/-! ## The record of errors while a stream is suspended -/

structure Working (s : Session) (id : Nat) : Prop where
  sound : s.Sound
  suspended : (s.stream id).isSuspended = true
  record : s.lexer.lastError = none

namespace Working

theorem running (h : s.Working id) : s.lexer.running = true := by
  have hpos := suspended_pos h.suspended
  have hsound := h.sound
  unfold Sound at hsound
  cases hrunning : s.lexer.running with
  | true => rfl
  | false =>
      rw [hrunning, Bool.toNat_false] at hsound
      omega

/-- No other stream has begun. -/
theorem not_isSuspended {i : Nat} (h : s.Working id) (hne : i ≠ id) :
    (s.stream i).isSuspended = false := by
  cases hother : (s.stream i).isSuspended with
  | false => rfl
  | true =>
      let s' : Session := { s with streams := setStream i .finished s.streams }
      have hcount : s'.suspended + (s.stream i).isSuspended.toNat =
          s.suspended + Stream.finished.isSuspended.toNat :=
        suspended_setStream rfl fun _ ↦ rfl
      have hstream : s'.stream id = s.stream id := stream_of_setStream_ne hne rfl
      have hpos : 0 < s'.suspended := suspended_pos (by rw [hstream, h.suspended])
      have hle : s.suspended ≤ s.lexer.running.toNat := h.sound
      rw [hother, Bool.toNat_true, Stream.isSuspended_finished, Bool.toNat_false] at hcount
      have hone := Bool.toNat_le s.lexer.running
      omega

/-- Steps that do not concern the stream are refused or leave the record as it is. -/
theorem record_of_spares (h : s.Working id) (hspares : Spares x id) :
    (s.turn o x).lexer.lastError = none := by
  have hrefused (run : Text × RunOptions) (hbegins : s.begins? x = some run) :
      (s.turn o x).lexer.lastError = none := by
    rw [(refused_of_running h.running hbegins).lexer]
    exact h.record
  cases x with
  | run source options receiver => exact hrefused (source, options) rfl
  | tryRun source options receiver => exact hrefused (source, options) rfl
  | reset => rfl
  | setFilter comments newlines => exact h.record
  | tokens => exact h.record
  | openStream i source options => exact h.record
  | next i =>
      have hother := h.not_isSuspended (i := i) (by simpa [Step.takes] using hspares.takes)
      cases hstream : s.stream i with
      | fresh source options =>
          apply hrefused (source, options)
          rw [begins?, hstream]
          rfl
      | suspended rule p => simp [hstream, Stream.isSuspended] at hother
      | finished =>
          rw [turn_next, hstream]
          exact h.record
  | drain i =>
      have hother := h.not_isSuspended (i := i) (by simpa [Step.takes] using hspares.takes)
      cases hstream : s.stream i with
      | fresh source options =>
          apply hrefused (source, options)
          rw [begins?, hstream]
          rfl
      | suspended rule p => simp [hstream, Stream.isSuspended] at hother
      | finished =>
          rw [turn_drain, hstream]
          exact h.record
  | close i =>
      have hclose : (s.turn o (.close i)).lexer.lastError = s.lexer.lastError := by
        show (s.lexer.close (s.stream i)).lastError = _
        cases s.stream i <;> rfl
      exact hclose.trans h.record

theorem turn (h : s.Working id) (ho : o.Mild) (hopens : x.opens id = false)
    (hsuspended : ((s.turn o x).stream id).isSuspended = true) : (s.turn o x).Working id := by
  refine ⟨sound_turn h.sound o x, hsuspended, ?_⟩
  by_cases htakes : x.takes id = true
  · obtain ⟨rule, p, hstream⟩ := exists_of_isSuspended h.suspended
    obtain ⟨last, hasked⟩ := exists_asked ho hstream htakes
    rw [hasked.record hsuspended]
    exact h.record
  · rcases spares_or_eq hopens with hspares | rfl | rfl | rfl
    · exact h.record_of_spares hspares
    · simp [Step.takes] at htakes
    · simp [Step.takes] at htakes
    · rw [stream_turn_close] at hsuspended
      simp at hsuspended

theorem after {turns : List (Observers × Step)} (h : s.Working id) (ho : o.Mild)
    (hobservers : ∀ turn ∈ turns, turn.1 = o) (hopens : ∀ turn ∈ turns, turn.2.opens id = false)
    (hsuspended : ((s.after turns).stream id).isSuspended = true) : (s.after turns).Working id := by
  induction turns generalizing s with
  | nil => exact h
  | cons turn rest ih =>
      obtain ⟨observers, x⟩ := turn
      obtain rfl : observers = o := hobservers _ List.mem_cons_self
      have hopensRest := fun turn hturn ↦ hopens turn (List.mem_cons_of_mem _ hturn)
      have hturn : ((s.turn observers x).stream id).isSuspended = true := by
        obtain ⟨rule, p, hstream⟩ := exists_of_isSuspended h.suspended
        have hone : ∀ turn ∈ [(observers, x)], turn.1 = observers := by simp
        have hkeeps : ∀ turn ∈ [(observers, x)], turn.2.opens id = false := by
          simpa using hopens _ List.mem_cons_self
        obtain ⟨last, -, hleft⟩ := told_of_suspended ho hstream hone hkeeps
        have hnot (hfinished : (s.turn observers x).stream id = .finished) : False := by
          have hafter := (given_of_finished hfinished hopensRest).2
          rw [Session.after, hafter] at hsuspended
          simp at hsuspended
        generalize hmiddle : (s.after [(observers, x)]).stream id = stream at hleft
        cases hleft with
        | suspended hcount =>
            have hmiddle : (s.turn observers x).stream id = .suspended rule _ := hmiddle
            rw [hmiddle]
            rfl
        | _ => exact (hnot hmiddle).elim
      refine ih (h.turn ho (hopens _ List.mem_cons_self) hturn) ?_ hopensRest hsuspended
      exact fun turn hturn ↦ hobservers turn (List.mem_cons_of_mem _ hturn)

end Working

theorem working_beginning {source : Text} {options : RunOptions} (hs : s.AtRest)
    (h : s.stream id = .fresh source options) : (s.beginning id rule source).Working id := by
  have hstream : (s.beginning id rule source).stream id = .suspended rule (.start source) :=
    stream_beginning h
  refine ⟨?_, by rw [hstream]; rfl, rfl⟩
  have hcount : (s.beginning id rule source).suspended + (s.stream id).isSuspended.toNat =
      s.suspended + (Stream.suspended rule (.start source)).isSuspended.toNat := by
    apply suspended_setStream rfl
    intro hfinished
    rw [h] at hfinished
    simp at hfinished
  rw [h, hs.suspended] at hcount
  exact Nat.le_of_eq hcount

theorem answer_of_finished (h : s.stream id = .finished) (htakes : x.takes id = true) :
    ∃ answer, ({ s with observers := o }.step x).2.2 = .ok answer := by
  have hstream : ({ s with observers := o } : Session).stream id = .finished := h
  rcases eq_of_takes htakes with rfl | rfl
  · simp only [step, hstream]
    exact ⟨_, rfl⟩
  · simp only [step, hstream]
    exact ⟨_, rfl⟩

/-- Observers that raise in a step on a stream that has begun. -/
theorem told_of_raised {earlier : List (Observers × Step)} {message : Text}
    (hworking : s.Working id) (h : s.stream id = .suspended rule p) (ho : o.Mild)
    (hobservers : ∀ turn ∈ earlier, turn.1 = o)
    (hopens : ∀ turn ∈ earlier, turn.2.opens id = false) (htakes : x.takes id = true)
    (hraised : ({ s.after earlier with observers := o }.step x).2.2 = .error (.raised message)) :
    s.told id (earlier ++ [(o, x)]) =
        o.heard none (account p.count (s.given id (earlier ++ [(o, x)]))) ∧
      ((s.after earlier).turn o x).lexer.tokens.toList =
        (s.after earlier).lexer.tokens.toList ++ (s.after earlier).gives id o x ∧
      ((s.after earlier).turn o x).lexer.lastError = none := by
  obtain ⟨last, htold, hleft⟩ := told_of_suspended ho h hobservers hopens
  generalize hstream : (s.after earlier).stream id = stream at hleft
  cases hleft with
  | suspended hcount =>
      have hrecord := (hworking.after ho hobservers hopens (by rw [hstream]; rfl)).record
      obtain ⟨last, hasked⟩ := exists_asked ho hstream htakes
      obtain ⟨rfl, htokens, hkept⟩ := hasked.raised message hraised
      refine ⟨?_, htokens, hkept.trans hrecord⟩
      have htells := hasked.tells
      rw [hcount, List.append_nil] at htells
      rw [told_append, given_append, htold, List.append_nil, account_append,
        Observers.heard_append, told, given, told, given, htells, List.append_nil, List.append_nil]
  | _ =>
      obtain ⟨answer, hanswer⟩ := answer_of_finished (o := o) hstream htakes
      rw [hanswer] at hraised
      simp at hraised

/-! ## From the first step on -/

/-- What is heard of a stream from its first step on: the trace of its run as far as it has
come, and its end only if it has come there by itself. -/
structure Traced (s : Session) (id : Nat) (o : Observers) (source : Text) (rule : StopRule)
    (course : Course) (turns : List (Observers × Step)) : Prop where
  told : ∃ last,
    s.told id turns = o.heard none (trace source.length (s.given id turns) ++ last) ∧
      Left o rule (s.given id turns).length (∃ turn ∈ turns, turn.2.closes id = true) last
        ((s.after turns).stream id)
  finishing : s.Orderly turns → (∀ turn ∈ turns, turn.2.closes id = false) →
    (s.after turns).stream id = .finished →
      s.given id turns = course.tokens ∧
        s.told id turns = o.heard none (course.trace source.length)
  closing : ∀ later : List (Observers × Step), (∀ turn ∈ later, turn.2.opens id = false) →
    s.told id (turns ++ (o, .close id) :: later) = s.told id turns
  raising : ∀ earlier y message, turns = earlier ++ [(o, y)] → y.takes id = true →
    ({ s.after earlier with observers := o }.step y).2.2 = .error (.raised message) →
      s.told id turns = o.heard none (trace source.length (s.given id turns)) ∧
        (s.after turns).lexer.tokens.toList =
          (s.after earlier).lexer.tokens.toList ++ (s.after earlier).gives id o y ∧
        (s.after turns).lexer.lastError = none

/-- The first step on a stream, beside the same step once the stream has begun. -/
structure Enters (s begun : Session) (id : Nat) (o : Observers) (x : Step) (source : Text)
    (rule : StopRule) : Prop where
  answer : ({ s with observers := o }.step x).2.2 = ({ begun with observers := o }.step x).2.2
  turn : s.turn o x = begun.turn o x
  gives : s.gives id o x = begun.gives id o x
  tells : s.tells id o x = o.heard none [.started source.length] ++ begun.tells id o x
  tokens : s.lexer.tokens = begun.lexer.tokens
  filter : s.lexer.filter = begun.lexer.filter
  stream : begun.stream id = .suspended rule (.start source)
  working : begun.Working id

theorem enters_beginning {source : Text} {options : RunOptions} (hs : s.AtRest)
    (hrule : options.rule = .ok rule) (ho : o.Mild) (h : s.stream id = .fresh source options)
    (htakes : x.takes id = true) : s.Enters (s.beginning id rule source) id o x source rule := by
  have hstart : o.notify (.started source.length) = (o.heard none [.started source.length], none) :=
    ho.notify_eq rfl
  have hstep := step_fresh (congrArg Prod.snd hstart) h hs.running hrule htakes
  obtain ⟨hturn, hgives⟩ := turn_fresh (congrArg Prod.snd hstart) h hs.running hrule htakes
  refine ⟨congrArg (fun done ↦ done.2.2) hstep, hturn, hgives, ?_, rfl, rfl, stream_beginning h,
    working_beginning hs h⟩
  rw [tells, tells, if_pos htakes, if_pos htakes, hstep, hstart]

namespace Enters

variable {begun : Session} {source : Text} {turns : List (Observers × Step)}

theorem told_cons (h : s.Enters begun id o x source rule) (turns : List (Observers × Step)) :
    s.told id ((o, x) :: turns) =
      o.heard none [.started source.length] ++ begun.told id ((o, x) :: turns) := by
  rw [told, told, h.tells, h.turn, List.append_assoc]

theorem given_cons (h : s.Enters begun id o x source rule) (turns : List (Observers × Step)) :
    s.given id ((o, x) :: turns) = begun.given id ((o, x) :: turns) := by
  rw [given, given, h.gives, h.turn]

theorem after_cons (h : s.Enters begun id o x source rule) (turns : List (Observers × Step)) :
    s.after ((o, x) :: turns) = begun.after ((o, x) :: turns) := by
  rw [after, after, h.turn]

/-- The last step of those that begin with the first one does the same on both sides. -/
theorem last {earlier : List (Observers × Step)} {y : Step}
    (h : s.Enters begun id o x source rule) (hsplit : (o, x) :: turns = earlier ++ [(o, y)]) :
    ({ s.after earlier with observers := o }.step y).2.2 =
        ({ begun.after earlier with observers := o }.step y).2.2 ∧
      (s.after earlier).turn o y = (begun.after earlier).turn o y ∧
      (s.after earlier).gives id o y = (begun.after earlier).gives id o y ∧
      (s.after earlier).lexer.tokens = (begun.after earlier).lexer.tokens := by
  cases earlier with
  | nil =>
      obtain ⟨rfl, rfl⟩ : x = y ∧ turns = [] := by simpa using hsplit
      exact ⟨h.answer, h.turn, h.gives, h.tokens⟩
  | cons turn init =>
      obtain ⟨rfl, -⟩ := List.cons.inj hsplit
      rw [h.after_cons]
      exact ⟨rfl, rfl, rfl, rfl⟩

theorem orderly (h : s.Enters begun id o x source rule) (htakes : x.takes id = true)
    (horderly : s.Orderly ((o, x) :: turns)) : begun.Orderly ((o, x) :: turns) := by
  have hcalm := horderly.1.calm
  refine ⟨⟨hcalm, horderly.1.proceeds, fun _ ↦ ?_⟩, ?_⟩
  · exact filter_turn_suspended hcalm h.stream htakes
  · rw [← h.turn]
    exact horderly.2

theorem told_eq (h : s.Enters begun id o x source rule) (ho : o.Mild)
    (hobservers : ∀ turn ∈ (o, x) :: turns, turn.1 = o)
    (hopens : ∀ turn ∈ (o, x) :: turns, turn.2.opens id = false) :
    ∃ last,
      s.told id ((o, x) :: turns) =
          o.heard none (trace source.length (s.given id ((o, x) :: turns)) ++ last) ∧
        Left o rule (s.given id ((o, x) :: turns)).length
          (∃ turn ∈ (o, x) :: turns, turn.2.closes id = true) last
          ((s.after ((o, x) :: turns)).stream id) := by
  obtain ⟨last, htold, hleft⟩ := told_of_suspended ho h.stream hobservers hopens
  refine ⟨last, ?_, ?_⟩
  · rw [h.told_cons, htold, h.given_cons, ← Observers.heard_append]
    rfl
  · rw [h.given_cons, h.after_cons]
    rw [show (Progress.start source).count = 0 from rfl, Nat.zero_add] at hleft
    exact hleft

theorem told_of_raised {earlier : List (Observers × Step)} {y : Step} {message : Text}
    (h : s.Enters begun id o x source rule) (ho : o.Mild)
    (hobservers : ∀ turn ∈ (o, x) :: turns, turn.1 = o)
    (hopens : ∀ turn ∈ (o, x) :: turns, turn.2.opens id = false)
    (hsplit : (o, x) :: turns = earlier ++ [(o, y)]) (hy : y.takes id = true)
    (hraised : ({ s.after earlier with observers := o }.step y).2.2 = .error (.raised message)) :
    s.told id ((o, x) :: turns) =
        o.heard none (trace source.length (s.given id ((o, x) :: turns))) ∧
      (s.after ((o, x) :: turns)).lexer.tokens.toList =
        (s.after earlier).lexer.tokens.toList ++ (s.after earlier).gives id o y ∧
      (s.after ((o, x) :: turns)).lexer.lastError = none := by
  have hearlier : ∀ turn ∈ earlier, turn ∈ (o, x) :: turns := by
    intro turn hturn
    rw [hsplit]
    exact List.mem_append_left _ hturn
  obtain ⟨hanswer, hlast, hgot, htokens⟩ := h.last hsplit
  rw [hanswer] at hraised
  obtain ⟨hheard, hmore, hrecord⟩ := Session.told_of_raised h.working h.stream ho
    (fun turn hturn ↦ hobservers turn (hearlier turn hturn))
    (fun turn hturn ↦ hopens turn (hearlier turn hturn)) hy hraised
  rw [← hsplit] at hheard
  have hend : s.after ((o, x) :: turns) = (begun.after earlier).turn o y := by
    rw [hsplit, after_append, after, after, hlast]
  refine ⟨?_, ?_, ?_⟩
  · rw [h.told_cons, hheard, h.given_cons, ← Observers.heard_append]
    rfl
  · rw [hend, hmore, hgot, htokens]
  · rw [hend, hrecord]

end Enters

/-- Nothing is heard of a stream once it is closed. -/
theorem told_close (s : Session) (id : Nat) (o : Observers) (turns : List (Observers × Step))
    {later : List (Observers × Step)} (hopens : ∀ turn ∈ later, turn.2.opens id = false) :
    s.told id (turns ++ (o, .close id) :: later) = s.told id turns := by
  have hclosed : ((s.after turns).turn o (.close id)).stream id = .finished :=
    stream_turn_close _ id o
  have hnothing : (s.after turns).told id ((o, .close id) :: later) = [] := by
    rw [told, tells_of_not_takes rfl, told_of_finished hclosed hopens]
    rfl
  rw [told_append, hnothing, List.append_nil]

theorem traced_of_fresh {source : Text} {options : RunOptions} {later : List (Observers × Step)}
    (hs : s.AtRest) (hrule : options.rule = .ok rule) (ho : o.Mild)
    (h : s.stream id = .fresh source options) (htakes : x.takes id = true)
    (hobservers : ∀ turn ∈ later, turn.1 = o) (hopens : ∀ turn ∈ later, turn.2.opens id = false) :
    s.Traced id o source rule ((Cursor.start source).course.restrict s.lexer.filter rule)
      ((o, x) :: later) := by
  have henters := enters_beginning hs hrule ho h htakes
  have hnot : x.opens id = false := by
    cases x <;> simp_all [Step.takes, Step.opens]
  have hobserversAll : ∀ turn ∈ (o, x) :: later, turn.1 = o := by
    simpa using hobservers
  have hopensAll : ∀ turn ∈ (o, x) :: later, turn.2.opens id = false := by
    simpa [hnot] using hopens
  refine ⟨henters.told_eq ho hobserversAll hopensAll, ?_, ?_, ?_⟩
  · intro horderly hcloses hfinished
    have hall := (given_of_fresh h hs.running hrule htakes horderly hopens).2 hfinished
      fun turn hturn ↦ hcloses turn (List.mem_cons_of_mem _ hturn)
    refine ⟨by rw [hall, streamed_eq _ hrule, Lexer.course_start], ?_⟩
    rw [henters.after_cons] at hfinished
    rw [henters.told_cons, told_of_orderly henters.stream (henters.orderly htakes horderly)
      hobserversAll hopensAll hcloses hfinished, ← henters.filter, Lexer.course_start]
    exact Course.started_append_events ..
  · intro rest hrest
    exact told_close s id o _ hrest
  · intro earlier y message hsplit hy hraised
    exact henters.told_of_raised ho hobserversAll hopensAll hsplit hy hraised

/-! ## Runs and streams -/

theorem atRest_of_sound (hs : s.Sound) (hrunning : s.lexer.running = false) : s.AtRest := by
  refine ⟨hrunning, ?_⟩
  unfold Sound at hs
  rw [hrunning] at hs
  exact Nat.le_zero.mp hs

/-- Whatever asks for a run over this source text with these options, it is refused without
an event or it begins.  What is heard of a run that begins and that nobody disturbs is the
trace of its course, in which indices count the tokens of this run that the filter leaves and
the last event tells how the run has come out.  When the receiver or the observers raise at a
token, the trace is heard up to there, the token is kept and no error is recorded.  What is
heard of a stream is the trace as far as it has come, and no more once it is closed. -/
theorem heard_of_run (hs : s.Sound) (source : Text) (options : RunOptions) :
    (∀ (o : Observers) (x : Step), s.begins? x = some (source, options) →
      (s.lexer.running = true → s.Refused o x .busy) ∧
        ∀ limit, s.lexer.running = false → options.rule = .error limit →
          s.Refused o x (.badLimit limit)) ∧
    ∀ rule, s.lexer.running = false → options.rule = .ok rule →
      let course := (Cursor.start source).course.restrict s.lexer.filter rule
      (∀ t ∈ course.tokens, s.lexer.filter.drops t = false) ∧
      (∀ (o : Observers) (receiver : Option Receiver),
        (s.lexer.tryRun o receiver source options).lexer =
            (s.lexer.run o receiver source options).lexer ∧
          (s.lexer.tryRun o receiver source options).events =
            (s.lexer.run o receiver source options).events) ∧
      (∀ (o : Observers) (receiver : Option Receiver), o.Calm → Lexer.Proceeds receiver →
        s.lexer.Concluded (s.lexer.run o receiver source options) course
          (o.heard receiver (course.trace source.length))) ∧
      (∀ (before : List Token) (t : Token) (rest : List Token) (message : Text),
        course.tokens = before ++ t :: rest →
          (∀ (o : Observers) (receive : Receiver),
            (o.notify (.started source.length)).2 = none →
            Lexer.Undisturbed o (some receive) 0 before →
            (o.notify (.appended before.length t)).2 = none →
            receive (before.length + 1) t = .raise message →
              s.lexer.Interrupted (s.lexer.run o (some receive) source options) message
                (before ++ [t]) (o.heard (some receive) (trace source.length (before ++ [t])))) ∧
          ∀ (o : Observers) (receiver : Option Receiver),
            (o.notify (.started source.length)).2 = none →
            Lexer.Undisturbed o receiver 0 before →
            (o.notify (.appended before.length t)).2 = some (.raised message) →
              s.lexer.Interrupted (s.lexer.run o receiver source options) message
                (before ++ [t])
                (o.heard receiver
                  (trace source.length before ++ [.appended before.length t]))) ∧
      ∀ (id : Nat) (o : Observers) (x : Step) (later : List (Observers × Step)),
        s.stream id = .fresh source options → o.Mild → x.takes id = true →
        (∀ turn ∈ later, turn.1 = o) → (∀ turn ∈ later, turn.2.opens id = false) →
          s.Traced id o source rule course ((o, x) :: later) := by
  refine ⟨?_, ?_⟩
  · intro o x hbegins
    refine ⟨fun hrunning ↦ refused_of_running hrunning hbegins, ?_⟩
    intro limit hrunning hlimit
    exact refused_of_badLimit hrunning hbegins hlimit
  · intro rule hrunning hrule
    refine ⟨?_, ?_, ?_, ?_, ?_⟩
    · intro t ht
      exact Course.not_drops_of_mem_restrict ht
    · intro o receiver
      exact ⟨rfl, rfl⟩
    · intro o receiver ho hreceiver
      exact Lexer.concluded_of_calm hrunning ho hreceiver hrule
    · intro before t rest message hcourse
      refine ⟨?_, ?_⟩
      · intro o receive hstart hbefore hcalm hraise
        exact Lexer.interrupted_of_receiver hrunning hrule hstart hcourse hbefore hcalm hraise
      · intro o receiver hstart hbefore hraise
        exact Lexer.interrupted_of_observers hrunning hrule hstart hcourse hbefore hraise
    · intro id o x later hstream ho htakes hobservers hopens
      exact traced_of_fresh (atRest_of_sound hs hrunning) hrule ho hstream htakes hobservers hopens

/-- Observers that note everything and raise at the second token. -/
def wary : Observers
  | .appended 1 _ => .raises "stop"
  | _ => .notes

theorem mild_wary : wary.Mild := by
  intro e
  cases e with
  | appended i t =>
      by_cases hi : i = 1
      · subst hi
        exact .inr ⟨1, t, "stop", rfl, rfl⟩
      · refine .inl ?_
        have hnotes : wary (.appended i t) = .notes := by
          unfold wary
          split
          · rename_i heq
            simp_all
          · rfl
        simp [Observers.notify, hnotes]
  | _ => exact .inl rfl

/-- A lexer that has kept a token, with a stream that nobody has taken from. -/
def opened : Session :=
  ({} : Session).after
    [(.none, .run "x" {} fun _ _ ↦ .proceed), (.none, .openStream 0 "a b" {})]

/-- Observers raise at the second of two tokens, and a stream is closed behind the first. -/
theorem heard_of_run_wary :
    let a : Token := ⟨.identifier, ⟨1, 1⟩, 0, 0, "a"⟩
    let b : Token := ⟨.identifier, ⟨1, 3⟩, 2, 2, "b"⟩
    opened.lexer.tokens.size = 1 ∧
      opened.lexer.Interrupted (opened.lexer.run wary none "a b" {}) "stop" [a, b]
        [.started 3, .appended 0 a, .appended 1 b] ∧
      opened.told 0 [(wary, .next 0), (wary, .close 0), (wary, .next 0)] =
        [.started 3, .appended 0 a] := by
  intro a b
  have hsound : opened.Sound := sound_after (Nat.zero_le _) _
  obtain ⟨-, hbegins⟩ := heard_of_run hsound "a b" {}
  obtain ⟨-, -, -, hraises, hstreams⟩ := hbegins {} (by decide +kernel) rfl
  have htokens : ((Cursor.start "a b").course.restrict opened.lexer.filter {}).tokens = [a, b] := by
    decide +kernel
  have hlength : List.length ("a b" : Text) = 3 := by decide +kernel
  rw [hlength] at hraises
  refine ⟨by decide +kernel, ?_, ?_⟩
  · have hbefore : Lexer.Undisturbed wary none 0 [a] :=
      Lexer.undisturbed_cons.mpr ⟨⟨rfl, rfl⟩, Lexer.undisturbed_nil⟩
    exact (hraises [a] b [] "stop" htokens).2 wary none rfl hbefore rfl
  · have hstream : opened.stream 0 = .fresh "a b" {} := rfl
    have htraced := hstreams 0 wary (.next 0) [] hstream mild_wary rfl
      (List.forall_mem_nil _) (List.forall_mem_nil _)
    have hclosing := htraced.closing [(wary, .next 0)] (by simp [Step.opens])
    have hgiven : opened.given 0 [(wary, .next 0)] = [a] := by decide +kernel
    have hsuspended : ((opened.after [(wary, .next 0)]).stream 0).isSuspended = true := by
      decide +kernel
    obtain ⟨rule, p, hsame⟩ := exists_of_isSuspended hsuspended
    obtain ⟨last, htold, hleft⟩ := htraced.told
    rw [hsame] at hleft
    cases hleft
    rw [List.append_nil, hgiven, hlength] at htold
    exact hclosing.trans htold

end Session

end Lexis
