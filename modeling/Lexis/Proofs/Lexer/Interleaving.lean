import Lexis.Proofs.Lexer.Course
import Lexis.Proofs.Lexer.Given

/-!
# Streams that overlap

Streams of one lexer can be opened and taken from in any order, among runs of
other kinds.  As long as nobody raises and the filter is not changed under a
stream that has begun, only one of them is in progress at a time, the others are
refused without a trace, and each one gives what it would give alone.
-/

namespace Lexis

def Step.receiver? : Step → Option Receiver
  | .run _ _ receiver => some receiver
  | .tryRun _ _ receiver => some receiver
  | _ => none

namespace Lexer

/-- The tokens that a new lexer with this filter gives in a stream. -/
def streamed (filter : Filter) (source : Text) (options : RunOptions) : List Token :=
  (({ filter } : Lexer).drain .none (.fresh source options)).lexer.tokens.toList

end Lexer

namespace Session

/-- A step in which nobody raises or turns to the lexer, and that does not change
the filter while a stream is suspended. -/
structure Admits (s : Session) (o : Observers) (x : Step) : Prop where
  calm : o.Calm
  proceeds : ∀ receiver, x.receiver? = some receiver → Lexer.Proceeds (some receiver)
  filter_eq : 0 < s.suspended → (s.turn o x).lexer.filter = s.lexer.filter

/-- Steps in which nobody raises or turns to the lexer, and that do not change the
filter under a stream that has begun. -/
def Orderly (s : Session) : List (Observers × Step) → Prop
  | [] => True
  | (o, x) :: rest => s.Admits o x ∧ (s.turn o x).Orderly rest

/-- A step that is refused: it fails without an event and changes nothing but that
a stream which has not begun is given up. -/
structure Refused (s : Session) (o : Observers) (x : Step) (e : RunError) : Prop where
  answer : ({ s with observers := o }.step x).2 = ([], .error e)
  lexer : (s.turn o x).lexer = s.lexer
  stream : ∀ id, (s.stream id).isSuspended = true → (s.turn o x).stream id = s.stream id

variable {s : Session} {id : Nat} {o : Observers} {x : Step}
  {turns : List (Observers × Step)}

/-! ## One run at a time -/

theorem locks_of_calm (ho : o.Calm) : { s with observers := o }.locks x = false := by
  unfold locks
  cases { s with observers := o }.begins? x with
  | none => rfl
  | some run => simp [Lexer.locks, ho (.started run.1.length)]

theorem locksIn_of_orderly (h : s.Orderly turns) : s.locksIn turns = false := by
  induction turns generalizing s with
  | nil => rfl
  | cons turn rest ih =>
      rw [locksIn, locks_of_calm h.1.calm, ih h.2]
      rfl

/-- In an orderly session the lexer is running exactly for the one stream that is
suspended. -/
theorem running_eq_of_orderly (hs : s.AtRest) (h : s.Orderly turns) :
    (s.after turns).suspended = (s.after turns).lexer.running.toNat := by
  have hsound := sound_after hs.sound turns
  have hlocked := locked_after hs.sound turns
  rw [hs.locked_eq, locksIn_of_orderly h, Bool.or_self, locked] at hlocked
  unfold Sound at hsound
  cases hrunning : (s.after turns).lexer.running with
  | false =>
      rw [hrunning] at hsound
      exact Nat.le_antisymm hsound (Nat.zero_le _)
  | true =>
      rw [hrunning] at hsound hlocked
      have hne : (s.after turns).suspended ≠ 0 := by simpa using hlocked
      have hle : (s.after turns).suspended ≤ 1 := hsound
      show (s.after turns).suspended = 1
      omega

/-! ## Refusals -/

theorem stream_of_begins? {stream : Stream} {source : Text} {options : RunOptions}
    (h : stream.begins? = some (source, options)) : stream = .fresh source options := by
  cases stream with
  | fresh source' options' =>
      obtain ⟨rfl, rfl⟩ := Prod.mk.inj (Option.some.inj h)
      rfl
  | suspended rule p => simp [Stream.begins?] at h
  | finished => simp [Stream.begins?] at h

theorem spares_of_isSuspended {source : Text} {options : RunOptions}
    (hbegins : s.begins? x = some (source, options)) (hid : (s.stream id).isSuspended = true) :
    Spares x id := by
  have hne {i : Nat} (hi : (s.stream i).begins? = some (source, options)) : i ≠ id := by
    rintro rfl
    rw [stream_of_begins? hi] at hid
    simp [Stream.isSuspended] at hid
  cases x with
  | run source options receiver => exact ⟨rfl, rfl, rfl⟩
  | tryRun source options receiver => exact ⟨rfl, rfl, rfl⟩
  | next i => exact ⟨by simpa [Step.takes] using hne hbegins, rfl, rfl⟩
  | drain i => exact ⟨by simpa [Step.takes] using hne hbegins, rfl, rfl⟩
  | _ => simp [begins?] at hbegins

/-- A run that is not let begin has no effect on the lexer, whatever step asks for
it. -/
theorem step_of_start {source : Text} {options : RunOptions} {e : RunError}
    (hlexical : ∀ error, e ≠ .lexical error) (hbegins : s.begins? x = some (source, options))
    (hstart : s.lexer.start s.observers source options = ⟨s.lexer, [], .error e⟩) :
    ∃ streams, s.step x = ({ s with streams }, [], .error e) := by
  have hrun (receiver : Option Receiver) :
      s.lexer.run s.observers receiver source options = ⟨s.lexer, [], .error e⟩ := by
    simp only [Lexer.run, hstart]
  cases x with
  | run source' options' receiver =>
      obtain ⟨rfl, rfl⟩ := Prod.mk.inj (Option.some.inj hbegins)
      refine ⟨s.streams, ?_⟩
      simp only [step, hrun]
      rfl
  | tryRun source' options' receiver =>
      obtain ⟨rfl, rfl⟩ := Prod.mk.inj (Option.some.inj hbegins)
      refine ⟨s.streams, ?_⟩
      simp only [step, Lexer.tryRun, hrun]
      cases e with
      | lexical error => exact absurd rfl (hlexical error)
      | _ => rfl
  | next i =>
      refine ⟨setStream i .finished s.streams, ?_⟩
      simp only [step, stream_of_begins? hbegins, Lexer.next, hstart]
      rfl
  | drain i =>
      refine ⟨setStream i .finished s.streams, ?_⟩
      simp only [step, stream_of_begins? hbegins, Lexer.drain, hrun]
      rfl
  | _ => simp [begins?] at hbegins

theorem refused_of_start {source : Text} {options : RunOptions} {e : RunError}
    (hlexical : ∀ error, e ≠ .lexical error) (hbegins : s.begins? x = some (source, options))
    (hstart : s.lexer.start o source options = ⟨s.lexer, [], .error e⟩) : s.Refused o x e := by
  have hbegins' : { s with observers := o }.begins? x = some (source, options) := by
    rw [← hbegins]
    cases x <;> rfl
  obtain ⟨streams, hstep⟩ := step_of_start hlexical hbegins' hstart
  refine ⟨by rw [hstep], ?_, ?_⟩
  · unfold turn
    rw [hstep]
  · intro id hid
    exact stream_turn_of_spares (spares_of_isSuspended hbegins hid)

theorem refused_of_running {source : Text} {options : RunOptions}
    (hrunning : s.lexer.running = true) (hbegins : s.begins? x = some (source, options)) :
    s.Refused o x .busy := by
  apply refused_of_start (by simp) hbegins
  simp [Lexer.start, hrunning]

theorem refused_of_badLimit {source : Text} {options : RunOptions} {limit : Binary64}
    (hrunning : s.lexer.running = false) (hbegins : s.begins? x = some (source, options))
    (hlimit : options.rule = .error limit) : s.Refused o x (.badLimit limit) := by
  apply refused_of_start (by simp) hbegins
  simp [Lexer.start, hrunning, hlimit]

/-! ## A stream that has begun -/

/-- A stream that has begun gives the next token of its run and goes on behind it,
or it gives nothing and has finished. -/
theorem turn_next_suspended {rule : StopRule} {p : Progress} (ho : o.Calm)
    (h : s.stream id = .suspended rule p) :
    (∃ t next, p.course s.lexer.filter rule = (next.course s.lexer.filter rule).cons t ∧
      (s.turn o (.next id)).stream id = .suspended rule next ∧ s.gives id o (.next id) = [t]) ∨
    (p.course s.lexer.filter rule).tokens = [] ∧
      (s.turn o (.next id)).stream id = .finished ∧ s.gives id o (.next id) = [] := by
  have hnext : s.lexer.next o (s.stream id) =
      Lexer.fromTurn [] rule (s.lexer.resume o rule p) := by
    rw [h]
    rfl
  rw [stream_turn_next, gives_next, hnext, Progress.course_eq]
  cases hadvance : p.advance s.lexer.filter rule with
  | emitted t next =>
      rw [Lexer.resume_of_emitted ho hadvance]
      exact .inl ⟨t, next, rfl, rfl, rfl⟩
  | stopped reason =>
      rw [Lexer.resume_of_stopped ho hadvance]
      exact .inr ⟨rfl, rfl, rfl⟩
  | failed e =>
      rw [Lexer.resume_of_failed ho hadvance]
      exact .inr ⟨rfl, rfl, by simp [Lexer.fromTurn]⟩

theorem filter_turn_suspended {rule : StopRule} {p : Progress} (ho : o.Calm)
    (h : s.stream id = .suspended rule p) (htakes : x.takes id = true) :
    (s.turn o x).lexer.filter = s.lexer.filter := by
  cases x with
  | next i =>
      obtain rfl : i = id := by simpa [Step.takes] using htakes
      rw [turn_next, h, Lexer.next]
      cases hadvance : p.advance s.lexer.filter rule with
      | emitted t next => rw [Lexer.resume_of_emitted ho hadvance, Lexer.fromTurn]
      | stopped reason => rw [Lexer.resume_of_stopped ho hadvance, Lexer.fromTurn]
      | failed e => rw [Lexer.resume_of_failed ho hadvance, Lexer.fromTurn]
  | drain i =>
      obtain rfl : i = id := by simpa [Step.takes] using htakes
      rw [turn_drain, h, Lexer.drain, Lexer.drive_eq_course ho Lexer.proceeds_none]
      rfl
  | _ => simp [Step.takes] at htakes

theorem gives_drain_suspended {rule : StopRule} {p : Progress} (ho : o.Calm)
    (h : s.stream id = .suspended rule p) :
    s.gives id o (.drain id) = (p.course s.lexer.filter rule).tokens := by
  rw [gives_drain, h]
  simp only [Lexer.drain, Lexer.drive_eq_course ho Lexer.proceeds_none]
  unfold Course.result Lexer.finish
  cases (p.course s.lexer.filter rule).ending with
  | ok reason => rfl
  | error e => simp

/-- What a stream that has begun gives, whatever else happens in the session: a
beginning of what its run gives out from there on, and all of it if the stream is
not closed before it has finished. -/
theorem given_of_suspended {rule : StopRule} {p : Progress} (h : s.stream id = .suspended rule p)
    (horderly : s.Orderly turns) (hopens : ∀ turn ∈ turns, turn.2.opens id = false) :
    s.given id turns <+: (p.course s.lexer.filter rule).tokens ∧
      ((s.after turns).stream id = .finished → (∀ turn ∈ turns, turn.2.closes id = false) →
        s.given id turns = (p.course s.lexer.filter rule).tokens) := by
  induction turns generalizing s p with
  | nil =>
      refine ⟨List.nil_prefix, fun hfinished ↦ ?_⟩
      rw [after, h] at hfinished
      simp at hfinished
  | cons turn rest ih =>
      obtain ⟨o, x⟩ := turn
      obtain ⟨hadmits, hrest⟩ := horderly
      have hopensRest : ∀ turn ∈ rest, turn.2.opens id = false :=
        fun turn hturn ↦ hopens turn (List.mem_cons_of_mem _ hturn)
      have hfilter : (s.turn o x).lexer.filter = s.lexer.filter :=
        hadmits.filter_eq (suspended_pos (by rw [h]; rfl))
      rw [given, after]
      -- Only three steps concern the stream, and only `next` can leave it suspended.
      rcases spares_or_eq (hopens _ List.mem_cons_self) with hspares | rfl | rfl | rfl
      · have hstream := (stream_turn_of_spares (o := o) hspares).trans h
        obtain ⟨hpre, hall⟩ := ih hstream hrest hopensRest
        rw [hfilter] at hpre hall
        rw [gives_of_not_takes hspares.takes, List.nil_append]
        refine ⟨hpre, fun hfinished hcloses ↦ hall hfinished fun turn hturn ↦ ?_⟩
        exact hcloses turn (List.mem_cons_of_mem _ hturn)
      · rcases turn_next_suspended hadmits.calm h with
          ⟨t, next, hcourse, hstream, hgives⟩ | ⟨hcourse, hstream, hgives⟩
        · obtain ⟨hpre, hall⟩ := ih hstream hrest hopensRest
          rw [hfilter] at hpre hall
          rw [hgives, hcourse, Course.tokens_cons, List.singleton_append]
          refine ⟨(List.prefix_cons_inj t).mpr hpre, fun hfinished hcloses ↦ ?_⟩
          rw [hall hfinished fun turn hturn ↦ hcloses turn (List.mem_cons_of_mem _ hturn)]
        · obtain ⟨hnothing, -⟩ := given_of_finished hstream hopensRest
          rw [hgives, hnothing, hcourse]
          exact ⟨List.prefix_refl _, fun _ _ ↦ rfl⟩
      · have hstream := stream_turn_drain s id o
        obtain ⟨hnothing, -⟩ := given_of_finished hstream hopensRest
        rw [hnothing, List.append_nil, gives_drain_suspended hadmits.calm h]
        exact ⟨List.prefix_refl _, fun _ _ ↦ rfl⟩
      · have hstream := stream_turn_close s id o
        obtain ⟨hnothing, -⟩ := given_of_finished hstream hopensRest
        rw [hnothing, List.append_nil, gives_of_not_takes rfl]
        refine ⟨List.nil_prefix, fun _ hcloses ↦ ?_⟩
        have hclose := hcloses _ List.mem_cons_self
        simp [Step.closes] at hclose

/-! ## A stream that is let begin -/

/-- The session once its stream `id` has begun and given nothing yet. -/
def beginning (s : Session) (id : Nat) (rule : StopRule) (source : Text) : Session :=
  { s with
    lexer := { s.lexer with running := true, lastError := none }
    streams := setStream id (.suspended rule (.start source)) s.streams }

theorem setStream_setStream (id : Nat) (stream stream' : Stream) (streams : List (Nat × Stream)) :
    setStream id stream (setStream id stream' streams) = setStream id stream streams := by
  induction streams with
  | nil => rfl
  | cons entry rest ih =>
      by_cases hid : entry.1 = id
      · simp [setStream, hid]
      · simp [setStream, hid, ih]

variable {source : Text} {options : RunOptions} {rule : StopRule}

theorem stream_beginning (h : s.stream id = .fresh source options) :
    (s.beginning id rule source).stream id = .suspended rule (.start source) := by
  apply stream_of_setStream_self (s := s) _ rfl
  intro hfinished
  rw [h] at hfinished
  simp at hfinished

/-- The first step on a stream that is let begin does what it would do if the stream
had begun before, once the observers have been told of its start. -/
theorem step_fresh (ho : (o.notify (.started source.length)).2 = none)
    (h : s.stream id = .fresh source options) (hrunning : s.lexer.running = false)
    (hrule : options.rule = .ok rule) (htakes : x.takes id = true) :
    { s with observers := o }.step x =
      let begun := { s.beginning id rule source with observers := o }.step x
      (begun.1, (o.notify (.started source.length)).1 ++ begun.2.1, begun.2.2) := by
  have hstream : (s.beginning id rule source).stream id = .suspended rule (.start source) :=
    stream_beginning h
  have hstart : s.lexer.start o source options =
      ⟨(s.beginning id rule source).lexer, (o.notify (.started source.length)).1,
        .ok (rule, .start source)⟩ := Lexer.start_eq hrunning ho hrule
  cases x with
  | next i =>
      obtain rfl : i = id := by simpa [Step.takes] using htakes
      have hnext : s.lexer.next o (s.stream i) =
          let next := (s.beginning i rule source).lexer.next o
            ((s.beginning i rule source).stream i)
          ({ next.1 with events := (o.notify (.started source.length)).1 ++ next.1.events },
            next.2) := by
        rw [hstream, h]
        simp only [Lexer.next, hstart, Lexer.fromTurn]
        split <;> rfl
      have hsame : ({ s with observers := o } : Session).stream i = s.stream i := rfl
      simp only [step]
      rw [hsame, hnext]
      simp only [beginning, setStream_setStream]
      rfl
  | drain i =>
      obtain rfl : i = id := by simpa [Step.takes] using htakes
      have hdrain : s.lexer.drain o (s.stream i) =
          let drain := (s.beginning i rule source).lexer.drain o
            ((s.beginning i rule source).stream i)
          { drain with events := (o.notify (.started source.length)).1 ++ drain.events } := by
        rw [hstream, h]
        simp only [Lexer.drain, Lexer.run, hstart]
      have hsame : ({ s with observers := o } : Session).stream i = s.stream i := rfl
      simp only [step]
      rw [hsame, hdrain]
      simp only [beginning, setStream_setStream]
      rfl
  | _ => simp [Step.takes] at htakes

theorem turn_fresh (ho : (o.notify (.started source.length)).2 = none)
    (h : s.stream id = .fresh source options) (hrunning : s.lexer.running = false)
    (hrule : options.rule = .ok rule) (htakes : x.takes id = true) :
    s.turn o x = (s.beginning id rule source).turn o x ∧
      s.gives id o x = (s.beginning id rule source).gives id o x := by
  have hstep := step_fresh ho h hrunning hrule htakes
  have hturn : s.turn o x = (s.beginning id rule source).turn o x := by
    unfold turn
    rw [hstep]
  refine ⟨hturn, ?_⟩
  unfold gives
  rw [hstep, hturn]
  rfl

theorem streamed_eq (filter : Filter) (hrule : options.rule = .ok rule) :
    Lexer.streamed filter source options =
      ((Progress.start source).course filter rule).tokens := by
  have hstart : ({ filter } : Lexer).start .none source options = _ :=
    Lexer.start_eq rfl (Observers.calm_none _) hrule
  unfold Lexer.streamed
  simp only [Lexer.drain, Lexer.run, hstart]
  rw [Lexer.drive_eq_course Observers.calm_none Lexer.proceeds_none]
  simp [Lexer.finish]

theorem given_of_fresh {later : List (Observers × Step)} (h : s.stream id = .fresh source options)
    (hrunning : s.lexer.running = false) (hrule : options.rule = .ok rule)
    (htakes : x.takes id = true) (horderly : s.Orderly ((o, x) :: later))
    (hopens : ∀ turn ∈ later, turn.2.opens id = false) :
    s.given id ((o, x) :: later) <+: Lexer.streamed s.lexer.filter source options ∧
      ((s.after ((o, x) :: later)).stream id = .finished →
        (∀ turn ∈ later, turn.2.closes id = false) →
        s.given id ((o, x) :: later) = Lexer.streamed s.lexer.filter source options) := by
  have hcalm := horderly.1.calm
  obtain ⟨hturn, hgives⟩ := turn_fresh (hcalm _) h hrunning hrule htakes
  have hstream : (s.beginning id rule source).stream id = .suspended rule (.start source) :=
    stream_beginning h
  have hbegun : (s.beginning id rule source).Orderly ((o, x) :: later) := by
    refine ⟨⟨hcalm, horderly.1.proceeds, fun _ ↦ ?_⟩, ?_⟩
    · exact filter_turn_suspended hcalm hstream htakes
    · rw [← hturn]
      exact horderly.2
  have hnot : x.opens id = false ∧ x.closes id = false := by
    cases x <;> simp_all [Step.takes, Step.opens, Step.closes]
  have hgiven := given_of_suspended hstream hbegun (by simpa [hnot] using hopens)
  rw [given, after, ← hturn, ← hgives] at hgiven
  rw [given, after, streamed_eq s.lexer.filter hrule]
  exact ⟨hgiven.1, fun hfinished hcloses ↦ hgiven.2 hfinished (by simpa [hnot] using hcloses)⟩

/-- In every orderly session at most one stream is suspended, and the lexer is
running just while one is.  A run that overlaps with it, or one with a bad limit, is
refused without a trace.  What a stream that is let begin gives from then on is a
beginning of what a new lexer gives for its source text and options, and all of it
once the stream has finished without being closed. -/
theorem streams_of_orderly (hs : s.AtRest) (h : s.Orderly turns) :
    ((s.after turns).suspended ≤ 1 ∧
      ((s.after turns).lexer.running = true ↔ (s.after turns).suspended = 1)) ∧
    (∀ (o : Observers) (x : Step) (source : Text) (options : RunOptions),
      (s.after turns).begins? x = some (source, options) →
        ((s.after turns).suspended = 1 → (s.after turns).Refused o x .busy ∧
          RunError.busy.message = "Lexer is already running") ∧
        ∀ limit, (s.after turns).suspended = 0 → options.rule = .error limit →
          (s.after turns).Refused o x (.badLimit limit)) ∧
    ∀ (id : Nat) (source : Text) (options : RunOptions) (rule : StopRule) (o : Observers)
      (x : Step) (later : List (Observers × Step)),
      (s.after turns).stream id = .fresh source options → (s.after turns).suspended = 0 →
      options.rule = .ok rule → x.takes id = true →
      (s.after turns).Orderly ((o, x) :: later) → (∀ turn ∈ later, turn.2.opens id = false) →
        let all := Lexer.streamed (s.after turns).lexer.filter source options
        (s.after turns).given id ((o, x) :: later) <+: all ∧
          (((s.after turns).after ((o, x) :: later)).stream id = .finished →
            (∀ turn ∈ later, turn.2.closes id = false) →
            (s.after turns).given id ((o, x) :: later) = all) := by
  have hcount := running_eq_of_orderly hs h
  have hrunning : (s.after turns).lexer.running = true ↔ (s.after turns).suspended = 1 := by
    rw [hcount]
    cases (s.after turns).lexer.running <;> simp
  have hidle (hzero : (s.after turns).suspended = 0) : (s.after turns).lexer.running = false := by
    rw [hzero] at hcount
    cases hrun : (s.after turns).lexer.running with
    | false => rfl
    | true => simp [hrun] at hcount
  refine ⟨⟨?_, hrunning⟩, ?_, ?_⟩
  · rw [hcount]
    exact Bool.toNat_le _
  · intro o x source options hbegins
    refine ⟨fun hone ↦ ⟨refused_of_running (hrunning.mpr hone) hbegins, rfl⟩, ?_⟩
    intro limit hzero hlimit
    exact refused_of_badLimit (hidle hzero) hbegins hlimit
  · intro id source options rule o x later hstream hzero hrule htakes horderly hopens
    exact given_of_fresh hstream (hidle hzero) hrule htakes horderly hopens

def twoStreams : List (Observers × Step) :=
  [(.none, .openStream 0 "a b" {}), (.none, .openStream 1 "c" {})]

/-- While the first of two streams is suspended, the second one and a run are
refused and the lexer is reset; the first stream goes on to its end. -/
def overlap : List (Observers × Step) :=
  [(.none, .next 1), (.none, .run "d" {} fun _ _ ↦ .proceed), (.none, .reset), (.none, .next 0),
    (.none, .next 0)]

theorem streams_of_orderly_overlap :
    ({} : Session).Orderly (twoStreams ++ [(.none, .next 0)]) ∧
      (({} : Session).after (twoStreams ++ [(.none, .next 0)])).suspended = 1 ∧
      (({} : Session).after (twoStreams ++ [(.none, .next 0)])).Refused .none (.next 1) .busy ∧
      (({} : Session).after twoStreams).Orderly ((.none, .next 0) :: overlap) ∧
      (({} : Session).after twoStreams).given 0 ((.none, .next 0) :: overlap) =
        Lexer.streamed {} "a b" {} ∧
      Lexer.streamed {} "a b" {} =
        [⟨.identifier, ⟨1, 1⟩, 0, 0, "a"⟩, ⟨.identifier, ⟨1, 3⟩, 2, 2, "b"⟩] := by
  have hrest : ({} : Session).AtRest := ⟨rfl, rfl⟩
  have hplain {s : Session} {x : Step} (hx : x.receiver? = none)
      (hfilter : (s.turn .none x).lexer.filter = s.lexer.filter) : s.Admits .none x :=
    ⟨Observers.calm_none, by simp [hx], fun _ ↦ hfilter⟩
  have hrun {s : Session} (hfilter : (s.turn .none (.run "d" {} fun _ _ ↦ .proceed)).lexer.filter =
      s.lexer.filter) : s.Admits .none (.run "d" {} fun _ _ ↦ .proceed) := by
    refine ⟨Observers.calm_none, ?_, fun _ ↦ hfilter⟩
    rintro receiver ⟨rfl⟩ call t
    rfl
  have htwo : ({} : Session).Orderly twoStreams := ⟨hplain rfl rfl, hplain rfl rfl, trivial⟩
  have hbegun : ({} : Session).Orderly (twoStreams ++ [(.none, .next 0)]) :=
    ⟨hplain rfl rfl, hplain rfl rfl, hplain rfl (by decide +kernel), trivial⟩
  have hone : (({} : Session).after (twoStreams ++ [(.none, .next 0)])).suspended = 1 := by
    decide +kernel
  have hoverlap : (({} : Session).after twoStreams).Orderly ((.none, .next 0) :: overlap) := by
    refine ⟨hplain rfl ?_, hplain rfl ?_, hrun ?_, hplain rfl ?_, hplain rfl ?_, hplain rfl ?_,
      trivial⟩ <;> decide +kernel
  have hended : ((({} : Session).after twoStreams).after ((.none, .next 0) :: overlap)).stream 0 =
      .finished := by
    have hmatch : (((({} : Session).after twoStreams).after
        ((.none, .next 0) :: overlap)).stream 0 matches .finished) = true := by decide +kernel
    split at hmatch
    · assumption
    · simp at hmatch
  obtain ⟨-, hrefused, -⟩ := streams_of_orderly hrest hbegun
  obtain ⟨-, -, hgiven⟩ := streams_of_orderly hrest htwo
  obtain ⟨-, hall⟩ := hgiven 0 "a b" {} {} .none (.next 0) overlap rfl rfl rfl rfl hoverlap
    (by decide)
  exact ⟨hbegun, hone, ((hrefused .none (.next 1) "c" {} rfl).1 hone).1, hoverlap,
    hall hended (by decide), by decide +kernel⟩

end Session

end Lexis
