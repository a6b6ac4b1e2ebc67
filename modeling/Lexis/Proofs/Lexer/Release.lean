import Lexis.Proofs.Lexer.Running

/-!
# The release of a lexer

In a session at most one run is in progress, and while it is, the lexer is
running.  The invariant counts the suspended streams.  A session is locked when
its lexer is running for none of them: it stays so for good, and it only gets
there by a run whose observers raise at the start.
-/

namespace Lexis.Session

/-- How many streams have begun and can go on. -/
def suspended (s : Session) : Nat := s.streams.countP fun entry ↦ entry.2.isSuspended

/-- At most one stream is suspended, and only while the lexer is running. -/
def Sound (s : Session) : Prop := s.suspended ≤ s.lexer.running.toNat

/-- The lexer is running and nothing can end its run. -/
def locked (s : Session) : Bool := s.lexer.running && s.suspended == 0

def begins? (s : Session) : Step → Option (Text × RunOptions)
  | .run source options _ => some (source, options)
  | .tryRun source options _ => some (source, options)
  | .next id => (s.stream id).begins?
  | .drain id => (s.stream id).begins?
  | _ => none

/-- Whether a step is let begin a run and the observers raise when they are told. -/
def locks (s : Session) (x : Step) : Bool :=
  (s.begins? x).any fun run ↦ s.lexer.locks s.observers run.1 run.2

theorem running_of_locks {s : Session} {x : Step} (h : s.locks x = true) :
    s.lexer.running = false := by
  simp only [locks, Option.any_eq_true] at h
  obtain ⟨run, -, hrun⟩ := h
  exact Lexer.running_of_locks hrun

theorem countP_cons_isSuspended (entry : Nat × Stream) (rest : List (Nat × Stream)) :
    (entry :: rest).countP (fun entry ↦ entry.2.isSuspended) =
      rest.countP (fun entry ↦ entry.2.isSuspended) + entry.2.isSuspended.toNat := by
  cases hentry : entry.2.isSuspended <;> simp [hentry]

theorem countP_setStream {id : Nat} {stream : Stream} {streams : List (Nat × Stream)}
    (h : streams.lookup id = none → stream.isSuspended = false) :
    (setStream id stream streams).countP (fun entry ↦ entry.2.isSuspended) +
        ((streams.lookup id).getD .finished).isSuspended.toNat =
      streams.countP (fun entry ↦ entry.2.isSuspended) + stream.isSuspended.toNat := by
  induction streams with
  | nil =>
      rw [h rfl]
      rfl
  | cons entry rest ih =>
      by_cases hid : entry.1 = id
      · have hlookup : (entry :: rest).lookup id = some entry.2 := by
          rw [List.lookup_cons, ← hid, beq_self_eq_true]
        simp only [setStream, if_pos hid, hlookup, Option.getD_some, countP_cons_isSuspended]
        omega
      · have hne : (id == entry.1) = false := by
          simpa using fun heq : id = entry.1 ↦ hid heq.symm
        have hlookup : (entry :: rest).lookup id = rest.lookup id := by
          rw [List.lookup_cons, hne]
        rw [hlookup] at h ⊢
        have hrest := ih h
        simp only [setStream, if_neg hid, countP_cons_isSuspended]
        omega

theorem suspended_setStream {s s' : Session} {id : Nat} {stream : Stream}
    (hstreams : s'.streams = setStream id stream s.streams)
    (hfinished : s.stream id = .finished → stream.isSuspended = false) :
    s'.suspended + (s.stream id).isSuspended.toNat = s.suspended + stream.isSuspended.toNat := by
  unfold suspended
  rw [hstreams]
  apply countP_setStream
  intro hnone
  exact hfinished (by simp [Session.stream, hnone])

/-! ## One step -/

/-- What a step does to the run in progress; `lock` tells whether the observers
raise at the start of a run. -/
inductive Moves (s s' : Session) : (lock : Bool) → Prop
  /-- Nothing begins that can go on, and what is in progress does not end. -/
  | stays (hsuspended : s'.suspended = s.suspended)
      (hrunning : s'.lexer.running = s.lexer.running) : Moves s s' false
  | begins (hidle : s.lexer.running = false) (hsuspended : s'.suspended = s.suspended + 1)
      (hrunning : s'.lexer.running = true) : Moves s s' false
  | ends (hsuspended : s'.suspended + 1 = s.suspended)
      (hrunning : s'.lexer.running = false) : Moves s s' false
  | locks (hidle : s.lexer.running = false) (hsuspended : s'.suspended = s.suspended)
      (hrunning : s'.lexer.running = true) : Moves s s' true

namespace Moves

variable {s s' : Session} {lock : Bool}

theorem sound (h : Moves s s' lock) (hs : s.Sound) : s'.Sound := by
  unfold Sound at hs ⊢
  cases h with
  | stays hsuspended hrunning => rwa [hsuspended, hrunning]
  | begins hidle hsuspended hrunning =>
      rw [hidle, Bool.toNat_false] at hs
      rw [hsuspended, hrunning, Bool.toNat_true]
      omega
  | ends hsuspended hrunning =>
      have hle := Bool.toNat_le s.lexer.running
      omega
  | locks hidle hsuspended hrunning =>
      rw [hidle, Bool.toNat_false] at hs
      omega

theorem locked_eq (h : Moves s s' lock) (hs : s.Sound) : s'.locked = (s.locked || lock) := by
  unfold Sound at hs
  unfold locked
  cases h with
  | stays hsuspended hrunning => rw [hsuspended, hrunning, Bool.or_false]
  | begins hidle hsuspended hrunning => simp [hidle, hsuspended, hrunning]
  | ends hsuspended hrunning =>
      -- The stream that ends was suspended, so the lexer was not locked.
      have hne : (s.suspended == 0) = false := by
        rw [beq_eq_false_iff_ne]
        omega
      simp [hrunning, hne]
  | locks hidle hsuspended hrunning =>
      rw [hidle, Bool.toNat_false] at hs
      have hzero : s.suspended = 0 := by omega
      simp [hrunning, hsuspended, hzero]

/-- A run from its start to its end, or a run that is refused. -/
theorem of_running_eq (hsuspended : s'.suspended = s.suspended)
    (hrunning : s'.lexer.running = (s.lexer.running || lock))
    (hidle : lock = true → s.lexer.running = false) : Moves s s' lock := by
  cases lock with
  | false => exact .stays hsuspended (by rw [hrunning, Bool.or_false])
  | true => exact .locks (hidle rfl) hsuspended (by rw [hrunning, Bool.or_true])

end Moves

/-- A step on one stream: it begins, goes on or ends, or it stays as it is. -/
theorem moves_of_setStream {s s' : Session} {id : Nat} {stream : Stream} {lock : Bool}
    (hstreams : s'.streams = setStream id stream s.streams)
    (hfinished : s.stream id = .finished → stream.isSuspended = false)
    (hon : (s.stream id).isSuspended = true →
      s'.lexer.running = (s.lexer.running && stream.isSuspended) ∧ lock = false)
    (hoff : (s.stream id).isSuspended = false →
      s'.lexer.running = (s.lexer.running || stream.isSuspended || lock) ∧
        (stream.isSuspended = true → s.lexer.running = false ∧ lock = false))
    (hidle : lock = true → s.lexer.running = false) : Moves s s' lock := by
  have hcount := suspended_setStream hstreams hfinished
  cases hold : (s.stream id).isSuspended with
  | true =>
      obtain ⟨hrunning, rfl⟩ := hon hold
      rw [hold] at hcount
      cases hnew : stream.isSuspended with
      | true =>
          rw [hnew] at hcount hrunning
          exact .stays (by omega) (by rw [hrunning, Bool.and_true])
      | false =>
          rw [hnew] at hcount hrunning
          exact .ends hcount (by rw [hrunning, Bool.and_false])
  | false =>
      obtain ⟨hrunning, hbegins⟩ := hoff hold
      rw [hold] at hcount
      cases hnew : stream.isSuspended with
      | true =>
          obtain ⟨hrest, rfl⟩ := hbegins hnew
          rw [hnew] at hcount hrunning
          exact .begins hrest hcount (by rw [hrunning, Bool.or_true, Bool.or_false])
      | false =>
          rw [hnew] at hcount hrunning
          exact .of_running_eq hcount (by rw [hrunning, Bool.or_false]) hidle

theorem begins?_of_isSuspended {stream : Stream} (h : stream.isSuspended = true) :
    stream.begins? = none := by
  cases stream with
  | suspended rule p => rfl
  | fresh source options => simp [Stream.isSuspended] at h
  | finished => rfl

theorem moves_step (s : Session) (x : Step) : Moves s (s.step x).1 (s.locks x) := by
  cases x with
  | run source options receiver =>
      exact .of_running_eq rfl (s.lexer.running_run _ _ _ _) running_of_locks
  | tryRun source options receiver =>
      exact .of_running_eq rfl (s.lexer.running_run _ _ _ _) running_of_locks
  | reset => exact .stays rfl rfl
  | setFilter comments newlines => exact .stays rfl rfl
  | tokens => exact .stays rfl rfl
  | openStream id source options => exact .stays (by simp [suspended, step, Stream.isSuspended]) rfl
  | next id =>
      apply moves_of_setStream rfl
      · intro hfinished
        rw [hfinished]
        rfl
      · intro hon
        refine ⟨s.lexer.running_next_of_isSuspended _ hon, ?_⟩
        simp [locks, begins?, begins?_of_isSuspended hon]
      · intro hoff
        exact s.lexer.running_next_of_not_isSuspended _ hoff
      · exact running_of_locks
  | close id =>
      apply moves_of_setStream rfl (fun _ ↦ rfl)
      · intro hon
        simp [step, Lexer.running_close, hon, locks, begins?]
      · intro hoff
        simp [step, Lexer.running_close, hoff, locks, begins?]
      · exact running_of_locks
  | drain id =>
      apply moves_of_setStream rfl (fun _ ↦ rfl)
      · intro hon
        simp [step, Lexer.running_drain, hon, locks, begins?, begins?_of_isSuspended hon]
      · intro hoff
        simp [step, Lexer.running_drain, hoff, locks, begins?]
      · exact running_of_locks

/-! ## Many steps -/

def turn (s : Session) (o : Observers) (x : Step) : Session :=
  ({ s with observers := o }.step x).1

def after (s : Session) : List (Observers × Step) → Session
  | [] => s
  | (o, x) :: rest => (s.turn o x).after rest

def locksIn (s : Session) : List (Observers × Step) → Bool
  | [] => false
  | (o, x) :: rest => { s with observers := o }.locks x || (s.turn o x).locksIn rest

theorem sound_turn {s : Session} (hs : s.Sound) (o : Observers) (x : Step) :
    (s.turn o x).Sound :=
  (moves_step { s with observers := o } x).sound hs

theorem locked_turn {s : Session} (hs : s.Sound) (o : Observers) (x : Step) :
    (s.turn o x).locked = (s.locked || { s with observers := o }.locks x) :=
  (moves_step { s with observers := o } x).locked_eq hs

theorem sound_after {s : Session} (hs : s.Sound) (turns : List (Observers × Step)) :
    (s.after turns).Sound := by
  induction turns generalizing s with
  | nil => exact hs
  | cons turn rest ih => exact ih (sound_turn hs turn.1 turn.2)

/-- A session is locked by the observers of some run, and stays locked. -/
theorem locked_after {s : Session} (hs : s.Sound) (turns : List (Observers × Step)) :
    (s.after turns).locked = (s.locked || s.locksIn turns) := by
  induction turns generalizing s with
  | nil => simp [after, locksIn]
  | cons turn rest ih =>
      rw [after, ih (sound_turn hs turn.1 turn.2), locked_turn hs, locksIn, Bool.or_assoc]

/-! ## Release -/

structure AtRest (s : Session) : Prop where
  running : s.lexer.running = false
  suspended : s.suspended = 0

namespace AtRest

variable {s : Session}

theorem sound (h : s.AtRest) : s.Sound := by
  unfold Sound
  rw [h.suspended]
  exact Nat.zero_le _

theorem locked_eq (h : s.AtRest) : s.locked = false := by
  rw [locked, h.running, Bool.false_and]

end AtRest

/-- Once every run has ended, the lexer has been released exactly if no observers
have raised at the start of a run.  It is then ready for the next run; otherwise it
refuses all runs from then on. -/
theorem released_iff {s : Session} (hs : s.AtRest) (turns : List (Observers × Step))
    (hdone : (s.after turns).suspended = 0) :
    ((s.after turns).lexer.running = false ↔ s.locksIn turns = false) ∧
      (s.locksIn turns = false →
        ∀ (o : Observers) (source : Text) (options : RunOptions) (rule : StopRule),
          options.rule = .ok rule → (o.notify (.started source.length)).2 = none →
            ((s.after turns).lexer.start o source options).result = .ok (rule, .start source)) ∧
      (s.locksIn turns = true →
        ∀ (later : List (Observers × Step)) (o : Observers) (receiver : Option Receiver)
          (source : Text) (options : RunOptions),
          (((s.after turns).after later).lexer.run o receiver source options).result =
            .error .busy) := by
  have hsound := sound_after hs.sound turns
  have hlocked := locked_after hs.sound turns
  rw [hs.locked_eq, Bool.false_or] at hlocked
  have hrunning : (s.after turns).lexer.running = s.locksIn turns := by
    rw [← hlocked, locked, hdone]
    simp
  refine ⟨by rw [hrunning], ?_, ?_⟩
  · intro hfree o source options rule hrule hcalm
    rw [hfree] at hrunning
    exact Lexer.result_start_of_idle hrunning hrule hcalm
  · intro hlock later o receiver source options
    have hlater := locked_after hsound later
    rw [hlocked, hlock, Bool.true_or, locked, Bool.and_eq_true] at hlater
    exact Lexer.result_run_of_running hlater.1

/-- Observers that raise an error of their own at some events. -/
def raisingOn (select : Event → Bool) : Observers :=
  fun e ↦ if select e then .raises "callback failed" else .ignores

/-- A stream whose observers raise at its first token, a run whose receiver raises,
and a run that fails, with observers that raise when they are told of it. -/
def disturbedTurns : List (Observers × Step) :=
  [(raisingOn (· matches .appended ..), .openStream 0 "a b" {}),
    (raisingOn (· matches .appended ..), .next 0),
    (.none, .run "c d" {} fun _ _ ↦ .raise "stop"),
    (raisingOn (· matches .failed ..), .tryRun "'" {} fun _ _ ↦ .proceed)]

theorem released_iff_disturbed :
    (({} : Session).after disturbedTurns).suspended = 0 ∧
      ({} : Session).locksIn disturbedTurns = false ∧
      (({} : Session).after disturbedTurns).lexer.running = false ∧
      ((({} : Session).after disturbedTurns).lexer.start .none "e" {}).result =
        .ok ({}, .start "e") := by
  have hrest : ({} : Session).AtRest := ⟨rfl, rfl⟩
  have hdone : (({} : Session).after disturbedTurns).suspended = 0 := by decide +kernel
  have hfree : ({} : Session).locksIn disturbedTurns = false := by decide +kernel
  obtain ⟨hrunning, hready, -⟩ := released_iff hrest disturbedTurns hdone
  exact ⟨hdone, hfree, hrunning.mpr hfree, hready hfree .none "e" {} {} rfl rfl⟩

/-- A run whose observers raise when they are told of its start. -/
def lockingTurns : List (Observers × Step) :=
  [(raisingOn (· matches .started ..), .run "a" {} fun _ _ ↦ .proceed)]

theorem not_released_after_raise_at_start :
    (({} : Session).after lockingTurns).suspended = 0 ∧
      (({} : Session).after lockingTurns).lexer.running = true ∧
      ((({} : Session).after lockingTurns).lexer.run .none none "b" {}).result = .error .busy := by
  have hrunning : (({} : Session).after lockingTurns).lexer.running = true := by decide +kernel
  exact ⟨by decide +kernel, hrunning, Lexer.result_run_of_running hrunning⟩

end Lexis.Session
