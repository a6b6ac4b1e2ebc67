import Lexis.Lexer.Session

/-!
# When a lexer is running

How each operation leaves the lexer: a run that has begun ends with the lexer
released, whoever raises.  A run that is not let begin, because its observers
raise at the start, does not release it.
-/

namespace Lexis

def Stream.isSuspended : Stream → Bool
  | .suspended _ _ => true
  | _ => false

@[simp] theorem Stream.isSuspended_finished : Stream.finished.isSuspended = false := rfl

def Stream.begins? : Stream → Option (Text × RunOptions)
  | .fresh source options => some (source, options)
  | _ => none

namespace Lexer

/-- Whether a run is accepted and the observers raise when they are told of it. -/
def locks (l : Lexer) (o : Observers) (source : Text) (options : RunOptions) : Bool :=
  !l.running && options.rule.isOk && (o.notify (.started source.length)).2.isSome

variable (l : Lexer) (o : Observers) (source : Text) (options : RunOptions)

theorem running_of_locks {l : Lexer} {o : Observers} {source : Text} {options : RunOptions}
    (h : l.locks o source options = true) : l.running = false := by
  simp only [locks, Bool.and_eq_true, Bool.not_eq_true'] at h
  exact h.1.1

theorem start_cases :
    (∃ e, (l.start o source options).result = .error e ∧
      (l.start o source options).lexer.running = (l.running || l.locks o source options)) ∨
    ∃ rule, (l.start o source options).result = .ok (rule, .start source) ∧
      (l.start o source options).lexer.running = true ∧ l.running = false ∧
      l.locks o source options = false := by
  unfold start locks
  cases hrunning : l.running with
  | true => exact .inl ⟨.busy, rfl, hrunning⟩
  | false =>
      cases hrule : options.rule with
      | error limit => exact .inl ⟨.badLimit limit, rfl, hrunning⟩
      | ok rule =>
          obtain ⟨events, raised⟩ := o.notify (.started source.length)
          cases raised with
          | none => exact .inr ⟨rule, rfl, rfl, rfl, rfl⟩
          | some e => exact .inl ⟨e, rfl, rfl⟩

theorem result_start_of_idle {l : Lexer} {o : Observers} {source : Text} {options : RunOptions}
    {rule : StopRule} (hl : l.running = false) (hrule : options.rule = .ok rule)
    (ho : (o.notify (.started source.length)).2 = none) :
    (l.start o source options).result = .ok (rule, .start source) := by
  simp only [start, hl, hrule]
  cases hnotify : o.notify (.started source.length) with
  | mk events raised =>
      rw [hnotify] at ho
      obtain rfl : raised = none := ho
      rfl

theorem result_run_of_running {l : Lexer} {o : Observers} {receiver : Option Receiver}
    {source : Text} {options : RunOptions} (hl : l.running = true) :
    (l.run o receiver source options).result = .error .busy := by
  simp [run, start, hl]

@[simp] theorem running_abort {α : Type} (events : List Event) (e : RunError) :
    (l.abort o events e : Outcome α).lexer.running = false := by
  cases e <;> rfl

/-- A run goes on after a token and releases the lexer at its end. -/
theorem resume_cases (rule : StopRule) (p : Progress) :
    ((∃ found, (l.resume o rule p).result = .ok (some found)) ∧
      (l.resume o rule p).lexer.running = l.running) ∨
    ((l.resume o rule p).result = .ok none ∨ ∃ e, (l.resume o rule p).result = .error e) ∧
      (l.resume o rule p).lexer.running = false := by
  have habort {l : Lexer} (events : List Event) (e : RunError) :
      ∃ e', (l.abort o events e : Outcome (Option (Token × Progress))).result = .error e' := by
    cases e <;> exact ⟨_, rfl⟩
  unfold resume
  split
  · next t next _ =>
    obtain ⟨events, raised⟩ := o.notify (.appended p.count t)
    cases raised with
    | none => exact .inl ⟨⟨_, rfl⟩, rfl⟩
    | some e => exact .inr ⟨.inr (habort events e), running_abort _ o events e⟩
  · next reason _ =>
    obtain ⟨events, raised⟩ := o.notify (.ended p.count reason)
    cases raised with
    | none => exact .inr ⟨.inl rfl, rfl⟩
    | some e => exact .inr ⟨.inr (habort events e), running_abort _ o events e⟩
  · next e _ => exact .inr ⟨.inr (habort [] (.lexical e)), running_abort _ o [] (.lexical e)⟩

/-- A run that has begun always releases the lexer, whatever its receiver does. -/
theorem running_drive (receiver : Option Receiver) (rule : StopRule) (p : Progress) :
    (l.drive o receiver rule p).lexer.running = false := by
  generalize hlength : p.cursor.rest.length = length
  induction length using Nat.strongRecOn generalizing l p with
  | ind length ih =>
      subst hlength
      rw [drive_eq]
      rcases resume_cases l o rule p with ⟨⟨⟨t, next⟩, hfound⟩, -⟩ | ⟨hend | ⟨e, hend⟩, hrunning⟩
      · have hless := length_rest_of_resume hfound
        have hnext (l' : Lexer) : (l'.drive o receiver rule next).lexer.running = false :=
          ih _ hless l' next rfl
        simp only [hfound]
        split <;> first | exact hnext _ | rfl
      · simp only [hend]
        exact hrunning
      · simp only [hend]
        exact hrunning

theorem running_run (receiver : Option Receiver) :
    (l.run o receiver source options).lexer.running =
      (l.running || l.locks o source options) := by
  unfold run
  rcases start_cases l o source options with ⟨e, hresult, hrunning⟩ | ⟨rule, hresult, -, hl, hlocks⟩
  · simp only [hresult]
    exact hrunning
  · simp only [hresult, running_drive, hl, hlocks, Bool.or_self]

theorem running_drain (stream : Stream) :
    (l.drain o stream).lexer.running =
      (!stream.isSuspended &&
        (l.running || stream.begins?.any fun run ↦ l.locks o run.1 run.2)) := by
  cases stream with
  | fresh source options => simp [drain, running_run, Stream.isSuspended, Stream.begins?]
  | suspended rule p => simp [drain, running_drive, Stream.isSuspended]
  | finished => simp [drain, Stream.isSuspended, Stream.begins?]

theorem running_close (stream : Stream) :
    (l.close stream).running = (!stream.isSuspended && l.running) := by
  cases stream <;> rfl

/-- A turn of a run leaves the lexer running exactly if the run can go on. -/
theorem running_fromTurn_resume (events : List Event) (rule : StopRule) (p : Progress) :
    (fromTurn events rule (l.resume o rule p)).1.lexer.running =
      (l.running && (fromTurn events rule (l.resume o rule p)).2.isSuspended) := by
  unfold fromTurn
  rcases resume_cases l o rule p with ⟨⟨⟨t, next⟩, hfound⟩, hrunning⟩ | ⟨hend | ⟨e, hend⟩, hrunning⟩
  · simp [hfound, hrunning, Stream.isSuspended]
  · simp [hend, hrunning, Stream.isSuspended]
  · simp [hend, hrunning, Stream.isSuspended]

theorem running_next_of_isSuspended {stream : Stream} (h : stream.isSuspended = true) :
    (l.next o stream).1.lexer.running = (l.running && (l.next o stream).2.isSuspended) := by
  cases stream with
  | fresh source options => simp [Stream.isSuspended] at h
  | suspended rule p => exact running_fromTurn_resume l o [] rule p
  | finished => simp [Stream.isSuspended] at h

theorem running_next_of_not_isSuspended {stream : Stream} (h : stream.isSuspended = false) :
    (l.next o stream).1.lexer.running =
        (l.running || (l.next o stream).2.isSuspended ||
          stream.begins?.any fun run ↦ l.locks o run.1 run.2) ∧
      ((l.next o stream).2.isSuspended = true → l.running = false ∧
        (stream.begins?.any fun run ↦ l.locks o run.1 run.2) = false) := by
  cases stream with
  | suspended rule p => simp [Stream.isSuspended] at h
  | finished => simp [next, Stream.isSuspended, Stream.begins?]
  | fresh source options =>
      simp only [Stream.begins?, Option.any_some]
      unfold next
      rcases start_cases l o source options with
        ⟨e, hresult, hrunning⟩ | ⟨rule, hresult, hrunning, hl, hlocks⟩
      · simp [hresult, hrunning, Stream.isSuspended]
      · simp [hresult, hl, hlocks, running_fromTurn_resume, hrunning]

end Lexer

end Lexis
