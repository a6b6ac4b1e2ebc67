import Lexis.Proofs.Lexer.Options
import Lexis.Proofs.Lexer.Resets

/-!
# The trace of a run

A run tells of its start, of each token that it gives out and then hands over, and of its
end.  Whoever listens hears a part of this.  A run that nobody disturbs is heard to its end;
one that is left because somebody raises at a token is heard up to there and no further.
-/

namespace Lexis

/-- What happens while tokens are given out, from this index on. -/
def account (first : Nat) (ts : List Token) : List Event :=
  (ts.zipIdx first).flatMap fun (t, i) ↦ [.appended i t, .delivered t]

/-- What happens in a run over a text of this length, up to its last token. -/
def trace (length : Nat) (ts : List Token) : List Event := .started length :: account 0 ts

theorem account_append (first : Nat) (ts us : List Token) :
    account first (ts ++ us) = account first ts ++ account (first + ts.length) us := by
  unfold account
  rw [List.zipIdx_append, List.flatMap_append]

theorem trace_append (length : Nat) (ts us : List Token) :
    trace length (ts ++ us) = trace length ts ++ account ts.length us := by
  rw [trace, account_append, Nat.zero_add]
  rfl

def Course.trace (course : Course) (length : Nat) : List Event :=
  Lexis.trace length course.tokens ++ [course.lastEvent course.tokens.length]

namespace Observers

/-- Whether an event is noted, by the observers or by the receiver of tokens. -/
def hears (o : Observers) (receiver : Option Receiver) : Event → Bool
  | .delivered _ => receiver.isSome
  | e => !(o e matches .ignores)

def heard (o : Observers) (receiver : Option Receiver) (events : List Event) : List Event :=
  events.filter (o.hears receiver)

variable {o : Observers} {receiver : Option Receiver}

theorem heard_append (o : Observers) (receiver : Option Receiver) (events later : List Event) :
    o.heard receiver (events ++ later) = o.heard receiver events ++ o.heard receiver later :=
  List.filter_append _ _

theorem notify_eq_heard {e : Event} (he : e.delivered? = .none) :
    (o.notify e).1 = o.heard receiver [e] := by
  have hhears : o.hears receiver e = !(o e matches .ignores) := by
    cases e <;> first | rfl | simp [Event.delivered?] at he
  unfold notify heard
  rw [List.filter_cons, hhears]
  cases o e <;> rfl

theorem deliver_eq_heard (call : Nat) (t : Token) :
    (Lexer.deliver receiver call t).1 = o.heard receiver [.delivered t] := by
  cases receiver <;> rfl

/-- Observers that raise at tokens only, if at all, and only errors of their own. -/
def Mild (o : Observers) : Prop :=
  ∀ e, (o.notify e).2 = .none ∨
    ∃ i t message, e = .appended i t ∧ (o.notify e).2 = some (.raised message)

theorem Mild.notify_eq (h : o.Mild) {e : Event} (he : e.token? = .none) :
    o.notify e = (o.heard .none [e], .none) := by
  have hdelivered : e.delivered? = .none := by
    cases e <;> first | rfl | simp [Event.token?] at he
  refine Prod.ext (notify_eq_heard hdelivered) ?_
  rcases h e with hcalm | ⟨i, t, message, rfl, -⟩
  · exact hcalm
  · simp [Event.token?] at he

end Observers

theorem Course.events_eq_heard (o : Observers) (receiver : Option Receiver) (course : Course)
    (count : Nat) :
    course.events o receiver count =
      o.heard receiver
        (account count course.tokens ++ [course.lastEvent (count + course.tokens.length)]) := by
  have hlast : (course.lastEvent (count + course.tokens.length)).delivered? = none := by
    unfold lastEvent
    cases course.ending <;> rfl
  unfold events account
  rw [Observers.heard_append, ← Observers.notify_eq_heard hlast]
  congr 1
  unfold Observers.heard
  rw [List.filter_flatMap]
  congr 1
  funext ⟨t, i⟩
  have hpair : [Event.appended i t, .delivered t] = [.appended i t] ++ [.delivered t] := rfl
  dsimp only
  rw [hpair, List.filter_append, Observers.notify_eq_heard rfl, Observers.deliver_eq_heard]
  rfl

theorem Course.started_append_events (o : Observers) (receiver : Option Receiver)
    (course : Course) (length : Nat) :
    o.heard receiver [.started length] ++ course.events o receiver 0 =
      o.heard receiver (course.trace length) := by
  rw [events_eq_heard, ← Observers.heard_append, Nat.zero_add]
  rfl

theorem Course.not_drops_of_mem_restrict {filter : Filter} {rule : StopRule} {free : Course}
    {t : Token} (h : t ∈ (free.restrict filter rule).tokens) : filter.drops t = false := by
  have hleft : t ∈ filter.leaves (rule.through free.tokens) := by
    unfold restrict StopRule.cut at h
    dsimp only at h
    split at h
    · exact h
    · exact List.mem_of_mem_take h
  have hkeeps := (List.mem_filter.mp hleft).2
  simpa [filter.keeps_eq_not_drops] using hkeeps

/-- What is left behind when tokens were given out, with `events`, before the rest of a
run. -/
def Outcome.behind (later : Outcome (List Token)) (events : List Event) (ts : List Token) :
    Outcome (List Token) :=
  ⟨later.lexer, events ++ later.events, later.result.map (ts ++ ·)⟩

namespace Outcome

theorem behind_nil (later : Outcome (List Token)) (events : List Event) :
    later.behind events [] = { later with events := events ++ later.events } := by
  have hresult : later.result.map ([] ++ ·) = later.result := by
    cases later.result <;> rfl
  unfold behind
  rw [hresult]

theorem behind_behind (later : Outcome (List Token)) (events events' : List Event)
    (ts ts' : List Token) :
    (later.behind events' ts').behind events ts = later.behind (events ++ events') (ts ++ ts') := by
  have hresult :
      (later.result.map (ts' ++ ·)).map (ts ++ ·) = later.result.map (ts ++ ts' ++ ·) := by
    cases later.result with
    | error e => rfl
    | ok given => exact congrArg Except.ok (List.append_assoc _ _ _).symm
  unfold behind
  rw [hresult, List.append_assoc]

end Outcome

namespace Lexer

variable {o : Observers} {receiver : Option Receiver} {rule : StopRule} {p : Progress} {l : Lexer}
  {t : Token} {before rest : List Token} {message source : Text} {options : RunOptions}

/-! ## Runs that somebody disturbs -/

/-- Nobody raises at these tokens, the first of which has this index, and each of them is
taken. -/
def Undisturbed (o : Observers) (receiver : Option Receiver) (first : Nat) (ts : List Token) :
    Prop :=
  ∀ ti ∈ ts.zipIdx first, (o.notify (.appended ti.2 ti.1)).2 = none ∧
    (deliver receiver (ti.2 + 1) ti.1).2 = .proceed

theorem undisturbed_nil {first : Nat} : Undisturbed o receiver first [] :=
  List.forall_mem_nil _

theorem undisturbed_cons {first : Nat} :
    Undisturbed o receiver first (t :: rest) ↔
      ((o.notify (.appended first t)).2 = none ∧ (deliver receiver (first + 1) t).2 = .proceed) ∧
        Undisturbed o receiver (first + 1) rest := by
  unfold Undisturbed
  rw [List.zipIdx_cons, List.forall_mem_cons]

theorem exists_advance_of_course (h : (p.course l.filter rule).tokens = t :: rest) :
    ∃ next, p.advance l.filter rule = .emitted t next ∧ next.count = p.count + 1 ∧
      (next.course l.filter rule).tokens = rest := by
  rw [Progress.course_eq] at h
  cases hadvance : p.advance l.filter rule with
  | emitted u next =>
      rw [hadvance, Course.tokens_cons, List.cons.injEq] at h
      obtain ⟨rfl, hrest⟩ := h
      exact ⟨next, rfl, Progress.count_of_advance hadvance, hrest⟩
  | stopped reason => simp [hadvance] at h
  | failed e => simp [hadvance] at h

/-- A turn at a token keeps it and tells of it, and goes on unless the observers raise. -/
theorem resume_at (receiver : Option Receiver) {next : Progress}
    (h : p.advance l.filter rule = .emitted t next) :
    l.resume o rule p =
      let l := { l with tokens := l.tokens.push t }
      let events := o.heard receiver [.appended p.count t]
      match (o.notify (.appended p.count t)).2 with
      | none => ⟨l, events, .ok (some (t, next))⟩
      | some e => l.abort o events e := by
  simp only [resume, h]
  rw [← Observers.notify_eq_heard rfl]
  rcases o.notify (.appended p.count t) with ⟨events, raised⟩
  cases raised <;> rfl

theorem drive_of_proceed {next : Progress} (hadvance : p.advance l.filter rule = .emitted t next)
    (hcalm : (o.notify (.appended p.count t)).2 = none)
    (hproceed : (deliver receiver (p.count + 1) t).2 = .proceed) :
    l.drive o receiver rule p =
      ({ l with tokens := l.tokens.push t }.drive o receiver rule next).behind
        (o.heard receiver [.appended p.count t, .delivered t]) [t] := by
  have hdeliver : deliver receiver (p.count + 1) t = (o.heard receiver [.delivered t], .proceed) :=
    Prod.ext (Observers.deliver_eq_heard _ t) hproceed
  rw [drive_eq, resume_at receiver hadvance, hcalm]
  dsimp only
  rw [hdeliver, ← Observers.heard_append]
  rfl

/-- A run goes through the tokens at which nobody raises. -/
theorem drive_of_undisturbed (hcourse : (p.course l.filter rule).tokens = before ++ rest)
    (h : Undisturbed o receiver p.count before) :
    ∃ q : Progress, q.count = p.count + before.length ∧
      (q.course l.filter rule).tokens = rest ∧
      l.drive o receiver rule p =
        ({ l with tokens := l.tokens ++ before.toArray }.drive o receiver rule q).behind
          (o.heard receiver (account p.count before)) before := by
  induction before generalizing l p with
  | nil =>
      refine ⟨p, rfl, hcourse, ?_⟩
      rw [Array.append_empty, Outcome.behind_nil]
      rfl
  | cons t before ih =>
      obtain ⟨next, hadvance, hcount, hrest⟩ := exists_advance_of_course hcourse
      obtain ⟨⟨hcalm, hproceed⟩, hlater⟩ := undisturbed_cons.mp h
      rw [← hcount] at hlater
      obtain ⟨q, hq, hqcourse, hdrive⟩ :=
        ih (l := { l with tokens := l.tokens.push t }) hrest hlater
      have htokens : l.tokens.push t ++ before.toArray = l.tokens ++ (t :: before).toArray := by
        apply Array.ext'
        simp
      refine ⟨q, ?_, hqcourse, ?_⟩
      · rw [hq, hcount, List.length_cons]
        omega
      · rw [drive_of_proceed hadvance hcalm hproceed, hdrive, Outcome.behind_behind, htokens,
          hcount, ← Observers.heard_append]
        rfl

def beginning (l : Lexer) (ts : List Token) : Lexer :=
  { l with
    tokens := l.tokens ++ ts.toArray
    running := true
    lastError := none }

theorem run_of_undisturbed (hl : l.running = false) (hrule : options.rule = .ok rule)
    (hstart : (o.notify (.started source.length)).2 = none)
    (hcourse : ((Cursor.start source).course.restrict l.filter rule).tokens = before ++ rest)
    (h : Undisturbed o receiver 0 before) :
    ∃ q : Progress, q.count = before.length ∧ (q.course l.filter rule).tokens = rest ∧
      l.run o receiver source options =
        ((l.beginning before).drive o receiver rule q).behind
          (o.heard receiver (trace source.length before)) before := by
  rw [← course_start] at hcourse
  obtain ⟨q, hq, hqcourse, hdrive⟩ := drive_of_undisturbed (l := l.beginning []) hcourse h
  refine ⟨q, hq.trans (Nat.zero_add _), hqcourse, ?_⟩
  have hbegun : l.start o source options =
      ⟨l.beginning [], o.heard receiver [.started source.length], .ok (rule, .start source)⟩ := by
    have hheard : (o.notify (.started source.length)).1 =
        o.heard receiver [.started source.length] := Observers.notify_eq_heard rfl
    rw [start_eq hl hstart hrule, hheard]
    simp [beginning]
  have hrun : l.run o receiver source options =
      ((l.beginning []).drive o receiver rule (.start source)).behind
        (o.heard receiver [.started source.length]) [] := by
    simp only [run, hbegun]
    exact (Outcome.behind_nil _ _).symm
  have hlexer : { l.beginning [] with tokens := (l.beginning []).tokens ++ before.toArray } =
      l.beginning before := by
    simp [beginning]
  rw [hrun, hdrive, Outcome.behind_behind, ← Observers.heard_append, hlexer]
  rfl

/-- How a run is left that takes this course to its end. -/
structure Concluded (l : Lexer) (done : Outcome (List Token)) (course : Course)
    (events : List Event) : Prop where
  result : done.result = course.result
  tokens : done.lexer.tokens.toList = l.tokens.toList ++ course.tokens
  lastError : done.lexer.lastError = course.failure
  events : done.events = events

theorem concluded_of_calm (hl : l.running = false) (ho : o.Calm) (hr : Proceeds receiver)
    (hrule : options.rule = .ok rule) :
    l.Concluded (l.run o receiver source options)
      ((Cursor.start source).course.restrict l.filter rule)
      (o.heard receiver
        (((Cursor.start source).course.restrict l.filter rule).trace source.length)) := by
  rw [run_eq_completed hl ho hr hrule]
  refine ⟨rfl, Array.toList_append, rfl, ?_⟩
  rw [← Course.started_append_events, ← Observers.notify_eq_heard rfl]
  rfl

/-- How a run is left when somebody raises: these tokens are kept, no error is recorded and
these events were heard. -/
structure Interrupted (l : Lexer) (done : Outcome (List Token)) (message : Text) (ts : List Token)
    (events : List Event) : Prop where
  result : done.result = .error (.raised message)
  tokens : done.lexer.tokens.toList = l.tokens.toList ++ ts
  lastError : done.lexer.lastError = none
  events : done.events = events

theorem interrupted_of_abandon {done later : Outcome (List Token)} {events : List Event}
    (hdone : done = later.behind (o.heard receiver (trace source.length before)) before)
    (hlater : later =
      .abandon { l.beginning before with tokens := (l.beginning before).tokens.push t }
        (o.heard receiver events) (.raised message)) :
    Interrupted l done message (before ++ [t])
      (o.heard receiver (trace source.length before ++ events)) := by
  subst hdone hlater
  refine ⟨rfl, ?_, rfl, ?_⟩
  · simp [Outcome.behind, Outcome.abandon, beginning]
  · exact (Observers.heard_append ..).symm

/-- Observers that raise at a token end the run before it is handed over. -/
theorem interrupted_of_observers (hl : l.running = false)
    (hrule : options.rule = .ok rule) (hstart : (o.notify (.started source.length)).2 = none)
    (hcourse : ((Cursor.start source).course.restrict l.filter rule).tokens = before ++ t :: rest)
    (h : Undisturbed o receiver 0 before)
    (hraise : (o.notify (.appended before.length t)).2 = some (.raised message)) :
    Interrupted l (l.run o receiver source options) message (before ++ [t])
      (o.heard receiver (trace source.length before ++ [.appended before.length t])) := by
  obtain ⟨q, hq, hqcourse, hrun⟩ := run_of_undisturbed hl hrule hstart hcourse h
  obtain ⟨next, hadvance, -, -⟩ := exists_advance_of_course (l := l.beginning before) hqcourse
  rw [← hq] at hraise
  refine interrupted_of_abandon hrun ?_
  rw [drive_eq, resume_at receiver hadvance, hraise, hq]
  rfl

/-- A receiver that raises at a token ends the run behind it. -/
theorem interrupted_of_receiver {receive : Receiver} (hl : l.running = false)
    (hrule : options.rule = .ok rule) (hstart : (o.notify (.started source.length)).2 = none)
    (hcourse : ((Cursor.start source).course.restrict l.filter rule).tokens = before ++ t :: rest)
    (h : Undisturbed o (some receive) 0 before)
    (hcalm : (o.notify (.appended before.length t)).2 = none)
    (hraise : receive (before.length + 1) t = .raise message) :
    Interrupted l (l.run o (some receive) source options) message (before ++ [t])
      (o.heard (some receive) (trace source.length (before ++ [t]))) := by
  obtain ⟨q, hq, hqcourse, hrun⟩ := run_of_undisturbed hl hrule hstart hcourse h
  obtain ⟨next, hadvance, -, -⟩ := exists_advance_of_course (l := l.beginning before) hqcourse
  rw [← hq] at hcalm hraise
  rw [trace_append, ← hq]
  refine interrupted_of_abandon hrun ?_
  have hpair : o.heard (some receive) (account q.count [t]) =
      o.heard (some receive) [.appended q.count t] ++ [.delivered t] :=
    Observers.heard_append o (some receive) [.appended q.count t] [.delivered t]
  rw [drive_eq, resume_at (some receive) hadvance, hcalm, hpair]
  simp only [deliver, hraise]

/-! ## Turns that nobody receives -/

theorem heard_account_singleton (o : Observers) (first : Nat) (t : Token) :
    o.heard none (account first [t]) = o.heard none [.appended first t] := by
  have hpair : account first [t] = [.appended first t] ++ [.delivered t] := rfl
  rw [hpair, Observers.heard_append]
  exact List.append_nil _

/-- A turn under observers that raise at tokens only. -/
theorem resume_of_mild (ho : o.Mild) (l : Lexer) (rule : StopRule) (p : Progress) :
    (∃ t next, next.count = p.count + 1 ∧
      l.resume o rule p =
        ⟨{ l with tokens := l.tokens.push t }, o.heard none (account p.count [t]),
          .ok (some (t, next))⟩) ∨
    (∃ t message, ¬ o.Calm ∧
      l.resume o rule p =
        .abandon { l with tokens := l.tokens.push t } (o.heard none (account p.count [t]))
          (.raised message)) ∨
    (∃ reason, l.resume o rule p =
      ⟨{ l with running := false }, o.heard none [.ended p.count reason], .ok none⟩) ∨
    ∃ e, l.resume o rule p =
      ⟨{ l with running := false, lastError := some e }, o.heard none [.failed e],
        .error (.lexical e)⟩ := by
  cases hadvance : p.advance l.filter rule with
  | emitted t next =>
      rw [resume_at none hadvance]
      rcases ho (.appended p.count t) with hcalm | ⟨i, u, message, -, hraise⟩
      · refine .inl ⟨t, next, Progress.count_of_advance hadvance, ?_⟩
        rw [hcalm, heard_account_singleton]
      · refine .inr (.inl ⟨t, message, ?_, ?_⟩)
        · intro hcalm
          rw [hcalm] at hraise
          simp at hraise
        · rw [hraise, heard_account_singleton]
          rfl
  | stopped reason =>
      refine .inr (.inr (.inl ⟨reason, ?_⟩))
      simp only [resume, hadvance]
      rw [ho.notify_eq rfl]
  | failed e =>
      refine .inr (.inr (.inr ⟨e, ?_⟩))
      simp only [resume, hadvance, abort]
      rw [ho.notify_eq rfl]
      rfl

/-- What is left behind by a run that goes on under observers that raise at tokens only,
after it has given out these tokens and has told of its end. -/
inductive Finishes (o : Observers) (record : Option LexError) (count : Nat) (ts : List Token) :
    (last : List Event) → Outcome (List Token) → Prop
  | ended {done : Outcome (List Token)} (reason : StopReason) (h : done.result = .ok ts) :
      Finishes o record count ts [.ended count reason] done
  | failed {done : Outcome (List Token)} (e : LexError) (h : done.result = .error (.lexical e)) :
      Finishes o record count ts [.failed e] done
  | raised {done : Outcome (List Token)} {message : Text} (ho : ¬ o.Calm)
      (h : done.result = .error (.raised message)) (hlast : done.lexer.lastError = record) :
      Finishes o record count ts [] done

theorem Finishes.after {record : Option LexError} {count : Nat} {ts : List Token}
    {last events : List Event} {done : Outcome (List Token)}
    (h : Finishes o record count ts last done) (t : Token) :
    Finishes o record count (t :: ts) last (done.after events t) := by
  cases h with
  | ended reason h => exact .ended reason (by rw [Outcome.after, h]; rfl)
  | failed e h => exact .failed e (by rw [Outcome.after, h]; rfl)
  | raised ho h hlast => exact .raised ho (by rw [Outcome.after, h]; rfl) hlast

theorem drive_of_mild (ho : o.Mild) (l : Lexer) (rule : StopRule) (p : Progress) :
    ∃ ts last,
      (l.drive o none rule p).events = o.heard none (account p.count ts ++ last) ∧
        (l.drive o none rule p).lexer.tokens.toList = l.tokens.toList ++ ts ∧
        Finishes o l.lastError (p.count + ts.length) ts last (l.drive o none rule p) := by
  generalize hlength : p.cursor.rest.length = length
  induction length using Nat.strongRecOn generalizing l p with
  | ind length ih =>
      subst hlength
      rw [drive_eq]
      rcases resume_of_mild ho l rule p with
        ⟨t, next, hcount, hresume⟩ | ⟨t, message, hraises, hresume⟩ | ⟨reason, hresume⟩ |
          ⟨e, hresume⟩
      · have hless : next.cursor.rest.length < p.cursor.rest.length :=
          length_rest_of_resume (l := l) (o := o) (by rw [hresume])
        obtain ⟨ts, last, hevents, htokens, hfinishes⟩ :=
          ih _ hless { l with tokens := l.tokens.push t } next rfl
        rw [hresume]
        simp only [deliver, List.append_nil]
        have hlater : p.count + (t :: ts).length = next.count + ts.length := by
          rw [hcount, List.length_cons]
          omega
        refine ⟨t :: ts, last, ?_, ?_, ?_⟩
        · rw [Outcome.after, hevents, hcount, ← Observers.heard_append, ← List.append_assoc]
          rfl
        · rw [Outcome.after, htokens]
          simp
        · rw [hlater]
          exact hfinishes.after t
      · rw [hresume]
        refine ⟨[t], [], ?_, ?_, .raised hraises rfl rfl⟩
        · rw [List.append_nil]
          rfl
        · simp [Outcome.abandon]
      · rw [hresume]
        refine ⟨[], [.ended p.count reason], rfl, ?_, .ended reason rfl⟩
        simp
      · rw [hresume]
        refine ⟨[], [.failed e], rfl, ?_, .failed e rfl⟩
        simp

end Lexer

end Lexis
