import Lexis.Lexer.Basic
import Lexis.Proofs.Run.Restriction

/-!
# What a lexer makes of the course of a run

When nobody raises, a run leaves behind a lexer, events and a result that only
depend on its course.
-/

namespace Lexis

def Observers.Calm (o : Observers) : Prop := ∀ e, (o.notify e).2 = Option.none

def Lexer.Proceeds (receiver : Option Receiver) : Prop :=
  ∀ call t, (deliver receiver call t).2 = .proceed

namespace Course

def result (course : Course) : Except RunError (List Token) :=
  match course.ending with
  | .ok _ => .ok course.tokens
  | .error e => .error (.lexical e)

def failure (course : Course) : Option LexError :=
  match course.ending with
  | .ok _ => none
  | .error e => some e

def lastEvent (course : Course) (count : Nat) : Event :=
  match course.ending with
  | .ok reason => .ended count reason
  | .error e => .failed e

def events (o : Observers) (receiver : Option Receiver) (course : Course) (count : Nat) :
    List Event :=
  (course.tokens.zipIdx count).flatMap (fun (t, i) ↦
    (o.notify (.appended i t)).1 ++ (Lexer.deliver receiver (i + 1) t).1) ++
  (o.notify (course.lastEvent (count + course.tokens.length))).1

theorem result_cons (t : Token) (course : Course) :
    (course.cons t).result = course.result.map (t :: ·) := by
  unfold result
  rw [ending_cons, tokens_cons]
  split <;> rfl

theorem events_cons (o : Observers) (receiver : Option Receiver) (t : Token) (course : Course)
    (count : Nat) :
    (course.cons t).events o receiver count =
      (o.notify (.appended count t)).1 ++ (Lexer.deliver receiver (count + 1) t).1 ++
        course.events o receiver (count + 1) := by
  have hcount : count + (course.tokens.length + 1) = count + 1 + course.tokens.length := by omega
  simp only [events, tokens_cons, List.zipIdx_cons, List.flatMap_cons, List.length_cons, hcount,
    List.append_assoc]
  rfl

end Course

namespace Lexer

def finish (l : Lexer) (course : Course) : Lexer :=
  { l with
    tokens := l.tokens ++ course.tokens.toArray
    running := false
    lastError := course.failure.or l.lastError }

variable {o : Observers} {receiver : Option Receiver} {rule : StopRule}

theorem finish_cons (l : Lexer) (t : Token) (course : Course) :
    l.finish (course.cons t) = { l with tokens := l.tokens.push t }.finish course := by
  have htokens : l.tokens ++ (t :: course.tokens).toArray =
      l.tokens.push t ++ course.tokens.toArray := by
    apply Array.ext'
    simp
  unfold finish
  rw [Course.tokens_cons, htokens]
  rfl

theorem notify_eq (ho : o.Calm) (e : Event) : o.notify e = ((o.notify e).1, none) :=
  Prod.ext rfl (ho e)

theorem resume_of_stopped {l : Lexer} {p : Progress} {reason : StopReason} (ho : o.Calm)
    (h : p.advance l.filter rule = .stopped reason) :
    l.resume o rule p =
      ⟨{ l with running := false }, (o.notify (.ended p.count reason)).1, .ok none⟩ := by
  simp only [resume, h]
  rw [notify_eq ho]

theorem resume_of_failed {l : Lexer} {p : Progress} {e : LexError} (ho : o.Calm)
    (h : p.advance l.filter rule = .failed e) :
    l.resume o rule p =
      ⟨{ l with running := false, lastError := some e }, (o.notify (.failed e)).1,
        .error (.lexical e)⟩ := by
  simp only [resume, h, abort]
  rw [notify_eq ho]
  rfl

theorem resume_of_emitted {l : Lexer} {p next : Progress} {t : Token} (ho : o.Calm)
    (h : p.advance l.filter rule = .emitted t next) :
    l.resume o rule p =
      ⟨{ l with tokens := l.tokens.push t }, (o.notify (.appended p.count t)).1,
        .ok (some (t, next))⟩ := by
  simp only [resume, h]
  rw [notify_eq ho]

/-- A run that nobody disturbs leaves behind what its course says. -/
theorem drive_eq_course (ho : o.Calm) (hr : Proceeds receiver) (l : Lexer) (p : Progress) :
    l.drive o receiver rule p =
      ⟨l.finish (p.course l.filter rule), (p.course l.filter rule).events o receiver p.count,
        (p.course l.filter rule).result⟩ := by
  generalize hf : l.filter = filter
  induction p using Progress.course.induct filter rule generalizing l with
  | case1 p reason hadvance =>
      subst hf
      rw [drive_eq, resume_of_stopped ho hadvance, Progress.course_eq, hadvance]
      simp [finish, Course.events, Course.result, Course.failure, Course.lastEvent]
  | case2 p e hadvance =>
      subst hf
      rw [drive_eq, resume_of_failed ho hadvance, Progress.course_eq, hadvance]
      simp [finish, Course.events, Course.result, Course.failure, Course.lastEvent]
  | case3 p t next hadvance ih =>
      subst hf
      have hcount : next.count = p.count + 1 := Progress.count_of_advance hadvance
      rw [drive_eq, resume_of_emitted ho hadvance, Progress.course_eq, hadvance]
      have hdeliver : deliver receiver (p.count + 1) t =
          ((deliver receiver (p.count + 1) t).1, .proceed) := Prod.ext rfl (hr (p.count + 1) t)
      dsimp only
      rw [hdeliver]
      dsimp only
      rw [ih { l with tokens := l.tokens.push t } rfl, Outcome.after, finish_cons,
        Course.events_cons, Course.result_cons, hcount]

theorem start_eq {l : Lexer} {source : Text} {options : RunOptions} (hl : l.running = false)
    (ho : (o.notify (.started source.length)).2 = none) (hrule : options.rule = .ok rule) :
    l.start o source options =
      ⟨{ l with running := true, lastError := none }, (o.notify (.started source.length)).1,
        .ok (rule, .start source)⟩ := by
  have hnotify :
      o.notify (.started source.length) = ((o.notify (.started source.length)).1, none) :=
    Prod.ext rfl ho
  simp only [start, hl, hrule]
  rw [hnotify]
  rfl

/-- What a whole run leaves behind that takes this course. -/
def completed (l : Lexer) (o : Observers) (receiver : Option Receiver) (source : Text)
    (course : Course) : Outcome (List Token) where
  lexer :=
    { l with
      tokens := l.tokens ++ course.tokens.toArray
      running := false
      lastError := course.failure }
  events := (o.notify (.started source.length)).1 ++ course.events o receiver 0
  result := course.result

theorem course_start (source : Text) (filter : Filter) (rule : StopRule) :
    (Progress.start source).course filter rule =
      (Cursor.start source).course.restrict filter rule := by
  have hafter : rule.after 0 = rule := by
    unfold StopRule.after
    cases hlimit : rule.limit <;> simp [← hlimit]
  rw [Progress.course_eq_restrict rfl]
  exact congrArg (fun rule ↦ (Cursor.start source).course.restrict filter rule) hafter

/-- A run that nobody disturbs is the unrestricted run, under its filter and its
rule to stop by. -/
theorem run_eq_completed {l : Lexer} {source : Text} {options : RunOptions}
    (hl : l.running = false) (ho : o.Calm) (hr : Proceeds receiver)
    (hrule : options.rule = .ok rule) :
    l.run o receiver source options =
      l.completed o receiver source ((Cursor.start source).course.restrict l.filter rule) := by
  simp only [run, start_eq hl (ho _) hrule]
  rw [drive_eq_course ho hr, course_start]
  simp [completed, finish, Progress.start]

end Lexer

/-! ## Without observers, receivers and options -/

theorem Course.restrict_default (free : Course) : free.restrict {} {} = free := by
  have hkeeps (k : Kind) : Filter.keeps {} k = true := by
    cases k <;> rfl
  have hstops (t : Token) : StopRule.stopsAt {} t = false := rfl
  have hthrough (ts : List Token) : StopRule.through {} ts = ts := by
    induction ts with
    | nil => rfl
    | cons t ts ih => simp [StopRule.through, hstops, ih]
  have hleaves (ts : List Token) : Filter.leaves {} ts = ts := by
    unfold Filter.leaves
    exact List.filter_eq_self.mpr fun t _ ↦ hkeeps t.kind
  simp [restrict, StopRule.cut, StopRule.reaches, StopRule.fills, hleaves, hstops, hthrough]

theorem Observers.calm_none : Observers.Calm .none := fun _ ↦ rfl

theorem Lexer.proceeds_none : Lexer.Proceeds none := fun _ _ ↦ rfl

end Lexis
