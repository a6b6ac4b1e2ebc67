import Lexis.Proofs.Lexer.Appended
import Lexis.Proofs.Run.Course

/-!
# Receivers that reset the lexer

A receiver may reset the lexer in the middle of a run.  The lexer then forgets the
tokens that it has kept, also those that the run has given out before, and goes on.
A run whose result is read off the kept tokens has lost them.
-/

namespace Lexis

def Event.delivered? : Event → Option Token
  | .delivered t => some t
  | _ => none

def delivered (events : List Event) : List Token := events.filterMap Event.delivered?

/-- The token at index `k`, where the first one is handed over by this call, is answered
by a reset. -/
def Receiver.ResetsAt (receive : Receiver) (call : Nat) (ts : List Token) (k : Nat) : Prop :=
  ∃ t, ts[k]? = some t ∧ receive (call + k) t = .reset

/-- What is left of the tokens from before and of those that are handed over, from this
call on: each token is kept, until an answer to it or to a later one is a reset. -/
inductive Receiver.Leaves (receive : Receiver) :
    (call : Nat) → (before given left : List Token) → Prop
  | nil {call : Nat} {before : List Token} : Leaves receive call before [] before
  | kept {call : Nat} {before given left : List Token} {t : Token}
      (hreply : receive call t ≠ .reset)
      (h : Leaves receive (call + 1) (before ++ [t]) given left) :
      Leaves receive call before (t :: given) left
  | forgotten {call : Nat} {before given left : List Token} {t : Token}
      (hreply : receive call t = .reset) (h : Leaves receive (call + 1) [] given left) :
      Leaves receive call before (t :: given) left

namespace Receiver

variable {receive : Receiver} {call k : Nat} {t : Token} {ts before left : List Token}

theorem resetsAt_zero : receive.ResetsAt call (t :: ts) 0 ↔ receive call t = .reset := by
  simp [ResetsAt]

theorem resetsAt_succ :
    receive.ResetsAt call (t :: ts) (k + 1) ↔ receive.ResetsAt (call + 1) ts k := by
  have hcall : call + (k + 1) = call + 1 + k := by omega
  simp [ResetsAt, hcall]

namespace Leaves

theorem eq_append (h : receive.Leaves call before ts left)
    (hnever : ∀ k, ¬ receive.ResetsAt call ts k) : left = before ++ ts := by
  induction h with
  | nil => simp
  | kept hreply _ ih =>
      rw [ih fun k hk ↦ hnever (k + 1) (resetsAt_succ.mpr hk)]
      simp
  | forgotten hreply => exact absurd (resetsAt_zero.mpr hreply) (hnever 0)

/-- Behind the last reset everything is kept. -/
theorem eq_drop (h : receive.Leaves call before ts left) (hk : receive.ResetsAt call ts k)
    (hlast : ∀ j, receive.ResetsAt call ts j → j ≤ k) : left = ts.drop (k + 1) := by
  induction h generalizing k with
  | nil =>
      obtain ⟨t, ht, -⟩ := hk
      simp at ht
  | kept hreply _ ih =>
      cases k with
      | zero => exact absurd (resetsAt_zero.mp hk) hreply
      | succ k =>
          refine ih (resetsAt_succ.mp hk) fun j hj ↦ ?_
          exact Nat.le_of_succ_le_succ (hlast (j + 1) (resetsAt_succ.mpr hj))
  | forgotten hreply hrest ih =>
      cases k with
      | zero =>
          refine hrest.eq_append fun j hj ↦ ?_
          exact absurd (hlast (j + 1) (resetsAt_succ.mpr hj)) (Nat.not_succ_le_zero j)
      | succ k =>
          refine ih (resetsAt_succ.mp hk) fun j hj ↦ ?_
          exact Nat.le_of_succ_le_succ (hlast (j + 1) (resetsAt_succ.mpr hj))

theorem length_le (h : receive.Leaves call before ts left) :
    left.length ≤ before.length + ts.length := by
  induction h with
  | nil => simp
  | kept _ _ ih =>
      simp only [List.length_append, List.length_cons, List.length_nil] at ih ⊢
      omega
  | forgotten _ _ ih =>
      simp only [List.length_nil, List.length_cons] at ih ⊢
      omega

theorem length_lt (h : receive.Leaves call before ts left) (hk : receive.ResetsAt call ts k) :
    left.length < ts.length := by
  induction h generalizing k with
  | nil =>
      obtain ⟨t, ht, -⟩ := hk
      simp at ht
  | kept hreply _ ih =>
      cases k with
      | zero => exact absurd (resetsAt_zero.mp hk) hreply
      | succ k => exact Nat.lt_succ_of_lt (ih (resetsAt_succ.mp hk))
  | forgotten _ hrest _ =>
      have hle := hrest.length_le
      simp only [List.length_nil, Nat.zero_add] at hle
      exact Nat.lt_succ_of_le hle

end Leaves

end Receiver

namespace Lexer

variable {l : Lexer} {o : Observers} {receive : Receiver} {rule : StopRule} {p : Progress}
  {source : Text} {options : RunOptions} {given ts : List Token}

/-! ## Who hands over tokens -/

theorem delivered_eq_nil {events : List Event} (h : ∀ x ∈ events, x.delivered? = none) :
    delivered events = [] :=
  List.filterMap_eq_nil_iff.mpr h

theorem delivered_append (events later : List Event) :
    delivered (events ++ later) = delivered events ++ delivered later :=
  List.filterMap_append

theorem delivered_notify {e : Event} (he : e.delivered? = none) :
    delivered (o.notify e).1 = [] := by
  apply delivered_eq_nil
  intro x hx
  rw [Observers.eq_of_mem_notify hx]
  exact he

theorem delivered_abort {α : Type} {events : List Event} (e : RunError)
    (h : delivered events = []) : delivered (l.abort o events e : Outcome α).events = [] := by
  cases e with
  | lexical error =>
      show delivered (events ++ (o.notify (.failed error)).1) = []
      rw [delivered_append, h, delivered_notify rfl]
      rfl
  | _ => exact h

/-- Observers are handed no token. -/
theorem delivered_tell {α : Type} {l l' : Lexer} {e : Event} {r : α} {done : Outcome α}
    (he : e.delivered? = none)
    (hdone : done =
      match o.notify e with
      | (events, none) => ⟨l', events, .ok r⟩
      | (events, some raised) => l.abort o events raised) :
    delivered done.events = [] := by
  have htold : delivered (o.notify e).1 = [] := delivered_notify he
  generalize o.notify e = notified at hdone htold
  obtain ⟨events, raised⟩ := notified
  subst hdone
  cases raised with
  | none => exact htold
  | some raised => exact delivered_abort raised htold

theorem delivered_resume (l : Lexer) (o : Observers) (rule : StopRule) (p : Progress) :
    delivered (l.resume o rule p).events = [] := by
  cases hadvance : p.advance l.filter rule with
  | emitted t next =>
      exact delivered_tell (e := .appended p.count t) rfl
        (by simp only [resume, hadvance]; rfl)
  | stopped reason =>
      exact delivered_tell (e := .ended p.count reason) rfl
        (by simp only [resume, hadvance]; rfl)
  | failed e =>
      have hresume : l.resume o rule p = l.abort o [] (.lexical e) := by
        simp only [resume, hadvance]
      rw [hresume]
      exact delivered_abort _ rfl

theorem delivered_start (l : Lexer) (o : Observers) (source : Text) (options : RunOptions) :
    delivered (l.start o source options).events = [] := by
  unfold start
  split
  · rfl
  · split
    · rfl
    · have htold : delivered (o.notify (.started source.length)).1 = [] := delivered_notify rfl
      generalize o.notify (.started source.length) = notified at htold
      obtain ⟨events, raised⟩ := notified
      cases raised with
      | none => exact htold
      | some e => exact htold

/-! ## What a run leaves -/

theorem result_after_eq_ok {later : Outcome (List Token)} {events : List Event} {t : Token}
    (h : (later.after events t).result = .ok given) :
    ∃ rest, later.result = .ok rest ∧ given = t :: rest := by
  simp only [Outcome.after] at h
  cases hlater : later.result with
  | error e =>
      rw [hlater] at h
      simp [Except.map] at h
  | ok rest =>
      rw [hlater] at h
      exact ⟨rest, rfl, (Except.ok.inj h).symm⟩

/-- A run that ends well has handed over what it has given out, and the lexer keeps of
it what the receiver leaves. -/
theorem leaves_drive (h : (l.drive o (some receive) rule p).result = .ok given) :
    delivered (l.drive o (some receive) rule p).events = given ∧
      receive.Leaves (p.count + 1) l.tokens.toList given
        (l.drive o (some receive) rule p).lexer.tokens.toList := by
  generalize hlength : p.cursor.rest.length = length
  induction length using Nat.strongRecOn generalizing l p given with
  | ind length ih =>
      subst hlength
      have hhanded := delivered_resume l o rule p
      rw [drive_eq] at h ⊢
      rcases resume_appends l o rule p with
        ⟨t, next, hadvance, htokens, hresult, -⟩ | ⟨htokens, hresult, -⟩
      · rcases hresult with hresult | ⟨e, hresult⟩
        · have hless := length_rest_of_resume hresult
          have hcount := Progress.count_of_advance hadvance
          have hevents : delivered ((l.resume o rule p).events ++ [.delivered t]) = [t] := by
            rw [delivered_append, hhanded]
            rfl
          simp only [hresult, deliver] at h ⊢
          cases hreply : receive (p.count + 1) t with
          | proceed =>
              simp only [hreply] at h ⊢
              obtain ⟨rest, hrest, rfl⟩ := result_after_eq_ok h
              obtain ⟨hlater, hleaves⟩ := ih _ hless hrest rfl
              refine ⟨?_, .kept (by simp [hreply]) ?_⟩
              · simp only [Outcome.after, delivered_append, hevents, hlater]
                rfl
              · rw [hcount, htokens, Array.toList_push] at hleaves
                exact hleaves
          | reset =>
              simp only [hreply] at h ⊢
              obtain ⟨rest, hrest, rfl⟩ := result_after_eq_ok h
              obtain ⟨hlater, hleaves⟩ := ih _ hless hrest rfl
              refine ⟨?_, .forgotten hreply ?_⟩
              · simp only [Outcome.after, delivered_append, hevents, hlater]
                rfl
              · rw [hcount] at hleaves
                exact hleaves
          | rerun => simp [hreply, Outcome.abandon] at h
          | raise message => simp [hreply, Outcome.abandon] at h
          | fail error => simp [hreply, Outcome.abandon] at h
        · simp [hresult] at h
      · rcases hresult with hresult | ⟨e, hresult⟩
        · simp only [hresult, Except.ok.injEq] at h ⊢
          subst h
          refine ⟨hhanded, ?_⟩
          rw [htokens]
          exact .nil
        · simp [hresult] at h

theorem leaves_run (h : (l.run o (some receive) source options).result = .ok given) :
    delivered (l.run o (some receive) source options).events = given ∧
      receive.Leaves 1 l.tokens.toList given
        (l.run o (some receive) source options).lexer.tokens.toList := by
  obtain ⟨htokens, hresult, -⟩ := start_appends l o source options
  have hhanded := delivered_start l o source options
  unfold run at h ⊢
  rcases hresult with ⟨rule, hresult⟩ | ⟨e, hresult⟩
  · simp only [hresult] at h ⊢
    obtain ⟨hlater, hleaves⟩ := leaves_drive h
    rw [htokens] at hleaves
    refine ⟨?_, hleaves⟩
    rw [delivered_append, hhanded, hlater]
    rfl
  · simp [hresult] at h

theorem tryRun_eq_ok (h : (l.tryRun o (some receive) source options).result = .ok (.ok ts)) :
    ∃ given, (l.run o (some receive) source options).result = .ok given ∧
      ts = (l.run o (some receive) source options).lexer.tokens.toList.drop l.tokens.size := by
  simp only [tryRun] at h
  split at h
  · next given hgiven => exact ⟨given, hgiven, by simpa using h.symm⟩
  · simp at h
  · simp at h

/-- The tokens that a tried run returns are those that it has handed to the receiver
exactly if none of them was answered by a reset.  Behind the last reset the lexer keeps
all tokens, but the result leaves out as many of these as the lexer had before the run. -/
theorem tokens_tryRun_eq_iff
    (h : (l.tryRun o (some receive) source options).result = .ok (.ok ts)) :
    let given := delivered (l.tryRun o (some receive) source options).events
    (l.run o (some receive) source options).result = .ok given ∧
      (ts = given ↔ ∀ k, ¬ receive.ResetsAt 1 given k) ∧
      ∀ k, receive.ResetsAt 1 given k → (∀ j, receive.ResetsAt 1 given j → j ≤ k) →
        ts = given.drop (k + 1 + l.tokens.size) := by
  intro given
  obtain ⟨given', hrun, hts⟩ := tryRun_eq_ok h
  obtain ⟨hdelivered, hleaves⟩ := leaves_run hrun
  obtain rfl : given = given' := hdelivered
  refine ⟨hrun, ⟨?_, ?_⟩, ?_⟩
  · -- A reset leaves too few tokens.
    intro hall k hk
    have hlt := hleaves.length_lt hk
    have hlength := congrArg List.length (hts.symm.trans hall)
    rw [List.length_drop] at hlength
    omega
  · intro hnever
    rw [hts, hleaves.eq_append hnever, ← Array.length_toList, List.drop_left]
  · intro k hk hlast
    rw [hts, hleaves.eq_drop hk hlast, List.drop_drop]

def resetOnce : Receiver := fun call _ ↦ if call = 1 then .reset else .proceed

theorem eq_ok_ok_of_toOption {ε ε' α : Type} {x : Except ε (Except ε' α)} {a : α}
    (h : x.toOption.bind Except.toOption = some a) : x = .ok (.ok a) := by
  rcases x with e | e | b
  · simp [Except.toOption] at h
  · simp [Except.toOption] at h
  · exact congrArg (Except.ok ∘ Except.ok) (Option.some.inj h)

/-- A lexer that had kept a token before the run loses the first two of three tokens. -/
theorem tokens_tryRun_eq_iff_used :
    let l := (({} : Lexer).run .none none "x" {}).lexer
    let done := l.tryRun .none (some resetOnce) "a b c" {}
    let given := delivered done.events
    given.map (·.value) = [Text.ofString "a", Text.ofString "b", Text.ofString "c"] ∧
      done.result = .ok (.ok (given.drop 2)) ∧ given.drop 2 ≠ given := by
  intro l done given
  have hresult : done.result = .ok (.ok [⟨.identifier, ⟨1, 5⟩, 4, 4, "c"⟩]) :=
    eq_ok_ok_of_toOption (by decide +kernel)
  have hgiven : given = [⟨.identifier, ⟨1, 1⟩, 0, 0, "a"⟩, ⟨.identifier, ⟨1, 3⟩, 2, 2, "b"⟩,
      ⟨.identifier, ⟨1, 5⟩, 4, 4, "c"⟩] := by decide +kernel
  have hsize : l.tokens.size = 1 := by decide +kernel
  have hfirst : resetOnce.ResetsAt 1 given 0 := by
    rw [hgiven]
    exact Receiver.resetsAt_zero.mpr rfl
  have hlast : ∀ j, resetOnce.ResetsAt 1 given j → j ≤ 0 := by
    rintro j ⟨t, -, hreply⟩
    cases j with
    | zero => exact Nat.le_refl 0
    | succ j =>
        simp [resetOnce] at hreply
  obtain ⟨-, hiff, hdrop⟩ := tokens_tryRun_eq_iff hresult
  have hrest := hdrop 0 hfirst hlast
  rw [hsize] at hrest
  refine ⟨by rw [hgiven]; rfl, by rw [hresult, hrest], fun hall ↦ ?_⟩
  exact (hiff.mp (hrest.trans hall)) 0 hfirst

/-- A reset in answer to the first of two tokens leaves only the second one in the
result. -/
theorem not_tokens_tryRun_eq :
    let done := ({} : Lexer).tryRun .none (some resetOnce) "a b" {}
    done.result = .ok (.ok [⟨.identifier, ⟨1, 3⟩, 2, 2, "b"⟩]) ∧
      delivered done.events =
        [⟨.identifier, ⟨1, 1⟩, 0, 0, "a"⟩, ⟨.identifier, ⟨1, 3⟩, 2, 2, "b"⟩] := by
  intro done
  exact ⟨eq_ok_ok_of_toOption (by decide +kernel), by decide +kernel⟩

end Lexer

end Lexis
