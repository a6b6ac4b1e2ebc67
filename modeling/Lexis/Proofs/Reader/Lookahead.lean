import Lexis.Proofs.Reader.Lists

/-!
# How often a source is asked

A reader asks its source only when it has to know the next token, and holds on to the
answer until that token is taken.  So it has asked once for each token that was taken,
once more if it knows the next one, and once more if the source has ended.
-/

namespace Lexis

/-! ## What every request keeps -/

namespace Reader

variable {σ : Type} [Source σ]

/-- A property of readers that is kept when a reader looks ahead, when it takes the
token that it has found and when it is told whether to pass over separators. -/
structure Kept (P : Reader σ → Prop) : Prop where
  peek {r : Reader σ} : P r → P r.peek.2
  take {r : Reader σ} {t : Token} : P r → r.ahead = .ready t → P (r.take t)
  setSkipping {r : Reader σ} (skips : Bool) : P r → P { r with skipsSeparators := skips }

namespace Kept

variable {P : Reader σ → Prop} {r r' : Reader σ} {t : Token}

theorem of_peek {answer : Except RunError (Option Token)} (h : Kept P) (hr : P r)
    (hpeek : r.peek = (answer, r')) : P r' := by
  have hkept := h.peek hr
  rwa [hpeek] at hkept

theorem take_of_peek (h : Kept P) (hr : P r) (hpeek : r.peek = (.ok (some t), r')) :
    P (r'.take t) := by
  cases hpeek ▸ r.peeks_peek with
  | token htokens hahead => exact h.take (h.of_peek hr hpeek) hahead

theorem skipWhile (h : Kept P) (hr : P r) (p : Token → Bool) (limit : Option Nat) :
    P (r.skipWhile p limit).2 := by
  fun_induction Reader.skipWhile p limit r with
  | case1 r => exact hr
  | case2 limit r hlimit e r' hpeek => exact h.of_peek hr hpeek
  | case3 limit r hlimit r' hpeek => exact h.of_peek hr hpeek
  | case4 limit r hlimit t r' hpeek hp ih => exact ih (h.take_of_peek hr hpeek)
  | case5 limit r hlimit t r' hpeek hp => exact h.of_peek hr hpeek

theorem skipFor (h : Kept P) (hr : P r) (c : Criteria) : P (r.skipFor c).2 := by
  unfold Reader.skipFor
  split
  · exact h.skipWhile hr _ _
  · exact hr

theorem tryRead (h : Kept P) (hr : P r) (c : Criteria) : P (r.tryRead c).2 := by
  have hskip := h.skipFor hr c
  unfold Reader.tryRead
  generalize r.skipFor c = skipped at hskip ⊢
  rcases skipped with ⟨e | _, s⟩
  · exact hskip
  · rcases hpeek : s.peek with ⟨e | _ | t, s'⟩ <;> simp only [hpeek]
    · exact h.of_peek hskip hpeek
    · exact h.of_peek hskip hpeek
    · split
      · exact h.take_of_peek hskip hpeek
      · exact h.of_peek hskip hpeek

theorem read (h : Kept P) (hr : P r) (c : Criteria) (onFail : OnFail) : P (r.read c onFail).2 := by
  have htry := h.tryRead hr c
  unfold Reader.read
  generalize r.tryRead c = tried at htry ⊢
  rcases tried with ⟨e | t | t | _, s⟩ <;> exact htry

theorem readAs {α : Type} (h : Kept P) (hr : P r) (kinds : List Kind) (hash : Option Binary64)
    (onFail : OnFail) (value : Token → Except CoercionError α) :
    P (r.readAs kinds hash onFail value).2 := by
  have hread := h.read hr { kinds := some kinds, hash } onFail
  unfold Reader.readAs
  generalize r.read { kinds := some kinds, hash } onFail = done at hread ⊢
  rcases done with ⟨e | _ | t, s⟩
  · exact hread
  · exact hread
  · cases hvalue : value t <;> simpa only [hvalue] using hread

theorem skip (h : Kept P) (hr : P r) : P r.skip.2 := by
  unfold Reader.skip
  rcases hpeek : r.peek with ⟨e | _ | t, s⟩
  · exact h.of_peek hr hpeek
  · exact h.of_peek hr hpeek
  · exact h.take_of_peek hr hpeek

theorem skipMany (h : Kept P) (hr : P r) (count : Option Binary64) (kinds : Option (List Kind)) :
    P (r.skipMany count kinds).2 := by
  unfold Reader.skipMany
  split
  · exact hr
  · exact h.skipWhile hr _ _

theorem skipTo (h : Kept P) (hr : P r) (kinds : List Kind) (through : Bool) :
    P (r.skipTo kinds through).2 := by
  unfold Reader.skipTo
  split
  · exact hr
  · have hskip := h.skipWhile hr (fun t ↦ !kinds.contains t.kind) none
    generalize r.skipWhile (fun t ↦ !kinds.contains t.kind) none = skipped at hskip ⊢
    rcases skipped with ⟨e | _, s⟩
    · exact hskip
    · rcases hpeek : s.peek with ⟨e | _ | t, s'⟩ <;> simp only [hpeek]
      · exact h.of_peek hskip hpeek
      · exact h.of_peek hskip hpeek
      · split
        · exact h.take_of_peek hskip hpeek
        · exact h.of_peek hskip hpeek

theorem handle (h : Kept P) (hr : P r) (q : Request) : P (r.handle q).2 := by
  cases q with
  | peek => exact h.peek hr
  | peekKind => exact h.peek hr
  | nextIs kinds value => exact h.peek hr
  | isAtEnd => exact h.peek hr
  | read criteria onFail => exact h.read hr _ _
  | tryRead criteria => exact h.tryRead hr _
  | readFloat hash onFail => exact h.readAs hr _ _ _ _
  | readInteger hash onFail => exact h.readAs hr _ _ _ _
  | readBoolean hash onFail => exact h.readAs hr _ _ _ fun t ↦ .ok (t.kind == .trueWord)
  | readString hash onFail => exact h.readAs hr _ _ _ fun t ↦ .ok t.value
  | skip => exact h.skip hr
  | skipSeparators => exact h.skipWhile hr _ _
  | skipMany count kinds => exact h.skipMany hr _ _
  | skipTo kinds through => exact h.skipTo hr _ _
  | setSkipping skips => exact h.setSkipping skips hr

theorem after (h : Kept P) (hr : P r) (requests : List Request) : P (r.after requests) := by
  induction requests generalizing r with
  | nil => exact hr
  | cons q rest ih => exact ih (h.handle hr q)

end Kept

end Reader

/-! ## Sources that record their answers -/

/-- An iterator of any kind, with the answers that it has given.  It may go on for ever,
so it is taken to have ended once it was asked `patience` times. -/
structure Recorded (σ : Type) where
  next : σ → Except RunError (Option Token) × σ
  state : σ
  patience : Nat
  answers : List (Except RunError (Option Token)) := []

variable {σ : Type}

namespace Recorded

def pull (s : Recorded σ) : Except RunError (Option Token) × Recorded σ :=
  match s.patience with
  | 0 => (.ok none, { s with answers := s.answers ++ [.ok none] })
  | patience + 1 =>
      let (answer, state) := s.next s.state
      (answer, { s with state, patience, answers := s.answers ++ [answer] })

theorem answers_of_pull {s s' : Recorded σ} {answer : Except RunError (Option Token)}
    (h : s.pull = (answer, s')) : s'.answers = s.answers ++ [answer] := by
  unfold pull at h
  split at h <;> obtain ⟨rfl, rfl⟩ := Prod.mk.inj h <;> rfl

theorem patience_of_pull {s s' : Recorded σ} {t : Token} (h : s.pull = (.ok (some t), s')) :
    s'.patience < s.patience := by
  unfold pull at h
  split at h
  · simp at h
  · next patience hpatience =>
    obtain ⟨-, rfl⟩ := Prod.mk.inj h
    rw [hpatience]
    exact Nat.lt_succ_self patience

end Recorded

instance : Source (Recorded σ) where
  pull := Recorded.pull
  size := Recorded.patience
  size_of_pull := Recorded.patience_of_pull

def Recorded.isEnd : Except RunError (Option Token) → Bool
  | .ok none => true
  | _ => false

namespace Lookahead

def isReady : Lookahead → Bool
  | .ready _ => true
  | _ => false

/-- The answers to a reader that has taken these tokens and looks ahead like this. -/
def answers (ahead : Lookahead) (taken : List Token) : List (Except RunError (Option Token)) :=
  taken.map (fun t ↦ .ok (some t)) ++
    match ahead with
    | .unknown => []
    | .ready t => [.ok (some t)]
    | .ended => [.ok none]

variable (ahead : Lookahead) (taken : List Token)

theorem any_isEnd_answers : (ahead.answers taken).any Recorded.isEnd = true ↔ ahead = .ended := by
  cases ahead <;> simp [answers, Recorded.isEnd]

theorem any_isEnd_dropLast_answers : (ahead.answers taken).dropLast.any Recorded.isEnd = false := by
  cases ahead with
  | unknown => simp [answers, ← List.map_dropLast, Recorded.isEnd]
  | ready t => simp [answers, Recorded.isEnd]
  | ended => simp [answers, Recorded.isEnd]

theorem length_answers :
    (ahead.answers taken).length = taken.length + ahead.isReady.toNat +
      ((ahead.answers taken).any Recorded.isEnd).toNat := by
  cases ahead <;> simp [answers, isReady, Recorded.isEnd]

end Lookahead

namespace Reader

variable {r : Reader (Recorded σ)} {given : List Token}

theorem peek_of_known (h : r.ahead ≠ .unknown) : r.peek.2 = r := by
  cases hahead : r.ahead with
  | unknown => exact absurd hahead h
  | ready t => rw [peek_of_ready hahead]
  | ended => rw [peek_of_ended hahead]

theorem answers_peek (h : r.ahead = .unknown) :
    r.peek.2.source.answers = r.source.answers ++ [r.peek.1] ∧
      r.peek.2.pulled = r.pulled + 1 := by
  unfold peek
  rw [dif_pos (ahead_eq_unknown_iff.mp h)]
  simp only [Source.pull]
  rcases hpull : r.source.pull with ⟨e | _ | t, source⟩ <;>
    exact ⟨Recorded.answers_of_pull hpull, rfl⟩

/-- The answers so far, if none of them is an error, are the tokens that were taken and
then what the reader has found ahead. -/
structure Accounts (given : List Token) (r : Reader (Recorded σ)) : Prop where
  pulled : r.pulled = r.source.answers.length
  answers : r.source.answers.all Except.isOk = true → ∃ taken : List Token,
    given = taken ++ r.supply.tokens ∧ r.source.answers = r.ahead.answers taken

theorem accounts_peek (h : Accounts given r) : Accounts given r.peek.2 := by
  by_cases hahead : r.ahead = .unknown
  · obtain ⟨hanswers, hpulled⟩ := answers_peek hahead
    refine ⟨by rw [hpulled, hanswers, h.pulled, List.length_append]; rfl, fun hok ↦ ?_⟩
    rw [hanswers, List.all_append, Bool.and_eq_true] at hok
    obtain ⟨taken, hgiven, htaken⟩ := h.answers hok.1
    rw [hahead] at htaken
    refine ⟨taken, ?_⟩
    rw [hanswers, htaken, hgiven]
    -- The new answer is what the reader now has ahead; nothing was taken.
    have hpeeks := r.peeks_peek
    generalize r.peek = done at hpeeks hok ⊢
    cases hpeeks with
    | token htokens hready hsupply => simp [hready, hsupply, Lookahead.answers]
    | ended hsupply hended => simp [hended, hsupply, supply_of_ended hended, Lookahead.answers]
    | failed hsupply => simp [Except.isOk, Except.toBool] at hok
  · rwa [peek_of_known hahead]

theorem accounts_take {t : Token} (h : Accounts given r) (hahead : r.ahead = .ready t) :
    Accounts given (r.take t) := by
  refine ⟨h.pulled, fun hok ↦ ?_⟩
  obtain ⟨taken, hgiven, hanswers⟩ := h.answers hok
  refine ⟨taken ++ [t], ?_, ?_⟩
  · rw [hgiven, supply_of_ready hahead, List.append_assoc]
    rfl
  · show r.source.answers = _
    rw [hanswers, hahead, ahead_take hahead]
    simp [Lookahead.answers]

theorem kept_accounts (given : List Token) : Kept (Accounts (σ := σ) given) :=
  ⟨accounts_peek, accounts_take, fun _ h ↦ ⟨h.pulled, h.answers⟩⟩

/-! ## Errors of the source -/

theorem kept_error (e : RunError) :
    Kept fun r : Reader (Recorded σ) ↦ .error e ∈ r.source.answers := by
  refine ⟨?_, fun h _ ↦ h, fun _ h ↦ h⟩
  intro r h
  by_cases hahead : r.ahead = .unknown
  · rw [(answers_peek hahead).1]
    exact List.mem_append_left _ h
  · rwa [peek_of_known hahead]

theorem error_mem_of_supply {s done : Recorded σ} {e : RunError}
    (h : (Source.supply s).failure = some (e, done)) : .error e ∈ done.answers := by
  fun_induction Source.supply s with
  | case1 s error after hpull =>
      obtain ⟨rfl, rfl⟩ := Prod.mk.inj (Option.some.inj h)
      rw [Recorded.answers_of_pull hpull]
      exact List.mem_append_right _ (List.mem_singleton_self _)
  | case2 s after hpull => simp at h
  | case3 s t after hpull ih => exact ih h

theorem error_mem_of_failure {done : Recorded σ} {e : RunError}
    (h : r.supply.failure = some (e, done)) : .error e ∈ done.answers := by
  unfold supply at h
  split at h
  · exact error_mem_of_supply h
  · exact error_mem_of_supply h
  · simp at h

/-- An operation ends as on the plain list unless the source gives an error. -/
theorem Follows.remainder_eq_or_error {ε α : Type} {wrap : RunError → ε}
    {plain : Except ε α × Remainder} {beyond : Bool} {done : Except ε α × Reader (Recorded σ)}
    (h : Follows r wrap plain beyond done) :
    done.2.remainder = plain.2 ∨ ∃ e, .error e ∈ done.2.source.answers := by
  cases h with
  | within hremainder => exact .inl hremainder
  | ended _ hremainder => exact .inl hremainder
  | failed hsome _ hsource => exact .inr ⟨_, hsource ▸ error_mem_of_failure hsome⟩

theorem remainder_after_of_isOk (requests : List Request)
    (h : (r.after requests).source.answers.all Except.isOk = true) :
    (r.after requests).remainder = r.remainder.after requests := by
  induction requests generalizing r with
  | nil => rfl
  | cons q rest ih =>
      rcases (r.follows_handle q).remainder_eq_or_error with hremainder | ⟨e, herror⟩
      · rw [after, Remainder.after, ← hremainder]
        exact ih h
      · -- The error is still recorded after the other requests.
        have hlater := (kept_error e).after herror rest
        exact absurd (List.all_eq_true.mp h _ hlater) (by simp [Except.isOk, Except.toBool])

/-- As long as its source gives no error, a reader has asked it once for each token that
was taken, once more if it knows the next token, and once more if the source has ended.
The last two exclude each other, and a source that has ended is not asked again.  What
was taken is told by the plain list. -/
theorem calls_of_no_error (next : σ → Except RunError (Option Token) × σ) (state : σ)
    (patience : Nat) (skips : Bool) (requests : List Request) :
    let source : Recorded σ := { next, state, patience }
    let given := (Source.supply source).tokens
    let left := (({ tokens := given, skipsSeparators := skips } : Remainder).after requests).tokens
    let r := ({ source, skipsSeparators := skips } : Reader (Recorded σ)).after requests
    let answers := r.source.answers
    answers.all Except.isOk = true →
      r.pulled = answers.length ∧
      (∃ taken, given = taken ++ left ∧ answers.length =
        taken.length + r.ahead.isReady.toNat + (answers.any Recorded.isEnd).toNat) ∧
      (r.ahead = .ended ↔ answers.any Recorded.isEnd = true) ∧
      answers.dropLast.any Recorded.isEnd = false := by
  intro source given left r answers hok
  have hstart : Accounts given ({ source, skipsSeparators := skips } : Reader (Recorded σ)) :=
    ⟨rfl, fun _ ↦ ⟨[], rfl, rfl⟩⟩
  have hr : Accounts given r := (kept_accounts given).after hstart requests
  obtain ⟨taken, hgiven, hanswers⟩ :
    ∃ taken, given = taken ++ r.supply.tokens ∧ answers = r.ahead.answers taken := hr.answers hok
  have hleft : r.supply.tokens = left :=
    congrArg Remainder.tokens (remainder_after_of_isOk requests hok)
  refine ⟨hr.pulled, ⟨taken, hleft ▸ hgiven, ?_⟩, ?_, ?_⟩
  · rw [hanswers]
    exact r.ahead.length_answers taken
  · rw [hanswers]
    exact (r.ahead.any_isEnd_answers taken).symm
  · rw [hanswers]
    exact r.ahead.any_isEnd_dropLast_answers taken

/-- The iterator says that it has ended after one token, and would then go on. -/
theorem calls_of_no_error_resuming :
    let next (n : Nat) : Except RunError (Option Token) × Nat :=
      (.ok (if n = 1 then none else some ⟨.identifier, ⟨1, 1⟩, 0, 0, "a"⟩), n + 1)
    let r := ({ source := { next, state := 0, patience := 9 } } : Reader (Recorded Nat)).after
      [.isAtEnd, .skip, .skipTo [.newline] false, .peek]
    r.source.answers.all Except.isOk = true ∧ r.pulled = r.source.answers.length ∧
      r.pulled = 2 ∧ r.ahead = .ended ∧ r.source.answers.dropLast.any Recorded.isEnd = false := by
  intro next r
  have hok : r.source.answers.all Except.isOk = true := by decide +kernel
  obtain ⟨hpulled, -, hended, hlast⟩ := calls_of_no_error next 0 9 true
    [.isAtEnd, .skip, .skipTo [.newline] false, .peek] hok
  exact ⟨hok, hpulled, by decide +kernel, hended.mpr (by decide +kernel), hlast⟩

end Reader

end Lexis
