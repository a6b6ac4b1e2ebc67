import Lexis.Proofs.Reader.Lists

/-!
# Trying alternatives

A read that is not granted takes nothing but separators, and the token that it has
looked at stays ahead.  So a reader may be asked for one alternative after the other:
what it grants in the end is what it would have granted at once.
-/

namespace Lexis.Reader

variable {σ : Type}

def passes (r : Reader σ) (c : Criteria) : Bool := c.skipSeparators.getD r.skipsSeparators

variable [Source σ]

/-- A read with these criteria has an answer, but takes no token for it. -/
def Refuses (r : Reader σ) (c : Criteria) : Prop :=
  (r.tryRead c).1 = .ok .noToken ∨ ∃ t, (r.tryRead c).1 = .ok (.mismatch t)

def RefusesAll (r : Reader σ) : List Criteria → Prop
  | [] => True
  | c :: cs => r.Refuses c ∧ (r.tryRead c).2.RefusesAll cs

variable {r s r' : Reader σ} {c c₁ c₂ : Criteria} {found : Option Token} {e : RunError}

/-! ## Looking twice -/

theorem peek_of_peek (h : r.peek = (.ok found, r')) :
    r'.peek = (.ok found, r') ∧ r'.skipsSeparators = r.skipsSeparators := by
  have hpeeks := r.peeks_peek
  rw [h] at hpeeks
  cases hpeeks with
  | token _ hahead _ _ hskips => exact ⟨peek_of_ready hahead, hskips⟩
  | ended _ hahead _ hskips => exact ⟨peek_of_ended hahead, hskips⟩

/-- Tokens are passed over from the next one on, whether or not it was looked at. -/
theorem skipWhile_of_peek_eq (p : Token → Bool) (h : s.peek = r.peek) :
    s.skipWhile p none = r.skipWhile p none := by
  rw [skipWhile_eq, skipWhile_eq p none r, h]
  rfl

/-- Where tokens were passed over, none is left to pass over, and the next one is
known. -/
theorem skipWhile_of_skipWhile {p : Token → Bool} {limit : Option Nat} (hlimit : limit = none)
    (h : r.skipWhile p limit = (.ok (), r')) :
    r'.skipWhile p none = (.ok (), r') ∧ (∃ found, r'.peek = (.ok found, r')) ∧
      r'.skipsSeparators = r.skipsSeparators := by
  fun_induction skipWhile p limit r with
  | case1 r => simp at hlimit
  | case2 limit r _ e s hpeek => simp at h
  | case3 limit r _ s hpeek =>
      obtain ⟨-, rfl⟩ := Prod.mk.inj h
      obtain ⟨hknown, hskips⟩ := peek_of_peek hpeek
      refine ⟨?_, ⟨_, hknown⟩, hskips⟩
      rw [skipWhile_eq, hknown]
      rfl
  | case4 limit r _ t s hpeek hp ih =>
      obtain ⟨hnone, hknown, hskips⟩ := ih (by rw [hlimit]; rfl) h
      exact ⟨hnone, hknown, hskips.trans (peek_of_peek hpeek).2⟩
  | case5 limit r _ t s hpeek hp =>
      obtain ⟨-, rfl⟩ := Prod.mk.inj h
      obtain ⟨hknown, hskips⟩ := peek_of_peek hpeek
      refine ⟨?_, ⟨_, hknown⟩, hskips⟩
      rw [skipWhile_eq, hknown]
      simp only [reduceCtorEq, if_false, if_neg hp]

/-! ## What a read meets -/

def meet (r : Reader σ) (c : Criteria) : Except RunError (Option Token) × Reader σ :=
  match r.skipFor c with
  | (.error e, r) => (.error e, r)
  | (.ok (), r) => r.peek

theorem tryRead_eq_meet (r : Reader σ) (c : Criteria) :
    r.tryRead c =
      match r.meet c with
      | (.error e, r) => (.error e, r)
      | (.ok none, r) => (.ok .noToken, r)
      | (.ok (some token), r) =>
          if c.accepts token then (.ok (.read token), r.take token)
          else (.ok (.mismatch token), r) := by
  unfold tryRead meet
  rcases r.skipFor c with ⟨e | _, s⟩ <;> rfl

theorem meet_of_passes (h : r.passes c = true) :
    r.meet c =
      match r.skipSeparators with
      | (.error e, r) => (.error e, r)
      | (.ok (), r) => r.peek := by
  have hskip : r.skipFor c = r.skipSeparators := if_pos h
  rw [meet, hskip]

theorem meet_of_not_passes (h : r.passes c = false) : r.meet c = r.peek := by
  have hskip : r.skipFor c = (.ok (), r) := if_neg (by simpa [passes] using h)
  rw [meet, hskip]

/-- A read meets the next token, whether or not it was looked at. -/
theorem meet_of_peek_eq (c : Criteria) (hpeek : s.peek = r.peek)
    (hskips : s.skipsSeparators = r.skipsSeparators) : s.meet c = r.meet c := by
  have hpasses : s.passes c = r.passes c := by rw [passes, passes, hskips]
  cases hr : r.passes c with
  | true =>
      have hskip : s.skipSeparators = r.skipSeparators := skipWhile_of_peek_eq _ hpeek
      rw [meet_of_passes (hpasses.trans hr), meet_of_passes hr, hskip]
  | false => rw [meet_of_not_passes (hpasses.trans hr), meet_of_not_passes hr, hpeek]

/-- What one read has met, the next one meets again, unless it may not pass over the
separators that the first one has taken. -/
theorem meet_of_meet (hpasses : r.passes c₁ = true → r.passes c₂ = true)
    (h : r.meet c₁ = (.ok found, r')) :
    r'.meet c₂ = r.meet c₂ ∧ r'.skipsSeparators = r.skipsSeparators := by
  cases h₁ : r.passes c₁ with
  | false =>
      rw [meet_of_not_passes h₁] at h
      obtain ⟨hknown, hskips⟩ := peek_of_peek h
      exact ⟨meet_of_peek_eq c₂ (hknown.trans h.symm) hskips, hskips⟩
  | true =>
      have h₂ := hpasses h₁
      rw [meet_of_passes h₁] at h
      rw [meet_of_passes h₂]
      rcases hskip : r.skipSeparators with ⟨e | _, s⟩
      · simp [hskip] at h
      · -- The separators are taken, and the first read has stayed where they end.
        obtain ⟨hnone, ⟨known, hknown⟩, hskips⟩ := skipWhile_of_skipWhile rfl hskip
        rw [hskip] at h
        obtain rfl : s = r' := (Prod.mk.inj (hknown.symm.trans h)).2
        have hpasses₂ : s.passes c₂ = true := by rw [passes, hskips]; exact h₂
        refine ⟨?_, hskips⟩
        have hagain : s.skipSeparators = (.ok (), s) := hnone
        rw [meet_of_passes hpasses₂, hagain]

/-- Where one read fails because the source does, so does another in its place. -/
theorem meet_of_meet_error (hpasses : r.passes c₁ = true → r.passes c₂ = true)
    (h : r.meet c₁ = (.error e, r')) : r.meet c₂ = (.error e, r') := by
  cases h₂ : r.passes c₂ with
  | false =>
      have h₁ : r.passes c₁ = false := by simpa [h₂] using hpasses
      rw [meet_of_not_passes h₁] at h
      rw [meet_of_not_passes h₂, h]
  | true =>
      cases h₁ : r.passes c₁ with
      | true =>
          rw [meet_of_passes h₁] at h
          rw [meet_of_passes h₂, h]
      | false =>
          rw [meet_of_not_passes h₁] at h
          have hskip : r.skipSeparators = (.error e, r') := by
            rw [skipSeparators, skipWhile_eq, h]
            rfl
          rw [meet_of_passes h₂, hskip]

theorem meet_of_refuses (h : r.Refuses c) : ∃ found, r.meet c = (.ok found, (r.tryRead c).2) := by
  unfold Refuses at h
  rw [tryRead_eq_meet] at h ⊢
  generalize r.meet c = met at h ⊢
  rcases met with ⟨e | _ | t, s⟩
  · simp at h
  · exact ⟨none, rfl⟩
  · refine ⟨some t, ?_⟩
    dsimp only at h ⊢
    cases haccepts : c.accepts t with
    | true => simp [haccepts] at h
    | false => rfl

theorem meet_of_tryRead_error (h : (r.tryRead c).1 = .error e) :
    r.meet c = (.error e, (r.tryRead c).2) := by
  rw [tryRead_eq_meet] at h ⊢
  generalize r.meet c = met at h ⊢
  rcases met with ⟨e' | _ | t, s⟩
  · rw [Except.error.inj h]
  · simp at h
  · dsimp only at h
    split at h <;> simp at h

/-! ## One alternative after the other -/

theorem tryRead_of_refuses (hpasses : r.passes c₁ = true → r.passes c₂ = true)
    (h : r.Refuses c₁) :
    (r.tryRead c₁).2.tryRead c₂ = r.tryRead c₂ ∧
      (r.tryRead c₁).2.skipsSeparators = r.skipsSeparators := by
  obtain ⟨found, hmeet⟩ := meet_of_refuses h
  obtain ⟨hagain, hskips⟩ := meet_of_meet hpasses hmeet
  exact ⟨by rw [tryRead_eq_meet, hagain, ← tryRead_eq_meet], hskips⟩

theorem tryRead_of_refusesAll {cs : List Criteria} (h : r.RefusesAll cs)
    (hpasses : ∀ c' ∈ cs, r.passes c' = true → r.passes c = true) :
    (r.after (cs.map .tryRead)).tryRead c = r.tryRead c := by
  induction cs generalizing r with
  | nil => rfl
  | cons c' cs ih =>
      obtain ⟨hfirst, hrest⟩ := h
      obtain ⟨hsame, hskips⟩ := tryRead_of_refuses (hpasses c' List.mem_cons_self) hfirst
      have hpassed (d : Criteria) : (r.tryRead c').2.passes d = r.passes d := by
        rw [passes, passes, hskips]
      have hlater := ih hrest fun d hd ↦ by
        rw [hpassed, hpassed]
        exact hpasses d (List.mem_cons_of_mem c' hd)
      exact hlater.trans hsame

/-- A read that is refused does not show in a later one, as long as the later one may
pass over separators if the first one did.  It ends in the same way and leaves the
same reader: the same token taken last, and the same tokens to come.  So do any
number of refused reads before it.  A read that ends with an error of the source ends
with the error that the later one would have met in its place. -/
theorem tryRead_unaffected (r : Reader σ) (c : Criteria) :
    (∀ c', (r.passes c' = true → r.passes c = true) → r.Refuses c' →
      (r.tryRead c').2.tryRead c = r.tryRead c) ∧
    (∀ cs, (∀ c' ∈ cs, r.passes c' = true → r.passes c = true) → r.RefusesAll cs →
      (r.after (cs.map .tryRead)).tryRead c = r.tryRead c) ∧
    ∀ c' e, (r.passes c' = true → r.passes c = true) → (r.tryRead c').1 = .error e →
      r.tryRead c = r.tryRead c' := by
  refine ⟨?_, ?_, ?_⟩
  · intro c' hpasses hrefuses
    exact (tryRead_of_refuses hpasses hrefuses).1
  · intro cs hpasses hrefuses
    exact tryRead_of_refusesAll hrefuses hpasses
  · intro c' e hpasses herror
    have hmeet := meet_of_tryRead_error herror
    rw [tryRead_eq_meet, meet_of_meet_error hpasses hmeet, tryRead_eq_meet r c', hmeet]

/-- Two refused reads, the second of which passes over nothing, before the one that is
granted. -/
theorem tryRead_unaffected_by_two :
    let word : Token := ⟨.identifier, ⟨2, 1⟩, 1, 1, "x"⟩
    let r : Reader (List Token) := { source := [⟨.newline, ⟨1, 1⟩, 0, 0, "\n"⟩, word] }
    let alternatives : List Criteria :=
      [{ kind := some .integer }, { value := some "y", skipSeparators := some false }]
    r.RefusesAll alternatives ∧
      (r.after (alternatives.map .tryRead)).tryRead { kind := some .identifier } =
        (.ok (.read word), { source := [], current := some word, pulled := 2 }) := by
  intro word r alternatives
  let looked : Reader (List Token) :=
    { source := [], buffered := some word, current := some ⟨.newline, ⟨1, 1⟩, 0, 0, "\n"⟩,
      pulled := 2 }
  have hfirst : r.tryRead { kind := some .integer } = (.ok (.mismatch word), looked) := by cbv
  have hsecond : looked.Refuses { value := some "y", skipSeparators := some false } :=
    .inr ⟨word, by cbv⟩
  have hrefuses : r.RefusesAll alternatives := by
    refine ⟨.inr ⟨word, by rw [hfirst]⟩, ?_, trivial⟩
    rw [hfirst]
    exact hsecond
  have hsame := (tryRead_unaffected r { kind := some .identifier }).2.1 alternatives
    (fun _ _ _ ↦ rfl) hrefuses
  refine ⟨hrefuses, hsame.trans ?_⟩
  cbv

end Lexis.Reader
