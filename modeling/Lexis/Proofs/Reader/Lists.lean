import Lexis.Proofs.Reader.Refinement

/-!
# Readers that meet no failure

A reader whose source ends without a failure cannot be told from the plain list of
the tokens that it has left, whatever is asked of it and in whatever order.
-/

namespace Lexis

namespace Reader

variable {σ : Type} [Source σ] {r : Reader σ}

def after (r : Reader σ) : List Request → Reader σ
  | [] => r
  | q :: rest => (r.handle q).2.after rest

/-- Where the source does not fail, an operation ends as on the plain list.  The source is
then known to have ended if it was known before or was asked beyond its tokens. -/
theorem Follows.of_failure_eq_none {ε α : Type} {wrap : RunError → ε}
    {plain : Except ε α × Remainder} {beyond : Bool} {done : Except ε α × Reader σ}
    (h : Follows r wrap plain beyond done) (hnone : r.supply.failure = none) :
    done.1 = plain.1 ∧ done.2.remainder = plain.2 ∧ done.2.supply.failure = none ∧
      (done.2.ahead = .ended ↔ r.ahead = .ended ∨ beyond = true) := by
  cases h with
  | within hremainder hfailure hahead =>
      exact ⟨rfl, hremainder, hfailure.trans hnone, by simp [hahead]⟩
  | ended _ hremainder hahead =>
      exact ⟨rfl, hremainder, congrArg Supply.failure (supply_of_ended hahead), by simp [hahead]⟩
  | failed hsome => simp [hnone] at hsome

theorem remainder_after (h : r.supply.failure = none) (requests : List Request) :
    (r.after requests).remainder = r.remainder.after requests ∧
      (r.after requests).supply.failure = none := by
  induction requests generalizing r with
  | nil => exact ⟨rfl, h⟩
  | cons q rest ih =>
      obtain ⟨-, hremainder, hfailure, -⟩ := (r.follows_handle q).of_failure_eq_none h
      rw [after, Remainder.after, ← hremainder]
      exact ih hfailure

end Reader

/-! ## Lists as sources -/

theorem Source.supply_list (ts : List Token) : supply ts = ⟨ts, none⟩ := by
  induction ts with
  | nil => rw [supply_eq]; rfl
  | cons t ts ih =>
      rw [supply_eq]
      show (supply ts).cons t = _
      rw [ih]
      rfl

namespace Reader

theorem failure_list (r : Reader (List Token)) : r.supply.failure = none := by
  unfold supply
  split <;> simp [Source.supply_list, Supply.cons]

theorem remainder_list (ts : List Token) (skips : Bool) :
    ({ source := ts, skipsSeparators := skips } : Reader (List Token)).remainder =
      { tokens := ts, skipsSeparators := skips } := by
  rw [remainder, supply, Source.supply_list]
  rfl

/-- After whatever requests, a reader of a list answers each request as it is answered
from the tokens that are left and the token that was taken last, and has taken the
same token last. -/
theorem handle_list_eq_plain (ts : List Token) (skips : Bool) (earlier : List Request)
    (q : Request) :
    let r := ({ source := ts, skipsSeparators := skips } : Reader (List Token)).after earlier
    let m := ({ tokens := ts, skipsSeparators := skips } : Remainder).after earlier
    (r.handle q).1 = (m.handle q).1 ∧ (r.handle q).2.current = (m.handle q).2.current := by
  intro r m
  have hr : r.remainder = m := by
    rw [(remainder_after (failure_list _) earlier).1, remainder_list]
  obtain ⟨hanswer, hremainder, -⟩ := (r.follows_handle q).of_failure_eq_none r.failure_list
  rw [hr] at hanswer hremainder
  exact ⟨hanswer, congrArg Remainder.current hremainder⟩

/-- A read that passes over a newline and meets another kind of token than the wanted one, with
each thing that the caller can ask for in this case. -/
theorem handle_list_eq_plain_mismatch :
    let line : Token := ⟨.newline, ⟨1, 1⟩, 0, 0, "\n"⟩
    let word : Token := ⟨.identifier, ⟨2, 1⟩, 1, 1, "a"⟩
    let r : Reader (List Token) := { source := [line, word] }
    let read (onFail : Option OnFail) := r.handle (.read { kind := some .hex } onFail)
    ((read none).1 = .error (.mismatch word "Failed to read token") ∧
      (read (some (.wording "No colour"))).1 = .error (.mismatch word "No colour") ∧
      (∀ message, (read (some (.custom message))).1 = .error (.custom (message word))) ∧
      (read (some .nothing)).1 = .ok (.token none)) ∧
    (∀ onFail, (read onFail).2.current = some line) ∧
    (r.handle (.readString none none)).1 = .error (.mismatch word "Expected string literal") := by
  intro line word r read
  have hplain (onFail : Option OnFail) :=
    handle_list_eq_plain [line, word] true [] (.read { kind := some .hex } onFail)
  have hstring := (handle_list_eq_plain [line, word] true [] (.readString none none)).1
  refine ⟨⟨(hplain none).1, (hplain (some (.wording "No colour"))).1,
    fun message ↦ (hplain (some (.custom message))).1, (hplain (some .nothing)).1⟩, ?_, hstring⟩
  intro onFail
  exact (hplain onFail).2

end Reader

end Lexis
