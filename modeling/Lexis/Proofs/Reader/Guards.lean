import Lexis.Proofs.Number.Exact
import Lexis.Proofs.Reader.Remainder
import Lexis.Proofs.Text.Hash

/-!
# Reads guarded by a hash

A read that is guarded by the hash of a text takes only tokens whose values have this hash.
A value that differs from the text in one unit never has it.
-/

namespace Lexis

namespace Criteria

/-- Only tokens whose values have the hash of this text are asked for. -/
def GuardedBy (c : Criteria) (text : Text) : Prop :=
  c.hash = some (Binary64.ofInt text.hash.toNat)

theorem GuardedBy.hash_eq {c : Criteria} {text : Text} {t : Token} (hc : c.GuardedBy text)
    (h : c.accepts t = true) : t.value.hash = text.hash := by
  have hsafe : text.hash.toNat ≤ Binary64.maxSafe :=
    Nat.le_trans (Nat.le_of_lt text.hash.toNat_lt) (by decide)
  have hmeets := (accepts_iff.mp h).2.2.1 _ hc
  rw [Binary64.toNat?_ofInt hsafe, Option.some.injEq] at hmeets
  exact (UInt32.toNat_inj.mp hmeets).symm

end Criteria

namespace Reader

variable {σ : Type} [Source σ] {r r' : Reader σ} {c : Criteria} {t : Token}

theorem accepts_of_tryRead (h : r.tryRead c = (.ok (.read t), r')) : c.accepts t = true := by
  unfold tryRead at h
  split at h
  · simp at h
  · split at h
    · simp at h
    · simp at h
    · next s _ token s' _ =>
      split at h
      · next haccepts =>
        obtain rfl : token = t := by simpa using congrArg Prod.fst h
        exact haccepts
      · simp at h

theorem accepts_of_read {onFail : OnFail} (h : r.read c onFail = (.ok (some t), r')) :
    c.accepts t = true := by
  unfold read at h
  split at h
  · simp at h
  · next token s htry =>
    obtain rfl : token = t := by simpa using congrArg Prod.fst h
    exact accepts_of_tryRead htry
  · simp at h
  · next token s htry =>
    cases onFail <;> simp [refuse] at h

/-- With signed words, with unsigned words and with natural numbers the hash of a text is
the same, and it fits into thirty-two bits.  Texts with a common end have one hash just if
they have one without that end.  A difference in one unit always shows in the hash, so a
read that is guarded by the hash of one text never takes a token with the other as its
value, whatever else is asked for and wherever the tokens come from. -/
theorem hash_separates :
    (∀ t : Text, t.signedHash = t.referenceHash ∧ t.hash.toNat = t.referenceHash ∧
      0 ≤ t.signedHash ∧ t.signedHash < 2 ^ 32) ∧
    (∀ a b s : Text, (a ++ s).hash = (b ++ s).hash ↔ a.hash = b.hash) ∧
    ∀ a b : Text, a.DifferOnce b → a.hash ≠ b.hash ∧
      ∀ c : Criteria, c.GuardedBy a → (∀ t : Token, t.value = b → c.accepts t = false) ∧
        ∀ (σ : Type) [Source σ] (r r' : Reader σ) (onFail : OnFail) (t : Token),
          r.tryRead c = (.ok (.read t), r') ∨ r.read c onFail = (.ok (some t), r') →
            t.value ≠ b := by
  refine ⟨?_, Text.hash_append_inj, ?_⟩
  · intro t
    have hlt : t.hash.toNat < 2 ^ 32 := t.hash.toNat_lt
    rw [← t.toNat_hash, t.signedHash_eq]
    exact ⟨rfl, rfl, by omega, by omega⟩
  · intro a b hdiffer
    refine ⟨hdiffer.hash_ne, fun c hc ↦ ?_⟩
    have hrefuses : ∀ t : Token, t.value = b → c.accepts t = false := by
      rintro t rfl
      cases haccepts : c.accepts t with
      | false => rfl
      | true => exact absurd (hc.hash_eq haccepts).symm hdiffer.hash_ne
    refine ⟨hrefuses, ?_⟩
    rintro σ _ r r' onFail t h hvalue
    have haccepts : c.accepts t = true := by
      rcases h with h | h
      · exact accepts_of_tryRead h
      · exact accepts_of_read h
    rw [hrefuses t hvalue] at haccepts
    exact Bool.false_ne_true haccepts

/-- The difference is half of a surrogate pair. -/
theorem hash_separates_surrogates :
    let a : Text := [0x61, 0xd83d, 0xde00]
    let b : Text := [0x61, 0xd83d, 0xde01]
    let guard : Criteria := { hash := some (Binary64.ofInt a.hash.toNat) }
    a.DifferOnce b ∧ a.hash ≠ b.hash ∧ guard.accepts { value := b } = false := by
  intro a b guard
  have hdiffer : a.DifferOnce b := by
    refine ⟨rfl, 2, by decide, fun j hj ↦ ?_⟩
    match j, hj with
    | 0, _ => rfl
    | 1, _ => rfl
    | j + 3, _ => rfl
  obtain ⟨hne, hguarded⟩ := hash_separates.2.2 a b hdiffer
  exact ⟨hdiffer, hne, (hguarded guard rfl).1 _ rfl⟩

end Reader

end Lexis
