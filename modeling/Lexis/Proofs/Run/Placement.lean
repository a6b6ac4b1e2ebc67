import Lexis.Proofs.Cursor.Position
import Lexis.Run.Progress

/-!
# The places of tokens

A run gives out tokens that stand one behind the other.  Each has the position of
its first unit, whatever was left out before it.
-/

namespace Lexis

/-- Tokens that stand one behind the other from an offset on, each with the position
of its first unit. -/
inductive Placed (source : Text) : (offset : Nat) → List Token → Prop
  | nil {offset : Nat} : Placed source offset []
  | cons {offset n next : Nat} {t : Token} {ts : List Token} (hfirst : t.first = n)
      (hle : offset ≤ n) (hlt : n < next) (hnext : next ≤ source.length)
      (hposition : t.position = source.position n) (hrest : Placed source next ts) :
      Placed source offset (t :: ts)

namespace Placed

variable {source : Text} {offset : Nat} {ts : List Token} {t : Token}

theorem exists_offset (h : Placed source offset ts) (ht : t ∈ ts) :
    ∃ n : Nat, t.first = n ∧ offset ≤ n ∧ n < source.length ∧ t.position = source.position n := by
  induction h with
  | nil => simp at ht
  | @cons offset n next s ts hfirst hle hlt hnext hposition hrest ih =>
      rcases List.mem_cons.mp ht with rfl | ht
      · exact ⟨n, hfirst, hle, by omega, hposition⟩
      · obtain ⟨m, hm, hbehind, hrest⟩ := ih ht
        exact ⟨m, hm, by omega, hrest⟩

/-- Positions increase along the tokens, with every line break between them. -/
theorem pairwise_before (h : Placed source offset ts) :
    ts.Pairwise fun s t ↦ s.position.Before t.position := by
  induction h with
  | nil => exact .nil
  | @cons offset n next s ts hfirst hle hlt hnext hposition hrest ih =>
      refine .cons (fun t ht ↦ ?_) ih
      obtain ⟨m, -, hbehind, hm, hlater⟩ := hrest.exists_offset ht
      rw [hposition, hlater]
      exact Text.position_before (by omega) (by omega)

theorem singleton {n next : Nat} (hfirst : t.first = n) (hle : offset ≤ n) (hlt : n < next)
    (hnext : next ≤ source.length) (hposition : t.position = source.position n) :
    Placed source offset [t] :=
  .cons hfirst hle hlt hnext hposition .nil

end Placed

/-- A run that gives out a token goes on behind it. -/
theorem Progress.at_of_advance {source : Text} {filter : Filter} {rule : StopRule}
    {p next : Progress} {t : Token} (hp : p.cursor.At source)
    (h : p.advance filter rule = .emitted t next) :
    next.cursor.At source ∧ ∃ n : Nat, t.first = n ∧ p.cursor.offset ≤ n ∧
      n < next.cursor.offset ∧ t.position = source.position n := by
  fun_induction advance filter rule p with
  | case1 => simp at h
  | case2 => simp at h
  | case3 => simp at h
  | case4 => simp at h
  | case5 p _ _ dropped cursor hscan reached _ ih =>
      -- The token that is dropped takes its place too.
      obtain ⟨hcursor, m, -, hle, hlt, -⟩ := hp.of_scan hscan
      obtain ⟨hnext, n, hfirst, hbehind, hrest⟩ := ih hcursor h
      have hskip : p.cursor.offset ≤ cursor.offset := by omega
      exact ⟨hnext, n, hfirst, Nat.le_trans hskip hbehind, hrest⟩
  | case6 p _ _ t cursor hscan reached _ =>
      simp only [Turn.emitted.injEq] at h
      obtain ⟨rfl, rfl⟩ := h
      exact hp.of_scan hscan

end Lexis
