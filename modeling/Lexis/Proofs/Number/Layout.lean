import Lexis.Number.Shortest

/-!
# Digits as they are laid out

A natural number is written with all its digits below `10 ^ 21` and with an exponent from
there on.  Main statement: the layout shows which number it is.
-/

namespace Lexis

/-- Two texts agree up to the first separator if that does not occur before. -/
theorem append_cons_inj {α : Type} {separator : α} {a b c d : List α} (ha : separator ∉ a)
    (hc : separator ∉ c) (h : a ++ separator :: b = c ++ separator :: d) : a = c ∧ b = d := by
  induction a generalizing c with
  | nil =>
      cases c with
      | nil => exact ⟨rfl, (List.cons.inj h).2⟩
      | cons x c =>
          obtain ⟨rfl, -⟩ := List.cons.inj h
          exact absurd List.mem_cons_self hc
  | cons x a ih =>
      cases c with
      | nil =>
          obtain ⟨rfl, -⟩ := List.cons.inj h
          exact absurd List.mem_cons_self ha
      | cons y c =>
          obtain ⟨rfl, hrest⟩ := List.cons.inj h
          rw [List.mem_cons, not_or] at ha hc
          obtain ⟨rfl, rfl⟩ := ih ha.2 hc.2 hrest
          exact ⟨rfl, rfl⟩

namespace Binary64

def written (n : Nat) : List Char :=
  place layout (trimZeros (Nat.toDigits 10 n)) (Nat.toDigits 10 n).length

theorem toDigits_injective {n m : Nat} (h : Nat.toDigits 10 n = Nat.toDigits 10 m) : n = m := by
  calc
    n = Nat.ofDigitChars 10 (Nat.toDigits 10 n) 0 := Nat.ofDigitChars_ten_toDigits.symm
    _ = Nat.ofDigitChars 10 (Nat.toDigits 10 m) 0 := by rw [h]
    _ = m := Nat.ofDigitChars_ten_toDigits

/-! ## Zeros at the end -/

theorem trimZeros_append (digits : List Char) :
    trimZeros digits ++ List.replicate (digits.length - (trimZeros digits).length) '0' =
      digits := by
  have hsplit : trimZeros digits ++ (digits.reverse.takeWhile (· == '0')).reverse = digits := by
    rw [trimZeros, ← List.reverse_append, List.takeWhile_append_dropWhile, List.reverse_reverse]
  generalize hzeros : (digits.reverse.takeWhile (· == '0')).reverse = zeros at hsplit
  have hall : ∀ c ∈ zeros, c = '0' := by
    intro c hc
    rw [← hzeros, List.mem_reverse] at hc
    simpa using List.all_eq_true.mp List.all_takeWhile c hc
  have hlength := congrArg List.length hsplit
  rw [List.length_append] at hlength
  have hcount : digits.length - (trimZeros digits).length = zeros.length := by omega
  rw [hcount, ← List.eq_replicate_of_mem hall, hsplit]

theorem length_trimZeros_le (digits : List Char) : (trimZeros digits).length ≤ digits.length := by
  have hlength := congrArg List.length (trimZeros_append digits)
  rw [List.length_append] at hlength
  omega

theorem mem_of_mem_trimZeros {digits : List Char} {c : Char} (h : c ∈ trimZeros digits) :
    c ∈ digits := by
  rw [← trimZeros_append digits]
  exact List.mem_append_left _ h

theorem trimZeros_append_replicate (digits : List Char) (k : Nat) :
    trimZeros (digits ++ List.replicate k '0') = trimZeros digits := by
  unfold trimZeros
  rw [List.reverse_append, List.reverse_replicate, List.dropWhile_append_of_pos]
  intro c hc
  rw [List.eq_of_mem_replicate hc]
  rfl

theorem toDigits_mul_pow10 {d : Nat} (hd : 0 < d) (e : Nat) :
    Nat.toDigits 10 (d * pow10 e) = Nat.toDigits 10 d ++ List.replicate e '0' := by
  induction e with
  | zero => simp
  | succ e ih =>
      have hpos : 0 < d * pow10 e := Nat.mul_pos hd (Nat.pow_pos (by decide))
      have hnext : d * pow10 (e + 1) = 10 * (d * pow10 e) + 0 := by
        show d * (pow10 e * 10) = _
        rw [← Nat.mul_assoc, Nat.mul_comm, Nat.add_zero]
      rw [hnext, ← Nat.toDigits_append_toDigits (by decide) hpos (by decide), ih,
        List.append_assoc, List.replicate_succ']
      rfl

/-- Digits and an exponent are laid out as the number that they stand for. -/
theorem place_eq_written {d : Nat} (hd : 0 < d) (e : Nat) :
    place layout (trimZeros (Nat.toDigits 10 d)) ((Nat.toDigits 10 d).length + (e : Int)) =
      written (d * pow10 e) := by
  rw [written, toDigits_mul_pow10 hd, trimZeros_append_replicate, List.length_append,
    List.length_replicate]
  rfl

/-! ## The two layouts -/

theorem place_of_le {digits : List Char} {length : Nat} (hpos : 0 < length)
    (hdigits : digits.length ≤ length) (h : length ≤ 21) :
    place layout digits length = digits ++ List.replicate (length - digits.length) '0' := by
  have hzeros : ((length : Int) - digits.length).toNat = length - digits.length := by omega
  have hplain :
      (layout.plainFrom ≤ (length : Int) && (length : Int) ≤ layout.plainUpTo) = true := by
    rw [Bool.and_eq_true, decide_eq_true_iff, decide_eq_true_iff]
    show -5 ≤ (length : Int) ∧ (length : Int) ≤ 21
    omega
  unfold place
  dsimp only
  rw [if_pos hplain, if_neg (by omega), if_pos (by omega), hzeros]

/-- The leading digit, and the others after a point. -/
def leading (digits : List Char) : List Char :=
  digits.take 1 ++ if digits.length ≤ 1 then [] else '.' :: digits.drop 1

theorem place_of_lt {digits : List Char} {length : Nat} (h : 21 < length) :
    place layout digits length =
      leading digits ++ 'e' :: '+' :: Nat.toDigits 10 (length - 1) := by
  have habs : ((length : Int) - 1).natAbs = length - 1 := by omega
  have hplain : ¬ (layout.plainFrom ≤ (length : Int) && (length : Int) ≤ layout.plainUpTo) =
      true := by
    rw [Bool.and_eq_true, decide_eq_true_iff, decide_eq_true_iff]
    show ¬ (-5 ≤ (length : Int) ∧ (length : Int) ≤ 21)
    omega
  have hmark : ¬ (length : Int) - 1 < 0 := by omega
  unfold place leading
  dsimp only
  rw [if_neg hplain, if_neg hmark, habs, List.append_assoc]
  rfl

theorem written_of_lt {n : Nat} (h : n < pow10 21) : written n = Nat.toDigits 10 n := by
  have hlength : (Nat.toDigits 10 n).length ≤ 21 :=
    (Nat.length_toDigits_le_iff (by decide) (by decide)).mpr h
  rw [written, place_of_le Nat.length_toDigits_pos (length_trimZeros_le _) hlength,
    trimZeros_append]

theorem written_of_le {n : Nat} (h : pow10 21 ≤ n) :
    21 < (Nat.toDigits 10 n).length ∧
      written n = leading (trimZeros (Nat.toDigits 10 n)) ++
        'e' :: '+' :: Nat.toDigits 10 ((Nat.toDigits 10 n).length - 1) := by
  have hlength : 21 < (Nat.toDigits 10 n).length := by
    apply Nat.lt_of_not_le
    rw [Nat.length_toDigits_le_iff (by decide) (by decide)]
    exact Nat.not_lt.mpr h
  exact ⟨hlength, place_of_lt hlength⟩

theorem written_ne_nil (n : Nat) : written n ≠ [] := by
  rcases Nat.lt_or_ge n (pow10 21) with hlt | hge
  · rw [written_of_lt hlt]
    exact Nat.toDigits_ne_nil
  · rw [(written_of_le hge).2]
    simp

theorem isDigit_of_mem_trimZeros {n : Nat} {c : Char} (h : c ∈ trimZeros (Nat.toDigits 10 n)) :
    c.isDigit = true :=
  Nat.isDigit_of_mem_toDigits (by decide) (by decide) (mem_of_mem_trimZeros h)

theorem mem_leading {digits : List Char} {c : Char} (h : c ∈ leading digits) :
    c ∈ digits ∨ c = '.' := by
  rcases List.mem_append.mp h with hfirst | hrest
  · exact .inl (List.mem_of_mem_take hfirst)
  · split at hrest
    · exact absurd hrest List.not_mem_nil
    · rcases List.mem_cons.mp hrest with rfl | hdrop
      · exact .inr rfl
      · exact .inl (List.mem_of_mem_drop hdrop)

/-- What remains without the point is the digits. -/
theorem filter_leading {digits : List Char} (h : ∀ c ∈ digits, c.isDigit = true) :
    (leading digits).filter Char.isDigit = digits := by
  have hfirst : (digits.take 1).filter Char.isDigit = digits.take 1 :=
    List.filter_eq_self.mpr fun c hc ↦ h c (List.mem_of_mem_take hc)
  have hrest : (digits.drop 1).filter Char.isDigit = digits.drop 1 :=
    List.filter_eq_self.mpr fun c hc ↦ h c (List.mem_of_mem_drop hc)
  unfold leading
  rw [List.filter_append, hfirst]
  split
  · next hshort => rw [List.filter_nil, List.append_nil, List.take_of_length_le hshort]
  · rw [List.filter_cons_of_neg (by decide), hrest, List.take_append_drop]

theorem not_mem_leading {n : Nat} : 'e' ∉ leading (trimZeros (Nat.toDigits 10 n)) := by
  intro h
  rcases mem_leading h with hdigit | hpoint
  · have he := isDigit_of_mem_trimZeros hdigit
    simp at he
  · simp at hpoint

theorem mem_written {n : Nat} {c : Char} (h : c ∈ written n) :
    c.isDigit = true ∨ c = '.' ∨ c = 'e' ∨ c = '+' := by
  rcases Nat.lt_or_ge n (pow10 21) with hlt | hge
  · rw [written_of_lt hlt] at h
    exact .inl (Nat.isDigit_of_mem_toDigits (by decide) (by decide) h)
  · rw [(written_of_le hge).2, List.mem_append, List.mem_cons, List.mem_cons] at h
    rcases h with hleading | rfl | rfl | hexponent
    · rcases mem_leading hleading with hdigit | rfl
      · exact .inl (isDigit_of_mem_trimZeros hdigit)
      · exact .inr (.inl rfl)
    · exact .inr (.inr (.inl rfl))
    · exact .inr (.inr (.inr rfl))
    · exact .inl (Nat.isDigit_of_mem_toDigits (by decide) (by decide) hexponent)

theorem mem_written_iff {n : Nat} : 'e' ∈ written n ↔ pow10 21 ≤ n := by
  constructor
  · intro h
    apply Nat.le_of_not_lt
    intro hlt
    rw [written_of_lt hlt] at h
    have he := Nat.isDigit_of_mem_toDigits (by decide) (by decide) h
    simp at he
  · intro h
    rw [(written_of_le h).2]
    exact List.mem_append_right _ List.mem_cons_self

theorem written_injective {n m : Nat} (h : written n = written m) : n = m := by
  have hsame : pow10 21 ≤ n ↔ pow10 21 ≤ m := by
    rw [← mem_written_iff, ← mem_written_iff, h]
  apply toDigits_injective
  rcases Nat.lt_or_ge n (pow10 21) with hn | hn
  · have hm : m < pow10 21 := by
      apply Nat.lt_of_not_le
      rw [← hsame]
      exact Nat.not_le.mpr hn
    rw [← written_of_lt hn, ← written_of_lt hm, h]
  · obtain ⟨hlengthN, hwrittenN⟩ := written_of_le hn
    obtain ⟨hlengthM, hwrittenM⟩ := written_of_le (hsame.mp hn)
    rw [hwrittenN, hwrittenM] at h
    obtain ⟨hleading, hexponent⟩ := append_cons_inj not_mem_leading not_mem_leading h
    have htrimmed : trimZeros (Nat.toDigits 10 n) = trimZeros (Nat.toDigits 10 m) := by
      rw [← filter_leading fun c hc ↦ isDigit_of_mem_trimZeros hc, hleading,
        filter_leading fun c hc ↦ isDigit_of_mem_trimZeros hc]
    have hlength := toDigits_injective (List.cons.inj hexponent).2
    have hsize : (Nat.toDigits 10 n).length = (Nat.toDigits 10 m).length := by omega
    rw [← trimZeros_append (Nat.toDigits 10 n), htrimmed, hsize, trimZeros_append]

end Binary64

end Lexis
