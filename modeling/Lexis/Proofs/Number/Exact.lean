import Lexis.Token.Coercion

/-!
# Integers that are represented exactly

An integer of at most fifty-three bits is the significand of its own floating point
number, moved to the left until its leading bit is the hidden one.  So rounding changes
nothing, and the integer can be read back from the bits.  An integer with more bits is
rounded to one that has more bits too, so the number shows that it was too large.
-/

namespace Lexis.Binary64

theorem pow2_11 : pow2 11 = 2048 := rfl

theorem pow2_52 : pow2 52 = 4503599627370496 := rfl

theorem pow2_63 : pow2 63 = 9223372036854775808 := rfl

theorem toNat_bits_ofMagnitude {negative : Bool} {magnitude : Nat} (h : magnitude < pow2 63) :
    (ofMagnitude negative magnitude).bits.toNat =
      (if negative then pow2 63 else 0) + magnitude := by
  unfold ofMagnitude
  rw [Nat.toUInt64_eq, UInt64.toNat_ofNat']
  apply Nat.mod_eq_of_lt
  rw [pow2_63] at h ⊢
  split <;> omega

/-- The bits of a normal number, with its hidden bit, fall back into their fields. -/
theorem view_ofMagnitude {negative : Bool} {e s : Nat} (he : e < 2046) (hlow : pow2 52 ≤ s)
    (hhigh : s < 2 * pow2 52) :
    (ofMagnitude negative (e * pow2 52 + s)).view = .finite negative s ((e : Int) - 1074) := by
  have hbits := @toNat_bits_ofMagnitude negative (e * pow2 52 + s) (by
    rw [pow2_52] at hhigh ⊢
    rw [pow2_63]
    omega)
  rw [pow2_52] at hlow hhigh
  simp only [view, hbits, pow2_52, pow2_63, pow2_11]
  generalize hn : (if negative = true then 9223372036854775808 else 0) +
    (e * 4503599627370496 + s) = n
  have hsplit : negative = true ∧ n = 9223372036854775808 + (e * 4503599627370496 + s) ∨
      negative = false ∧ n = e * 4503599627370496 + s := by
    cases negative with
    | true => exact .inl ⟨rfl, hn.symm⟩
    | false => exact .inr ⟨rfl, by rw [← hn]; exact Nat.zero_add _⟩
  have hfield : n / 4503599627370496 % 2048 = e + 1 := by omega
  have hfraction : n % 4503599627370496 = s - 4503599627370496 := by omega
  have hnegative : decide (9223372036854775808 ≤ n) = negative := by
    rcases hsplit with ⟨rfl, hn⟩ | ⟨rfl, hn⟩
    · rw [decide_eq_true_iff]
      omega
    · rw [decide_eq_false_iff_not]
      omega
  rw [hfield, hfraction, hnegative, if_neg (by omega), if_neg (by omega), View.finite.injEq]
  refine ⟨rfl, ?_, ?_⟩
  · exact Nat.add_sub_of_le hlow
  · omega

theorem floorLog2_one {n : Nat} (hn : n ≠ 0) : floorLog2 n 1 = n.log2 := by
  have hle : pow2 n.log2 ≤ n := Nat.log2_self_le hn
  unfold floorLog2
  have hlog : (n.log2 : Int) - Nat.log2 1 = n.log2 := Int.sub_zero _
  dsimp only
  rw [hlog, if_neg]
  have hneg : (-(n.log2 : Int)).toNat = 0 := by omega
  rw [hneg, Int.toNat_natCast]
  show ¬ n * 1 < 1 * pow2 n.log2
  omega

theorem roundHalfEven_one (n : Nat) : roundHalfEven n 1 = n := by
  simp [roundHalfEven, Nat.mod_one]

/-- The number of an integer of at most fifty-three bits. -/
theorem view_ofInt {n : Int} (hn : n ≠ 0) (hsafe : n.natAbs ≤ maxSafe) :
    (ofInt n).view = .finite (n < 0) (n.natAbs * pow2 (52 - n.natAbs.log2))
      ((n.natAbs.log2 : Int) - 52) := by
  generalize hmagnitude : n.natAbs = k at hsafe ⊢
  have hk : k ≠ 0 := by omega
  have hlog : k.log2 < 53 := by
    rw [Nat.log2_lt hk]
    exact Nat.lt_of_le_of_lt hsafe (by decide)
  have hscale : pow2 k.log2 * pow2 (52 - k.log2) = pow2 52 := by
    calc
      2 ^ k.log2 * 2 ^ (52 - k.log2) = 2 ^ (k.log2 + (52 - k.log2)) := (Nat.pow_add ..).symm
      _ = 2 ^ 52 := by rw [Nat.add_sub_of_le (Nat.le_of_lt_succ hlog)]
  have hlow : pow2 52 ≤ k * pow2 (52 - k.log2) := by
    rw [← hscale]
    exact Nat.mul_le_mul_right _ (Nat.log2_self_le hk)
  have hhigh : k * pow2 (52 - k.log2) < 2 * pow2 52 := by
    have hlt : k < 2 * pow2 k.log2 := by
      rw [Nat.mul_comm]
      exact Nat.lt_log2_self
    rw [← hscale, ← Nat.mul_assoc]
    exact Nat.mul_lt_mul_of_pos_right hlt (Nat.two_pow_pos _)
  have hexponent : max (-1074) (floorLog2 k 1 - 52) = (k.log2 : Int) - 52 := by
    rw [floorLog2_one hk]
    omega
  have hnone : ((k.log2 : Int) - 52).toNat = 0 := by omega
  have hshift : (-((k.log2 : Int) - 52)).toNat = 52 - k.log2 := by omega
  have hfield : ((k.log2 : Int) - 52 + 1074).toNat = k.log2 + 1022 := by omega
  have hfinite : ¬ 2047 * pow2 52 ≤ (k.log2 + 1022) * pow2 52 + k * pow2 (52 - k.log2) := by
    rw [pow2_52] at hhigh ⊢
    omega
  have hround : roundHalfEven (k * pow2 (52 - k.log2)) (1 * pow2 0) = k * pow2 (52 - k.log2) :=
    roundHalfEven_one _
  rw [ofInt, ofRatio, hmagnitude, if_neg hk]
  dsimp only
  rw [hexponent, hnone, hshift, hfield, hround, if_neg hfinite,
    view_ofMagnitude (by omega) hlow hhigh, View.finite.injEq]
  refine ⟨rfl, rfl, ?_⟩
  omega

theorem toInt?_ofInt {n : Int} (hsafe : n.natAbs ≤ maxSafe) : (ofInt n).toInt? = some n := by
  by_cases hn : n = 0
  · subst hn
    have hview : (ofInt 0).view = .finite false 0 (-1074) := by decide
    unfold toInt?
    rw [hview]
    simp only [Nat.zero_mod, if_true, Nat.zero_mul, Nat.zero_div]
    rfl
  have hlog : n.natAbs.log2 < 53 := by
    rw [Nat.log2_lt (by omega)]
    exact Nat.lt_of_le_of_lt hsafe (by decide)
  have hnone : ((n.natAbs.log2 : Int) - 52).toNat = 0 := by omega
  have hshift : (-((n.natAbs.log2 : Int) - 52)).toNat = 52 - n.natAbs.log2 := by omega
  have hquotient : n.natAbs * pow2 (52 - n.natAbs.log2) * pow2 0 / pow2 (52 - n.natAbs.log2) =
      n.natAbs := by
    rw [Nat.mul_one]
    exact Nat.mul_div_cancel _ (Nat.two_pow_pos _)
  unfold toInt?
  rw [view_ofInt hn hsafe]
  dsimp only
  rw [hnone, hshift, if_pos (Nat.mul_mod_left _ _), hquotient]
  simp only [signed, decide_eq_true_eq, Option.some.injEq]
  split <;> omega

theorem ofInt_injective {n m : Int} (hn : (ofInt n).toInt? = some n)
    (hm : (ofInt m).toInt? = some m) (h : ofInt n = ofInt m) : n = m := by
  rw [h, hm] at hn
  exact (Option.some.inj hn).symm

/-- A natural number that is not too large is read back from its floating point number. -/
theorem toNat?_ofInt {n : Nat} (hsafe : n ≤ maxSafe) : (ofInt n).toNat? = some n := by
  have hint : (ofInt n).toInt? = some (n : Int) := toInt?_ofInt (by simpa using hsafe)
  unfold toNat?
  rw [hint]

/-! ## Integers that are too large -/

theorem le_roundHalfEven (num den : Nat) :
    num / den ≤ roundHalfEven num den ∧ roundHalfEven num den ≤ num / den + 1 := by
  unfold roundHalfEven
  dsimp only
  split <;> omega

theorem toInt?_of_view {x : Binary64} {negative : Bool} {significand j : Nat}
    (h : x.view = .finite negative significand j) :
    x.toInt? = some (signed negative (significand * pow2 j)) := by
  have hnone : (-(j : Int)).toNat = 0 := by omega
  unfold toInt?
  rw [h]
  dsimp only
  rw [hnone, Int.toNat_natCast, if_pos (Nat.mod_one _)]
  exact congrArg (fun n ↦ some (signed negative n)) (Nat.div_one _)

theorem view_infinity (negative : Bool) : (infinity negative).view = .infinite negative := by
  cases negative <;> decide

theorem natAbs_signed (negative : Bool) (n : Nat) : (signed negative n).natAbs = n := by
  cases negative <;> simp [signed]

/-- The first fifty-three bits of a number that has more. -/
theorem leading_bits {k j : Nat} (hlog : k.log2 = 53 + j) :
    pow2 52 ≤ k / pow2 (j + 1) ∧ k / pow2 (j + 1) < 2 * pow2 52 := by
  have hk : k ≠ 0 := by
    rintro rfl
    rw [Nat.log2_zero] at hlog
    omega
  have hpos : 0 < pow2 (j + 1) := Nat.two_pow_pos _
  have hsplit : pow2 52 * pow2 (j + 1) = pow2 k.log2 := by
    have hsum : 52 + (j + 1) = k.log2 := by omega
    rw [← hsum]
    exact (Nat.pow_add 2 52 (j + 1)).symm
  constructor
  · rw [Nat.le_div_iff_mul_le hpos, hsplit]
    exact Nat.log2_self_le hk
  · rw [Nat.div_lt_iff_lt_mul hpos, Nat.mul_assoc, hsplit, Nat.mul_comm]
    exact Nat.lt_log2_self

/-- The number of an integer of more than fifty-three bits keeps that many of them,
rounded, and the others count as zeros. -/
theorem view_ofInt_of_large {n : Int} (hlarge : maxSafe < n.natAbs) :
    (ofInt n).view = .infinite (n < 0) ∨
      ∃ s j : Nat, pow2 52 ≤ s ∧ (ofInt n).view = .finite (n < 0) s ((j + 1 : Nat) : Int) := by
  generalize hmagnitude : n.natAbs = k at hlarge
  have hk : k ≠ 0 := by omega
  obtain ⟨j, hj⟩ : ∃ j, k.log2 = 53 + j := by
    apply Nat.exists_eq_add_of_le
    exact (Nat.le_log2 hk).mpr hlarge
  have hexponent : max (-1074) (floorLog2 k 1 - 52) = ((j + 1 : Nat) : Int) := by
    rw [floorLog2_one hk]
    omega
  have hnone : (-((j + 1 : Nat) : Int)).toNat = 0 := by omega
  have hfield : (((j + 1 : Nat) : Int) + 1074).toNat = j + 1075 := by omega
  obtain ⟨hlow, hhigh⟩ := leading_bits hj
  have hround := le_roundHalfEven k (pow2 (j + 1))
  rw [ofInt, ofRatio, hmagnitude, if_neg hk]
  dsimp only
  rw [hexponent, hnone, Int.toNat_natCast, hfield, Nat.mul_one, Nat.one_mul]
  generalize roundHalfEven k (pow2 (j + 1)) = s at hround
  split
  · exact .inl (view_infinity _)
  · next hfinite =>
    right
    rw [pow2_52] at hlow hhigh hfinite
    by_cases hs : s < 2 * pow2 52
    · have hplace : ((j + 1075 : Nat) : Int) - 1074 = ((j + 1 : Nat) : Int) := by omega
      have hleast : pow2 52 ≤ s := by
        rw [pow2_52]
        omega
      refine ⟨s, j, hleast, ?_⟩
      rw [view_ofMagnitude (by omega) hleast hs, hplace]
    · -- All bits were ones, and rounding has made a power of two of them.
      rw [pow2_52] at hs
      have hplace : ((j + 1076 : Nat) : Int) - 1074 = ((j + 1 + 1 : Nat) : Int) := by omega
      have hfield : j + 1076 < 2046 := by omega
      have hcarry : (j + 1075) * pow2 52 + s = (j + 1076) * pow2 52 + pow2 52 := by
        rw [pow2_52]
        omega
      refine ⟨pow2 52, j + 1, Nat.le_refl _, ?_⟩
      rw [hcarry, view_ofMagnitude hfield (Nat.le_refl _) (by decide), hplace]

/-- Rounding does not bring an integer back that is too large. -/
theorem maxSafe_lt_of_toInt? {n m : Int} (hlarge : maxSafe < n.natAbs)
    (h : (ofInt n).toInt? = some m) : maxSafe < m.natAbs := by
  rcases view_ofInt_of_large hlarge with hview | ⟨s, j, hs, hview⟩
  · unfold toInt? at h
    simp [hview] at h
  · rw [toInt?_of_view hview] at h
    rw [← Option.some.inj h, natAbs_signed]
    calc
      maxSafe < pow2 52 * pow2 1 := by decide
      _ ≤ s * pow2 (j + 1) :=
        Nat.mul_le_mul hs (Nat.pow_le_pow_right (by decide) (Nat.le_add_left 1 j))

/-- The number nearest to an integer is as good as the integer exactly if the integer is
not too large. -/
theorem safeInteger?_ofInt (n : Int) :
    (ofInt n).safeInteger? = if n.natAbs ≤ maxSafe then some n else none := by
  unfold safeInteger?
  split
  · next hsafe => simp [toInt?_ofInt hsafe, hsafe]
  · next hlarge =>
    rw [Option.filter_eq_none_iff]
    intro m hm
    have hlt := maxSafe_lt_of_toInt? (by omega) hm
    simpa using hlt

/-! ## Numbers that count -/

/-- The number is `n`.  The zero with a sign is zero as well. -/
def Is (x : Binary64) (n : Nat) : Prop :=
  ∃ (negative : Bool) (significand : Nat) (exponent : Int),
    x.view = .finite negative significand exponent ∧
      significand * pow2 exponent.toNat = n * pow2 (-exponent).toNat ∧ (negative = true → n = 0)

variable {x : Binary64} {n : Nat}

theorem toInt?_eq_some_iff {negative : Bool} {significand : Nat} {exponent : Int}
    (hview : x.view = .finite negative significand exponent) (k : Int) :
    x.toInt? = some k ↔ ∃ n : Nat,
      significand * pow2 exponent.toNat = n * pow2 (-exponent).toNat ∧ k = signed negative n := by
  have hpos : 0 < pow2 (-exponent).toNat := Nat.two_pow_pos _
  unfold toInt?
  rw [hview]
  dsimp only
  constructor
  · intro h
    split at h
    · next hwhole =>
      have hdvd : pow2 (-exponent).toNat ∣ significand * pow2 exponent.toNat :=
        Nat.dvd_mul_right_of_dvd (Nat.dvd_of_mod_eq_zero hwhole) _
      exact ⟨_, (Nat.div_mul_cancel hdvd).symm, (Option.some.inj h).symm⟩
    · simp at h
  · rintro ⟨n, hn, rfl⟩
    have hwhole : significand % pow2 (-exponent).toNat = 0 := by
      -- one of the two powers is 1
      rcases Int.le_total exponent 0 with hle | hle
      · have hone : exponent.toNat = 0 := Int.toNat_of_nonpos hle
        rw [hone, Nat.mul_one] at hn
        rw [hn]
        exact Nat.mul_mod_left _ _
      · have hone : (-exponent).toNat = 0 := by omega
        rw [hone]
        exact Nat.mod_one _
    rw [if_pos hwhole, hn, Nat.mul_div_cancel _ hpos]

theorem toNat?_eq_some_iff : x.toNat? = some n ↔ x.Is n := by
  have hnat : x.toNat? = some n ↔ x.toInt? = some (n : Int) := by
    unfold toNat?
    split
    · next k hk =>
      rw [hk, Option.some.injEq, Option.some.injEq]
      exact Int.ofNat_inj.symm
    · next hk =>
      simp only [reduceCtorEq, false_iff]
      intro h
      exact hk n h
  rw [hnat]
  constructor
  · intro h
    cases hview : x.view with
    | nan => simp [toInt?, hview] at h
    | infinite negative => simp [toInt?, hview] at h
    | finite negative significand exponent =>
        obtain ⟨m, hm, hsigned⟩ := (toInt?_eq_some_iff hview _).mp h
        refine ⟨negative, significand, exponent, hview, ?_⟩
        cases negative with
        | true =>
            have hzero : n = 0 ∧ m = 0 := by
              simp only [signed, if_true] at hsigned
              omega
            rw [hzero.1, hm, hzero.2]
            exact ⟨rfl, fun _ ↦ rfl⟩
        | false =>
            obtain rfl : n = m := by
              simp only [signed, Bool.false_eq_true, if_false] at hsigned
              omega
            exact ⟨hm, by simp⟩
  · rintro ⟨negative, significand, exponent, hview, hn, hnegative⟩
    refine (toInt?_eq_some_iff hview _).mpr ⟨n, hn, ?_⟩
    cases negative with
    | true => rw [hnegative rfl]; rfl
    | false => rfl

theorem is_ofInt (h : n ≤ maxSafe) : (ofInt n).Is n := toNat?_eq_some_iff.mp (toNat?_ofInt h)

theorem isSome_safeInteger?_ofInt {n : Nat} :
    (ofInt n).safeInteger?.isSome = true ↔ n ≤ maxSafe := by
  rw [safeInteger?_ofInt, Int.natAbs_natCast]
  split <;> simp_all

end Lexis.Binary64

namespace Lexis.Token

/-- A token gives its integer exactly, or none at all. -/
theorem integer_of_exactInteger {t : Token} {n : Int} (h : t.exactInteger = .ok n) :
    t.integer =
      if n.natAbs ≤ Binary64.maxSafe then .ok n else .error (.unsafeInteger t.value) := by
  have hsafe := Binary64.safeInteger?_ofInt n
  unfold Token.integer
  rw [h]
  by_cases hle : n.natAbs ≤ Binary64.maxSafe
  · rw [if_pos hle] at hsafe ⊢
    simp only [bind, Except.bind, hsafe]
    rfl
  · rw [if_neg hle] at hsafe ⊢
    simp only [bind, Except.bind, hsafe]
    rfl

end Lexis.Token
