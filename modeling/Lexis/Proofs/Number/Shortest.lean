import Lexis.Proofs.Number.Exact
import Lexis.Proofs.Number.Layout

/-!
# Integers as texts

An integer is written as the shortest decimal that reads back as the number nearest to it.
That decimal is a natural number itself, and it lies on the same side of `10 ^ 21` as the
number.  Main statements: the text of an integer shows which number is nearest to it, and
it consists of digits just below `10 ^ 21`.
-/

namespace Lexis.Binary64

/-! ## Bits -/

/-- The bits of the number nearest to `num / den`, without the sign. -/
def nearest (num den : Nat) : Nat :=
  if num = 0 then 0
  else
    let exponent : Int := max (-1074) (floorLog2 num den - 52)
    let significand := roundHalfEven (num * pow2 (-exponent).toNat) (den * pow2 exponent.toNat)
    min (2047 * pow2 52) ((exponent + 1074).toNat * pow2 52 + significand)

theorem ofRatio_eq (negative : Bool) (num den : Nat) :
    ofRatio negative num den = ofMagnitude negative (nearest num den) := by
  unfold ofRatio nearest
  split
  · rfl
  · dsimp only
    split
    · next hlarge =>
      rw [Nat.min_eq_left hlarge]
      rfl
    · next hsmall => rw [Nat.min_eq_right (Nat.le_of_not_le hsmall)]

theorem nearest_lt (num den : Nat) : nearest num den < pow2 63 := by
  have hle : nearest num den ≤ 2047 * pow2 52 := by
    unfold nearest
    split
    · exact Nat.zero_le _
    · exact Nat.min_le_left _ _
  exact Nat.lt_of_le_of_lt hle (by decide)

theorem ofMagnitude_inj {m m' : Nat} (hm : m < pow2 63) (hm' : m' < pow2 63)
    (h : ofMagnitude false m = ofMagnitude false m') : m = m' := by
  have hbits := congrArg (fun x ↦ x.bits.toNat) h
  simpa [toNat_bits_ofMagnitude hm, toNat_bits_ofMagnitude hm'] using hbits

theorem mod_bits_ofMagnitude {negative : Bool} {m : Nat} (h : m < pow2 63) :
    (ofMagnitude negative m).bits.toNat % pow2 63 = m := by
  rw [toNat_bits_ofMagnitude h]
  rw [pow2_63] at h ⊢
  cases negative with
  | true => simp only [if_true]; omega
  | false => simp only [Bool.false_eq_true, if_false]; omega

theorem ofInt_eq (n : Int) : ofInt n = ofMagnitude (n < 0) (nearest n.natAbs 1) :=
  ofRatio_eq _ _ _

theorem ofInt_natCast (n : Nat) : ofInt n = ofMagnitude false (nearest n 1) := by
  rw [ofInt_eq]
  have hsign : decide ((n : Int) < 0) = false := by
    rw [decide_eq_false_iff_not]
    omega
  rw [hsign, Int.natAbs_natCast]

/-- A number without its sign is the number nearest to the absolute value. -/
theorem ofInt_natAbs (n : Int) :
    ofMagnitude false ((ofInt n).bits.toNat % pow2 63) = ofInt n.natAbs := by
  rw [ofInt_eq, mod_bits_ofMagnitude (nearest_lt _ _), ofInt_natCast]

theorem nearest_eq_of_ofInt_eq {n m : Nat} (h : ofInt n = ofInt m) : nearest n 1 = nearest m 1 := by
  rw [ofInt_natCast, ofInt_natCast] at h
  exact ofMagnitude_inj (nearest_lt _ _) (nearest_lt _ _) h

/-- The bits of a number from its significand, if that has the hidden bit. -/
theorem eq_ofMagnitude_of_view {x : Binary64} {negative : Bool} {s e : Nat} (hs : pow2 52 ≤ s)
    (h : x.view = .finite negative s e) :
    x = ofMagnitude negative ((e + 1074) * pow2 52 + s) ∧ s < 2 * pow2 52 ∧ e ≤ 971 := by
  have hbound : x.bits.toNat < 18446744073709551616 := x.bits.toNat_lt
  unfold view at h
  simp only [pow2_52, pow2_63, pow2_11] at h hs ⊢
  generalize hn : x.bits.toNat = n at h hbound
  have hfraction : n % 4503599627370496 < 4503599627370496 := Nat.mod_lt _ (by decide)
  split at h
  · split at h <;> simp at h
  · split at h
    · rw [View.finite.injEq] at h
      omega
    · rw [View.finite.injEq] at h
      obtain ⟨hnegative, hsignificand, hexponent⟩ := h
      have hfields : (if negative then 9223372036854775808 else 0) +
          ((e + 1074) * 4503599627370496 + s) = n := by
        cases negative with
        | true =>
            rw [decide_eq_true_iff] at hnegative
            simp only [if_true]
            omega
        | false =>
            rw [decide_eq_false_iff_not] at hnegative
            simp only [Bool.false_eq_true, if_false]
            omega
      refine ⟨?_, by omega, by omega⟩
      unfold ofMagnitude
      rw [pow2_63, hfields, ← hn]
      simp

/-! ## Numbers with their exact integer -/

theorem roundHalfEven_mul {s d : Nat} (hd : 0 < d) : roundHalfEven (s * d) d = s := by
  have hmod : s * d % d = 0 := Nat.mul_mod_left s d
  have hdiv : s * d / d = s := Nat.mul_div_cancel s hd
  unfold roundHalfEven
  dsimp only
  rw [hmod, hdiv, if_neg]
  simp
  omega

theorem log2_mul_pow2 {s k : Nat} (hlow : pow2 52 ≤ s) (hhigh : s < 2 * pow2 52) :
    (s * pow2 k).log2 = 52 + k := by
  have hs : s ≠ 0 := by
    rintro rfl
    exact absurd hlow (by decide)
  have hne : s * pow2 k ≠ 0 := Nat.mul_ne_zero hs (Nat.ne_of_gt (Nat.two_pow_pos k))
  rw [Nat.log2_eq_iff hne]
  constructor
  · rw [Nat.pow_add]
    exact Nat.mul_le_mul_right _ hlow
  · have hsplit : 2 ^ (52 + k + 1) = 2 * pow2 52 * pow2 k := by
      rw [Nat.pow_succ, Nat.pow_add, Nat.mul_comm _ 2, Nat.mul_assoc]
      rfl
    rw [hsplit]
    exact Nat.mul_lt_mul_of_pos_right hhigh (Nat.two_pow_pos k)

/-- A number that is an integer is the nearest one to it. -/
theorem ofInt_of_view {x : Binary64} {s e : Nat} (hs : pow2 52 ≤ s)
    (h : x.view = .finite false s e) : ofInt ((s * pow2 e : Nat) : Int) = x := by
  obtain ⟨hx, hhigh, he⟩ := eq_ofMagnitude_of_view hs h
  have hpos : 0 < pow2 e := Nat.two_pow_pos e
  have hne : s * pow2 e ≠ 0 := by
    refine Nat.mul_ne_zero ?_ (Nat.ne_of_gt hpos)
    rintro rfl
    exact absurd hs (by decide)
  have hexponent : max (-1074) (floorLog2 (s * pow2 e) 1 - 52) = (e : Int) := by
    rw [floorLog2_one hne, log2_mul_pow2 hs hhigh]
    omega
  have hnone : (-(e : Int)).toNat = 0 := by omega
  have hfield : ((e : Int) + 1074).toNat = e + 1074 := by omega
  have hround : roundHalfEven (s * pow2 e * pow2 0) (1 * pow2 e) = s := by
    show roundHalfEven (s * pow2 e * 1) (1 * pow2 e) = s
    rw [Nat.mul_one, Nat.one_mul, roundHalfEven_mul hpos]
  have hle : (e + 1074) * pow2 52 + s ≤ 2047 * pow2 52 := by
    rw [pow2_52] at hhigh ⊢
    omega
  rw [ofInt_natCast, nearest, if_neg hne]
  dsimp only
  rw [hexponent, hnone, Int.toNat_natCast, hfield, hround, Nat.min_eq_right hle, ← hx]

/-! ## The shortest decimal -/

theorem pow10_le_iff {n e : Nat} (hn : 0 < n) :
    pow10 e ≤ n ↔ e < (Nat.toDigits 10 n).length := by
  by_cases he : 0 < e
  · rw [← Nat.not_le, Nat.length_toDigits_le_iff (by decide) he, Nat.not_lt]
    exact Iff.rfl
  · obtain rfl : e = 0 := by omega
    exact ⟨fun _ ↦ Nat.length_toDigits_pos, fun _ ↦ hn⟩

/-- A decimal without a fraction that does not read as zero or infinity. -/
theorem ofInt_of_ofDecimal {x : Binary64} {negative : Bool} {s e d : Nat} {exponent : Int}
    (hs : s ≠ 0) (hx : x.view = .finite negative s exponent) (h : ofDecimal false d e = x) :
    0 < d ∧ ofInt ((d * pow10 e : Nat) : Int) = x := by
  have hzero : (zero false).view = .finite false 0 (-1074) := by decide
  have hnone : (-(e : Int)).toNat = 0 := by omega
  unfold ofDecimal at h
  dsimp only at h
  split at h
  · rw [← h, hzero, View.finite.injEq] at hx
    exact absurd hx.2.1.symm hs
  · next hbounds =>
    have hd : d ≠ 0 := by
      rintro rfl
      simp at hbounds
    split at h
    · rw [← h, view_infinity] at hx
      simp at hx
    · rw [hnone, Int.toNat_natCast, ofRatio_eq] at h
      rw [ofInt_natCast]
      exact ⟨Nat.pos_of_ne_zero hd, h⟩

theorem ofDecimal_zero {n k : Nat} (hpos : 0 < n) (hzero : 0 < k) (hk : k ≤ 400)
    (h : n < pow10 k) : ofDecimal false n 0 = ofInt n := by
  have hlength : (Nat.toDigits 10 n).length ≤ k :=
    (Nat.length_toDigits_le_iff (by decide) hzero).mpr h
  have hsmall : ¬ (n = 0 || ((Nat.toDigits 10 n).length : Int) + 0 < -400) = true := by
    simp
    omega
  unfold ofDecimal
  dsimp only
  rw [if_neg hsmall, if_neg (by omega), ofInt_natCast, ofRatio_eq]
  show ofMagnitude false (nearest (n * 1) 1) = _
  rw [Nat.mul_one]

variable {x : Binary64} {n e : Nat}

/-- The neighbours of a natural number on a grid of natural numbers. -/
theorem neighbour?_eq_some {point : GridPoint} (h : neighbour? x n 1 e = some point) :
    point.exponent = e ∧ (point.digits = n / pow10 e ∨ point.digits = n / pow10 e + 1) ∧
      ofDecimal false point.digits e = x := by
  have hnone : (-(e : Int)).toNat = 0 := by omega
  have hlow : n * pow10 0 / (1 * pow10 e) = n / pow10 e := by
    rw [Nat.one_mul]
    exact congrArg (· / pow10 e) (Nat.mul_one n)
  have hround := le_roundHalfEven (n * pow10 0) (1 * pow10 e)
  unfold neighbour? at h
  simp only [hnone, Int.toNat_natCast] at h
  rw [hlow] at h hround
  split at h
  · next hboth =>
    rw [Bool.and_eq_true, beq_iff_eq, beq_iff_eq] at hboth
    obtain rfl := Option.some.inj h
    have heither : roundHalfEven (n * pow10 0) (1 * pow10 e) = n / pow10 e ∨
        roundHalfEven (n * pow10 0) (1 * pow10 e) = n / pow10 e + 1 := by omega
    refine ⟨rfl, heither, ?_⟩
    rcases heither with hsame | hsame
    · rw [hsame]
      exact hboth.1
    · rw [hsame]
      exact hboth.2
  · split at h
    · next hlower =>
      obtain rfl := Option.some.inj h
      exact ⟨rfl, .inl rfl, beq_iff_eq.mp hlower⟩
    · split at h
      · next hupper =>
        obtain rfl := Option.some.inj h
        exact ⟨rfl, .inr rfl, beq_iff_eq.mp hupper⟩
      · simp at h

theorem neighbour?_zero (h : ofDecimal false n 0 = x) : neighbour? x n 1 0 ≠ none := by
  have hlow : n * pow10 (-0 : Int).toNat / (1 * pow10 (0 : Int).toNat) = n := by
    show n * 1 / (1 * 1) = n
    simp
  intro hnone
  unfold neighbour? at hnone
  simp only [hlow, h, beq_self_eq_true, if_true] at hnone
  split at hnone <;> simp at hnone

/-- The shortest decimal of a natural number that is represented exactly is one of its
neighbours on a grid of natural numbers. -/
theorem shortest_eq (hn : 0 < n) (h : ofDecimal false n 0 = x) :
    ∃ d e : Nat, shortest x n 1 = ⟨d, e⟩ ∧ pow10 e ≤ n ∧
      (d = n / pow10 e ∨ d = n / pow10 e + 1) ∧ ofDecimal false d e = x := by
  have hplace : decimalPlace n 1 = (Nat.toDigits 10 n).length := by
    unfold decimalPlace
    dsimp only
    rw [if_pos (show 1 ≤ n from hn), Nat.div_one]
  unfold shortest
  dsimp only
  rw [hplace]
  generalize hgrids : (List.range 17).map
    (fun k : Nat ↦ ((Nat.toDigits 10 n).length : Int) - ((k : Int) + 1)) = grids
  have hmem {exponent : Int} : exponent ∈ grids ↔
      ∃ k < 17, ((Nat.toDigits 10 n).length : Int) - ((k : Nat) + 1) = exponent := by
    rw [← hgrids, List.mem_map]
    simp only [List.mem_range]
  have hsorted : grids.Pairwise (· > ·) := by
    rw [← hgrids, List.pairwise_map]
    apply List.pairwise_lt_range.imp
    intro a b hab
    omega
  cases hfound : grids.findSome? (neighbour? x n 1) with
  | none => exact ⟨n, 0, rfl, hn, .inl (Nat.div_one n).symm, h⟩
  | some point =>
      obtain ⟨coarser, exponent, finer, hsplit, hpoint, hearlier⟩ :=
        List.findSome?_eq_some_iff.mp hfound
      obtain ⟨k, hk, hexponent⟩ := hmem.mp (by rw [hsplit]; simp : exponent ∈ grids)
      have hpos := @Nat.length_toDigits_pos 10 n
      -- The grid of step one comes before all that have a finer step, and it suffices.
      have hnonneg : 0 ≤ exponent := by
        apply Int.le_of_not_gt
        intro hnegative
        have hone : (0 : Int) ∈ grids := by
          refine hmem.mpr ⟨(Nat.toDigits 10 n).length - 1, by omega, by omega⟩
        rw [hsplit] at hone hsorted
        obtain ⟨-, hfiner, -⟩ := List.pairwise_append.mp hsorted
        rcases List.mem_append.mp hone with hbefore | hbehind
        · exact neighbour?_zero h (hearlier 0 hbefore)
        · rcases List.mem_cons.mp hbehind with rfl | hbehind
          · omega
          · have hless := List.rel_of_pairwise_cons hfiner hbehind
            omega
      obtain ⟨e, rfl⟩ := Int.eq_ofNat_of_zero_le hnonneg
      obtain ⟨hsame, hdigits, hreads⟩ := neighbour?_eq_some hpoint
      refine ⟨point.digits, e, ?_, ?_, hdigits, hreads⟩
      · rw [Option.getD_some, ← hsame]
      · rw [pow10_le_iff hn]
        omega

/-- A power of ten that separates a natural number from a neighbour is the neighbour. -/
theorem neighbour_lt_iff {d k : Nat} (hle : pow10 e ≤ n)
    (hd : d = n / pow10 e ∨ d = n / pow10 e + 1) (hk : d * pow10 e = pow10 k → n = pow10 k) :
    d * pow10 e < pow10 k ↔ n < pow10 k := by
  have hpos : 0 < pow10 e := Nat.pow_pos (by decide)
  have hone : 1 ≤ n / pow10 e := (Nat.le_div_iff_mul_le hpos).mpr (by rw [Nat.one_mul]; exact hle)
  rcases Nat.lt_or_ge k e with hke | hek
  · have hless : pow10 k < pow10 e := Nat.pow_lt_pow_right (by decide) hke
    have hgrid : 1 * pow10 e ≤ d * pow10 e := Nat.mul_le_mul_right _ (by omega)
    omega
  · have hsplit : pow10 k = pow10 (k - e) * pow10 e := by
      calc
        10 ^ k = 10 ^ (k - e + e) := by rw [Nat.sub_add_cancel hek]
        _ = 10 ^ (k - e) * 10 ^ e := Nat.pow_add ..
    constructor
    · intro hlt
      rw [hsplit, Nat.mul_lt_mul_right hpos] at hlt
      rw [hsplit, ← Nat.div_lt_iff_lt_mul hpos]
      omega
    · intro hlt
      have hquotient : n / pow10 e < pow10 (k - e) := by
        rw [Nat.div_lt_iff_lt_mul hpos, ← hsplit]
        exact hlt
      have hgrid : d * pow10 e ≤ pow10 k := by
        rw [hsplit]
        exact Nat.mul_le_mul_right _ (by omega)
      apply Nat.lt_of_le_of_ne hgrid
      intro hsame
      exact absurd (hk hsame) (Nat.ne_of_lt hlt)

/-! ## Texts -/

/-- The number nearest to an integer has no more than twenty-one digits. -/
def IsPlain (n : Int) : Prop := ∃ m : Int, (ofInt n).toInt? = some m ∧ m.natAbs < pow10 21

def sign (n : Int) : Text := if n < 0 then [unit '-'] else []

/-- How an integer is written: as a natural number to which the same number is nearest, or
as infinity. -/
inductive Shown (n : Int) : Prop
  | finite (shown : Nat) (hnear : ofInt shown = ofInt n.natAbs)
      (htext : integerText n = sign n ++ (written shown).map unit)
      (hplain : shown < pow10 21 ↔ IsPlain n)
  | infinite (hnear : ofInt n.natAbs = infinity false)
      (htext : integerText n = sign n ++ Text.ofString "Infinity") (hplain : ¬ IsPlain n)

theorem shown_of_safe {n : Int} (h : n.natAbs ≤ maxSafe) : Shown n := by
  have hlt : n.natAbs < pow10 21 := Nat.lt_of_le_of_lt h (by decide)
  refine .finite n.natAbs rfl ?_ ⟨fun _ ↦ ⟨n, toInt?_ofInt h, hlt⟩, fun _ ↦ hlt⟩
  rw [written_of_lt hlt, integerText, if_pos h]
  cases n with
  | ofNat k => rfl
  | negSucc k =>
      rw [sign, if_pos (Int.negSucc_lt_zero k)]
      rfl

theorem lt_pow10 {s e k : Nat} (hs : s < 2 * pow2 52) (hk : 53 + e ≤ 3 * k) :
    s * pow2 e < pow10 k := by
  calc
    s * pow2 e < 2 * pow2 52 * pow2 e := Nat.mul_lt_mul_of_pos_right hs (Nat.two_pow_pos e)
    _ = pow2 (53 + e) := (Nat.pow_add 2 53 e).symm
    _ ≤ pow2 (3 * k) := Nat.pow_le_pow_right (by decide) hk
    _ = Nat.pow (pow2 3) k := Nat.pow_mul 2 3 k
    _ ≤ pow10 k := Nat.pow_le_pow_left (by decide) k

/-- The number `10 ^ 21` is represented exactly. -/
theorem eq_pow10_21_of_view {s e : Nat}
    (h : (ofInt ((pow10 21 : Nat) : Int)).view = .finite false s e) : s * pow2 e = pow10 21 := by
  have hview : (ofInt ((pow10 21 : Nat) : Int)).view = .finite false 7629394531250000 17 := by
    decide +kernel
  rw [hview, View.finite.injEq] at h
  obtain ⟨-, rfl, hexponent⟩ := h
  obtain rfl : e = 17 := by omega
  decide

theorem eq_infinity_of_view {negative negative' : Bool} {m : Nat} (hm : m < pow2 63)
    (h : (ofMagnitude negative m).view = .infinite negative') :
    ofMagnitude false m = infinity false := by
  have hbits := @toNat_bits_ofMagnitude negative m hm
  have hmagnitude : m = 2047 * pow2 52 := by
    unfold view at h
    simp only [pow2_52, pow2_63, pow2_11] at h hbits hm ⊢
    generalize (ofMagnitude negative m).bits.toNat = n at h hbits
    have hsplit : n = 9223372036854775808 + m ∨ n = m := by
      cases negative with
      | true => exact .inl hbits
      | false => exact .inr (hbits.trans (Nat.zero_add m))
    split at h
    · next hfield =>
      split at h
      · omega
      · simp at h
    · split at h <;> simp at h
  rw [hmagnitude]
  rfl

theorem shown_of_large {n : Int} (h : maxSafe < n.natAbs) : Shown n := by
  have htext : integerText n = (ofInt n).text := if_neg (Nat.not_le.mpr h)
  rcases view_ofInt_of_large h with hview | ⟨s, j, hs, hview⟩
  · refine .infinite ?_ ?_ ?_
    · rw [ofInt_natCast]
      rw [ofInt_eq] at hview
      exact eq_infinity_of_view (nearest_lt _ _) hview
    · rw [htext, text, hview]
      by_cases hn : n < 0
      · simp [sign, hn]
        rfl
      · simp [sign, hn]
    · rintro ⟨m, hm, -⟩
      simp [toInt?, hview] at hm
  · obtain ⟨hbits, hhigh, he⟩ := eq_ofMagnitude_of_view hs hview
    have hfield : j + 1 + 1074 < 2046 := by omega
    have hpos : 0 < s * pow2 (j + 1) := by
      apply Nat.mul_pos (Nat.lt_of_lt_of_le (by decide) hs) (Nat.two_pow_pos _)
    -- The number without its sign.
    have hviewAbs : (ofInt n.natAbs).view = .finite false s ((j + 1 : Nat) : Int) := by
      have hlt : (j + 1 + 1074) * pow2 52 + s < pow2 63 := by
        rw [pow2_52] at hhigh ⊢
        rw [pow2_63]
        omega
      have hexponent : ((j + 1 + 1074 : Nat) : Int) - 1074 = ((j + 1 : Nat) : Int) := by omega
      rw [← ofInt_natAbs, hbits, mod_bits_ofMagnitude hlt, view_ofMagnitude hfield hs hhigh,
        hexponent]
    have hexact : ofInt ((s * pow2 (j + 1) : Nat) : Int) = ofInt n.natAbs :=
      ofInt_of_view hs hviewAbs
    have hreads : ofDecimal false (s * pow2 (j + 1)) 0 = ofInt n.natAbs := by
      rw [ofDecimal_zero hpos (by decide) (by decide) (lt_pow10 (k := 342) hhigh (by omega)),
        hexact]
    obtain ⟨d, e, hshortest, hle, hneighbour, hdecimal⟩ := shortest_eq hpos hreads
    have hne : s ≠ 0 := Nat.ne_of_gt (Nat.lt_of_lt_of_le (by decide) hs)
    obtain ⟨hd, hnear⟩ := ofInt_of_ofDecimal hne hviewAbs hdecimal
    refine .finite (d * pow10 e) hnear ?_ ?_
    · have hnone : (-((j + 1 : Nat) : Int)).toNat = 0 := by omega
      rw [htext, text, hview]
      dsimp only
      rw [if_neg hne, hnone, Int.toNat_natCast, ofInt_natAbs]
      show (if decide (n < 0) = true then [unit '-'] else []) ++ _ = _
      rw [hshortest, place_eq_written hd]
      unfold sign
      simp only [decide_eq_true_eq]
    · rw [neighbour_lt_iff hle hneighbour]
      · unfold IsPlain
        rw [toInt?_of_view hview]
        simp [natAbs_signed]
      · intro hsame
        rw [hsame] at hnear
        rw [← hnear] at hviewAbs
        exact eq_pow10_21_of_view hviewAbs

theorem shown (n : Int) : Shown n := by
  by_cases h : n.natAbs ≤ maxSafe
  · exact shown_of_safe h
  · exact shown_of_large (Nat.lt_of_not_le h)

/-! ## What a text shows -/

theorem toNat_le_of_isDigit {c : Char} (h : c.isDigit = true) : 48 ≤ c.toNat ∧ c.toNat ≤ 57 := by
  simp only [Char.isDigit, Bool.and_eq_true, decide_eq_true_eq, ge_iff_le,
    UInt32.le_iff_toNat_le] at h
  exact h

theorem toNat_unit {c : Char} (h : c.toNat < 65536) : (unit c).toNat = c.toNat := by
  rw [unit, Nat.toUInt16_eq, UInt16.toNat_ofNat']
  exact Nat.mod_eq_of_lt h

theorem isDigit_unit {c : Char} (h : c.isDigit = true) : Text.isDigit (unit c) = true := by
  obtain ⟨hlow, hhigh⟩ := toNat_le_of_isDigit h
  have hunits : (unit '0').toNat = 48 ∧ (unit '9').toNat = 57 := by decide
  have hcode : (unit c).toNat = c.toNat := toNat_unit (by omega)
  simp only [Text.isDigit, Bool.and_eq_true, decide_eq_true_eq, UInt16.le_iff_toNat_le]
  rw [hunits.1, hunits.2, hcode]
  exact ⟨hlow, hhigh⟩

theorem toNat_lt_of_mem_written {n : Nat} {c : Char} (h : c ∈ written n) : c.toNat < 65536 := by
  rcases mem_written h with hdigit | rfl | rfl | rfl
  · have hle := toNat_le_of_isDigit hdigit
    omega
  all_goals decide

theorem map_unit_injective {a b : List Char} (ha : ∀ c ∈ a, c.toNat < 65536)
    (hb : ∀ c ∈ b, c.toNat < 65536) (h : a.map unit = b.map unit) : a = b := by
  induction a generalizing b with
  | nil => exact (List.map_eq_nil_iff.mp h.symm).symm
  | cons c a ih =>
      cases b with
      | nil => simp at h
      | cons d b =>
          rw [List.map_cons, List.map_cons, List.cons.injEq] at h
          have hcode : c.toNat = d.toNat := by
            rw [← toNat_unit (ha c List.mem_cons_self), h.1, toNat_unit (hb d List.mem_cons_self)]
          rw [Char.toNat_inj.mp hcode, ih (fun c hc ↦ ha c (List.mem_cons_of_mem _ hc))
            (fun c hc ↦ hb c (List.mem_cons_of_mem _ hc)) h.2]

/-- The units that a number is written with, other than digits and a minus sign. -/
def marks : Text := ".e+Infity"

theorem mem_map_written {n : Nat} {u : UInt16} (h : u ∈ (written n).map unit) :
    Text.isDigit u = true ∨ u ∈ marks := by
  obtain ⟨c, hc, rfl⟩ := List.mem_map.mp h
  rcases mem_written hc with hdigit | rfl | rfl | rfl
  · exact .inl (isDigit_unit hdigit)
  all_goals exact .inr (by decide)

theorem mem_infinity {u : UInt16} (h : u ∈ Text.ofString "Infinity") : u ∈ marks := by
  have hall : (Text.ofString "Infinity").all marks.contains = true := by decide
  simpa using List.all_eq_true.mp hall u h

theorem sign_append_inj {n m : Int} {a b : Text} (ha : unit '-' ∉ a) (hb : unit '-' ∉ b)
    (h : sign n ++ a = sign m ++ b) : decide (n < 0) = decide (m < 0) ∧ a = b := by
  unfold sign at h
  by_cases hn : n < 0
  · by_cases hm : m < 0
    · rw [if_pos hn, if_pos hm] at h
      exact ⟨by simp [hn, hm], List.append_cancel_left h⟩
    · rw [if_pos hn, if_neg hm, List.nil_append] at h
      rw [← h] at hb
      exact absurd List.mem_cons_self hb
  · by_cases hm : m < 0
    · rw [if_neg hn, if_pos hm, List.nil_append] at h
      rw [h] at ha
      exact absurd List.mem_cons_self ha
    · rw [if_neg hn, if_neg hm] at h
      exact ⟨by simp [hn, hm], h⟩

/-- An integer as its sign and what shows the number without it. -/
theorem exists_body (n : Int) :
    ∃ body : Text, integerText n = sign n ++ body ∧
      ∀ u ∈ body, Text.isDigit u = true ∨ u ∈ marks := by
  cases shown n with
  | finite k _ htext _ => exact ⟨_, htext, fun u hu ↦ mem_map_written hu⟩
  | infinite _ htext _ => exact ⟨_, htext, fun u hu ↦ .inr (mem_infinity hu)⟩

theorem mem_integerText {n : Int} {u : UInt16} (h : u ∈ integerText n) :
    Text.isDigit u = true ∨ u ∈ unit '-' :: marks := by
  obtain ⟨body, htext, hbody⟩ := exists_body n
  rw [htext] at h
  rcases List.mem_append.mp h with hsign | hrest
  · unfold sign at hsign
    split at hsign
    · exact .inr (List.mem_cons.mpr (.inl (List.mem_singleton.mp hsign)))
    · exact absurd hsign List.not_mem_nil
  · exact (hbody u hrest).imp_right (List.mem_cons_of_mem _)

theorem ofInt_eq_of_natAbs {n m : Int} (hsign : decide (n < 0) = decide (m < 0))
    (h : ofInt n.natAbs = ofInt m.natAbs) : ofInt n = ofInt m := by
  rw [ofInt_eq, ofInt_eq, hsign, nearest_eq_of_ofInt_eq h]

theorem map_written_ne_infinity (n : Nat) : (written n).map unit ≠ Text.ofString "Infinity" := by
  intro h
  have hmem : unit 'I' ∈ (written n).map unit := by
    rw [h]
    decide
  obtain ⟨c, hc, hunit⟩ := List.mem_map.mp hmem
  have hcode := congrArg UInt16.toNat hunit
  rw [toNat_unit (toNat_lt_of_mem_written hc)] at hcode
  obtain rfl : c = 'I' := Char.toNat_inj.mp hcode
  have hnot := mem_written hc
  simp at hnot

/-- The text of an integer shows the number that is nearest to it, and nothing else. -/
theorem integerText_eq_iff {n m : Int} : integerText n = integerText m ↔ ofInt n = ofInt m := by
  have hminus {body : Text} (hbody : ∀ u ∈ body, Text.isDigit u = true ∨ u ∈ marks) :
      unit '-' ∉ body := by
    intro hmem
    exact absurd (hbody _ hmem) (by decide)
  have hwritten (k : Nat) : unit '-' ∉ (written k).map unit := hminus fun u hu ↦ mem_map_written hu
  have hinfinity : unit '-' ∉ Text.ofString "Infinity" := hminus fun u hu ↦ .inr (mem_infinity hu)
  constructor
  · intro h
    cases shown n with
    | finite k hnear htext hplain =>
        cases shown m with
        | finite k' hnear' htext' hplain' =>
            rw [htext, htext'] at h
            obtain ⟨hsign, hbody⟩ := sign_append_inj (hwritten k) (hwritten k') h
            obtain rfl : k = k' := written_injective <| map_unit_injective
              (fun c hc ↦ toNat_lt_of_mem_written hc) (fun c hc ↦ toNat_lt_of_mem_written hc) hbody
            exact ofInt_eq_of_natAbs hsign (hnear.symm.trans hnear')
        | infinite hnear' htext' hplain' =>
            rw [htext, htext'] at h
            exact absurd (sign_append_inj (hwritten k) hinfinity h).2 (map_written_ne_infinity k)
    | infinite hnear htext hplain =>
        cases shown m with
        | finite k' hnear' htext' hplain' =>
            rw [htext, htext'] at h
            exact absurd (sign_append_inj hinfinity (hwritten k') h).2.symm
              (map_written_ne_infinity k')
        | infinite hnear' htext' hplain' =>
            rw [htext, htext'] at h
            obtain ⟨hsign, -⟩ := sign_append_inj hinfinity hinfinity h
            exact ofInt_eq_of_natAbs hsign (hnear.trans hnear'.symm)
  · intro h
    have hsafe := safeInteger?_ofInt n
    rw [h, safeInteger?_ofInt m] at hsafe
    unfold integerText
    split at hsafe
    · next hm =>
      split at hsafe
      · next hn => rw [if_pos hn, if_pos hm, Option.some.inj hsafe]
      · simp at hsafe
    · next hm =>
      split at hsafe
      · simp at hsafe
      · next hn => rw [if_neg hn, if_neg hm, h]

theorem isDigit_map_written_iff {n : Nat} :
    (∀ u ∈ (written n).map unit, Text.isDigit u = true) ↔ n < pow10 21 := by
  constructor
  · intro h
    apply Nat.lt_of_not_le
    intro hle
    exact absurd (h _ (List.mem_map_of_mem (mem_written_iff.mpr hle))) (by decide)
  · intro h u hu
    rw [written_of_lt h] at hu
    obtain ⟨c, hc, rfl⟩ := List.mem_map.mp hu
    exact isDigit_unit (Nat.isDigit_of_mem_toDigits (by decide) (by decide) hc)

end Lexis.Binary64
