import Lexis.Proofs.Lexeme.Followed
import Lexis.Proofs.Lexer.Boundary
import Lexis.Proofs.Number.Exact
import Lexis.Proofs.Number.Positional
import Mathlib.Data.List.TakeWhile

/-!
# Integer literals

The digits of an integer literal are taken twice: from the source text, where they make
the token, and from the value of the token, where they make the number.  Main statement:
both readings agree, so that the number is the one that all digits denote, and every
natural number can be written and read back in the three bases.
-/

namespace Lexis

open Text

/-- The base of an integer literal and its digits.  Those behind the marker of an exponent
are not among them. -/
def Kind.digits? : Kind → Text → Option (Nat × Text)
  | .integer, w => some (10, w)
  | .integerExp, w => some (10, w.takeWhile (!Numeral.isMarker ·))
  | .hex, w => some (16, w.drop 2)
  | .binary, w => some (2, w.drop 2)
  | _, _ => none

/-- The texts that a natural number may be written with, and the kinds of literals that
they are. -/
inductive Renders (n : Nat) : Kind → Text → Prop
  | decimal {digits : Text} (h : Writes 10 n digits) : Renders n .integer digits
  | hex {marker : UInt16} {digits : Text} (hmarker : marker = unit 'x' ∨ marker = unit 'X')
      (h : Writes 16 n digits) : Renders n .hex (unit '0' :: marker :: digits)
  | binary {marker : UInt16} {digits : Text} (hmarker : marker = unit 'b' ∨ marker = unit 'B')
      (h : Writes 2 n digits) : Renders n .binary (unit '0' :: marker :: digits)

/-! ## Reading digits -/

namespace Decimal

theorem readInteger?_of_digits {digits rest : Text} (hne : digits ≠ [])
    (hdigits : ∀ u ∈ digits, isDigit u) (hrest : ∀ u, rest.head? = some u → isDigit u = false) :
    readInteger? (digits ++ rest) = some (valueIn 10 digits : Int) := by
  have htake : (digits ++ rest).takeWhile isDigit = digits := takeWhile_eq_left hdigits hrest
  have hvalue : positional 10 digits = valueIn 10 digits :=
    positional_eq_valueIn fun u hu ↦ Nat.lt_trans (isDigit_iff.mp (hdigits u hu)) (by decide)
  obtain ⟨u, tail, rfl⟩ := List.exists_cons_of_ne_nil hne
  have hfirst : isSpace u = false ∧ u ≠ unit '-' ∧ u ≠ unit '+' := by
    have hchecked : (digitUnits.all fun u ↦
        decide (isSpace u = false ∧ u ≠ unit '-' ∧ u ≠ unit '+')) = true := by decide
    have hu := mem_digitUnits_of_isDigit (hdigits u List.mem_cons_self)
    exact of_decide_eq_true (List.all_eq_true.mp hchecked u hu)
  have hspace : (u :: tail ++ rest).dropWhile isSpace = u :: tail ++ rest :=
    List.dropWhile_cons_of_neg (by simp [hfirst.1])
  have hsign : readSign (u :: tail ++ rest) = (false, u :: tail ++ rest) := by
    rw [List.cons_append, readSign, if_neg hfirst.2.1, if_neg hfirst.2.2]
  unfold readInteger?
  rw [hspace, hsign]
  dsimp only
  rw [htake, hvalue]
  rfl

end Decimal

namespace Numeral

/-- A decimal numeral without a point has digits and then, if any, an exponent. -/
theorem exists_digits {exponent : Bool} {w : Text} (h : IsDecimal false exponent w) :
    ∃ digits rest, w = digits ++ rest ∧ digits ≠ [] ∧ (∀ u ∈ digits, isDigit u) ∧
      (∀ u, rest.head? = some u → isMarker u) ∧ (exponent = false → rest = []) := by
  have hdigits {figures : Text} (hmem : ∀ u ∈ figures, u ∈ w)
      (hfigures : ∀ u ∈ figures, IsFigure u) : ∀ u ∈ figures, isDigit u := by
    intro u hu
    rcases hfigures u hu with hdigit | rfl
    · exact hdigit
    · have hpoint := List.count_eq_zero.mp h.points
      exact absurd (hmem _ hu) hpoint
  obtain ⟨u, tail, hcons, hbegins⟩ := h.begins
  have hu : IsFigure u := hbegins.imp_right And.left
  have hfigures := h.figures
  cases exponent with
  | false =>
      exact ⟨w, [], by simp, by simp [hcons], hdigits (fun _ ↦ id) hfigures, by simp, fun _ ↦ rfl⟩
  | true =>
      obtain ⟨before, marker, sign, digit, after, rfl, hmarker, -, -, hbefore, -⟩ := hfigures
      refine ⟨before, _, rfl, ?_, ?_, ?_, by simp⟩
      · rintro rfl
        obtain ⟨rfl, -⟩ := List.cons.inj hcons
        exact not_isFigure_of_isMarker hmarker hu
      · exact hdigits (fun _ ↦ List.mem_append_left _) hbefore
      · intro v hv
        obtain rfl : marker = v := by simpa using hv
        exact hmarker

theorem isMarker_eq_false_of_isDigit {u : UInt16} (h : isDigit u) : isMarker u = false :=
  Bool.eq_false_iff.mpr fun hmarker ↦ not_isFigure_of_isMarker hmarker (.inl h)

theorem isDigit_eq_false_of_isMarker {u : UInt16} (h : isMarker u) : isDigit u = false :=
  Bool.eq_false_iff.mpr fun hdigit ↦ not_isFigure_of_isMarker h (.inl hdigit)

end Numeral

/-! ## The number of a literal -/

namespace Token

variable {t : Token} {base : Nat} {digits : Text}

theorem exactInteger_of_isDecimal {exponent : Bool} (h : IsDecimal false exponent t.value)
    (hkind : t.kind = Numeral.kind false exponent) :
    let digits := t.value.takeWhile (!Numeral.isMarker ·)
    (∀ u ∈ digits, figure u < 10) ∧ t.exactInteger = .ok (valueIn 10 digits) ∧
      (exponent = false → digits = t.value) := by
  obtain ⟨digits, rest, hvalue, hne, hdigits, hrest, hwhole⟩ := Numeral.exists_digits h
  have htake : (digits ++ rest).takeWhile (!Numeral.isMarker ·) = digits := by
    apply takeWhile_eq_left
    · intro u hu
      simp [Numeral.isMarker_eq_false_of_isDigit (hdigits u hu)]
    · intro u hu
      simp [hrest u hu]
  have hread := Decimal.readInteger?_of_digits hne hdigits fun u hu ↦
    Numeral.isDigit_eq_false_of_isMarker (hrest u hu)
  have hexact : t.exactInteger = .ok ((Decimal.readInteger? t.value).getD 0) := by
    unfold exactInteger
    rw [hkind]
    cases exponent <;> rfl
  rw [hvalue, htake]
  refine ⟨fun u hu ↦ isDigit_iff.mp (hdigits u hu), ?_, fun hplain ↦ ?_⟩
  · rw [hexact, hvalue, hread]
    rfl
  · rw [hwhole hplain, List.append_nil]

theorem positional_of_isBased {small large : UInt16} {isDigit : UInt16 → Bool} {w : Text}
    (h : IsBased small large isDigit w) (hbase : base ≤ 16)
    (hdigit : ∀ u, isDigit u = true → figure u < base) :
    (∀ u ∈ w.drop 2, figure u < base) ∧
      positional base ((w.drop 2).takeWhile isDigit) = valueIn base (w.drop 2) := by
  obtain ⟨marker, digits, rfl, -, hdigits⟩ := h
  have htake : digits.takeWhile isDigit = digits := List.takeWhile_eq_self_iff.mpr hdigits
  have hfigures (u : UInt16) (hu : u ∈ digits) : figure u < base := hdigit u (hdigits u hu)
  refine ⟨hfigures, ?_⟩
  rw [List.drop_succ_cons, List.drop_succ_cons, List.drop_zero, htake]
  exact positional_eq_valueIn fun u hu ↦ Nat.lt_of_lt_of_le (hfigures u hu) hbase

/-- The digits of a literal belong to its base, and all of them are read. -/
theorem exactInteger_of_digits? (hspelling : t.kind.Spelling t.value)
    (h : t.kind.digits? t.value = some (base, digits)) :
    (∀ u ∈ digits, figure u < base) ∧ t.exactInteger = .ok (valueIn base digits) := by
  unfold Kind.digits? at h
  split at h
  · next hkind =>
    obtain ⟨rfl, rfl⟩ := Prod.mk.inj (Option.some.inj h)
    rw [hkind] at hspelling
    obtain ⟨hfigures, hexact, hwhole⟩ := exactInteger_of_isDecimal hspelling hkind
    rw [hwhole rfl] at hfigures hexact
    exact ⟨hfigures, hexact⟩
  · next hkind =>
    obtain ⟨rfl, rfl⟩ := Prod.mk.inj (Option.some.inj h)
    rw [hkind] at hspelling
    obtain ⟨hfigures, hexact, -⟩ := exactInteger_of_isDecimal hspelling hkind
    exact ⟨hfigures, hexact⟩
  · next hkind =>
    obtain ⟨rfl, rfl⟩ := Prod.mk.inj (Option.some.inj h)
    rw [hkind] at hspelling
    obtain ⟨hfigures, hvalue⟩ :=
      positional_of_isBased hspelling (by decide) fun u ↦ isHexDigit_iff.mp
    exact ⟨hfigures, by simp only [exactInteger, hkind, hvalue]⟩
  · next hkind =>
    obtain ⟨rfl, rfl⟩ := Prod.mk.inj (Option.some.inj h)
    rw [hkind] at hspelling
    obtain ⟨hfigures, hvalue⟩ :=
      positional_of_isBased hspelling (by decide) fun u ↦ isBinaryDigit_iff.mp
    exact ⟨hfigures, by simp only [exactInteger, hkind, hvalue]⟩
  · simp at h

end Token

theorem integers_of_tokenize {source : Text} {filter : Filter} {options : RunOptions}
    {ts : List Token} {t : Token} {base : Nat} {digits : Text}
    (h : tokenize source filter options = .ok ts) (ht : t ∈ ts)
    (hdigits : t.kind.digits? (t.spelling source) = some (base, digits)) :
    (∀ u ∈ digits, figure u < base) ∧ t.exactInteger = .ok (valueIn base digits) ∧
      t.integer =
        if valueIn base digits ≤ Binary64.maxSafe then .ok (valueIn base digits)
        else .error (.unsafeInteger t.value) := by
  have hrecognised := recognised_of_tokenize h ht
  have hquote : t.kind.quote? = none := by
    unfold Kind.digits? at hdigits
    split at hdigits <;> simp_all [Kind.quote?]
  have hvalue := hrecognised.value_eq hquote
  rw [← hvalue] at hdigits
  have hspelling : t.kind.Spelling t.value := by
    rw [hvalue]
    exact (hrecognised.longest.2 t.kind).mpr rfl
  obtain ⟨hfigures, hexact⟩ := Token.exactInteger_of_digits? hspelling hdigits
  exact ⟨hfigures, hexact, Token.integer_of_exactInteger hexact⟩

/-! ## Numbers that are written down -/

namespace Numeral

variable {u : UInt16} {tail : Text}

theorem run_of_digits (h : ∀ v ∈ tail, isDigit v) : Run false false tail tail .integer := by
  induction tail with
  | nil => exact .stop (by simp)
  | cons v tail ih =>
      exact .digit (h v List.mem_cons_self) (ih fun w hw ↦ h w (List.mem_cons_of_mem v hw))

theorem numeral_of_digits (hu : isDigit u) (htail : ∀ v ∈ tail, isDigit v) :
    Lexeme.numeral u tail = .ok (.plain .integer u tail) := by
  have hpoint : (u == unit '.') = false := by simpa using ne_point_of_isDigit hu
  have hbased : based? u tail = none := by
    cases hbased : based? u tail with
    | none => rfl
    | some x =>
        -- No marker is a digit.
        obtain ⟨-, marker, digits, rfl, ⟨hmarker, -⟩ | ⟨hmarker, -⟩⟩ :=
          Lexeme.based?_cases hbased
        all_goals
          have hdigit := htail marker List.mem_cons_self
          rcases hmarker with rfl | rfl <;> exact absurd hdigit (by decide)
  rw [Lexeme.numeral, hbased]
  dsimp only
  rw [decimal, hpoint, decimalTail_of_run (run_of_digits htail)]
  rfl

theorem numeral_of_hex {marker : UInt16} {digits : Text}
    (hmarker : marker = unit 'x' ∨ marker = unit 'X') (hdigits : ∀ u ∈ digits, isHexDigit u) :
    Lexeme.numeral (unit '0') (marker :: digits) =
      .ok (.plain .hex (unit '0') (marker :: digits)) := by
  rw [Lexeme.numeral, based?, if_neg (by simp), if_pos hmarker,
    List.takeWhile_eq_self_iff.mpr hdigits]

theorem numeral_of_binary {marker : UInt16} {digits : Text}
    (hmarker : marker = unit 'b' ∨ marker = unit 'B') (hdigits : ∀ u ∈ digits, isBinaryDigit u) :
    Lexeme.numeral (unit '0') (marker :: digits) =
      .ok (.plain .binary (unit '0') (marker :: digits)) := by
  have hhex : ¬ (marker = unit 'x' ∨ marker = unit 'X') := by
    rcases hmarker with rfl | rfl <;> decide
  rw [Lexeme.numeral, based?, if_neg (by simp), if_neg hhex, if_pos hmarker,
    List.takeWhile_eq_self_iff.mpr hdigits]

end Numeral

namespace Renders

variable {n : Nat} {k : Kind} {w : Text}

theorem recognise_eq (h : Renders n k w) :
    ∃ u tail, w = u :: tail ∧ Lexeme.recognise true u tail = .ok (.plain k u tail) := by
  cases h with
  | decimal h =>
      obtain ⟨hne, hfigures, -⟩ := h.valueIn_eq (by decide) (by decide)
      obtain ⟨u, tail, rfl⟩ := List.exists_cons_of_ne_nil hne
      have hdigits (v : UInt16) (hv : v ∈ u :: tail) : isDigit v := isDigit_iff.mpr (hfigures v hv)
      have hu := hdigits u List.mem_cons_self
      refine ⟨u, tail, rfl, ?_⟩
      rw [Lexeme.recognise_of_isDigit hu]
      exact Numeral.numeral_of_digits hu fun v hv ↦ hdigits v (List.mem_cons_of_mem u hv)
  | hex hmarker h =>
      obtain ⟨-, hfigures, -⟩ := h.valueIn_eq (by decide) (by decide)
      refine ⟨_, _, rfl, ?_⟩
      rw [Lexeme.recognise_of_isDigit (by decide)]
      exact Numeral.numeral_of_hex hmarker fun u hu ↦ isHexDigit_iff.mpr (hfigures u hu)
  | binary hmarker h =>
      obtain ⟨-, hfigures, -⟩ := h.valueIn_eq (by decide) (by decide)
      refine ⟨_, _, rfl, ?_⟩
      rw [Lexeme.recognise_of_isDigit (by decide)]
      exact Numeral.numeral_of_binary hmarker fun u hu ↦ isBinaryDigit_iff.mpr (hfigures u hu)

theorem exists_digits (h : Renders n k w) :
    ∃ base digits, k.digits? w = some (base, digits) ∧ valueIn base digits = n := by
  cases h with
  | decimal h => exact ⟨10, w, rfl, (h.valueIn_eq (by decide) (by decide)).2.2⟩
  | hex _ h => exact ⟨16, _, rfl, (h.valueIn_eq (by decide) (by decide)).2.2⟩
  | binary _ h => exact ⟨2, _, rfl, (h.valueIn_eq (by decide) (by decide)).2.2⟩

/-- A source text that is a number makes one token, and this token gives the number. -/
theorem tokenize_eq (h : Renders n k w) :
    let t : Token := ⟨k, ⟨1, 1⟩, 0, w.length - 1, w⟩
    tokenize w {} {} = .ok [t] ∧ t.exactInteger = .ok n := by
  obtain ⟨base, digits, hdigits, rfl⟩ := h.exists_digits
  obtain ⟨u, tail, rfl, hx⟩ := h.recognise_eq
  have hcourse := Cursor.course_start_of_recognise hx rfl
  have hlast : ((u :: tail).length : Int) - 1 = tail.length := by
    rw [List.length_cons]
    omega
  have htokens : tokenize (u :: tail) {} {} = .ok [⟨k, ⟨1, 1⟩, 0, tail.length, u :: tail⟩] := by
    rw [tokenize_of_course (congrArg Course.ending hcourse), hcourse]
    rfl
  have hspelling :
      Token.spelling (u :: tail) ⟨k, ⟨1, 1⟩, 0, tail.length, u :: tail⟩ = u :: tail := by
    have hlength : ((tail.length : Int) + 1 - 0).toNat = (u :: tail).length := by
      rw [List.length_cons]
      omega
    rw [Token.spelling, hlength]
    exact List.take_length
  rw [hlast]
  exact ⟨htokens, (integers_of_tokenize htokens List.mem_cons_self (by rwa [hspelling])).2.1⟩

end Renders

/-- Integer literals are exact.  Whatever the source text and the options are, the digits
of a literal belong to its base, and its token gives the number that they denote, or no
machine integer if it is too large for one.  In the other direction, a number in any
of its spellings is one token that gives the number again. -/
theorem integers_exact :
    (∀ (source : Text) (filter : Filter) (options : RunOptions) (ts : List Token),
      tokenize source filter options = .ok ts →
        ∀ t ∈ ts, ∀ base digits, t.kind.digits? (t.spelling source) = some (base, digits) →
          (∀ u ∈ digits, figure u < base) ∧ t.exactInteger = .ok (valueIn base digits) ∧
            t.integer =
              if valueIn base digits ≤ pow2 53 - 1 then .ok (valueIn base digits)
              else .error (.unsafeInteger t.value)) ∧
      ∀ (n : Nat) (k : Kind) (w : Text), Renders n k w →
        let t : Token := ⟨k, ⟨1, 1⟩, 0, w.length - 1, w⟩
        tokenize w {} {} = .ok [t] ∧ t.exactInteger = .ok n := by
  refine ⟨fun source filter options ts h t ht base digits hdigits ↦ ?_, fun n k w h ↦ ?_⟩
  · exact integers_of_tokenize h ht hdigits
  · exact h.tokenize_eq

/-- A number that would be rounded, an exponent, a literal without digits, and a number
in upper and lower case behind a zero. -/
theorem integers_exact_rounded :
    (∃ ts, tokenize "9007199254740993 2e5 0b" {} {} = .ok ts ∧
      ts.map Token.exactInteger = [.ok 9007199254740993, .ok 2, .ok 0] ∧
      ts.map Token.integer = [.error (.unsafeInteger "9007199254740993"), .ok 2, .ok 0]) ∧
    Renders 255 .hex "0X0fF" ∧ tokenize "0X0fF" {} {} = .ok [⟨.hex, ⟨1, 1⟩, 0, 4, "0X0fF"⟩] ∧
      Token.exactInteger ⟨.hex, ⟨1, 1⟩, 0, 4, "0X0fF"⟩ = .ok 255 := by
  have hts : tokenize "9007199254740993 2e5 0b" {} {} = .ok
      [⟨.integer, ⟨1, 1⟩, 0, 15, "9007199254740993"⟩, ⟨.integerExp, ⟨1, 18⟩, 17, 19, "2e5"⟩,
        ⟨.binary, ⟨1, 22⟩, 21, 22, "0b"⟩] :=
    eq_ok_of_toOption (by decide +kernel)
  have hread := integers_exact.1 _ {} {} _ hts
  obtain ⟨-, hlarge, hnone⟩ := hread _ (.head _) 10 "9007199254740993" (by decide)
  obtain ⟨-, hexponent, hmachine⟩ := hread _ (.tail _ (.head _)) 10 "2" (by decide)
  obtain ⟨-, hempty, hzero⟩ := hread _ (.tail _ (.tail _ (.head _))) 2 [] (by decide)
  have hrenders : Renders 255 .hex "0X0fF" := .hex (.inr rfl) ⟨1, by decide⟩
  obtain ⟨htoken, hvalue⟩ := integers_exact.2 255 .hex "0X0fF" hrenders
  refine ⟨⟨_, hts, ?_, ?_⟩, hrenders, htoken, hvalue⟩
  · rw [List.map_cons, List.map_cons, List.map_singleton, hlarge, hexponent, hempty]
    decide +kernel
  · rw [List.map_cons, List.map_cons, List.map_singleton, hnone, hmachine, hzero]
    decide +kernel

end Lexis
