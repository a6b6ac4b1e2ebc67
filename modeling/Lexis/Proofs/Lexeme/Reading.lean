import Lexis.Proofs.Lexeme.Literal
import Lexis.Proofs.Lexeme.Numeral

/-!
# What is recognised is spelled as its kind says

Each recogniser takes a beginning of the text that is in the class of the kind
that it finds.
-/

namespace Lexis

open Text

/-! ## Words and comments -/

theorem mem_takeWhile {p : UInt16 → Bool} {rest : Text} {u : UInt16}
    (h : u ∈ rest.takeWhile p) : p u :=
  List.all_eq_true.mp List.all_takeWhile u h

theorem isWord_of_all {u : UInt16} {tail : Text} (hu : isWordStart u = true)
    (htail : tail.all isWordPart = true) : IsWord (u :: tail) :=
  ⟨u, tail, rfl, hu, List.all_eq_true.mp htail⟩

/-- Every keyword is a word. -/
theorem isWord_of_spelling {k : Kind} {w : Text}
    (hk : k = .identifier ∨ k = .trueWord ∨ k = .falseWord ∨ k = .nullWord)
    (h : k.Spelling w) : IsWord w ∧ Kind.ofWord w = k := by
  rcases hk with rfl | rfl | rfl | rfl
  · obtain ⟨hword, htrue, hfalse, hnull⟩ := h
    exact ⟨hword, by rw [Kind.ofWord, if_neg htrue, if_neg hfalse, if_neg hnull]⟩
  · obtain rfl : w = "true" := h
    exact ⟨isWord_of_all (by decide) (by decide), by decide⟩
  · obtain rfl : w = "false" := h
    exact ⟨isWord_of_all (by decide) (by decide), by decide⟩
  · obtain rfl : w = "null" := h
    exact ⟨isWord_of_all (by decide) (by decide), by decide⟩

theorem spelling_ofWord {w : Text} (h : IsWord w) : (Kind.ofWord w).Spelling w := by
  unfold Kind.ofWord
  split
  · next htrue => exact htrue
  · next htrue =>
    split
    · next hfalse => exact hfalse
    · next hfalse =>
      split
      · next hnull => exact hnull
      · next hnull => exact ⟨h, htrue, hfalse, hnull⟩

theorem isClosed_of_throughClose? {rest tail : Text} (h : Lexeme.throughClose? rest = some tail) :
    tail <+: rest ∧ IsClosed tail := by
  fun_induction Lexeme.throughClose? rest generalizing tail with
  | case1 => simp at h
  | case2 => simp at h
  | case3 u v rest hclose =>
      obtain ⟨rfl, rfl⟩ := hclose
      obtain rfl : [unit '*', unit '/'] = tail := by simpa using h
      refine ⟨⟨rest, rfl⟩, List.suffix_refl _, fun i hi ↦ ?_⟩
      have hlength := hi.length_le
      have hpos : i = 0 := by
        simp only [closing, List.length_drop, List.length_cons, List.length_nil] at hlength
        omega
      simp [hpos]
  | case4 u v rest hopen ih =>
      obtain ⟨later, hlater, rfl⟩ := Option.map_eq_some_iff.mp h
      obtain ⟨hpre, hsuffix, hfirst⟩ := ih hlater
      refine ⟨(List.prefix_cons_inj u).mpr hpre, ?_, fun i hi ↦ ?_⟩
      · exact hsuffix.trans (List.suffix_cons u later)
      · cases i with
        | zero =>
            -- the text does not close at its first unit, as two units decide
            exfalso
            apply hopen
            obtain ⟨after, hafter⟩ := hi
            obtain ⟨rest', hrest'⟩ := hpre
            simp only [closing, List.drop_zero, List.cons_append, List.nil_append,
              List.cons.injEq] at hafter
            obtain ⟨rfl, rfl⟩ := hafter
            simp only [List.cons_append, List.cons.injEq] at hrest'
            exact ⟨rfl, hrest'.1.symm⟩
        | succ i =>
            have hlength := hfirst i (by simpa using hi)
            simp only [List.length_cons]
            omega

/-! ## Punctuation -/

namespace Punctuation

@[simp] theorem ofText?_units (p : Punctuation) : ofText? p.units = some p := by
  cases p <;> decide

theorem units_of_ofText? {t : Text} {p : Punctuation} (h : ofText? t = some p) : p.units = t := by
  have hfound := List.find?_some h
  simpa using hfound

theorem units_injective {p q : Punctuation} (h : p.units = q.units) : p = q := by
  have hsome : some p = some q := by rw [← ofText?_units p, h, ofText?_units q]
  exact Option.some.inj hsome

/-- What the first unit of a punctuation can be: a dot, a slash, or a unit that
begins no token of another kind. -/
def Starts (u : UInt16) : Prop :=
  u = unit '.' ∨ u = unit '/' ∨
    ¬ (u = unit '"' ∨ u = unit '\'') ∧ isDigit u = false ∧ isWordStart u = false ∧
      u ≠ unit '\n' ∧ u ≠ unit '.' ∧ u ≠ unit '/'
deriving Decidable

/-- What the tables must agree on: the first unit of a punctuation begins nothing
else, one with two units is in the tables, and only dots come in threes. -/
def Agrees : Text → Prop
  | [] => False
  | [u] => Starts u
  | [u, v] =>
      Starts u ∧ (u = unit '.' ∧ v = unit '.' ∨ u ≠ unit '.' ∧ u ≠ unit '/' ∧ joins u v)
  | u :: v :: tail => u = unit '.' ∧ v = unit '.' ∧ tail = [unit '.']

instance : DecidablePred Agrees
  | [] => inferInstanceAs (Decidable False)
  | [u] => inferInstanceAs (Decidable (Starts u))
  | [u, v] =>
      inferInstanceAs (Decidable (Starts u ∧
        (u = unit '.' ∧ v = unit '.' ∨ u ≠ unit '.' ∧ u ≠ unit '/' ∧ joins u v)))
  | u :: v :: w :: tail =>
      inferInstanceAs (Decidable (u = unit '.' ∧ v = unit '.' ∧ w :: tail = [unit '.']))

theorem agrees_units (p : Punctuation) : Agrees p.units := by
  cases p <;> decide

theorem not_starts_of_isDigit {u : UInt16} (h : isDigit u) : ¬ Starts u := by
  rintro (rfl | rfl | ⟨-, hdigit, -⟩)
  · revert h
    decide
  · revert h
    decide
  · simp [h] at hdigit

theorem not_starts_of_isWordStart {u : UInt16} (h : isWordStart u) : ¬ Starts u := by
  rintro (rfl | rfl | ⟨-, -, hword, -⟩)
  · revert h
    decide
  · revert h
    decide
  · simp [h] at hword

theorem Agrees.starts {u : UInt16} {w : Text} (h : Agrees (u :: w)) : Starts u := by
  match w, h with
  | [], h => exact h
  | [_], h => exact h.1
  | _ :: _ :: _, h => exact .inl h.1

end Punctuation

namespace Lexeme

/-! ## One recogniser after the other -/

/-- The lexeme `x` of `u :: rest` takes `tail` behind `u`.  Its value is its own
text, unless it is a string literal or a comment that is not kept. -/
structure Reads (keep : Bool) (u : UInt16) (rest tail : Text) (x : Lexeme) : Prop where
  isPrefix : tail <+: rest
  extra : x.extra = tail.length
  spelling : x.kind.Spelling (u :: tail)
  value : x.kind ∉ Kind.strings → (x.kind.category = .comment → keep = true) →
    x.value = u :: tail

theorem reads_plain {keep : Bool} {u : UInt16} {rest tail : Text} {k : Kind}
    (hpre : tail <+: rest) (hk : k.Spelling (u :: tail)) :
    Reads keep u rest tail (.plain k u tail) :=
  ⟨hpre, rfl, hk, fun _ _ ↦ rfl⟩

theorem reads_comment {keep : Bool} {u : UInt16} {rest tail : Text} {k : Kind}
    (hpre : tail <+: rest) (hk : k.Spelling (u :: tail)) (hcomment : k.category = .comment) :
    Reads keep u rest tail (comment k keep u tail) :=
  ⟨hpre, rfl, hk, fun _ hkeep ↦ if_pos (hkeep hcomment)⟩

theorem reads_punctuation {keep : Bool} {u : UInt16} {rest tail : Text} {p : Punctuation}
    (hpre : tail <+: rest) (hp : u :: tail = p.units) :
    Reads keep u rest tail (punctuation p) :=
  ⟨hpre, by simp [punctuation, ← hp], hp, fun _ _ ↦ hp.symm⟩

theorem reads_string {keep : Bool} {u : UInt16} {rest : Text} {x : Lexeme}
    (hu : Literal.IsQuote u) (h : Literal.string u rest = .ok x) :
    ∃ tail, Reads keep u rest tail x := by
  obtain ⟨tail, hpre, hkind, hextra, hquoted⟩ := Literal.isQuoted_of_string hu h
  refine ⟨tail, hpre, hextra, ?_, fun hstring ↦ ?_⟩
  · rw [hkind]
    exact (Literal.spelling_kind hu).mpr hquoted
  · rw [hkind] at hstring
    rcases hu with rfl | rfl <;> exact absurd (by decide) hstring

theorem reads_decimal {keep : Bool} {u : UInt16} {rest : Text} {x : Lexeme}
    (hu : isDigit u ∨ u = unit '.' ∧ rest.head?.any isDigit)
    (h : Numeral.decimal u rest = .ok x) : ∃ tail, Reads keep u rest tail x := by
  obtain ⟨tail, point, exponent, hpre, rfl, hdecimal⟩ := Numeral.isDecimal_of_decimal hu h
  exact ⟨tail, reads_plain hpre (Numeral.spelling_kind.mpr hdecimal)⟩

theorem based?_cases {u : UInt16} {rest : Text} {x : Lexeme} (h : Numeral.based? u rest = some x) :
    u = unit '0' ∧ ∃ marker digits, rest = marker :: digits ∧
      ((marker = unit 'x' ∨ marker = unit 'X') ∧
          x = .plain .hex u (marker :: digits.takeWhile isHexDigit) ∨
        (marker = unit 'b' ∨ marker = unit 'B') ∧
          x = .plain .binary u (marker :: digits.takeWhile isBinaryDigit)) := by
  cases rest with
  | nil => simp [Numeral.based?] at h
  | cons marker digits =>
      rw [Numeral.based?] at h
      split at h
      · simp at h
      · next hzero =>
        refine ⟨Decidable.not_not.mp hzero, marker, digits, rfl, ?_⟩
        split at h
        · next hmarker => exact .inl ⟨hmarker, (Option.some.inj h).symm⟩
        · split at h
          · next hmarker => exact .inr ⟨hmarker, (Option.some.inj h).symm⟩
          · simp at h

theorem reads_based {keep : Bool} {u : UInt16} {rest : Text} {x : Lexeme}
    (h : Numeral.based? u rest = some x) : ∃ tail, Reads keep u rest tail x := by
  obtain ⟨rfl, marker, digits, rfl, ⟨hmarker, rfl⟩ | ⟨hmarker, rfl⟩⟩ := based?_cases h
  · refine ⟨_, reads_plain ((List.prefix_cons_inj marker).mpr ?_) ?_⟩
    · exact List.takeWhile_prefix _
    · exact ⟨marker, _, rfl, hmarker, fun _ ↦ mem_takeWhile⟩
  · refine ⟨_, reads_plain ((List.prefix_cons_inj marker).mpr ?_) ?_⟩
    · exact List.takeWhile_prefix _
    · exact ⟨marker, _, rfl, hmarker, fun _ ↦ mem_takeWhile⟩

theorem reads_numeral {keep : Bool} {u : UInt16} {rest : Text} {x : Lexeme} (hu : isDigit u)
    (h : numeral u rest = .ok x) : ∃ tail, Reads keep u rest tail x := by
  unfold numeral at h
  split at h
  · next y hbased =>
    cases h
    exact reads_based hbased
  · exact reads_decimal (.inl hu) h

theorem reads_word {keep : Bool} {u : UInt16} {rest : Text} (hu : isWordStart u) :
    Reads keep u rest (rest.takeWhile isWordPart) (word u rest) := by
  apply reads_plain
  · exact List.takeWhile_prefix _
  · exact spelling_ofWord ⟨u, _, rfl, hu, fun _ ↦ mem_takeWhile⟩

theorem reads_dots {keep : Bool} {rest : Text} :
    ∃ tail, Reads keep (unit '.') rest tail (punctuation (dots rest)) := by
  unfold dots
  split
  · next hfirst =>
    obtain ⟨rest, rfl⟩ := List.head?_eq_some_iff.mp hfirst
    split
    · next hsecond =>
      obtain ⟨rest, rfl⟩ := List.head?_eq_some_iff.mp hsecond
      exact ⟨[unit '.', unit '.'], reads_punctuation ⟨rest, rfl⟩ (by decide)⟩
    · exact ⟨[unit '.'], reads_punctuation ⟨rest, rfl⟩ (by decide)⟩
  · exact ⟨[], reads_punctuation List.nil_prefix (by decide)⟩

theorem reads_slash {keep : Bool} {rest : Text} {x : Lexeme}
    (h : slash keep (unit '/') rest = .ok x) : ∃ tail, Reads keep (unit '/') rest tail x := by
  have halone : Reads keep (unit '/') rest [] (punctuation .slash) :=
    reads_punctuation List.nil_prefix (by decide)
  unfold slash at h
  split at h
  · cases h
    exact ⟨[], halone⟩
  · next v tail =>
    split at h
    · next hv =>
      cases h
      subst hv
      have hpre : (unit '/' :: tail).takeWhile (· != unit '\n') <+: unit '/' :: tail :=
        List.takeWhile_prefix _
      refine ⟨_, reads_comment hpre ?_ rfl⟩
      refine ⟨tail.takeWhile (· != unit '\n'), ?_, fun hmem ↦ ?_⟩
      · rw [List.takeWhile_cons_of_pos (by decide)]
      · simpa using mem_takeWhile hmem
    · split at h
      · next hv =>
        subst hv
        unfold blockComment at h
        split at h
        · next content hclose =>
          cases h
          obtain ⟨hpre, hclosed⟩ := isClosed_of_throughClose? hclose
          refine ⟨_, reads_comment ((List.prefix_cons_inj _).mpr hpre) ?_ rfl⟩
          exact ⟨content, rfl, hclosed⟩
        · simp at h
      · cases h
        exact ⟨[], halone⟩

theorem joined_eq (u v : UInt16) (rest : Text) :
    ((v :: rest).take 1).filter (Punctuation.joins u) =
      if Punctuation.joins u v then [v] else [] := by
  simp [List.filter_cons]

theorem reads_operator {keep : Bool} {u : UInt16} {rest : Text} {x : Lexeme}
    (h : operator u rest = .ok x) : ∃ tail, Reads keep u rest tail x := by
  unfold operator at h
  dsimp only at h
  split at h
  · next p hp =>
    cases h
    refine ⟨_, reads_plain ?_ (Punctuation.units_of_ofText? hp).symm⟩
    cases rest with
    | nil => simp
    | cons v rest =>
        rw [joined_eq]
        split
        · exact ⟨rest, rfl⟩
        · exact List.nil_prefix
  · simp at h

/-- What is recognised takes a beginning of the text that is spelled as its kind
says. -/
theorem reads_of_recognise {keep : Bool} {u : UInt16} {rest : Text} {x : Lexeme}
    (h : recognise keep u rest = .ok x) : ∃ tail, Reads keep u rest tail x := by
  unfold recognise at h
  split at h
  · next hquote => exact reads_string hquote h
  split at h
  · next hdigit => exact reads_numeral hdigit h
  split at h
  · next hpoint =>
    subst hpoint
    split at h
    · next hnext => exact reads_decimal (.inr ⟨rfl, hnext⟩) h
    · cases h
      exact reads_dots
  split at h
  · next hword =>
    cases h
    exact ⟨_, reads_word hword⟩
  split at h
  · next hnewline =>
    cases h
    subst hnewline
    exact ⟨[], reads_plain List.nil_prefix rfl⟩
  split at h
  · next hslash =>
    subst hslash
    exact reads_slash h
  · exact reads_operator h

end Lexeme

end Lexis
