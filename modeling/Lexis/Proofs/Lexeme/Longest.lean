import Lexis.Proofs.Lexeme.Reading

/-!
# The longest lexeme is recognised

No beginning of a text that is longer than what is recognised is spelled as any
kind of token, and one that is as long is spelled as no other kind.
-/

namespace Lexis

open Text

theorem length_le_takeWhile {p : UInt16 → Bool} {w rest : Text} (hw : w <+: rest)
    (hp : ∀ u ∈ w, p u) : w.length ≤ (rest.takeWhile p).length := by
  obtain ⟨after, rfl⟩ := hw
  rw [List.takeWhile_append_of_pos hp, List.length_append]
  omega

/-- Two closed beginnings of one text are the same. -/
theorem IsClosed.length_le {w tail rest : Text} (h : IsClosed w) (h' : IsClosed tail)
    (hw : w <+: rest) (htail : tail <+: rest) : w.length ≤ tail.length := by
  apply Nat.le_of_not_lt
  intro hlt
  obtain ⟨after, rfl⟩ := List.prefix_of_prefix_length_le htail hw (by omega)
  obtain ⟨content, rfl⟩ := h'.isSuffix
  have hdrop : closing <+: (content ++ closing ++ after).drop content.length := by
    rw [List.append_assoc, List.drop_left]
    exact List.prefix_append _ _
  have hlength := h.first _ hdrop
  simp only [List.length_append, closing, List.length_cons, List.length_nil] at hlength hlt
  omega

namespace Lexeme

/-- A lexeme that is longer than `u :: w`, or just as long and of kind `k`. -/
def Covers (x : Lexeme) (k : Kind) (w : Text) : Prop :=
  w.length < x.extra ∨ w.length = x.extra ∧ k = x.kind

theorem covers_of_le {x : Lexeme} {k : Kind} {w : Text} (hle : w.length ≤ x.extra)
    (hkind : k = x.kind) : x.Covers k w := by
  rcases Nat.lt_or_eq_of_le hle with hlt | heq
  · exact .inl hlt
  · exact .inr ⟨heq, hkind⟩

theorem covers_of_length_le {x : Lexeme} {k : Kind} {rest tail w : Text} (hw : w <+: rest)
    (htail : tail <+: rest) (hextra : x.extra = tail.length) (hle : w.length ≤ tail.length)
    (hkind : w = tail → k = x.kind) : x.Covers k w := by
  rcases Nat.lt_or_eq_of_le hle with hlt | heq
  · exact .inl (by omega)
  · have hsame : w = tail := (List.prefix_of_prefix_length_le hw htail hle).eq_of_length heq
    exact .inr ⟨by omega, hkind hsame⟩

/-! ## Which recogniser is tried -/

theorem isDigit_eq_false_of_isWordStart {u : UInt16} (h : isWordStart u) : isDigit u = false := by
  cases hdigit : isDigit u with
  | false => rfl
  | true =>
      simp only [isDigit, isWordStart, isLetter, Bool.and_eq_true, Bool.or_eq_true,
        decide_eq_true_eq, beq_iff_eq, UInt16.le_iff_toNat_le, ← UInt16.toNat_inj] at h hdigit
      simp at h hdigit
      omega

theorem recognise_of_isDigit {keep : Bool} {u : UInt16} {rest : Text} (h : isDigit u) :
    recognise keep u rest = numeral u rest := by
  have hquote : ¬ (u = unit '"' ∨ u = unit '\'') := by
    rintro (rfl | rfl) <;> revert h <;> decide
  rw [recognise, if_neg hquote, if_pos h]

theorem recognise_of_isWordStart {keep : Bool} {u : UInt16} {rest : Text} (h : isWordStart u) :
    recognise keep u rest = .ok (word u rest) := by
  have hquote : ¬ (u = unit '"' ∨ u = unit '\'') := by
    rintro (rfl | rfl) <;> revert h <;> decide
  have hpoint : u ≠ unit '.' := by
    rintro rfl
    revert h
    decide
  have hdigit : ¬ isDigit u := by simp [isDigit_eq_false_of_isWordStart h]
  rw [recognise, if_neg hquote, if_neg hdigit, if_neg hpoint, if_pos h]

theorem recognise_point {keep : Bool} {rest : Text} :
    recognise keep (unit '.') rest =
      if rest.head?.any isDigit then Numeral.decimal (unit '.') rest
      else .ok (punctuation (dots rest)) := rfl

theorem recognise_of_starts {keep : Bool} {u : UInt16} {rest : Text} (h : Punctuation.Starts u)
    (hpoint : u ≠ unit '.') (hslash : u ≠ unit '/') : recognise keep u rest = operator u rest := by
  rcases h with hu | hu | ⟨hquote, hdigit, hword, hnewline, -, -⟩
  · exact absurd hu hpoint
  · exact absurd hu hslash
  · rw [recognise, if_neg hquote, if_neg (by simp [hdigit]), if_neg hpoint,
      if_neg (by simp [hword]), if_neg hnewline, if_neg hslash]

/-! ## No kind has a longer spelling -/

theorem covers_word {u : UInt16} {rest w : Text} (hw : w <+: rest) (h : IsWord (u :: w)) :
    (word u rest).Covers (Kind.ofWord (u :: w)) w := by
  obtain ⟨v, tail, hcons, -, hparts⟩ := h
  obtain ⟨rfl, rfl⟩ := List.cons.inj hcons
  have htail : rest.takeWhile isWordPart <+: rest := List.takeWhile_prefix _
  have hle := length_le_takeWhile hw hparts
  refine covers_of_length_le hw htail rfl hle fun hsame ↦ ?_
  rw [hsame]
  rfl

theorem covers_lineComment {keep : Bool} {rest w : Text} {x : Lexeme} (hw : w <+: rest)
    (h : slash keep (unit '/') rest = .ok x) (hcomment : IsLineComment (unit '/' :: w)) :
    x.Covers .lineComment w := by
  obtain ⟨content, hcons, hfree⟩ := hcomment
  obtain ⟨-, rfl⟩ := List.cons.inj hcons
  cases rest with
  | nil => simp at hw
  | cons v rest =>
      obtain ⟨rfl, -⟩ := List.cons_prefix_cons.mp hw
      rw [slash, if_pos rfl] at h
      cases h
      have hparts : ∀ u ∈ unit '/' :: content, (u != unit '\n') = true := by
        intro u hu
        rcases List.mem_cons.mp hu with rfl | hu
        · decide
        · exact bne_iff_ne.mpr fun hnewline ↦ hfree (hnewline ▸ hu)
      exact covers_of_le (length_le_takeWhile hw hparts) rfl

theorem covers_blockComment {keep : Bool} {rest w : Text} {x : Lexeme} (hw : w <+: rest)
    (h : slash keep (unit '/') rest = .ok x) (hcomment : IsBlockComment (unit '/' :: w)) :
    x.Covers .blockComment w := by
  obtain ⟨content, hcons, hclosed⟩ := hcomment
  obtain ⟨-, rfl⟩ := List.cons.inj hcons
  cases rest with
  | nil => simp at hw
  | cons v rest =>
      obtain ⟨rfl, hcontent⟩ := List.cons_prefix_cons.mp hw
      rw [slash, if_neg (by decide), if_pos rfl, blockComment] at h
      split at h
      · next tail hclose =>
        cases h
        obtain ⟨htail, hclosed'⟩ := isClosed_of_throughClose? hclose
        have hle := hclosed.length_le hclosed' hcontent htail
        exact covers_of_le (Nat.succ_le_succ hle) rfl
      · simp at h

theorem covers_based {u : UInt16} {rest w : Text} {x : Lexeme} {k : Kind} (hw : w <+: rest)
    (h : numeral u rest = .ok x)
    (hbased : k = .hex ∧ IsBased (unit 'x') (unit 'X') isHexDigit (u :: w) ∨
      k = .binary ∧ IsBased (unit 'b') (unit 'B') isBinaryDigit (u :: w)) : x.Covers k w := by
  have hlonger {p : UInt16 → Bool} {marker : UInt16} {digits rest : Text}
      (hdigits : digits <+: rest) (hp : ∀ d ∈ digits, p d) :
      (Lexeme.plain k u (marker :: rest.takeWhile p)).Covers k (marker :: digits) :=
    covers_of_le (Nat.succ_le_succ (length_le_takeWhile hdigits hp)) rfl
  rcases hbased with ⟨rfl, marker, digits, hcons, hmarker, hp⟩ |
    ⟨rfl, marker, digits, hcons, hmarker, hp⟩
  · obtain ⟨rfl, rfl⟩ := List.cons.inj hcons
    obtain ⟨after, rfl⟩ := hw
    rw [numeral, List.cons_append, Numeral.based?, if_neg (by simp), if_pos hmarker] at h
    cases h
    exact hlonger (List.prefix_append _ _) hp
  · obtain ⟨rfl, rfl⟩ := List.cons.inj hcons
    obtain ⟨after, rfl⟩ := hw
    have hother : ¬ (marker = unit 'x' ∨ marker = unit 'X') := by
      rcases hmarker with rfl | rfl <;> decide
    rw [numeral, List.cons_append, Numeral.based?, if_neg (by simp), if_neg hother,
      if_pos hmarker] at h
    cases h
    exact hlonger (List.prefix_append _ _) hp

theorem covers_decimal {point exponent : Bool} {u : UInt16} {rest w : Text} {x : Lexeme}
    (hw : w <+: rest) (hu : isDigit u ∨ u = unit '.' ∧ rest.head?.any isDigit)
    (h : Numeral.decimal u rest = .ok x) (hdecimal : IsDecimal point exponent (u :: w)) :
    x.Covers (Numeral.kind point exponent) w := by
  have hle := Numeral.length_le_of_decimal h hw hdecimal
  obtain ⟨tail, point', exponent', htail, rfl, hdecimal'⟩ := Numeral.isDecimal_of_decimal hu h
  refine covers_of_length_le hw htail rfl hle fun hsame ↦ ?_
  subst hsame
  obtain ⟨rfl, rfl⟩ := Numeral.isDecimal_unique hdecimal hdecimal'
  rfl

/-- A numeral in another base is longer than the zero that it begins with. -/
theorem covers_numeral {point exponent : Bool} {u : UInt16} {rest w : Text} {x : Lexeme}
    (hw : w <+: rest) (hu : isDigit u) (h : numeral u rest = .ok x)
    (hdecimal : IsDecimal point exponent (u :: w)) : x.Covers (Numeral.kind point exponent) w := by
  unfold numeral at h
  split at h
  · next y hbased =>
    cases h
    obtain ⟨rfl, marker, digits, rfl, hy⟩ := based?_cases hbased
    have hextra : 0 < x.extra := by
      rcases hy with ⟨-, rfl⟩ | ⟨-, rfl⟩ <;> simp [plain]
    cases w with
    | nil => exact .inl hextra
    | cons v w =>
        obtain ⟨rfl, -⟩ := List.cons_prefix_cons.mp hw
        have hmarker : v = unit 'x' ∨ v = unit 'X' ∨ v = unit 'b' ∨ v = unit 'B' := by
          rcases hy with ⟨rfl | rfl, -⟩ | ⟨rfl | rfl, -⟩ <;> simp
        exfalso
        rcases (Numeral.continues_of_isDecimal hdecimal).head with hv | ⟨hv, -⟩ | hv
        · rcases hmarker with rfl | rfl | rfl | rfl <;> revert hv <;> decide
        · rcases hmarker with rfl | rfl | rfl | rfl <;> revert hv <;> decide
        · rcases hmarker with rfl | rfl | rfl | rfl <;> revert hv <;> decide
  · exact covers_decimal hw (.inl hu) h hdecimal

theorem covers_string {u : UInt16} {rest w : Text} {x : Lexeme} (hu : Literal.IsQuote u)
    (hw : w <+: rest) (h : Literal.string u rest = .ok x) (hquoted : IsQuoted u (u :: w)) :
    x.Covers (Literal.kind u) w := by
  obtain ⟨tail, ⟨after, hafter⟩, hkind, hextra, content, htail, hcontent⟩ :=
    Literal.isQuoted_of_string hu h
  obtain ⟨-, rfl⟩ := List.cons.inj htail
  obtain ⟨content', hw', hcontent'⟩ := hquoted
  obtain ⟨-, rfl⟩ := List.cons.inj hw'
  obtain ⟨after', hafter'⟩ := hw
  have hsame : content' = content := by
    apply hcontent'.eq_of_append_eq (Literal.quote_ne_backslash hu) hcontent
    simpa using hafter'.trans hafter.symm
  rw [hsame]
  exact .inr ⟨hextra.symm, hkind.symm⟩

/-! ## Punctuation -/

theorem not_agrees_of_isDecimal {point exponent : Bool} {w : Text}
    (h : IsDecimal point exponent w) : ¬ Punctuation.Agrees w := by
  intro hagrees
  obtain ⟨u, tail, rfl, hdigit | ⟨rfl, v, hv, hdigit⟩⟩ := h.begins
  · exact Punctuation.not_starts_of_isDigit hdigit hagrees.starts
  · -- a point before a digit, where the tables only have another point
    obtain ⟨rest, rfl⟩ := List.head?_eq_some_iff.mp hv
    have hpoint : v = unit '.' := by
      match rest, hagrees with
      | [], ⟨_, .inl hpoints⟩ => exact hpoints.2
      | [], ⟨_, .inr hother⟩ => exact absurd rfl hother.1
      | _ :: _, hpoints => exact hpoints.2.1
    rw [hpoint] at hdigit
    revert hdigit
    decide

theorem not_agrees_of_comment {v : UInt16} {content : Text} :
    ¬ Punctuation.Agrees (unit '/' :: v :: content) := by
  intro hagrees
  match content, hagrees with
  | [], ⟨_, .inl hpoints⟩ => exact absurd hpoints.1 (by decide)
  | [], ⟨_, .inr hother⟩ => exact absurd rfl hother.2.1
  | _ :: _, hpoints => exact absurd hpoints.1 (by decide)

/-- No kind shares a spelling with a punctuation. -/
theorem eq_punctuation_of_spelling {k : Kind} {p : Punctuation} (h : k.Spelling p.units) :
    k = .punctuation p := by
  have hagrees := p.agrees_units
  have hword : ¬ IsWord p.units := by
    rintro ⟨u, tail, hunits, hstart, -⟩
    rw [hunits] at hagrees
    exact Punctuation.not_starts_of_isWordStart hstart hagrees.starts
  have hbased {lower upper : UInt16} {p' : UInt16 → Bool} : ¬ IsBased lower upper p' p.units := by
    rintro ⟨marker, digits, hunits, -⟩
    rw [hunits] at hagrees
    exact Punctuation.not_starts_of_isDigit (by decide) hagrees.starts
  have hquoted {quote : UInt16} (hquote : Literal.IsQuote quote) : ¬ IsQuoted quote p.units := by
    rintro ⟨content, hunits, -⟩
    rw [hunits] at hagrees
    have hstarts := hagrees.starts
    rcases hquote with rfl | rfl <;> revert hstarts <;> decide
  cases k with
  | invalid => exact h.elim
  | newline =>
      rw [show p.units = [unit '\n'] from h] at hagrees
      exact absurd hagrees (by decide)
  | identifier => exact absurd h.1 hword
  | lineComment =>
      obtain ⟨content, hunits, -⟩ := h
      exact absurd (hunits ▸ hagrees) not_agrees_of_comment
  | blockComment =>
      obtain ⟨content, hunits, -⟩ := h
      exact absurd (hunits ▸ hagrees) not_agrees_of_comment
  | trueWord => exact absurd (isWord_of_spelling (by simp) h).1 hword
  | falseWord => exact absurd (isWord_of_spelling (by simp) h).1 hword
  | nullWord => exact absurd (isWord_of_spelling (by simp) h).1 hword
  | integer => exact absurd hagrees (not_agrees_of_isDecimal h)
  | float => exact absurd hagrees (not_agrees_of_isDecimal h)
  | integerExp => exact absurd hagrees (not_agrees_of_isDecimal h)
  | floatExp => exact absurd hagrees (not_agrees_of_isDecimal h)
  | hex => exact absurd h hbased
  | binary => exact absurd h hbased
  | singleString => exact absurd h (hquoted (.inr rfl))
  | doubleString => exact absurd h (hquoted (.inl rfl))
  | punctuation q => rw [Punctuation.units_injective (show p.units = q.units from h)]

/-- The three tables find every punctuation of two units, and dots are counted. -/
theorem length_le_of_units {keep : Bool} {p : Punctuation} {u : UInt16} {rest w : Text}
    {x : Lexeme} (hw : w <+: rest) (h : recognise keep u rest = .ok x) (hp : u :: w = p.units) :
    w.length ≤ x.extra := by
  have hagrees : Punctuation.Agrees (u :: w) := hp ▸ p.agrees_units
  obtain ⟨after, rfl⟩ := hw
  match w, hagrees with
  | [], _ => simp
  | [v], ⟨_, .inl ⟨hu, hv⟩⟩ =>
      subst hu hv
      rw [recognise_point, if_neg (by simp; decide)] at h
      cases h
      simp only [dots, List.cons_append, List.head?_cons, if_pos]
      split <;> decide
  | [v], ⟨hstarts, .inr ⟨hpoint, hslash, hjoins⟩⟩ =>
      rw [recognise_of_starts hstarts hpoint hslash, operator, List.cons_append, joined_eq,
        if_pos hjoins] at h
      split at h
      · cases h
        simp [plain]
      · simp at h
  | _ :: _ :: _, ⟨hu, hv, htail⟩ =>
      obtain ⟨rfl, rfl⟩ := List.cons.inj htail
      subst hu hv
      cases h
      have hdots : dots ([unit '.', unit '.'] ++ after) = .tripleDot := rfl
      rw [hdots]
      decide

/-- What is recognised is at least as long as every spelling that the text begins
with, and of the same kind as one that is just as long. -/
theorem covers_of_recognise {keep : Bool} {u : UInt16} {rest w : Text} {x : Lexeme} {k : Kind}
    (h : recognise keep u rest = .ok x) (hw : w <+: rest) (hk : k.Spelling (u :: w)) :
    x.Covers k w := by
  have hword (hk' : k = .identifier ∨ k = .trueWord ∨ k = .falseWord ∨ k = .nullWord) :
      x.Covers k w := by
    obtain ⟨hword, rfl⟩ := isWord_of_spelling hk' hk
    have hstart : isWordStart u := by
      obtain ⟨v, tail, hcons, hstart, -⟩ := hword
      obtain ⟨rfl, rfl⟩ := List.cons.inj hcons
      exact hstart
    rw [recognise_of_isWordStart hstart] at h
    cases h
    exact covers_word hw hword
  have hdecimal {point exponent : Bool} (hk' : IsDecimal point exponent (u :: w)) :
      x.Covers (Numeral.kind point exponent) w := by
    obtain ⟨v, tail, hcons, hdigit | ⟨rfl, hnext⟩⟩ := hk'.begins
    · obtain ⟨rfl, rfl⟩ := List.cons.inj hcons
      rw [recognise_of_isDigit hdigit] at h
      exact covers_numeral hw hdigit h hk'
    · obtain ⟨rfl, rfl⟩ := List.cons.inj hcons
      obtain ⟨d, hd, hdigit⟩ := hnext
      obtain ⟨after, rfl⟩ := hw
      have hhead : (w ++ after).head?.any isDigit := by simp [List.head?_append, hd, hdigit]
      rw [recognise_point, if_pos hhead] at h
      exact covers_decimal (List.prefix_append w after) (.inr ⟨rfl, hhead⟩) h hk'
  cases k with
  | invalid => exact hk.elim
  | newline =>
      obtain ⟨rfl, rfl⟩ := List.cons.inj (show u :: w = [unit '\n'] from hk)
      cases h
      exact .inr ⟨rfl, rfl⟩
  | identifier => exact hword (by simp)
  | lineComment =>
      obtain rfl := IsLineComment.head_eq hk
      exact covers_lineComment hw h hk
  | blockComment =>
      obtain rfl := IsBlockComment.head_eq hk
      exact covers_blockComment hw h hk
  | trueWord => exact hword (by simp)
  | falseWord => exact hword (by simp)
  | nullWord => exact hword (by simp)
  | integer => exact hdecimal hk
  | float => exact hdecimal hk
  | integerExp => exact hdecimal hk
  | floatExp => exact hdecimal hk
  | hex =>
      obtain rfl := IsBased.head_eq hk
      rw [recognise_of_isDigit (by decide)] at h
      exact covers_based hw h (.inl ⟨rfl, hk⟩)
  | binary =>
      obtain rfl := IsBased.head_eq hk
      rw [recognise_of_isDigit (by decide)] at h
      exact covers_based hw h (.inr ⟨rfl, hk⟩)
  | singleString =>
      obtain rfl := IsQuoted.head_eq hk
      exact covers_string (.inr rfl) hw h hk
  | doubleString =>
      obtain rfl := IsQuoted.head_eq hk
      exact covers_string (.inl rfl) hw h hk
  | punctuation p =>
      obtain ⟨tail, hreads⟩ := reads_of_recognise h
      have hle := length_le_of_units hw h hk
      rw [hreads.extra] at hle
      refine covers_of_length_le hw hreads.isPrefix hreads.extra hle fun hsame ↦ ?_
      have hspelling := hreads.spelling
      rw [← hsame, show u :: w = p.units from hk] at hspelling
      exact (eq_punctuation_of_spelling hspelling).symm

end Lexeme

end Lexis
