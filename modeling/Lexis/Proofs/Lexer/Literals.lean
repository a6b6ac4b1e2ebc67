import Lexis.Proofs.Cursor.Position
import Lexis.Proofs.Lexeme.Decoding
import Lexis.Proofs.Lexer.Boundary

/-!
# String literals in a source text

At a quote, a scan gives what the literal denotes or the first thing that is wrong with
it, item by item.  So every text is read back from every way to write it.
-/

namespace Lexis

open Text

namespace Literal

variable {quote : UInt16} {rest : Text}

theorem recognise_quote (keep : Bool) (hquote : IsQuote quote) :
    Lexeme.recognise keep quote rest = string quote rest := by
  unfold Lexeme.recognise
  exact if_pos hquote

/-- The units that a literal takes are there. -/
theorem le_of_body {value : Text} {n : Nat} (hquote : IsQuote quote)
    (h : body quote 0 rest = .ok (value, n)) : n ≤ rest.length := by
  obtain ⟨content, after, rfl, rfl, -⟩ :=
    enclosed_of_body (isHexDigit_quote hquote) h (by simp)
  simp only [List.length_append, List.length_cons]
  omega

theorem codePoint_le {limit n : Nat} {digits text : Text}
    (h : codePoint limit digits = .ok (text, n)) : ∃ k ≤ 0x10ffff, text = ofCodePoint k := by
  unfold codePoint at h
  dsimp only at h
  split at h
  · simp at h
  · split at h
    · simp at h
    · next hrange =>
      simp only [Except.ok.injEq, Prod.mk.injEq] at h
      exact ⟨_, Nat.not_lt.mp hrange, h.1.symm⟩

end Literal

namespace Cursor

variable {source rest : Text} {c : Cursor} {quote : UInt16} {keep : Bool}

theorem scanHere_of_body {value : Text} {n : Nat} (hquote : Literal.IsQuote quote)
    (hrest : c.rest = quote :: rest) (h : Literal.body quote 0 rest = .ok (value, n)) :
    c.scanHere keep =
      .ok (some (c.token ⟨Literal.kind quote, value, n⟩, c.advance (n + 1))) := by
  apply scanHere_of_recognise hrest
  rw [Literal.recognise_quote keep hquote, Literal.string, h]
  rfl

theorem scanHere_of_body_eq_error {fault : Fault} (hquote : Literal.IsQuote quote)
    (hrest : c.rest = quote :: rest) (h : Literal.body quote 0 rest = .error fault) :
    c.scanHere keep = .error (c.error fault) := by
  apply scanHere_of_recognise_eq_error hrest
  rw [Literal.recognise_quote keep hquote, Literal.string, h]
  rfl

/-- A scan at a quote gives a token exactly when the literal can be read. -/
theorem At.decodes_ok_iff (h : c.At source) (hquote : Literal.IsQuote quote)
    (hrest : c.rest = quote :: rest) (value after : Text) :
    Literal.Decodes quote rest (.ok (value, after)) ↔
      ∃ next, next.rest = after ∧ c.scanHere keep = .ok (some
        (⟨Literal.kind quote, source.position c.offset, c.offset,
          c.offset + (rest.length - after.length : Nat), value⟩, next)) := by
  rw [Literal.decodes_iff hquote]
  cases hbody : Literal.body quote 0 rest with
  | error fault =>
      rw [scanHere_of_body_eq_error hquote hrest hbody]
      simp [Literal.reading]
  | ok read =>
      obtain ⟨v, n⟩ := read
      have hn := Literal.le_of_body hquote hbody
      have hlength : rest.length - (rest.drop n).length = n := by
        rw [List.length_drop]
        omega
      have hnext : (c.advance (n + 1)).rest = rest.drop n := by
        rw [rest_advance, hrest, List.drop_succ_cons]
      rw [scanHere_of_body hquote hrest hbody]
      constructor
      · intro hread
        obtain ⟨rfl, rfl⟩ : v = value ∧ rest.drop n = after := by
          simpa [Literal.reading] using hread
        refine ⟨_, hnext, ?_⟩
        rw [token, h.position_eq, hlength]
      · rintro ⟨next, rfl, hscan⟩
        simp only [token, Except.ok.injEq, Option.some.injEq, Prod.mk.injEq,
          Token.mk.injEq] at hscan
        obtain ⟨⟨-, -, -, -, rfl⟩, rfl⟩ := hscan
        rw [hnext]
        rfl

theorem decodes_error_iff (hquote : Literal.IsQuote quote) (hrest : c.rest = quote :: rest)
    (code : LexCode) :
    Literal.Decodes quote rest (.error code) ↔
      ∃ e, e.code = code ∧ c.scanHere keep = .error e := by
  rw [Literal.decodes_iff hquote]
  cases hbody : Literal.body quote 0 rest with
  | ok read =>
      rw [scanHere_of_body hquote hrest hbody]
      simp [Literal.reading]
  | error fault =>
      rw [scanHere_of_body_eq_error hquote hrest hbody]
      simp [Literal.reading, error]

end Cursor

namespace Literal

/-- A literal on its own is one token. -/
theorem Encodes.tokenize_eq {quote : UInt16} {value content : Text} (hquote : IsQuote quote)
    (h : Encodes quote value content) :
    tokenize (quote :: (content ++ [quote])) {} {} =
      .ok [⟨kind quote, ⟨1, 1⟩, 0, content.length + 1, value⟩] := by
  have hread := (decodes_iff hquote).mp (h.decodes hquote [])
  cases hbody : body quote 0 (content ++ [quote]) with
  | error fault => simp [hbody, reading] at hread
  | ok read =>
      obtain ⟨v, n⟩ := read
      obtain ⟨rfl, hafter⟩ : v = value ∧ (content ++ [quote]).drop n = [] := by
        simpa [hbody, reading] using hread
      have hle := le_of_body hquote hbody
      have hge := List.drop_eq_nil_iff.mp hafter
      have hx : Lexeme.recognise true quote (content ++ [quote]) = .ok ⟨kind quote, v, n⟩ := by
        rw [recognise_quote true hquote, string, hbody]
        rfl
      have halone := Cursor.course_start_of_recognise hx (Nat.le_antisymm hle hge)
      rw [tokenize_of_course (congrArg Course.ending halone), halone]
      simp

/-- A scan at a quote agrees with the reading of the literal item by item, and fails with
the code of the first thing that is wrong.  Every text can be written as a literal, and
every way to do so is read back. -/
theorem scanHere_agrees (quote : UInt16) (hquote : IsQuote quote) :
    (∀ rest, ∃ result, Decodes quote rest result ∧
      ∀ other, Decodes quote rest other → other = result) ∧
    (∀ (source rest : Text) (p : Nat) (keep : Bool), source.drop p = quote :: rest →
      let here := (Cursor.start source).advance p
      (∀ value after, Decodes quote rest (.ok (value, after)) ↔
        ∃ next, next.rest = after ∧ here.scanHere keep = .ok (some
          (⟨kind quote, source.position p, p, p + (rest.length - after.length : Nat), value⟩,
            next))) ∧
      ∀ code, Decodes quote rest (.error code) ↔
        ∃ e, e.code = code ∧ here.scanHere keep = .error e) ∧
    (∀ limit digits text n, codePoint limit digits = .ok (text, n) →
      ∃ k ≤ 0x10ffff, text = ofCodePoint k) ∧
    ∀ value, (∃ content, Encodes quote value content) ∧
      ∀ content, Encodes quote value content →
        (∀ after, Decodes quote (content ++ quote :: after) (.ok (value, after))) ∧
        tokenize (quote :: (content ++ [quote])) {} {} =
          .ok [⟨kind quote, ⟨1, 1⟩, 0, content.length + 1, value⟩] := by
  refine ⟨?_, ?_, ?_, ?_⟩
  · intro rest
    refine ⟨_, (decodes_iff hquote).mpr rfl, ?_⟩
    intro other hother
    exact ((decodes_iff hquote).mp hother).symm
  · intro source rest p keep hdrop here
    obtain ⟨hat, hoffset, hrest⟩ := Cursor.at_of_drop hdrop
    refine ⟨?_, Cursor.decodes_error_iff hquote hrest⟩
    intro value after
    rw [hat.decodes_ok_iff hquote hrest, hoffset]
  · intro limit digits text n h
    exact codePoint_le h
  · intro value
    refine ⟨exists_encodes hquote value, ?_⟩
    intro content hcontent
    exact ⟨hcontent.decodes hquote, hcontent.tokenize_eq hquote⟩

/-- The digits of the first escape end before a letter, and the second escape denotes a
surrogate pair. -/
theorem scanHere_agrees_digits :
    IsQuote (unit '"') ∧ Encodes (unit '"') "Ag😀\n" "\\x41g\\X1F600\\n" ∧
      tokenize "\"\\x41g\\X1F600\\n\"" {} {} = .ok [⟨.doubleString, ⟨1, 1⟩, 0, 15, "Ag😀\n"⟩] ∧
      ∃ e, e.code = .malformedUnicodeEscape ∧
        ((Cursor.start "a\"\\xg\"").advance 1).scanHere true = .error e := by
  have hquote : IsQuote (unit '"') := .inl rfl
  have hfirst : IsDigitRun 4 "41" "g\\X1F600\\n" :=
    ⟨List.all_eq_true.mp (by decide), by decide, .inr (by decide)⟩
  have hsecond : IsDigitRun 8 "1F600" "\\n" :=
    ⟨List.all_eq_true.mp (by decide), by decide, .inr (by decide)⟩
  have hshort : (unit 'x', 4) ∈ wides := by decide
  have hlast : Encodes (unit '"') "\n" "\\n" := .control (by decide) .nil
  have hpair : Encodes (unit '"') "😀\n" "\\X1F600\\n" :=
    @Encodes.pair _ 0xd83d 0xde00 "1F600" "\n" "\\n" (by decide) (by decide) hsecond (by decide)
      hlast
  have hencodes : Encodes (unit '"') "Ag😀\n" "\\x41g\\X1F600\\n" :=
    @Encodes.digits _ (unit 'x') (unit 'A') 4 "41" "g😀\n" "g\\X1F600\\n" hshort hfirst (by decide)
      (by decide) (.raw (by decide) (by decide) hpair)
  obtain ⟨-, hscan, -, hwrite⟩ := scanHere_agrees (unit '"') hquote
  obtain ⟨-, hcode⟩ := hscan "a\"\\xg\"" "\\xg\"" 1 true (by decide)
  refine ⟨hquote, hencodes, ((hwrite _).2 _ hencodes).2, (hcode _).mp ?_⟩
  exact .noDigit hshort (by decide)

end Literal

end Lexis
