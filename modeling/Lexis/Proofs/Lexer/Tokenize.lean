import Lexis.Proofs.Lexer.Course
import Lexis.Proofs.Run.Tiling

/-!
# The tokens of a source text

What a lexer of its own makes of a source text without any options: the tokens
tile the text, and each of them is as long as any lexical class allows.
-/

namespace Lexis

open Text

theorem tokenize_eq_result {source : Text} {filter : Filter} {options : RunOptions}
    {rule : StopRule} (hrule : options.rule = .ok rule) :
    tokenize source filter options =
      ((Cursor.start source).course.restrict filter rule).result := by
  unfold tokenize
  rw [Lexer.run_eq_completed rfl Observers.calm_none Lexer.proceeds_none hrule]
  dsimp only [Lexer.completed]
  cases hcourse : (Cursor.start source).course.restrict filter rule with
  | mk ts ending => cases ending <;> simp [Course.result, Except.map]

theorem course_of_tokenize {source : Text} {ts : List Token} (h : tokenize source {} {} = .ok ts) :
    (Cursor.start source).course.tokens = ts ∧
      ∃ reason, (Cursor.start source).course.ending = .ok reason := by
  rw [tokenize_eq_result rfl, Course.restrict_default, Course.result] at h
  split at h
  · next reason hending => exact ⟨Except.ok.inj h, reason, hending⟩
  · simp at h

theorem eq_ok_of_toOption {ε α : Type} {x : Except ε α} {a : α} (h : x.toOption = some a) :
    x = .ok a := by
  cases x with
  | error e => simp [Except.toOption] at h
  | ok b => rw [Option.some.inj h]

theorem tiles_of_tokenize {source : Text} {ts : List Token} (h : tokenize source {} {} = .ok ts) :
    Tiles source 0 ts := by
  obtain ⟨rfl, reason, hending⟩ := course_of_tokenize h
  exact Cursor.tiles_course (Cursor.in_start source) hending

/-- With any options, a token is recognised where it stands. -/
theorem recognised_of_tokenize {source : Text} {filter : Filter} {options : RunOptions}
    {ts : List Token} {t : Token} (h : tokenize source filter options = .ok ts) (ht : t ∈ ts) :
    t.Recognised true source := by
  cases hrule : options.rule with
  | error limit => simp [tokenize, Lexer.run, Lexer.start, hrule, Except.map] at h
  | ok rule =>
      rw [tokenize_eq_result hrule, Course.result] at h
      split at h
      · obtain rfl := Except.ok.inj h
        have hmem := (Course.tokens_restrict_sublist filter rule _).subset ht
        exact Cursor.recognised_of_mem_course (Cursor.in_start source) hmem
      · simp at h

/-- Tokens that lie in a source text one after the other and leave out nothing but
blanks.  They stand for their own text, or between quotes. -/
structure Tiling (source : Text) (ts : List Token) : Prop where
  bounds : ∀ t ∈ ts, 0 ≤ t.first ∧ t.first ≤ t.last ∧ t.last < source.length
  apart : ts.Pairwise fun s t ↦ s.last < t.first
  blank : ∀ (k : Nat) (u : UInt16), source[k]? = some u →
    (∀ t ∈ ts, k < t.first ∨ t.last < k) → u = unit ' ' ∨ u = unit '\t' ∨ u = unit '\r'
  kind : ∀ t ∈ ts, t.kind ≠ .invalid
  value : ∀ t ∈ ts, t.kind.quote? = none → t.value = t.spelling source
  quotes : ∀ t ∈ ts, ∀ q, t.kind.quote? = some q →
    t.first < t.last ∧ source[t.first.toNat]? = some q ∧ source[t.last.toNat]? = some q

/-- No unit of a source text is lost, or belongs to two tokens. -/
theorem tiling_of_tokenize {source : Text} {ts : List Token}
    (h : tokenize source {} {} = .ok ts) : Tiling source ts := by
  have htiles := tiles_of_tokenize h
  constructor
  · intro t ht
    exact (htiles.recognised ht).bounds
  · exact htiles.pairwise
  · intro k u hu hout
    have hblank := htiles.isBlank (Int.natCast_nonneg k) hu hout
    simpa only [isBlank, Bool.or_eq_true, beq_iff_eq, or_assoc] using hblank
  · intro t ht
    exact (htiles.recognised ht).kind_ne_invalid
  · intro t ht hq
    exact (htiles.recognised ht).value_eq hq
  · intro t ht q hq
    exact (htiles.recognised ht).quotes hq

theorem tiling_of_tokenize_assignment :
    ∃ ts, tokenize "a = '\\x62' // b\r\n" {} {} = .ok ts ∧
      ts.map (fun t ↦ (t.kind, t.first, t.last)) =
        [(.identifier, 0, 0), (.punctuation .equals, 2, 2), (.singleString, 4, 9),
          (.lineComment, 11, 15), (.newline, 16, 16)] ∧
      Tiling "a = '\\x62' // b\r\n" ts := by
  have hts : tokenize "a = '\\x62' // b\r\n" {} {} = .ok
      [⟨.identifier, ⟨1, 1⟩, 0, 0, "a"⟩, ⟨.punctuation .equals, ⟨1, 3⟩, 2, 2, "="⟩,
        ⟨.singleString, ⟨1, 5⟩, 4, 9, "b"⟩, ⟨.lineComment, ⟨1, 12⟩, 11, 15, "// b\r"⟩,
        ⟨.newline, ⟨1, 17⟩, 16, 16, "\n"⟩] :=
    eq_ok_of_toOption (by decide +kernel)
  exact ⟨_, hts, rfl, tiling_of_tokenize hts⟩

/-- Each token is the longest text of any lexical class where it stands, and is of
the one class that this text belongs to. -/
theorem longest_of_tokenize {source : Text} {ts : List Token}
    (h : tokenize source {} {} = .ok ts) :
    ∀ t ∈ ts, IsLongestLexeme (source.drop t.first.toNat) (t.spelling source) ∧
      ∀ k : Kind, k.Spelling (t.spelling source) ↔ k = t.kind := by
  intro t ht
  exact ((tiles_of_tokenize h).recognised ht).longest

theorem longest_of_tokenize_overlaps :
    ∃ ts, tokenize "1e5.5.. ...5 0x" {} {} = .ok ts ∧
      ts.map (fun t ↦ (t.kind, t.spelling "1e5.5.. ...5 0x")) =
        [(.floatExp, Text.ofString "1e5.5"), (.punctuation .doubleDot, Text.ofString ".."),
          (.punctuation .tripleDot, Text.ofString "..."), (.integer, Text.ofString "5"),
          (.hex, Text.ofString "0x")] ∧
      ∀ t ∈ ts,
        IsLongestLexeme ((Text.ofString "1e5.5.. ...5 0x").drop t.first.toNat)
            (t.spelling "1e5.5.. ...5 0x") ∧
          ∀ k : Kind, k.Spelling (t.spelling "1e5.5.. ...5 0x") ↔ k = t.kind := by
  have hts : tokenize "1e5.5.. ...5 0x" {} {} = .ok
      [⟨.floatExp, ⟨1, 1⟩, 0, 4, "1e5.5"⟩, ⟨.punctuation .doubleDot, ⟨1, 6⟩, 5, 6, ".."⟩,
        ⟨.punctuation .tripleDot, ⟨1, 9⟩, 8, 10, "..."⟩, ⟨.integer, ⟨1, 12⟩, 11, 11, "5"⟩,
        ⟨.hex, ⟨1, 14⟩, 13, 14, "0x"⟩] :=
    eq_ok_of_toOption (by decide +kernel)
  exact ⟨_, hts, by decide, longest_of_tokenize hts⟩

end Lexis
