import Lexis.Proofs.Lexeme.Fault
import Lexis.Proofs.Lexer.Tokenize
import Lexis.Proofs.Run.Failure

/-!
# Errors in a source text

An error is told at the place that its code says, never before the token that it
is about.  What stands before this token is made into the tokens that were kept.
-/

namespace Lexis

open Text

def opening : Text := [unit '/', unit '*']

/-- What an error says about the token that begins with `u` at an offset. -/
structure Localized (source : Text) (offset : Nat) (u : UInt16) (e : LexError) : Prop where
  invalid_iff : e.code = .invalidToken ↔ ¬ Lexeme.IsBeginning u
  invalid : e.code = .invalidToken → e.position = source.position offset ∧
    e.context = ([("token", .text (Token.inspect
      ⟨.invalid, source.position offset, offset, offset, [u]⟩))] : Fields)
  comment_iff : e.code = .unterminatedBlockComment ↔
    opening <+: source.drop offset ∧ ∀ n, offset + 2 ≤ n → ¬ closing <+: source.drop n
  unterminated : e.code = .unterminatedString ∨ e.code = .unterminatedBlockComment →
    e.position = source.endPosition
  other : e.code ≠ .unterminatedString → e.code ≠ .unterminatedBlockComment →
    ∃ n, offset ≤ n ∧ n < source.length ∧ e.position = source.position n
  not_before : ¬ e.position.Before (source.position offset)

theorem Defect.code_eq_invalidToken_iff {d : Defect} :
    d.code = .invalidToken ↔ d = .invalidUnit := by
  cases d <;> simp [code]

theorem Defect.code_eq_unterminatedBlockComment_iff {d : Defect} :
    d.code = .unterminatedBlockComment ↔ d = .unterminatedComment := by
  cases d <;> simp [code]

theorem Defect.open_iff {d : Defect} :
    d.Open ↔ d.code = .unterminatedString ∨ d.code = .unterminatedBlockComment := by
  cases d <;> simp [code, Open]

theorem unclosed_iff {source rest : Text} {offset : Nat} {u : UInt16}
    (h : source.drop offset = u :: rest) :
    (u = unit '/' ∧ ∃ tail, rest = unit '*' :: tail ∧ Lexeme.throughClose? tail = none) ↔
      opening <+: source.drop offset ∧ ∀ n, offset + 2 ≤ n → ¬ closing <+: source.drop n := by
  have hlater (tail : Text) (htail : rest = unit '*' :: tail) (i : Nat) :
      source.drop (offset + 2 + i) = tail.drop i := by
    rw [← List.drop_drop, ← List.drop_drop, h, htail]
    rfl
  rw [h]
  constructor
  · rintro ⟨rfl, tail, htail, hopen⟩
    refine ⟨⟨tail, by rw [htail]; rfl⟩, fun n hn ↦ ?_⟩
    obtain ⟨i, rfl⟩ := Nat.exists_eq_add_of_le hn
    rw [hlater tail htail]
    exact throughClose?_eq_none_iff.mp hopen i
  · rintro ⟨⟨tail, htail⟩, hopen⟩
    obtain ⟨hu, hrest⟩ := List.cons.inj htail
    refine ⟨hu.symm, tail, hrest.symm, throughClose?_eq_none_iff.mpr fun i ↦ ?_⟩
    rw [← hlater tail hrest.symm]
    exact hopen _ (by omega)

namespace Cursor

variable {source rest : Text} {c : Cursor} {u : UInt16} {fault : Fault}

/-- A fault that is not about an end shows at one of the units. -/
theorem At.exists_locate (h : c.At source) (hrest : c.rest = u :: rest) (hshows : fault.Shows rest)
    (hopen : ¬ fault.defect.Open) :
    ∃ n, c.offset ≤ n ∧ n < source.length ∧ c.locate fault.offset = source.position n := by
  have hlength := h.length_rest
  have hle := h.offset_le
  have hcons : c.rest.length = rest.length + 1 := by rw [hrest, List.length_cons]
  rcases hshows.atUnit hopen with hunit | ⟨hend, v, hv, hnewline⟩
  · exact ⟨c.offset + fault.offset, by omega, by omega, h.locate_of_lt (by omega)⟩
  · have hlast : source.getLast? = some v := by
      have hsource : source = source.take c.offset ++ u :: rest := by
        rw [← hrest, h.rest_eq, List.take_append_drop]
      rw [hsource, List.getLast?_append, List.getLast?_cons, hv]
      rfl
    refine ⟨source.length - 1, by omega, by omega, ?_⟩
    rw [hend, ← hcons, h.locate_length, Text.endPosition_eq hlast, if_neg hnewline]

theorem At.localized (h : c.At source) (hrest : c.rest = u :: rest)
    (hfails : Lexeme.Fails u rest fault) : Localized source c.offset u (c.error fault) := by
  have hdrop : source.drop c.offset = u :: rest := by rw [← h.rest_eq, hrest]
  have hlength := h.length_rest
  have hshows := hfails.shows
  have hcons : c.rest.length = rest.length + 1 := by rw [hrest, List.length_cons]
  have hend (hopen : fault.defect.Open) : c.locate fault.offset = source.endPosition := by
    rw [hshows.atEnd hopen, ← hcons, h.locate_length]
  constructor
  · exact Defect.code_eq_invalidToken_iff.trans hfails.invalidUnit_iff
  · intro hcode
    have hinvalid := Defect.code_eq_invalidToken_iff.mp hcode
    rcases hfails.beginning_cases with ⟨-, hd⟩ | ⟨-, rfl⟩
    · exact absurd hinvalid hd
    · refine ⟨?_, ?_⟩
      · have hpos : 0 < c.rest.length := by omega
        exact h.locate_of_lt hpos
      · show c.context .invalidUnit = _
        rw [context, hrest, ← h.position_eq]
        rfl
  · exact Defect.code_eq_unterminatedBlockComment_iff.trans
      (hfails.unterminatedComment_iff.trans (unclosed_iff hdrop))
  · intro hcode
    exact hend (Defect.open_iff.mpr hcode)
  · intro hstring hcomment
    apply h.exists_locate hrest hshows
    rw [Defect.open_iff]
    rintro (hcode | hcode)
    · exact hstring hcode
    · exact hcomment hcode
  · by_cases hopen : fault.defect.Open
    · rw [error, hend hopen]
      exact Text.not_endPosition_before (by omega)
    · obtain ⟨n, hle, hlt, hn⟩ := h.exists_locate hrest hshows hopen
      rw [error, hn]
      exact Text.not_position_before hle (by omega)

end Cursor

/-- A source text that is not made into tokens fails at the beginning of a token.
The text before it is made into the tokens that were kept, and the error, which is
kept too, tells what is wrong behind it. -/
theorem localized_of_tokenize {source : Text} {e : RunError}
    (h : tokenize source {} {} = .error e) :
    ∃ (error : LexError) (offset : Nat) (u : UInt16), e = .lexical error ∧
      (({} : Lexer).run .none none source {}).lexer.lastError = some error ∧
      source[offset]? = some u ∧
      tokenize (source.take offset) {} {} =
        .ok (({} : Lexer).run .none none source {}).lexer.tokens.toList ∧
      Localized source offset u error := by
  have hrun : ({} : Lexer).run .none none source {} =
      ({} : Lexer).completed .none none source ((Cursor.start source).course.restrict {} {}) :=
    Lexer.run_eq_completed rfl Observers.calm_none Lexer.proceeds_none rfl
  rw [tokenize_eq_result rfl, Course.restrict_default, Course.result] at h
  rw [Course.restrict_default] at hrun
  split at h
  · simp at h
  · next error hending =>
    obtain ⟨c, hc, -, hscan, hcourse⟩ := Cursor.exists_failure (Cursor.at_start source) hending
    have hkept : tokenize (source.take c.offset) {} {} =
        .ok (Cursor.start source).course.tokens := by
      rw [tokenize_eq_result rfl, Course.restrict_default, Course.result, ← Cursor.upTo_start,
        hcourse]
    obtain ⟨u, rest, fault, hrest, hfault, rfl⟩ := Cursor.scanHere_eq_error hscan
    refine ⟨_, c.offset, u, (Except.error.inj h).symm, ?_, ?_, ?_, ?_⟩
    · rw [hrun, Lexer.completed, Course.failure, hending]
    · have hget := hc.getElem? 0
      rw [hrest] at hget
      exact hget
    · rw [hkept, hrun]
      simp [Lexer.completed]
    · exact hc.localized hrest (Lexeme.fails_of_recognise hfault)

theorem localized_of_tokenize_open_comment :
    ∃ error : LexError, tokenize "x = 'b' /* c *\n" {} {} = .error (.lexical error) ∧
      error.code = .unterminatedBlockComment ∧ error.position = ⟨2, 0⟩ ∧
      ∃ offset u, (Text.ofString "x = 'b' /* c *\n")[offset]? = some u ∧
        tokenize ((Text.ofString "x = 'b' /* c *\n").take offset) {} {} =
          .ok (({} : Lexer).run .none none "x = 'b' /* c *\n" {}).lexer.tokens.toList ∧
        Localized "x = 'b' /* c *\n" offset u error := by
  have hcode : (({} : Lexer).run .none none "x = 'b' /* c *\n" {}).lexer.lastError.map
      (fun error ↦ (error.code, error.position)) = some (.unterminatedBlockComment, ⟨2, 0⟩) := by
    decide +kernel
  have hnone : (tokenize "x = 'b' /* c *\n" {} {}).toOption = none := by decide +kernel
  cases h : tokenize "x = 'b' /* c *\n" {} {} with
  | ok ts => simp [h, Except.toOption] at hnone
  | error e =>
      obtain ⟨error, offset, u, rfl, hlast, hu, hkept, hlocalized⟩ := localized_of_tokenize h
      rw [hlast, Option.map_some, Option.some.injEq, Prod.mk.injEq] at hcode
      exact ⟨error, rfl, hcode.1, hcode.2, offset, u, hu, hkept, hlocalized⟩

end Lexis
