import Lexis.Proofs.Lexer.Tokenize
import Lexis.Proofs.Run.Boundary

/-!
# Source texts that are cut behind a token

The two parts of a source text that is cut behind a token are made into the tokens
before and behind the cut, and the text of a single token into this token: no token
depends on what stands around it.
-/

namespace Lexis

open Text

theorem tokenize_of_course {source : Text} {reason : StopReason}
    (h : (Cursor.start source).course.ending = .ok reason) :
    tokenize source {} {} = .ok (Cursor.start source).course.tokens := by
  rw [tokenize_eq_result rfl, Course.restrict_default, Course.result, h]

/-- A source text may be cut behind any of its tokens.  The text up to there makes
the tokens up to this one.  The text behind makes those that follow, with offsets
counted from the cut.  The text of the token alone makes this token again. -/
theorem cut_of_tokenize {source : Text} {ts : List Token} {k : Nat} {t : Token}
    (h : tokenize source {} {} = .ok ts) (hk : ts[k]? = some t) :
    ∃ cut : Nat, t.last + 1 = cut ∧
      tokenize (source.take cut) {} {} = .ok (ts.take (k + 1)) ∧
      (∃ later, tokenize (source.drop cut) {} {} = .ok later ∧
        later.map (Token.seenFrom 0) = (ts.drop (k + 1)).map (Token.seenFrom cut)) ∧
      tokenize (t.spelling source) {} {} =
        .ok [⟨t.kind, ⟨1, 1⟩, 0, t.last - t.first, t.value⟩] := by
  have htiles := tiles_of_tokenize h
  obtain ⟨rfl, reason, hending⟩ := course_of_tokenize h
  obtain ⟨d, hd, -, hoffset, hbefore, hafter⟩ :=
    Cursor.exists_boundary (Cursor.in_start source) hk
  refine ⟨d.offset, hoffset.symm, ?_, ?_, ?_⟩
  · rw [Cursor.upTo_start] at hbefore
    rw [tokenize_of_course (congrArg Course.ending hbefore), hbefore]
  · have htwin : Cursor.Twin d.offset d (Cursor.start (source.drop d.offset)) :=
      ⟨hd.rest_eq, (Int.zero_add _).symm⟩
    have hend : d.course.ending = .ok reason := by rw [hafter, hending]
    obtain ⟨hlater, htokens⟩ := htwin.course hend
    rw [hafter] at htokens
    exact ⟨_, tokenize_of_course hlater, htokens⟩
  · have halone := (htiles.recognised (List.mem_of_getElem? hk)).course_spelling
    rw [tokenize_of_course (congrArg Course.ending halone), halone]

/-- The cut is behind a string, between dots and a comment that spans lines. -/
theorem cut_of_tokenize_string :
    ∃ ts, tokenize "1.5..'\\n' /*\n*/ x" {} {} = .ok ts ∧
      ts.map (·.value) = [Text.ofString "1.5", Text.ofString "..", Text.ofString "\n",
        Text.ofString "/*\n*/", Text.ofString "x"] ∧
      tokenize "1.5..'\\n'" {} {} = .ok (ts.take 3) ∧
      (∃ later, tokenize " /*\n*/ x" {} {} = .ok later ∧
        later.map (Token.seenFrom 0) = (ts.drop 3).map (Token.seenFrom 9)) ∧
      tokenize "'\\n'" {} {} = .ok [⟨.singleString, ⟨1, 1⟩, 0, 3, "\n"⟩] := by
  have hts : tokenize "1.5..'\\n' /*\n*/ x" {} {} = .ok
      [⟨.float, ⟨1, 1⟩, 0, 2, "1.5"⟩, ⟨.punctuation .doubleDot, ⟨1, 4⟩, 3, 4, ".."⟩,
        ⟨.singleString, ⟨1, 6⟩, 5, 8, "\n"⟩, ⟨.blockComment, ⟨1, 11⟩, 10, 14, "/*\n*/"⟩,
        ⟨.identifier, ⟨2, 4⟩, 16, 16, "x"⟩] :=
    eq_ok_of_toOption (by decide +kernel)
  obtain ⟨cut, hcut, hbefore, hafter, halone⟩ := cut_of_tokenize (k := 2) hts rfl
  obtain rfl : cut = 9 := by
    have hnine : (9 : Int) = cut := hcut
    omega
  exact ⟨_, hts, rfl, hbefore, hafter, halone⟩

end Lexis
