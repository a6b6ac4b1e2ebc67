import Lexis.Proofs.Lexeme.Followed
import Lexis.Proofs.Lexer.Boundary

/-!
# Source texts with other blanks

The texts of the tokens, written again one behind the other with some blanks between
them, make the same tokens.  A line comment takes all that stands on its line, so
only the newline behind it may follow.
-/

namespace Lexis

open Text

/-- The blanks that may be put behind the token `t`, before the tokens `ts`: at least
one where another token follows, and none behind a line comment. -/
structure IsGap (t : Token) (ts : List Token) (gap : Text) : Prop where
  blank : ∀ u ∈ gap, u ∈ blanks
  ne_nil : t.kind ≠ .lineComment → ts ≠ [] → gap ≠ []
  eq_nil : t.kind = .lineComment → gap = []

/-- The texts that the tokens have in a source text, with gaps between them. -/
inductive Respaced (source : Text) : List Token → Text → Prop
  | nil : Respaced source [] []
  | cons {t : Token} {ts : List Token} {gap w : Text} (hgap : IsGap t ts gap)
      (h : Respaced source ts w) : Respaced source (t :: ts) (t.spelling source ++ (gap ++ w))

/-! ## What comes behind a token -/

theorem Lexeme.newline_of_lineComment {keep : Bool} {u v : UInt16} {tail after : Text}
    {x : Lexeme} (h : recognise keep u (tail ++ v :: after) = .ok x) (hx : x.extra = tail.length)
    (hcomment : IsLineComment (u :: tail)) : v = unit '\n' := by
  apply Decidable.byContradiction
  intro hv
  have hlonger : Kind.lineComment.Spelling (u :: (tail ++ [v])) := by
    obtain ⟨content, hcons, hfree⟩ := hcomment
    refine ⟨content ++ [v], ?_, ?_⟩
    · rw [← List.cons_append, hcons]
      rfl
    · rw [List.mem_append, List.mem_singleton]
      rintro (hmem | hmem)
      · exact hfree hmem
      · exact hv hmem.symm
  -- The longer comment would have been recognised.
  have hpre : tail ++ [v] <+: tail ++ v :: after := ⟨after, by simp⟩
  have hle : (tail ++ [v]).length ≤ x.extra := by
    rcases covers_of_recognise h hpre hlonger with hlt | ⟨heq, -⟩
    · exact Nat.le_of_lt hlt
    · exact Nat.le_of_eq heq
  rw [List.length_append, List.length_singleton] at hle
  omega

namespace Token.Recognised

variable {source gap w : Text} {t s : Token} {ts : List Token}

/-- The token behind a line comment is the newline that ends the line. -/
theorem head?_spelling_of_lineComment (ht : t.Recognised true source)
    (hkind : t.kind = .lineComment) (h : Tiles source (t.last + 1) (s :: ts)) :
    (s.spelling source).head? = some (unit '\n') := by
  obtain ⟨n, u, rest, tail, x, hdrop, hx, hreads, -, hxkind, -, -, hlast⟩ := ht.reads
  cases h with
  | cons hle hblank hs hrest =>
      obtain ⟨m, v, rest', tail', -, hdrop', -, -, htext, -, -, hfirst, -⟩ := hs.reads
      obtain ⟨after, rfl⟩ := hreads.isPrefix
      have hbehind : source.drop (n + (tail.length + 1)) = after := by
        rw [← List.drop_drop, hdrop]
        simp
      obtain ⟨gap, hgap⟩ := Nat.exists_eq_add_of_le (m := n + (tail.length + 1)) (n := m) (by omega)
      have hafter : after.drop gap = v :: rest' := by
        rw [← hbehind, List.drop_drop, ← hgap, hdrop']
      cases after with
      | nil => simp at hafter
      | cons v' after =>
          have hcomment := hreads.spelling
          rw [← hxkind, hkind] at hcomment
          obtain rfl : v' = unit '\n' := Lexeme.newline_of_lineComment hx hreads.extra hcomment
          cases gap with
          | zero =>
              rw [htext, ← (List.cons.inj hafter).1]
              rfl
          | succ gap =>
              -- A newline is not blank, so the next token cannot begin behind it.
              have hnewline : source[n + (tail.length + 1)]? = some (unit '\n') := by
                rw [← List.head?_drop, hbehind]
                rfl
              have hfalse := hblank _ _ (by omega) (by omega) hnewline
              exact absurd hfalse (by decide)

theorem endsBefore (ht : t.Recognised true source) (hgap : IsGap t ts gap)
    (htiles : Tiles source (t.last + 1) ts) (hw : Respaced source ts w) :
    t.kind.EndsBefore (gap ++ w) := by
  unfold Kind.EndsBefore
  split
  · next hkind =>
    rw [hgap.eq_nil hkind, List.nil_append]
    intro u hu
    cases hw with
    | nil => simp at hu
    | cons hgap' hw' =>
        rw [List.head?_append, ht.head?_spelling_of_lineComment hkind htiles] at hu
        exact (Option.some.inj hu).symm
  · next hkind =>
    intro u hu
    cases gap with
    | nil =>
        cases hw with
        | nil => simp at hu
        | cons => exact absurd rfl (hgap.ne_nil hkind (by simp))
    | cons v gap =>
        obtain rfl : v = u := Option.some.inj hu
        exact hgap.blank v List.mem_cons_self

end Token.Recognised

/-! ## All tokens -/

namespace Cursor

variable {c : Cursor} {front w source : Text} {offset : Int} {ts : List Token}

theorem rest_skipBlanks {rest : Text} (hfront : ∀ v ∈ front, v ∈ blanks)
    (hrest : ∀ u, rest.head? = some u → isBlank u = false) (h : c.rest = front ++ rest) :
    c.skipBlanks.rest = rest := by
  have hblanks : (front ++ rest).takeWhile isBlank = front :=
    takeWhile_eq_left (fun v hv ↦ isBlank_iff_mem_blanks.mpr (hfront v hv)) hrest
  rw [skipBlanks, rest_advance, h, hblanks, List.drop_left]

/-- A run over the tokens with other blanks gives out the tokens again. -/
theorem course_of_respaced (hw : Respaced source ts w) (htiles : Tiles source offset ts)
    (hfront : ∀ v ∈ front, v ∈ blanks) (hrest : c.rest = front ++ w) :
    (∃ reason, c.course.ending = .ok reason) ∧
      c.course.tokens.map (fun t ↦ (t.kind, t.value)) = ts.map (fun t ↦ (t.kind, t.value)) := by
  induction hw generalizing c front offset with
  | nil =>
      have hscan : c.scan true = .ok none := by
        rw [scan, scanHere, rest_skipBlanks hfront (by simp) hrest]
      rw [course_of_scan_none hscan]
      exact ⟨⟨_, rfl⟩, rfl⟩
  | @cons t ts gap w hgap hw ih =>
      cases htiles with
      | cons hle hblank ht htiles =>
          have hends := ht.endsBefore hgap htiles hw
          obtain ⟨n, u, rest, tail, x, -, hx, hreads, htext, hkind, hvalue, -, -⟩ := ht.reads
          obtain ⟨after, rfl⟩ := hreads.isPrefix
          -- The lexeme is recognised on its own, and so it is before the gap.
          have halone : Lexeme.recognise true u tail = .ok x :=
            Lexeme.recognise_of_append hx (Nat.le_of_eq hreads.extra)
          have hfollowed := Lexeme.recognise_append (hkind ▸ hends) halone
          rw [htext, List.cons_append] at hrest
          have hskip := rest_skipBlanks hfront (by simpa using Lexeme.isBlank_eq_false hx) hrest
          have hscan := scanHere_of_recognise hskip hfollowed
          have hnext : (c.skipBlanks.advance (x.extra + 1)).rest = gap ++ w := by
            rw [rest_advance, hskip, hreads.extra, List.drop_succ_cons, List.drop_left]
          obtain ⟨hending, htokens⟩ := ih htiles hgap.blank hnext
          rw [course_of_scan_some hscan]
          refine ⟨hending, ?_⟩
          rw [Course.tokens_cons, List.map_cons, List.map_cons, htokens, hkind, hvalue]
          rfl

end Cursor

/-- Tokens do not depend on the blanks around them.  The texts of all tokens, with
any blanks before the first one and at least one between two that follow each other,
make tokens of the same kinds with the same values. -/
theorem tokenize_respaced {source front w : Text} {ts : List Token}
    (h : tokenize source {} {} = .ok ts) (hfront : ∀ v ∈ front, v ∈ blanks)
    (hw : Respaced source ts w) :
    ∃ ts', tokenize (front ++ w) {} {} = .ok ts' ∧
      ts'.map (fun t ↦ (t.kind, t.value)) = ts.map (fun t ↦ (t.kind, t.value)) := by
  obtain ⟨⟨reason, hending⟩, htokens⟩ :=
    Cursor.course_of_respaced hw (tiles_of_tokenize h) hfront
      (c := Cursor.start (front ++ w)) rfl
  exact ⟨_, tokenize_of_course hending, htokens⟩

/-- Numerals, operators and a comment that touch each other. -/
theorem tokenize_respaced_touching :
    ∃ ts ts', tokenize "1.2.3>>=a//b \n" {} {} = .ok ts ∧
      ts.map (·.value) = [Text.ofString "1.2", Text.ofString ".3", Text.ofString ">>",
        Text.ofString "=", Text.ofString "a", Text.ofString "//b ", Text.ofString "\n"] ∧
      tokenize "\t1.2 .3\r>> =  a\t//b \n" {} {} = .ok ts' ∧
      ts'.map (fun t ↦ (t.kind, t.value)) = ts.map (fun t ↦ (t.kind, t.value)) := by
  have hts : tokenize "1.2.3>>=a//b \n" {} {} = .ok
      [⟨.float, ⟨1, 1⟩, 0, 2, "1.2"⟩, ⟨.float, ⟨1, 4⟩, 3, 4, ".3"⟩,
        ⟨.punctuation .shiftRight, ⟨1, 6⟩, 5, 6, ">>"⟩, ⟨.punctuation .equals, ⟨1, 8⟩, 7, 7, "="⟩,
        ⟨.identifier, ⟨1, 9⟩, 8, 8, "a"⟩, ⟨.lineComment, ⟨1, 10⟩, 9, 12, "//b "⟩,
        ⟨.newline, ⟨1, 14⟩, 13, 13, "\n"⟩] :=
    eq_ok_of_toOption (by decide +kernel)
  have hapart {t : Token} {ts : List Token} (gap : Text) (ht : t.kind ≠ .lineComment)
      (hne : gap ≠ []) (hblank : gap.all isBlank = true) : IsGap t ts gap :=
    ⟨fun u hu ↦ isBlank_iff_mem_blanks.mp (List.all_eq_true.mp hblank u hu), fun _ _ ↦ hne,
      fun hkind ↦ absurd hkind ht⟩
  have hjoined {t : Token} {ts : List Token} (h : t.kind ≠ .lineComment → ts = []) :
      IsGap t ts [] :=
    ⟨by simp, fun ht hts ↦ absurd (h ht) hts, fun _ ↦ rfl⟩
  have hfront : ∀ v ∈ Text.ofString "\t", v ∈ blanks := fun v hv ↦
    isBlank_iff_mem_blanks.mp (List.all_eq_true.mp (by decide) v hv)
  obtain ⟨ts', hts', hsame⟩ := tokenize_respaced hts hfront
    (.cons (hapart " " (by decide) (by decide) (by decide))
      (.cons (hapart "\r" (by decide) (by decide) (by decide))
        (.cons (hapart " " (by decide) (by decide) (by decide))
          (.cons (hapart "  " (by decide) (by decide) (by decide))
            (.cons (hapart "\t" (by decide) (by decide) (by decide))
              (.cons (hjoined (by decide)) (.cons (hjoined (by decide)) .nil)))))))
  exact ⟨_, ts', hts, by decide, hts', hsame⟩

end Lexis
