import Lexis.Proofs.Lexeme.Reading

/-!
# Recognising in a text that is cut off

Every recogniser stops at the end of the input just as it stops at the unit that
does not belong to the lexeme.  So a lexeme is still recognised when the text is
cut off somewhere behind it.
-/

namespace Lexis

open Text

theorem takeWhile_of_append {p : UInt16 → Bool} {a b : Text}
    (h : ((a ++ b).takeWhile p).length ≤ a.length) : a.takeWhile p = (a ++ b).takeWhile p := by
  rw [List.takeWhile_append] at h ⊢
  by_cases hall : (a.takeWhile p).length = a.length
  · rw [if_pos hall] at h ⊢
    have hnil : b.takeWhile p = [] := by
      rw [List.length_append] at h
      exact List.length_eq_zero_iff.mp (by omega)
    rw [hnil, List.append_nil]
    exact (List.takeWhile_prefix p).eq_of_length hall
  · rw [if_neg hall]

theorem takeWhile_take {p : UInt16 → Bool} {text : Text} {n : Nat}
    (h : (text.takeWhile p).length ≤ n) : (text.take n).takeWhile p = text.takeWhile p := by
  have hsplit : text.take n ++ text.drop n = text := List.take_append_drop n text
  have hle : ((text.take n ++ text.drop n).takeWhile p).length ≤ (text.take n).length := by
    have hlength := (List.takeWhile_sublist (l := text) p).length_le
    rw [hsplit, List.length_take]
    omega
  rw [takeWhile_of_append hle, hsplit]

/-- What is read at the beginning of a text is also there when the text is cut off
behind it. -/
theorem split_of_append {w later rest a b : Text} (hw : w ++ rest = a ++ b)
    (hle : (w ++ later).length ≤ a.length) :
    ∃ a', a = w ++ a' ∧ rest = a' ++ b ∧ later.length ≤ a'.length := by
  have hpre : w <+: a := by
    apply List.prefix_of_prefix_length_le ⟨rest, hw⟩ (List.prefix_append a b)
    rw [List.length_append] at hle
    omega
  obtain ⟨a', rfl⟩ := hpre
  rw [List.append_assoc] at hw
  refine ⟨a', rfl, List.append_cancel_left hw, ?_⟩
  simpa using hle

/-! ## String literals -/

namespace Literal

theorem codePoint_of_append {limit taken : Nat} {a b text : Text}
    (h : codePoint limit (a ++ b) = .ok (text, taken)) (htaken : taken ≤ a.length) :
    codePoint limit a = .ok (text, taken) := by
  have hlength : taken = (((a ++ b).take limit).takeWhile isHexDigit).length := by
    unfold codePoint at h
    dsimp only at h
    split at h
    · simp at h
    · split at h
      · simp at h
      · simp only [Except.ok.injEq, Prod.mk.injEq] at h
        exact h.2.symm
  have hdigits : (a.take limit).takeWhile isHexDigit =
      ((a ++ b).take limit).takeWhile isHexDigit := by
    rw [List.take_append] at hlength ⊢
    apply takeWhile_of_append
    have hle : taken ≤ limit := by
      have hle := (List.takeWhile_sublist (l := (a ++ b).take limit) isHexDigit).length_le
      rw [List.take_append, ← hlength, ← List.take_append, List.length_take] at hle
      omega
    rw [← hlength, List.length_take]
    omega
  unfold codePoint
  rw [hdigits]
  exact h

theorem escape_of_append {marker : UInt16} {taken : Nat} {a b text : Text}
    (h : escape marker (a ++ b) = .ok (text, taken)) (htaken : taken ≤ a.length) :
    escape marker a = .ok (text, taken) := by
  unfold escape at h ⊢
  split
  · next hx =>
    rw [if_pos hx] at h
    exact codePoint_of_append h htaken
  · next hx =>
    rw [if_neg hx] at h
    split
    · next hX =>
      rw [if_pos hX] at h
      exact codePoint_of_append h htaken
    · next hX =>
      rw [if_neg hX] at h
      exact h

/-- The closing quote comes behind all that belongs to an escape. -/
theorem lt_of_body {quote : UInt16} {skip n : Nat} {rest value : Text}
    (h : body quote skip rest = .ok (value, n)) : skip < n := by
  fun_induction body quote skip rest generalizing value n with
  | case1 => simp at h
  | case2 skip u rest ih =>
      obtain ⟨later, taken, hlater, -, rfl⟩ := prepend_eq_ok h
      have hlt := ih hlater
      omega
  | case3 rest =>
      simp only [Except.ok.injEq, Prod.mk.injEq] at h
      omega
  | case4 => simp at h
  | case5 => simp at h
  | case6 marker rest text taken hescape _ ih =>
      obtain ⟨later, length, -, -, rfl⟩ := prepend_eq_ok h
      omega
  | case7 u rest hfree hslash ih =>
      obtain ⟨later, taken, -, -, rfl⟩ := prepend_eq_ok h
      omega

theorem body_quote (quote : UInt16) (rest : Text) :
    body quote 0 (quote :: rest) = .ok ([], 1) := by
  rw [body.eq_def]
  exact if_pos rfl

theorem body_plain {quote u : UInt16} (hfree : u ≠ quote) (hslash : u ≠ unit '\\') (rest : Text) :
    body quote 0 (u :: rest) = prepend [u] 1 (body quote 0 rest) := by
  rw [body.eq_def]
  simp only [hfree, hslash, if_false]

theorem body_escape {quote : UInt16} (hfree : unit '\\' ≠ quote) (marker : UInt16) (rest : Text) :
    body quote 0 (unit '\\' :: marker :: rest) =
      match escape marker rest with
      | .error fault => .error (fault.shift 2)
      | .ok (text, taken) => prepend text 2 (body quote taken rest) := by
  rw [body.eq_def]
  exact (if_neg hfree).trans (if_pos rfl)

theorem body_escape_eq_ok {quote marker : UInt16} {n : Nat} {rest value : Text}
    (hfree : unit '\\' ≠ quote)
    (h : body quote 0 (unit '\\' :: marker :: rest) = .ok (value, n)) :
    ∃ text taken later length, escape marker rest = .ok (text, taken) ∧
      body quote taken rest = .ok (later, length) ∧ value = text ++ later ∧ n = 2 + length := by
  rw [body_escape hfree] at h
  split at h
  · simp at h
  · next text taken hescape =>
    obtain ⟨later, length, hlater, hvalue, hn⟩ := prepend_eq_ok h
    exact ⟨text, taken, later, length, hescape, hlater, hvalue, hn⟩

/-- A literal that ends before the text is cut off is read as before. -/
theorem body_of_append {quote : UInt16} {skip n : Nat} {a b value : Text}
    (h : body quote skip (a ++ b) = .ok (value, n)) (hn : n ≤ a.length) :
    body quote skip a = .ok (value, n) := by
  fun_induction body quote skip a generalizing value n with
  | case1 skip =>
      have hlt := lt_of_body h
      simp at hn
      omega
  | case2 skip u rest ih =>
      rw [List.cons_append, body] at h
      obtain ⟨later, taken, hlater, rfl, rfl⟩ := prepend_eq_ok h
      rw [ih hlater (by simp at hn; omega)]
      rfl
  | case3 rest =>
      rw [List.cons_append, body_quote] at h
      exact h
  | case4 hfree =>
      cases b with
      | nil =>
          rw [List.append_nil, body.eq_def] at h
          simp only [hfree, if_false, if_true, reduceCtorEq] at h
      | cons marker b =>
          obtain ⟨text, taken, later, length, -, -, -, rfl⟩ := body_escape_eq_ok hfree h
          simp at hn
          omega
  | case5 marker rest fault hescape hfree =>
      obtain ⟨text, taken, later, length, hescape', hlater, -, rfl⟩ := body_escape_eq_ok hfree h
      have hlt := lt_of_body hlater
      simp only [List.length_cons] at hn
      rw [escape_of_append hescape' (by omega)] at hescape
      simp at hescape
  | case6 marker rest text taken hescape hfree ih =>
      obtain ⟨text', taken', later, length, hescape', hlater, rfl, rfl⟩ :=
        body_escape_eq_ok hfree h
      have hlt := lt_of_body hlater
      simp only [List.length_cons] at hn
      rw [escape_of_append hescape' (by omega)] at hescape
      obtain ⟨rfl, rfl⟩ := Prod.mk.inj (Except.ok.inj hescape)
      rw [ih hlater (by omega)]
      rfl
  | case7 u rest hfree hslash ih =>
      rw [List.cons_append, body_plain hfree hslash] at h
      obtain ⟨later, taken, hlater, rfl, rfl⟩ := prepend_eq_ok h
      rw [ih hlater (by simp at hn; omega)]
      rfl

theorem string_of_append {quote : UInt16} {a b : Text} {x : Lexeme}
    (h : string quote (a ++ b) = .ok x) (hx : x.extra ≤ a.length) : string quote a = .ok x := by
  unfold string at h ⊢
  cases hbody : body quote 0 (a ++ b) with
  | error fault =>
      rw [hbody] at h
      simp [Except.map] at h
  | ok read =>
      obtain ⟨value, n⟩ := read
      rw [hbody] at h
      simp only [Except.map, Except.ok.injEq] at h
      subst h
      rw [body_of_append hbody hx]
      rfl

end Literal

/-! ## Numerals -/

namespace Numeral

/-- A run of moves is what the reader does. -/
theorem decimalTail_of_run {point exponent : Bool} {rest tail : Text} {k : Kind}
    (h : Run point exponent rest tail k) :
    decimalTail point exponent rest = .ok (tail, k) := by
  induction h with
  | @stop point exponent rest hstop =>
      cases rest with
      | nil => rfl
      | cons u rest =>
          obtain ⟨hdigit, hpoint, hmarker⟩ := hstop u rfl
          have hnot : ¬ (u = unit '.' ∧ point = false) := by
            rintro ⟨hu, hfalse⟩
            simp [hpoint hu] at hfalse
          rw [decimalTail.eq_def]
          simp only [hdigit, hnot, hmarker, Bool.false_eq_true, if_false]
  | digit hu _ ih =>
      rw [decimalTail.eq_def]
      simp only [hu, if_true, ih]
      rfl
  | point _ ih =>
      have hdigit : isDigit (unit '.') = false := by decide
      rw [decimalTail.eq_def]
      simp only [hdigit, Bool.false_eq_true, if_false, and_self, if_true, ih]
      rfl
  | @exponent point marker digit sign rest tail k hmarker hsign hdigit _ ih =>
      have hfigure := not_isFigure_of_isMarker hmarker
      have hnotDigit : isDigit marker = false := by
        simpa using fun hd ↦ hfigure (.inl hd)
      have hnotPoint : marker ≠ unit '.' := fun hu ↦ hfigure (.inr hu)
      rw [decimalTail.eq_def]
      rcases hsign with rfl | ⟨s, rfl, hs⟩
      · simp only [hnotDigit, hnotPoint, hmarker, hdigit, Bool.false_eq_true, false_and, if_false,
          if_true, List.nil_append, ih]
        rfl
      · have hsignDigit := isDigit_eq_false_of_isSign hs
        simp only [hnotDigit, hnotPoint, hmarker, hdigit, hs, hsignDigit, Bool.false_eq_true,
          false_and, if_false, if_true, List.cons_append, List.nil_append, ih]
        rfl

/-- A run of moves that ends before the text is cut off stays the same. -/
theorem Run.of_append {point exponent : Bool} {a b rest tail : Text} {k : Kind}
    (h : Run point exponent rest tail k) (hrest : rest = a ++ b) (htail : tail.length ≤ a.length) :
    Run point exponent a tail k := by
  induction h generalizing a with
  | stop hstop =>
      refine .stop fun u hu ↦ hstop u ?_
      obtain ⟨a, rfl⟩ := List.head?_eq_some_iff.mp hu
      rw [hrest]
      rfl
  | @digit point exponent u rest tail k hu _ ih =>
      obtain ⟨a, rfl, hrest, hle⟩ := split_of_append (w := [u]) hrest htail
      exact .digit hu (ih hrest hle)
  | @point exponent rest tail k _ ih =>
      obtain ⟨a, rfl, hrest, hle⟩ := split_of_append (w := [unit '.']) hrest htail
      exact .point (ih hrest hle)
  | @exponent point marker digit sign rest tail k hmarker hsign hdigit _ ih =>
      obtain ⟨a, rfl, hrest, hle⟩ := split_of_append (w := marker :: (sign ++ [digit]))
        (by simpa using hrest) (by simpa using htail)
      have hrun := Run.exponent hmarker hsign hdigit (ih hrest hle)
      simpa using hrun

theorem decimal_of_append {u : UInt16} {a b : Text} {x : Lexeme}
    (h : decimal u (a ++ b) = .ok x) (hx : x.extra ≤ a.length) : decimal u a = .ok x := by
  obtain ⟨tail, k, hrun, rfl⟩ := run_of_decimal h
  rw [decimal, decimalTail_of_run (hrun.of_append rfl hx)]
  rfl

theorem based?_of_append {u : UInt16} {a b : Text} {x : Lexeme} (h : based? u (a ++ b) = some x)
    (hx : x.extra ≤ a.length) : based? u a = some x := by
  cases a with
  | nil =>
      obtain ⟨-, marker, digits, -, ⟨-, rfl⟩ | ⟨-, rfl⟩⟩ := Lexeme.based?_cases h
      · simp [Lexeme.plain] at hx
      · simp [Lexeme.plain] at hx
  | cons marker a =>
      have hdigits {k : Kind} {p : UInt16 → Bool}
          (hk : (Lexeme.plain k u (marker :: (a ++ b).takeWhile p)).extra ≤ (marker :: a).length) :
          a.takeWhile p = (a ++ b).takeWhile p :=
        takeWhile_of_append (by simpa [Lexeme.plain] using hk)
      rw [List.cons_append, based?] at h
      rw [based?]
      split at h
      · simp at h
      · next hzero =>
        rw [if_neg hzero]
        split at h
        · next hmarker =>
          cases h
          rw [if_pos hmarker, hdigits hx]
        · next hmarker =>
          rw [if_neg hmarker]
          split at h
          · next hbinary =>
            cases h
            rw [if_pos hbinary, hdigits hx]
          · simp at h

theorem based?_eq_none_of_append {u : UInt16} {a b : Text} (h : based? u (a ++ b) = none) :
    based? u a = none := by
  cases a with
  | nil => rfl
  | cons marker a =>
      rw [List.cons_append, based?] at h
      rw [based?]
      split
      · rfl
      · next hzero =>
        rw [if_neg hzero] at h
        split
        · next hmarker =>
          rw [if_pos hmarker] at h
          simp at h
        · next hmarker =>
          rw [if_neg hmarker] at h
          split
          · next hbinary =>
            rw [if_pos hbinary] at h
            simp at h
          · rfl

end Numeral

namespace Lexeme

theorem numeral_of_append {u : UInt16} {a b : Text} {x : Lexeme} (h : numeral u (a ++ b) = .ok x)
    (hx : x.extra ≤ a.length) : numeral u a = .ok x := by
  unfold numeral at h ⊢
  cases hbased : Numeral.based? u (a ++ b) with
  | some y =>
      rw [hbased] at h
      cases h
      rw [Numeral.based?_of_append hbased hx]
  | none =>
      rw [hbased] at h
      rw [Numeral.based?_eq_none_of_append hbased]
      exact Numeral.decimal_of_append h hx

/-! ## Words, comments and punctuation -/

theorem word_of_append {u : UInt16} {a b : Text} (hx : (word u (a ++ b)).extra ≤ a.length) :
    word u a = word u (a ++ b) := by
  unfold word
  rw [takeWhile_of_append hx]

theorem throughClose?_of_append {a b tail : Text} (h : throughClose? (a ++ b) = some tail)
    (htail : tail.length ≤ a.length) : throughClose? a = some tail := by
  have htwo : 2 ≤ tail.length := (isClosed_of_throughClose? h).2.isSuffix.length_le
  fun_induction throughClose? a generalizing tail with
  | case1 =>
      rw [List.length_nil] at htail
      omega
  | case2 =>
      rw [List.length_singleton] at htail
      omega
  | case3 u v rest hclose =>
      rw [List.cons_append, List.cons_append, throughClose?, if_pos hclose] at h
      exact h
  | case4 u v rest hopen ih =>
      rw [List.cons_append, List.cons_append, throughClose?, if_neg hopen] at h
      obtain ⟨later, hlater, rfl⟩ := Option.map_eq_some_iff.mp h
      have hlonger : 2 ≤ later.length := (isClosed_of_throughClose? hlater).2.isSuffix.length_le
      rw [ih hlater (by simpa using htail) hlonger]
      rfl

theorem blockComment_of_append {keep : Bool} {u v : UInt16} {a b : Text} {x : Lexeme}
    (h : blockComment keep u v (a ++ b) = .ok x) (hx : x.extra ≤ a.length + 1) :
    blockComment keep u v a = .ok x := by
  unfold blockComment at h ⊢
  cases hclose : throughClose? (a ++ b) with
  | none =>
      rw [hclose] at h
      simp at h
  | some tail =>
      rw [hclose] at h
      cases h
      have htail : tail.length ≤ a.length := by simpa [comment] using hx
      rw [throughClose?_of_append hclose htail]

theorem slash_of_append {keep : Bool} {a b : Text} {x : Lexeme}
    (h : slash keep (unit '/') (a ++ b) = .ok x) (hx : x.extra ≤ a.length) :
    slash keep (unit '/') a = .ok x := by
  cases a with
  | nil =>
      -- Nothing is left but the slash, so no comment began here.
      cases b with
      | nil => exact h
      | cons v b =>
          rw [List.nil_append, slash] at h
          split at h
          · next hv =>
            cases h
            subst hv
            rw [lineComment, List.takeWhile_cons_of_pos (by decide)] at hx
            simp [comment] at hx
          · split at h
            · unfold blockComment at h
              split at h
              · cases h
                simp [comment] at hx
              · simp at h
            · exact h
  | cons v a =>
      rw [List.cons_append, slash] at h
      rw [slash]
      split at h
      · next hv =>
        cases h
        rw [if_pos hv, lineComment, lineComment, ← List.cons_append,
          takeWhile_of_append (by simpa [lineComment, comment] using hx)]
      · next hv =>
        rw [if_neg hv]
        split at h
        · next hblock =>
          rw [if_pos hblock]
          exact blockComment_of_append h hx
        · next hblock =>
          rw [if_neg hblock]
          exact h

theorem dots_of_append {a b : Text} (hx : (punctuation (dots (a ++ b))).extra ≤ a.length) :
    dots a = dots (a ++ b) := by
  have hdouble : (punctuation .doubleDot).extra = 1 := by decide
  have htriple : (punctuation .tripleDot).extra = 2 := by decide
  unfold dots at hx ⊢
  match a with
  | [] =>
      by_cases hfirst : b.head? = some (unit '.')
      · rw [List.nil_append, if_pos hfirst] at hx
        split at hx
        · rw [htriple] at hx
          simp at hx
        · rw [hdouble] at hx
          simp at hx
      · rw [List.nil_append, if_neg hfirst]
        rfl
  | [v] =>
      by_cases hfirst : v = unit '.'
      · by_cases hsecond : b.head? = some (unit '.')
        · have hthree : [v] ++ b = v :: b := rfl
          rw [hthree, List.head?_cons, List.tail_cons, if_pos (congrArg some hfirst),
            if_pos hsecond, htriple] at hx
          simp at hx
        · simp only [List.cons_append, List.nil_append, List.head?_cons, List.tail_cons, hfirst,
            if_true, hsecond, if_false, List.head?_nil, reduceCtorEq]
      · simp only [List.cons_append, List.nil_append, List.head?_cons, Option.some.injEq, hfirst,
          if_false]
  | v :: w :: a => rfl

theorem operator_of_append {u : UInt16} {a b : Text} {x : Lexeme} (h : operator u (a ++ b) = .ok x)
    (hx : x.extra ≤ a.length) : operator u a = .ok x := by
  have htail : (a.take 1).filter (Punctuation.joins u) =
      ((a ++ b).take 1).filter (Punctuation.joins u) := by
    cases a with
    | cons v a => rfl
    | nil =>
        unfold operator at h
        dsimp only at h
        split at h
        · cases h
          exact (List.length_eq_zero_iff.mp (Nat.le_zero.mp hx)).symm
        · simp at h
  unfold operator at h ⊢
  rw [htail]
  exact h

theorem point_of_append {u : UInt16} {a b : Text} {x : Lexeme}
    (h : (if (a ++ b).head?.any isDigit then Numeral.decimal u (a ++ b)
      else .ok (punctuation (dots (a ++ b)))) = .ok x) (hx : x.extra ≤ a.length) :
    (if a.head?.any isDigit then Numeral.decimal u a else .ok (punctuation (dots a))) = .ok x := by
  cases a with
  | nil =>
      rw [if_neg (by simp)]
      split at h
      · next hdigit =>
        -- The digit behind the point belongs to the numeral.
        obtain ⟨tail, k, hrun, rfl⟩ := Numeral.run_of_decimal h
        cases b with
        | nil => simp at hdigit
        | cons v b =>
            have hhead := hrun.head?_eq (by simpa using hdigit)
            rw [List.length_eq_zero_iff.mp (Nat.le_zero.mp hx)] at hhead
            simp at hhead
      · cases h
        rw [dots_of_append hx]
  | cons v a =>
      split at h
      · next hdigit =>
        rw [if_pos (by simpa using hdigit)]
        exact Numeral.decimal_of_append h hx
      · next hdigit =>
        rw [if_neg (by simpa using hdigit)]
        cases h
        rw [dots_of_append hx]

/-- A lexeme is recognised in the same way when the text is cut off behind it. -/
theorem recognise_of_append {keep : Bool} {u : UInt16} {a b : Text} {x : Lexeme}
    (h : recognise keep u (a ++ b) = .ok x) (hx : x.extra ≤ a.length) :
    recognise keep u a = .ok x := by
  unfold recognise at h ⊢
  split at h
  · next hquote =>
    rw [if_pos hquote]
    exact Literal.string_of_append h hx
  next hquote =>
  rw [if_neg hquote]
  split at h
  · next hdigit =>
    rw [if_pos hdigit]
    exact numeral_of_append h hx
  next hdigit =>
  rw [if_neg hdigit]
  split at h
  · next hpoint =>
    rw [if_pos hpoint]
    exact point_of_append h hx
  next hpoint =>
  rw [if_neg hpoint]
  split at h
  · next hword =>
    rw [if_pos hword]
    cases h
    rw [word_of_append hx]
  next hword =>
  rw [if_neg hword]
  split at h
  · next hnewline =>
    rw [if_pos hnewline]
    exact h
  next hnewline =>
  rw [if_neg hnewline]
  split at h
  · next hslash =>
    rw [if_pos hslash]
    subst hslash
    exact slash_of_append h hx
  · next hslash =>
    rw [if_neg hslash]
    exact operator_of_append h hx

end Lexeme

end Lexis
