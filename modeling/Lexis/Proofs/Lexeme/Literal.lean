import Lexis.Proofs.Lexeme.Spelling

/-!
# String literals end at the first free quote

The decoder of a literal skips the digits of an escape one by one.  As no digit
is a quote or a backslash, it stops where a reader stops that only knows that a
backslash escapes the unit behind it.
-/

namespace Lexis

open Text

/-- Two readings of one text between quotes end at the same quote. -/
theorem Enclosed.eq_of_append_eq {quote : UInt16} {content content' after after' : Text}
    (hquote : quote ≠ unit '\\') (h : Enclosed quote content) (h' : Enclosed quote content')
    (heq : content ++ quote :: after = content' ++ quote :: after') : content = content' := by
  induction h generalizing content' with
  | nil =>
      cases h' with
      | nil => rfl
      | plain hfree _ _ => exact absurd (List.cons.inj heq).1.symm hfree
      | escaped => exact absurd (List.cons.inj heq).1 hquote
  | plain hfree hslash _ ih =>
      cases h' with
      | nil => exact absurd (List.cons.inj heq).1 hfree
      | plain _ _ hrest =>
          obtain ⟨rfl, hlater⟩ := List.cons.inj heq
          rw [ih hrest hlater]
      | escaped => exact absurd (List.cons.inj heq).1 hslash
  | escaped u _ ih =>
      cases h' with
      | nil => exact absurd (List.cons.inj heq).1.symm hquote
      | plain _ hslash _ => exact absurd (List.cons.inj heq).1.symm hslash
      | escaped _ hrest =>
          obtain ⟨-, hunit⟩ := List.cons.inj heq
          obtain ⟨rfl, hlater⟩ := List.cons.inj hunit
          rw [ih hrest hlater]

namespace Literal

theorem prepend_eq_ok {text value : Text} {n length : Nat} {r : Except Fault (Text × Nat)}
    (h : prepend text n r = .ok (value, length)) :
    ∃ later taken, r = .ok (later, taken) ∧ value = text ++ later ∧ length = n + taken := by
  cases r with
  | error fault => simp [prepend] at h
  | ok read =>
      obtain ⟨later, taken⟩ := read
      simp only [prepend, Except.ok.injEq, Prod.mk.injEq] at h
      exact ⟨later, taken, rfl, h.1.symm, h.2.symm⟩

/-- An escape takes nothing but hexadecimal digits behind its marker. -/
theorem isHexDigit_of_mem_take {marker u : UInt16} {rest text : Text} {taken : Nat}
    (h : escape marker rest = .ok (text, taken)) (hu : u ∈ rest.take taken) : isHexDigit u := by
  have hcode : ∀ limit, codePoint limit rest = .ok (text, taken) → isHexDigit u := by
    intro limit hlimit
    unfold codePoint at hlimit
    dsimp only at hlimit
    split at hlimit
    · simp at hlimit
    · split at hlimit
      · simp at hlimit
      · simp only [Except.ok.injEq, Prod.mk.injEq] at hlimit
        have hdigits : (rest.take limit).takeWhile isHexDigit <+: rest.take limit :=
          List.takeWhile_prefix _
        have hpre : (rest.take limit).takeWhile isHexDigit <+: rest :=
          hdigits.trans <| List.take_prefix _ _
        rw [← hlimit.2, ← List.prefix_iff_eq_take.mp hpre] at hu
        exact List.all_eq_true.mp List.all_takeWhile u hu
  unfold escape at h
  split at h
  · exact hcode 4 h
  · split at h
    · exact hcode 8 h
    · simp only [Except.ok.injEq, Prod.mk.injEq] at h
      simp [← h.2] at hu

/-- What the decoder passes over is enclosed by the quote that it stops at. -/
theorem enclosed_of_body {quote : UInt16} {skip n : Nat} {rest value : Text}
    (hquote : isHexDigit quote = false) (h : body quote skip rest = .ok (value, n))
    (hskip : ∀ u ∈ rest.take skip, isHexDigit u) :
    ∃ content after, rest = content ++ quote :: after ∧ n = content.length + 1 ∧
      Enclosed quote content := by
  fun_induction body quote skip rest generalizing value n with
  | case1 => simp at h
  | case2 skip u rest ih =>
      -- a digit of an escape: neither a quote nor a backslash
      obtain ⟨later, taken, hlater, -, rfl⟩ := prepend_eq_ok h
      obtain ⟨content, after, rfl, rfl, hcontent⟩ :=
        ih hlater fun v hv ↦ hskip v (List.mem_cons_of_mem u hv)
      have hdigit : isHexDigit u := hskip u List.mem_cons_self
      have hfree : u ≠ quote := by
        rintro rfl
        simp [hquote] at hdigit
      have hslash : u ≠ unit '\\' := by
        rintro rfl
        revert hdigit
        decide
      exact ⟨u :: content, after, rfl, by simp; omega, .plain hfree hslash hcontent⟩
  | case3 rest =>
      simp only [Except.ok.injEq, Prod.mk.injEq] at h
      exact ⟨[], rest, rfl, h.2.symm, .nil⟩
  | case4 => simp at h
  | case5 => simp at h
  | case6 marker rest text taken hescape _ ih =>
      obtain ⟨later, length, hlater, -, rfl⟩ := prepend_eq_ok h
      obtain ⟨content, after, rfl, rfl, hcontent⟩ :=
        ih hlater fun v hv ↦ isHexDigit_of_mem_take hescape hv
      exact ⟨_ :: marker :: content, after, rfl, by simp; omega, .escaped marker hcontent⟩
  | case7 u rest hfree hslash ih =>
      obtain ⟨later, taken, hlater, -, rfl⟩ := prepend_eq_ok h
      obtain ⟨content, after, rfl, rfl, hcontent⟩ := ih hlater (by simp)
      exact ⟨u :: content, after, rfl, by simp; omega, .plain hfree hslash hcontent⟩

def IsQuote (quote : UInt16) : Prop := quote = unit '"' ∨ quote = unit '\''

theorem isHexDigit_quote {quote : UInt16} (h : IsQuote quote) : isHexDigit quote = false := by
  rcases h with rfl | rfl <;> decide

theorem quote_ne_backslash {quote : UInt16} (h : IsQuote quote) : quote ≠ unit '\\' := by
  rcases h with rfl | rfl <;> decide

theorem spelling_kind {quote : UInt16} {w : Text} (h : IsQuote quote) :
    (kind quote).Spelling w ↔ IsQuoted quote w := by
  rcases h with rfl | rfl <;> rfl

/-- A string literal that is read is spelled as one. -/
theorem isQuoted_of_string {quote : UInt16} {rest : Text} {x : Lexeme} (hquote : IsQuote quote)
    (h : string quote rest = .ok x) :
    ∃ tail, tail <+: rest ∧ x.kind = kind quote ∧ x.extra = tail.length ∧
      IsQuoted quote (quote :: tail) := by
  unfold string at h
  cases hread : body quote 0 rest with
  | error fault =>
      rw [hread] at h
      simp [Except.map] at h
  | ok read =>
      obtain ⟨value, n⟩ := read
      rw [hread] at h
      simp only [Except.map, Except.ok.injEq] at h
      obtain ⟨content, after, rfl, rfl, hcontent⟩ :=
        enclosed_of_body (isHexDigit_quote hquote) hread (by simp)
      subst h
      exact ⟨content ++ [quote], ⟨after, by simp⟩, rfl, by simp, content, rfl, hcontent⟩

end Literal

end Lexis
