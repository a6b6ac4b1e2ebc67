import Lexis.Proofs.Lexeme.Reading

/-!
# Faults

Recognising fails in four ways: in a string literal, in a decimal numeral, in a
comment that is not closed, and at a unit that begins no token.  A fault shows at
one of the units of the text or at its end.
-/

namespace Lexis

open Text

namespace Defect

/-- What was begun does not end. -/
def Open (d : Defect) : Prop := d = .unterminatedString ∨ d = .unterminatedComment

end Defect

namespace Fault

/-- Where a fault in `text` shows, with offsets that count from the unit before
it.  What does not end shows at the end of the input.  Any other fault shows at a
unit, or at an end that is no end of a line. -/
structure Shows (text : Text) (fault : Fault) : Prop where
  atEnd : fault.defect.Open → fault.offset = text.length + 1
  atUnit : ¬ fault.defect.Open → fault.offset ≤ text.length ∨
    fault.offset = text.length + 1 ∧ ∃ u, text.getLast? = some u ∧ u ≠ unit '\n'

@[simp] theorem offset_shift (fault : Fault) (n : Nat) :
    (fault.shift n).offset = fault.offset + n := rfl

theorem shows_of_open {text : Text} {d : Defect} (h : d.Open) :
    Shows text ⟨d, text.length + 1⟩ :=
  ⟨fun _ ↦ rfl, fun hnot ↦ absurd h hnot⟩

theorem shows_of_le {text : Text} {fault : Fault} (h : ¬ fault.defect.Open)
    (hle : fault.offset ≤ text.length) : fault.Shows text :=
  ⟨fun hopen ↦ absurd hopen h, fun _ ↦ .inl hle⟩

/-- A fault shows in the same place when the text is seen from further left. -/
theorem Shows.shift {text : Text} {fault : Fault} (h : fault.Shows text) (w : Text) :
    (fault.shift w.length).Shows (w ++ text) := by
  constructor
  · intro hopen
    have hend := h.atEnd hopen
    rw [List.length_append, offset_shift]
    omega
  · intro hopen
    rw [List.length_append, offset_shift]
    rcases h.atUnit hopen with hle | ⟨hend, u, hu, hnewline⟩
    · exact .inl (by omega)
    · refine .inr ⟨by omega, u, ?_, hnewline⟩
      rw [List.getLast?_append, hu]
      rfl

end Fault

/-! ## String literals -/

namespace Literal

def Breaks (d : Defect) : Prop :=
  d = .unterminatedString ∨ d = .emptyEscape ∨ ∃ n, d = .escapeOutOfRange n

theorem Breaks.ne {d : Defect} (h : Breaks d) : d ≠ .invalidUnit ∧ d ≠ .unterminatedComment := by
  rcases h with rfl | rfl | ⟨n, rfl⟩ <;> simp

/-- A fault behind `w` shows further right than it does without `w`. -/
theorem breaks_of_prepend {text w rest : Text} {r : Except Fault (Text × Nat)} {fault : Fault}
    (h : prepend text w.length r = .error fault)
    (hr : ∀ later, r = .error later → Breaks later.defect ∧ later.Shows rest) :
    Breaks fault.defect ∧ fault.Shows (w ++ rest) := by
  cases r with
  | error later =>
      obtain rfl := Except.error.inj h
      obtain ⟨hbreaks, hshows⟩ := hr later rfl
      exact ⟨hbreaks, hshows.shift w⟩
  | ok read => simp [prepend] at h

theorem codePoint_eq_error {limit : Nat} {rest : Text} {fault : Fault}
    (h : codePoint limit rest = .error fault) :
    fault.offset ≤ rest.length ∧
      (fault.defect = .emptyEscape ∨ ∃ n, fault.defect = .escapeOutOfRange n) := by
  unfold codePoint at h
  dsimp only at h
  split at h
  · obtain rfl := Except.error.inj h
    exact ⟨Nat.zero_le _, .inl rfl⟩
  · split at h
    · obtain rfl := Except.error.inj h
      refine ⟨?_, .inr ⟨_, rfl⟩⟩
      calc
        ((rest.take limit).takeWhile isHexDigit).length ≤ (rest.take limit).length :=
          (List.takeWhile_sublist _).length_le
        _ ≤ rest.length := List.length_take_le' _ _
    · simp at h

theorem escape_eq_error {marker : UInt16} {rest : Text} {fault : Fault}
    (h : escape marker rest = .error fault) :
    fault.offset ≤ rest.length ∧
      (fault.defect = .emptyEscape ∨ ∃ n, fault.defect = .escapeOutOfRange n) := by
  unfold escape at h
  split at h
  · exact codePoint_eq_error h
  · split at h
    · exact codePoint_eq_error h
    · simp at h

theorem body_eq_error {quote : UInt16} {skip : Nat} {rest : Text} {fault : Fault}
    (h : body quote skip rest = .error fault) : Breaks fault.defect ∧ fault.Shows rest := by
  fun_induction body quote skip rest generalizing fault with
  | case1 skip =>
      obtain rfl := Except.error.inj h
      exact ⟨.inl rfl, Fault.shows_of_open (.inl rfl)⟩
  | case2 skip u rest ih => exact breaks_of_prepend (w := [u]) h fun _ ↦ ih
  | case3 => simp at h
  | case4 hfree =>
      obtain rfl := Except.error.inj h
      exact ⟨.inl rfl, @Fault.shows_of_open [unit '\\'] _ (.inl rfl)⟩
  | case5 marker rest later hescape hfree =>
      obtain rfl := Except.error.inj h
      obtain ⟨hle, hdefect⟩ := escape_eq_error hescape
      refine ⟨.inr hdefect, ?_⟩
      have hclosed : ¬ later.defect.Open := by
        rcases hdefect with hd | ⟨n, hd⟩ <;> simp [hd, Defect.Open]
      exact (Fault.shows_of_le hclosed hle).shift [unit '\\', marker]
  | case6 marker rest text taken hescape hfree ih =>
      exact breaks_of_prepend (w := [unit '\\', marker]) h fun _ ↦ ih
  | case7 u rest hfree hslash ih => exact breaks_of_prepend (w := [u]) h fun _ ↦ ih

end Literal

/-! ## Decimal numerals -/

namespace Numeral

def Breaks (d : Defect) : Prop := d = .duplicateExponent ∨ d = .missingExponent

theorem Breaks.ne {d : Defect} (h : Breaks d) : d ≠ .invalidUnit ∧ d ≠ .unterminatedComment := by
  rcases h with rfl | rfl <;> simp

theorem breaks_of_prepend {units rest : Text} {r : Except Fault (Text × Kind)} {fault : Fault}
    (h : prepend units r = .error fault)
    (hr : ∀ later, r = .error later → Breaks later.defect ∧ later.Shows rest) :
    Breaks fault.defect ∧ fault.Shows (units ++ rest) := by
  cases r with
  | error later =>
      obtain rfl := Except.error.inj h
      obtain ⟨hbreaks, hshows⟩ := hr later rfl
      exact ⟨hbreaks, hshows.shift units⟩
  | ok read => simp [prepend] at h

theorem Breaks.not_open {d : Defect} (h : Breaks d) : ¬ d.Open := by
  rcases h with rfl | rfl <;> simp [Defect.Open]

theorem shows_of_missing {text : Text} {n : Nat} {u : UInt16} (hu : u ≠ unit '\n')
    (hlast : text.getLast? = some u) (hn : n = text.length + 1) :
    Fault.Shows text ⟨.missingExponent, n⟩ :=
  ⟨fun hopen ↦ absurd hopen (Breaks.not_open (.inr rfl)), fun _ ↦ .inr ⟨hn, u, hlast, hu⟩⟩

theorem decimalTail_eq_error {point exponent : Bool} {rest : Text} {fault : Fault}
    (h : decimalTail point exponent rest = .error fault) :
    Breaks fault.defect ∧ fault.Shows rest := by
  fun_induction decimalTail point exponent rest generalizing fault with
  | case1 => simp at h
  | case2 point exponent u rest hu ih => exact breaks_of_prepend h fun _ ↦ ih
  | case3 point exponent u rest _ hpoint ih => exact breaks_of_prepend h fun _ ↦ ih
  | case4 point exponent u rest =>
      obtain rfl := Except.error.inj h
      exact ⟨.inl rfl, Fault.shows_of_le (Breaks.not_open (.inl rfl)) (Nat.zero_le _)⟩
  | case5 point exponent u _ _ hmarker =>
      obtain rfl := Except.error.inj h
      have hu : u ≠ unit '\n' := by
        rintro rfl
        revert hmarker
        decide
      exact ⟨.inr rfl, shows_of_missing hu rfl rfl⟩
  | case6 point exponent u _ _ hmarker hexponent v rest hv ih =>
      exact breaks_of_prepend h fun _ ↦ ih
  | case7 point exponent u _ _ hmarker hexponent s _ hs =>
      obtain rfl := Except.error.inj h
      have hu : s ≠ unit '\n' := by
        rintro rfl
        revert hs
        decide
      exact ⟨.inr rfl, shows_of_missing hu rfl rfl⟩
  | case8 point exponent u _ _ hmarker hexponent s _ hs v rest hv ih =>
      exact breaks_of_prepend h fun _ ↦ ih
  | case9 =>
      obtain rfl := Except.error.inj h
      refine ⟨.inr rfl, Fault.shows_of_le (Breaks.not_open (.inr rfl)) ?_⟩
      simp only [List.length_cons]
      omega
  | case10 =>
      obtain rfl := Except.error.inj h
      refine ⟨.inr rfl, Fault.shows_of_le (Breaks.not_open (.inr rfl)) ?_⟩
      simp only [List.length_cons]
      omega
  | case11 => simp at h

end Numeral

/-! ## Comments -/

/-- A comment is not closed if its end stands nowhere in the text. -/
theorem throughClose?_eq_none_iff {rest : Text} :
    Lexeme.throughClose? rest = none ↔ ∀ i, ¬ closing <+: rest.drop i := by
  constructor
  · intro h i hclose
    fun_induction Lexeme.throughClose? rest generalizing i with
    | case1 => simp [closing] at hclose
    | case2 u =>
        have hlength := hclose.length_le
        simp only [closing, List.length_drop, List.length_cons, List.length_nil] at hlength
        omega
    | case3 => simp at h
    | case4 u v rest hopen ih =>
        cases i with
        | zero =>
            obtain ⟨after, hafter⟩ := hclose
            simp only [closing, List.drop_zero, List.cons_append, List.nil_append,
              List.cons.injEq] at hafter
            exact hopen ⟨hafter.1.symm, hafter.2.1.symm⟩
        | succ i => exact ih (Option.map_eq_none_iff.mp h) i hclose
  · intro h
    cases hclose : Lexeme.throughClose? rest with
    | none => rfl
    | some tail =>
        obtain ⟨⟨after, rfl⟩, ⟨content, rfl⟩, -⟩ := isClosed_of_throughClose? hclose
        refine absurd ?_ (h content.length)
        rw [List.append_assoc, List.drop_left]
        exact List.prefix_append _ _

/-! ## Units that begin no token -/

namespace Punctuation

/-- Tables and texts agree: the first unit of a punctuation is one as well, and so
are two units that go together. -/
theorem isSome_ofText?_of_head {p : Punctuation} {u : UInt16} (h : p.units.head? = some u) :
    (ofText? [u]).isSome := by
  have hall : (p.units.head?.all fun u ↦ (ofText? [u]).isSome) = true := by
    cases p <;> decide
  rw [h] at hall
  exact hall

theorem isSome_ofText?_of_joins {u v : UInt16} (h : joins u v) : (ofText? [u, v]).isSome := by
  have hdoubling : (doubling.all fun u ↦ (ofText? [u, u]).isSome) = true := by decide
  have hextensions :
      (extensions.all fun e ↦ e.2.all fun v ↦ (ofText? [e.1, v]).isSome) = true := by decide
  unfold joins at h
  split at h
  · simp at h
  split at h
  · next hu =>
    obtain rfl : v = u := by simpa using h
    exact List.all_eq_true.mp hdoubling v (by simpa using hu)
  · cases hends : extensions.lookup u with
    | none => simp [hends] at h
    | some ends =>
        obtain ⟨before, after, hsplit, -⟩ := List.lookup_eq_some_iff.mp hends
        have hmem : (u, ends) ∈ extensions := by
          rw [hsplit]
          exact List.mem_append_right _ List.mem_cons_self
        have hall := List.all_eq_true.mp hextensions _ hmem
        exact List.all_eq_true.mp hall v (by simpa [hends] using h)

end Punctuation

namespace Lexeme

def IsBeginning (u : UInt16) : Prop :=
  Literal.IsQuote u ∨ isDigit u ∨ isLetter u ∨ u = unit '_' ∨ u = unit '\n' ∨
    ∃ p : Punctuation, p.units.head? = some u

theorem isBeginning_of_head? {p : Punctuation} {u : UInt16} (h : p.units.head? = some u) :
    IsBeginning u :=
  .inr (.inr (.inr (.inr (.inr ⟨p, h⟩))))

theorem operator_eq_error {u : UInt16} {rest : Text} {fault : Fault}
    (h : operator u rest = .error fault) :
    fault = ⟨.invalidUnit, 0⟩ ∧ ∀ p : Punctuation, p.units.head? ≠ some u := by
  unfold operator at h
  dsimp only at h
  split at h
  · simp at h
  · next hnone =>
    refine ⟨(Except.error.inj h).symm, fun p hp ↦ ?_⟩
    have hsome :
        (Punctuation.ofText? (u :: (rest.take 1).filter (Punctuation.joins u))).isSome := by
      cases rest with
      | nil => exact Punctuation.isSome_ofText?_of_head hp
      | cons v rest =>
          rw [joined_eq]
          split
          · next hjoins => exact Punctuation.isSome_ofText?_of_joins hjoins
          · exact Punctuation.isSome_ofText?_of_head hp
    simp [hnone] at hsome

theorem slash_eq_error {keep : Bool} {rest : Text} {fault : Fault}
    (h : slash keep (unit '/') rest = .error fault) :
    ∃ tail, rest = unit '*' :: tail ∧ throughClose? tail = none ∧
      fault = ⟨.unterminatedComment, rest.length + 1⟩ := by
  unfold slash at h
  split at h
  · simp at h
  · next v tail =>
    split at h
    · simp at h
    · split at h
      · next hv =>
        subst hv
        unfold blockComment at h
        split at h
        · simp at h
        · next hopen => exact ⟨tail, rfl, hopen, (Except.error.inj h).symm⟩
      · simp at h

inductive Fails (u : UInt16) (rest : Text) : Fault → Prop
  | literal {fault : Fault} (hu : Literal.IsQuote u) (h : Literal.body u 0 rest = .error fault) :
      Fails u rest fault
  | numeral {fault : Fault} {point : Bool} (hu : isDigit u ∨ u = unit '.')
      (h : Numeral.decimalTail point false rest = .error fault) : Fails u rest fault
  | comment {tail : Text} (hu : u = unit '/') (hrest : rest = unit '*' :: tail)
      (h : throughClose? tail = none) : Fails u rest ⟨.unterminatedComment, rest.length + 1⟩
  | beginning (h : ¬ IsBeginning u) : Fails u rest ⟨.invalidUnit, 0⟩

theorem map_eq_error {α β : Type} {f : α → β} {r : Except Fault α} {fault : Fault}
    (h : r.map f = .error fault) : r = .error fault := by
  cases r with
  | error later => exact congrArg Except.error (Except.error.inj h)
  | ok read => simp [Except.map] at h

theorem fails_of_recognise {keep : Bool} {u : UInt16} {rest : Text} {fault : Fault}
    (h : recognise keep u rest = .error fault) : Fails u rest fault := by
  unfold recognise at h
  split at h
  · next hquote => exact .literal hquote (map_eq_error h)
  next hquote =>
  split at h
  · next hdigit =>
    unfold numeral at h
    split at h
    · simp at h
    · exact .numeral (.inl hdigit) (map_eq_error h)
  next hdigit =>
  split at h
  · next hpoint =>
    split at h
    · exact .numeral (.inr hpoint) (map_eq_error h)
    · simp at h
  split at h
  · simp at h
  next hword =>
  split at h
  · simp at h
  next hnewline =>
  split at h
  · next hslash =>
    subst hslash
    obtain ⟨tail, hrest, hopen, rfl⟩ := slash_eq_error h
    exact .comment rfl hrest hopen
  · obtain ⟨rfl, hnone⟩ := operator_eq_error h
    refine .beginning ?_
    rintro (hu | hu | hu | hu | hu | ⟨p, hp⟩)
    · exact hquote hu
    · exact hdigit hu
    · exact hword (by simp [isWordStart, hu])
    · exact hword (by simp [isWordStart, hu])
    · exact hnewline hu
    · exact hnone p hp

namespace Fails

variable {u : UInt16} {rest : Text} {fault : Fault}

theorem shows (h : Fails u rest fault) : fault.Shows rest := by
  cases h with
  | literal _ h => exact (Literal.body_eq_error h).2
  | numeral _ h => exact (Numeral.decimalTail_eq_error h).2
  | comment => exact Fault.shows_of_open (.inr rfl)
  | beginning => exact Fault.shows_of_le (by simp [Defect.Open]) (Nat.zero_le _)

/-- Some token begins with the unit, or the unit is at fault. -/
theorem beginning_cases (h : Fails u rest fault) :
    IsBeginning u ∧ fault.defect ≠ .invalidUnit ∨
      ¬ IsBeginning u ∧ fault = ⟨.invalidUnit, 0⟩ := by
  cases h with
  | literal hu h => exact .inl ⟨.inl hu, (Literal.body_eq_error h).1.ne.1⟩
  | numeral hu h =>
      refine .inl ⟨?_, (Numeral.decimalTail_eq_error h).1.ne.1⟩
      rcases hu with hu | rfl
      · exact .inr (.inl hu)
      · exact isBeginning_of_head? (p := .dot) rfl
  | comment hu =>
      subst hu
      exact .inl ⟨isBeginning_of_head? (p := .slash) rfl, by simp⟩
  | beginning h => exact .inr ⟨h, rfl⟩

theorem invalidUnit_iff (h : Fails u rest fault) :
    fault.defect = .invalidUnit ↔ ¬ IsBeginning u := by
  rcases h.beginning_cases with ⟨hu, hd⟩ | ⟨hu, rfl⟩
  · exact iff_of_false hd (not_not_intro hu)
  · exact iff_of_true rfl hu

/-- A comment is at fault exactly if one begins here and does not end. -/
theorem unterminatedComment_iff (h : Fails u rest fault) :
    fault.defect = .unterminatedComment ↔
      u = unit '/' ∧ ∃ tail, rest = unit '*' :: tail ∧ throughClose? tail = none := by
  cases h with
  | literal hu h =>
      refine iff_of_false (Literal.body_eq_error h).1.ne.2 ?_
      rintro ⟨rfl, -⟩
      rcases hu with hu | hu <;> revert hu <;> decide
  | numeral hu h =>
      refine iff_of_false (Numeral.decimalTail_eq_error h).1.ne.2 ?_
      rintro ⟨rfl, -⟩
      rcases hu with hu | hu <;> revert hu <;> decide
  | comment hu hrest h => exact iff_of_true rfl ⟨hu, _, hrest, h⟩
  | beginning h =>
      refine iff_of_false (by simp) ?_
      rintro ⟨rfl, -⟩
      exact h (isBeginning_of_head? (p := .slash) rfl)

end Fails

end Lexeme

end Lexis
