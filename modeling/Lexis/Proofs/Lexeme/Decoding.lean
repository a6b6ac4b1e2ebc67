import Lexis.Cursor.Scan
import Lexis.Proofs.Lexeme.Cut

/-!
# What a string literal denotes

A literal is a sequence of items: units that stand for themselves, control units,
code points in hexadecimal digits, and units that are escaped without need.  Each item
is read before the next one is looked at.  The digits of a code point end where no
further one can follow, so a text is read in one way only, and every way to write
a text is read back.
-/

namespace Lexis

open Text

namespace Literal

/-- The letters that denote a control unit behind a backslash. -/
def controls : List (UInt16 × UInt16) :=
  [(unit 'n', 0x0a), (unit 't', 0x09), (unit 'r', 0x0d), (unit '0', 0x00), (unit 'b', 0x08),
    (unit 'a', 0x07), (unit 'f', 0x0c), (unit 'v', 0x0b)]

/-- The letters that announce a code point behind a backslash, with the greatest number
of its digits. -/
def wides : List (UInt16 × Nat) := [(unit 'x', 4), (unit 'X', 8)]

/-- A unit that has a meaning of its own behind a backslash. -/
def IsMarker (u : UInt16) : Prop := (∃ c, (u, c) ∈ controls) ∨ ∃ limit, (u, limit) ∈ wides

/-- The hexadecimal digits before `after`, up to `limit` of them. -/
structure IsDigitRun (limit : Nat) (digits after : Text) : Prop where
  hex : ∀ d ∈ digits, isHexDigit d
  length_le : digits.length ≤ limit
  maximal : digits.length = limit ∨ after.head?.any isHexDigit = false

/-- The item `w` before `after`, and the text that it denotes.  A code point is at most
U+10FFFF. -/
inductive Item (quote : UInt16) : (w after value : Text) → Prop
  | plain {u : UInt16} {after : Text} (hquote : u ≠ quote) (hslash : u ≠ unit '\\') :
      Item quote [u] after [u]
  | control {marker u : UInt16} {after : Text} (hmarker : (marker, u) ∈ controls) :
      Item quote [unit '\\', marker] after [u]
  | codePoint {marker : UInt16} {limit : Nat} {digits after : Text}
      (hmarker : (marker, limit) ∈ wides) (hdigits : IsDigitRun limit digits after)
      (hne : digits ≠ []) (hrange : positional 16 digits ≤ 0x10ffff) :
      Item quote (unit '\\' :: marker :: digits) after (ofCodePoint (positional 16 digits))
  | other {u : UInt16} {after : Text} (hmarker : ¬ IsMarker u) :
      Item quote [unit '\\', u] after [u]

def extend (value : Text) : Except LexCode (Text × Text) → Except LexCode (Text × Text)
  | .ok (later, after) => .ok (value ++ later, after)
  | .error code => .error code

/-- Reading a literal from behind its opening quote, item by item.  The result is
what the literal denotes and what stands behind it, or the first thing that is wrong
with it. -/
inductive Decodes (quote : UInt16) : Text → Except LexCode (Text × Text) → Prop
  | closed {after : Text} : Decodes quote (quote :: after) (.ok ([], after))
  | ended : Decodes quote [] (.error .unterminatedString)
  | endedInEscape : Decodes quote [unit '\\'] (.error .unterminatedString)
  | noDigit {marker : UInt16} {limit : Nat} {after : Text} (hmarker : (marker, limit) ∈ wides)
      (hdigit : after.head?.any isHexDigit = false) :
      Decodes quote (unit '\\' :: marker :: after) (.error .malformedUnicodeEscape)
  | outOfRange {marker : UInt16} {limit : Nat} {digits after : Text}
      (hmarker : (marker, limit) ∈ wides) (hdigits : IsDigitRun limit digits after)
      (hrange : 0x10ffff < positional 16 digits) :
      Decodes quote (unit '\\' :: marker :: (digits ++ after)) (.error .malformedUnicodeEscape)
  | item {w rest value : Text} {result : Except LexCode (Text × Text)}
      (hitem : Item quote w rest value) (h : Decodes quote rest result) :
      Decodes quote (w ++ rest) (extend value result)

/-! ## Digits -/

theorem isDigitRun_of_zero (after : Text) : IsDigitRun 0 [] after :=
  ⟨by simp, Nat.le_refl 0, .inl rfl⟩

theorem isDigitRun_nil {after : Text} (limit : Nat) (h : after.head?.any isHexDigit = false) :
    IsDigitRun limit [] after :=
  ⟨by simp, Nat.zero_le limit, .inr h⟩

theorem isDigitRun_cons {limit : Nat} {d : UInt16} {digits after : Text} :
    IsDigitRun (limit + 1) (d :: digits) after ↔ isHexDigit d ∧ IsDigitRun limit digits after := by
  constructor
  · rintro ⟨hall, hle, hmax⟩
    refine ⟨hall d List.mem_cons_self, ?_, Nat.le_of_succ_le_succ hle, ?_⟩
    · intro e he
      exact hall e (List.mem_cons_of_mem d he)
    · exact hmax.imp_left Nat.succ.inj
  · rintro ⟨hd, hall, hle, hmax⟩
    refine ⟨?_, Nat.succ_le_succ hle, hmax.imp_left (congrArg Nat.succ)⟩
    intro e he
    rcases List.mem_cons.mp he with rfl | he
    · exact hd
    · exact hall e he

theorem exists_isDigitRun (limit : Nat) (rest : Text) :
    ∃ digits after, rest = digits ++ after ∧ IsDigitRun limit digits after := by
  induction limit generalizing rest with
  | zero => exact ⟨[], rest, rfl, isDigitRun_of_zero rest⟩
  | succ limit ih =>
      cases rest with
      | nil => exact ⟨[], [], rfl, isDigitRun_nil _ rfl⟩
      | cons d rest =>
          cases hd : isHexDigit d with
          | false => exact ⟨[], d :: rest, rfl, isDigitRun_nil _ (by simpa using hd)⟩
          | true =>
              obtain ⟨digits, after, rfl, hdigits⟩ := ih rest
              exact ⟨d :: digits, after, rfl, isDigitRun_cons.mpr ⟨hd, hdigits⟩⟩

theorem IsDigitRun.takeWhile_eq {limit : Nat} {digits after : Text}
    (h : IsDigitRun limit digits after) :
    ((digits ++ after).take limit).takeWhile isHexDigit = digits := by
  induction limit generalizing digits with
  | zero =>
      rw [List.eq_nil_of_length_eq_zero (Nat.le_zero.mp h.length_le)]
      rfl
  | succ limit ih =>
      cases digits with
      | cons d digits =>
          obtain ⟨hd, hdigits⟩ := isDigitRun_cons.mp h
          rw [List.cons_append, List.take_succ_cons, List.takeWhile_cons_of_pos hd, ih hdigits]
      | nil =>
          have hnone : after.head?.any isHexDigit = false :=
            h.maximal.resolve_left (Nat.succ_ne_zero limit).symm
          cases after with
          | nil => rfl
          | cons d after =>
              rw [List.nil_append, List.take_succ_cons, List.takeWhile_cons_of_neg]
              simpa using hnone

/-- A quote behind the digits ends them. -/
theorem IsDigitRun.before_quote {limit : Nat} {digits content after : Text} {quote : UInt16}
    (h : IsDigitRun limit digits content) (hquote : IsQuote quote) :
    IsDigitRun limit digits (content ++ quote :: after) := by
  refine ⟨h.hex, h.length_le, h.maximal.imp_right fun hnone ↦ ?_⟩
  cases content with
  | nil => simpa using isHexDigit_quote hquote
  | cons d content => exact hnone

/-! ## One item -/

theorem prepend_zero (r : Except Fault (Text × Nat)) : prepend [] 0 r = r := by
  cases r with
  | error fault => rfl
  | ok read => simp [prepend]

theorem prepend_prepend (v w : Text) (m n : Nat) (r : Except Fault (Text × Nat)) :
    prepend v m (prepend w n r) = prepend (v ++ w) (m + n) r := by
  cases r with
  | error fault => simp [prepend, Fault.shift, Nat.add_comm, Nat.add_left_comm]
  | ok read => simp [prepend, Nat.add_assoc]

theorem body_skip (quote : UInt16) (w rest : Text) :
    body quote w.length (w ++ rest) = prepend [] w.length (body quote 0 rest) := by
  induction w with
  | nil => exact (prepend_zero _).symm
  | cons u w ih =>
      rw [List.cons_append, List.length_cons, body, ih, prepend_prepend, List.nil_append,
        Nat.add_comm]

theorem escape_of_wides {marker : UInt16} {limit : Nat} (h : (marker, limit) ∈ wides)
    (rest : Text) : escape marker rest = codePoint limit rest := by
  simp only [wides, List.mem_cons, Prod.mk.injEq, List.not_mem_nil, or_false] at h
  rcases h with ⟨rfl, rfl⟩ | ⟨rfl, rfl⟩ <;> rfl

theorem escape_of_not_wides {marker : UInt16} (h : ∀ limit, (marker, limit) ∉ wides)
    (rest : Text) : escape marker rest = .ok ([control marker], 0) := by
  have hx : marker ≠ unit 'x' := by
    rintro rfl
    exact h 4 (by decide)
  have hX : marker ≠ unit 'X' := by
    rintro rfl
    exact h 8 (by decide)
  rw [escape, if_neg hx, if_neg hX]

theorem control_of_controls {marker u : UInt16} (h : (marker, u) ∈ controls) :
    control marker = u ∧ ∀ limit, (marker, limit) ∉ wides := by
  simp only [controls, List.mem_cons, Prod.mk.injEq, List.not_mem_nil, or_false] at h
  rcases h with ⟨rfl, rfl⟩ | ⟨rfl, rfl⟩ | ⟨rfl, rfl⟩ | ⟨rfl, rfl⟩ | ⟨rfl, rfl⟩ | ⟨rfl, rfl⟩ |
    ⟨rfl, rfl⟩ | ⟨rfl, rfl⟩ <;> exact ⟨rfl, by simp [wides]⟩

theorem control_of_not_isMarker {u : UInt16} (h : ¬ IsMarker u) : control u = u := by
  have hne {marker c : UInt16} (hmem : (marker, c) ∈ controls) : u ≠ marker := by
    rintro rfl
    exact h (.inl ⟨c, hmem⟩)
  have hr : u ≠ unit 'r' := hne (c := 0x0d) (by decide)
  have hn : u ≠ unit 'n' := hne (c := 0x0a) (by decide)
  have ht : u ≠ unit 't' := hne (c := 0x09) (by decide)
  have h0 : u ≠ unit '0' := hne (c := 0x00) (by decide)
  have hb : u ≠ unit 'b' := hne (c := 0x08) (by decide)
  have ha : u ≠ unit 'a' := hne (c := 0x07) (by decide)
  have hf : u ≠ unit 'f' := hne (c := 0x0c) (by decide)
  have hv : u ≠ unit 'v' := hne (c := 0x0b) (by decide)
  simp only [control, if_neg hr, if_neg hn, if_neg ht, if_neg h0, if_neg hb, if_neg ha, if_neg hf,
    if_neg hv]

theorem IsDigitRun.codePoint_eq {limit : Nat} {digits after : Text}
    (h : IsDigitRun limit digits after) :
    codePoint limit (digits ++ after) =
      if digits = [] then .error ⟨.emptyEscape, 0⟩
      else if 0x10ffff < positional 16 digits then
        .error ⟨.escapeOutOfRange (positional 16 digits), digits.length⟩
      else .ok (ofCodePoint (positional 16 digits), digits.length) := by
  unfold codePoint
  rw [h.takeWhile_eq]

/-- The reader takes an item and goes on behind it. -/
theorem Item.body_eq {quote : UInt16} {w rest value : Text} (hquote : IsQuote quote)
    (h : Item quote w rest value) :
    body quote 0 (w ++ rest) = prepend value w.length (body quote 0 rest) := by
  have hfree : unit '\\' ≠ quote := (quote_ne_backslash hquote).symm
  cases h with
  | plain hplain hslash => exact body_plain hplain hslash rest
  | @control marker u after hmarker =>
      obtain ⟨hcontrol, hwide⟩ := control_of_controls hmarker
      rw [List.cons_append, List.cons_append, List.nil_append, body_escape hfree,
        escape_of_not_wides hwide, hcontrol]
      rfl
  | @codePoint marker limit digits after hmarker hdigits hne hrange =>
      rw [List.cons_append, List.cons_append, body_escape hfree, escape_of_wides hmarker,
        hdigits.codePoint_eq, if_neg hne, if_neg (Nat.not_lt.mpr hrange)]
      dsimp only
      rw [body_skip, prepend_prepend, List.append_nil, Nat.add_comm]
      rfl
  | @other u after hmarker =>
      have hwide : ∀ limit, (u, limit) ∉ wides := fun limit hmem ↦ hmarker (.inr ⟨limit, hmem⟩)
      rw [List.cons_append, List.cons_append, List.nil_append, body_escape hfree,
        escape_of_not_wides hwide, control_of_not_isMarker hmarker]
      rfl

/-! ## Whole literals -/

def reading (rest : Text) : Except Fault (Text × Nat) → Except LexCode (Text × Text)
  | .ok (value, n) => .ok (value, rest.drop n)
  | .error fault => .error fault.defect.code

theorem reading_prepend (value w rest : Text) (r : Except Fault (Text × Nat)) :
    reading (w ++ rest) (prepend value w.length r) = extend value (reading rest r) := by
  cases r with
  | error fault => rfl
  | ok read => simp [prepend, reading, extend]

theorem Decodes.reading_eq {quote : UInt16} {rest : Text} {result : Except LexCode (Text × Text)}
    (hquote : IsQuote quote) (h : Decodes quote rest result) :
    reading rest (body quote 0 rest) = result := by
  have hfree : unit '\\' ≠ quote := (quote_ne_backslash hquote).symm
  induction h with
  | @closed after =>
      rw [body_quote]
      rfl
  | ended => rfl
  | endedInEscape =>
      rw [body.eq_def]
      simp only [hfree, if_false, if_true]
      rfl
  | @noDigit marker limit after hmarker hdigit =>
      have hempty := (isDigitRun_nil limit hdigit).codePoint_eq
      rw [List.nil_append, if_pos rfl] at hempty
      rw [body_escape hfree, escape_of_wides hmarker, hempty]
      rfl
  | @outOfRange marker limit digits after hmarker hdigits hrange =>
      have hne : digits ≠ [] := by
        rintro rfl
        exact absurd hrange (by decide)
      rw [body_escape hfree, escape_of_wides hmarker, hdigits.codePoint_eq, if_neg hne,
        if_pos hrange]
      rfl
  | @item w rest value result hitem _ ih => rw [hitem.body_eq hquote, reading_prepend, ih]

/-- Every text is read to a result. -/
theorem exists_decodes (quote : UInt16) (rest : Text) : ∃ result, Decodes quote rest result := by
  induction hn : rest.length using Nat.strongRecOn generalizing rest with
  | ind n ih =>
      have hlater {w later value : Text} (hw : rest = w ++ later) (hpos : 0 < w.length)
          (hitem : Item quote w later value) : ∃ result, Decodes quote rest result := by
        have hlt : later.length < n := by
          rw [← hn, hw, List.length_append]
          omega
        obtain ⟨result, hresult⟩ := ih later.length hlt later rfl
        rw [hw]
        exact ⟨_, .item hitem hresult⟩
      match rest with
      | [] => exact ⟨_, .ended⟩
      | u :: tail =>
          by_cases hu : u = quote
          · subst hu
            exact ⟨_, .closed⟩
          by_cases hslash : u = unit '\\'
          · subst hslash
            match tail with
            | [] => exact ⟨_, .endedInEscape⟩
            | marker :: tail =>
                by_cases hmarker : IsMarker marker
                · rcases hmarker with ⟨c, hcontrol⟩ | ⟨limit, hwide⟩
                  · exact hlater (w := [unit '\\', marker]) rfl (Nat.succ_pos _) (.control hcontrol)
                  · obtain ⟨digits, after, rfl, hdigits⟩ := exists_isDigitRun limit tail
                    by_cases hne : digits = []
                    · subst hne
                      have hpos : 0 ≠ limit := by
                        rintro rfl
                        exact absurd hwide (by simp [wides])
                      exact ⟨_, .noDigit hwide (hdigits.maximal.resolve_left hpos)⟩
                    · by_cases hrange : 0x10ffff < positional 16 digits
                      · exact ⟨_, .outOfRange hwide hdigits hrange⟩
                      · exact hlater (w := unit '\\' :: marker :: digits) rfl (Nat.succ_pos _)
                          (.codePoint hwide hdigits hne (Nat.not_lt.mp hrange))
                · exact hlater (w := [unit '\\', marker]) rfl (Nat.succ_pos _) (.other hmarker)
          · exact hlater (w := [u]) rfl (Nat.succ_pos _) (.plain hu hslash)

theorem decodes_iff {quote : UInt16} {rest : Text} {result : Except LexCode (Text × Text)}
    (hquote : IsQuote quote) :
    Decodes quote rest result ↔ reading rest (body quote 0 rest) = result := by
  constructor
  · exact Decodes.reading_eq hquote
  · rintro rfl
    obtain ⟨result, hresult⟩ := exists_decodes quote rest
    rw [hresult.reading_eq hquote]
    exact hresult

/-! ## Writing a text as a literal -/

/-- A way to write a text between quotes.  Every unit is written as it is, behind a
backslash that it does not need, by the letter of a control unit or as a code point
in hexadecimal digits; a surrogate pair may also be written as one code point. -/
inductive Encodes (quote : UInt16) : (value content : Text) → Prop
  | nil : Encodes quote [] []
  | raw {u : UInt16} {value content : Text} (hquote : u ≠ quote) (hslash : u ≠ unit '\\')
      (h : Encodes quote value content) : Encodes quote (u :: value) (u :: content)
  | escaped {u : UInt16} {value content : Text} (hmarker : ¬ IsMarker u)
      (h : Encodes quote value content) :
      Encodes quote (u :: value) (unit '\\' :: u :: content)
  | control {marker u : UInt16} {value content : Text} (hmarker : (marker, u) ∈ controls)
      (h : Encodes quote value content) :
      Encodes quote (u :: value) (unit '\\' :: marker :: content)
  | digits {marker u : UInt16} {limit : Nat} {digits value content : Text}
      (hmarker : (marker, limit) ∈ wides) (hdigits : IsDigitRun limit digits content)
      (hne : digits ≠ []) (hvalue : positional 16 digits = u.toNat)
      (h : Encodes quote value content) :
      Encodes quote (u :: value) (unit '\\' :: marker :: (digits ++ content))
  | pair {high low : UInt16} {digits value content : Text} (hhigh : isHigh high)
      (hlow : isLow low) (hdigits : IsDigitRun 8 digits content)
      (hvalue : positional 16 digits = pairCodePoint high low)
      (h : Encodes quote value content) :
      Encodes quote (high :: low :: value) (unit '\\' :: unit 'X' :: (digits ++ content))

theorem ofCodePoint_toNat (u : UInt16) : ofCodePoint u.toNat = [u] := by
  have hlt : u.toNat < 0x10000 := u.toNat_lt
  rw [ofCodePoint, if_pos hlt]
  exact congrArg (· :: []) UInt16.ofNat_toNat

theorem isHigh_iff {u : UInt16} : isHigh u ↔ 0xd800 ≤ u.toNat ∧ u.toNat ≤ 0xdbff := by
  simp [isHigh, UInt16.le_iff_toNat_le]

theorem isLow_iff {u : UInt16} : isLow u ↔ 0xdc00 ≤ u.toNat ∧ u.toNat ≤ 0xdfff := by
  simp [isLow, UInt16.le_iff_toNat_le]

theorem pairCodePoint_range {high low : UInt16} (hhigh : isHigh high) (hlow : isLow low) :
    0x10000 ≤ pairCodePoint high low ∧ pairCodePoint high low ≤ 0x10ffff := by
  obtain ⟨-, hhigh⟩ := isHigh_iff.mp hhigh
  obtain ⟨-, hlow⟩ := isLow_iff.mp hlow
  unfold pairCodePoint
  omega

theorem ofCodePoint_pairCodePoint {high low : UInt16} (hhigh : isHigh high) (hlow : isLow low) :
    ofCodePoint (pairCodePoint high low) = [high, low] := by
  have hge : ¬ pairCodePoint high low < 0x10000 :=
    Nat.not_lt.mpr (pairCodePoint_range hhigh hlow).1
  obtain ⟨hfirst, -⟩ := isHigh_iff.mp hhigh
  obtain ⟨hsecond, hlast⟩ := isLow_iff.mp hlow
  have hdiv : 0xd800 + (pairCodePoint high low - 0x10000) / 0x400 = high.toNat := by
    unfold pairCodePoint
    omega
  have hmod : 0xdc00 + (pairCodePoint high low - 0x10000) % 0x400 = low.toNat := by
    unfold pairCodePoint
    omega
  rw [ofCodePoint, if_neg hge, hdiv, hmod]
  simp

theorem IsQuote.not_isMarker {quote : UInt16} (h : IsQuote quote) : ¬ IsMarker quote := by
  simp only [IsMarker, controls, wides]
  rcases h with rfl | rfl <;> simp

theorem not_isMarker_backslash : ¬ IsMarker (unit '\\') := by
  simp [IsMarker, controls, wides]

/-- A text that is written between quotes is read back. -/
theorem Encodes.decodes {quote : UInt16} {value content : Text} (hquote : IsQuote quote)
    (h : Encodes quote value content) (after : Text) :
    Decodes quote (content ++ quote :: after) (.ok (value, after)) := by
  induction h with
  | nil => exact .closed
  | @raw u value content hne hslash _ ih => exact .item (.plain hne hslash) ih
  | @escaped u value content hmarker _ ih => exact .item (.other hmarker) ih
  | @control marker u value content hmarker _ ih => exact .item (.control hmarker) ih
  | @digits marker u limit digits value content hmarker hdigits hne hvalue _ ih =>
      have hrange : positional 16 digits ≤ 0x10ffff := by
        have hlt := u.toNat_lt
        omega
      have hitem : Item quote (unit '\\' :: marker :: digits) (content ++ quote :: after)
          (ofCodePoint (positional 16 digits)) :=
        .codePoint hmarker (hdigits.before_quote hquote) hne hrange
      rw [hvalue, ofCodePoint_toNat] at hitem
      rw [List.cons_append, List.cons_append, List.append_assoc]
      exact .item hitem ih
  | @pair high low digits value content hhigh hlow hdigits hvalue _ ih =>
      obtain ⟨hge, hle⟩ := pairCodePoint_range hhigh hlow
      have hne : digits ≠ [] := by
        rintro rfl
        rw [← hvalue] at hge
        exact absurd hge (by decide)
      have hitem : Item quote (unit '\\' :: unit 'X' :: digits) (content ++ quote :: after)
          (ofCodePoint (positional 16 digits)) :=
        .codePoint (by decide) (hdigits.before_quote hquote) hne (hvalue ▸ hle)
      rw [hvalue, ofCodePoint_pairCodePoint hhigh hlow] at hitem
      rw [List.cons_append, List.cons_append, List.append_assoc]
      exact .item hitem ih

/-- Every text can be written between quotes. -/
theorem exists_encodes {quote : UInt16} (hquote : IsQuote quote) (value : Text) :
    ∃ content, Encodes quote value content := by
  induction value with
  | nil => exact ⟨[], .nil⟩
  | cons u value ih =>
      obtain ⟨content, hcontent⟩ := ih
      by_cases hu : u = quote
      · exact ⟨_, .escaped (hu ▸ hquote.not_isMarker) hcontent⟩
      by_cases hslash : u = unit '\\'
      · exact ⟨_, .escaped (hslash ▸ not_isMarker_backslash) hcontent⟩
      · exact ⟨_, .raw hu hslash hcontent⟩

end Literal

end Lexis
