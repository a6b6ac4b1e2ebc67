import Lexis.Proofs.Number.Shortest
import Lexis.Reader.Error

/-!
# Places at the end of messages

The wording of a report is got back by taking a place off the end of its message.  What is
taken off is a place written in digits, whoever has put it there.  So the wording comes back
from a report with a position if the position is written in digits, and from a report
without one if the wording does not end in a place itself.
-/

namespace Lexis

def Text.IsNumeral (t : Text) : Prop :=
  ∃ digits : Text, digits ≠ [] ∧ (∀ u ∈ digits, isDigit u = true) ∧
    (t = digits ∨ t = unit '-' :: digits)

namespace Report

open Text

/-- A line and a column in digits, as they stand at the end of a message. -/
def IsPlace (t : Text) : Prop :=
  ∃ line column : Text, IsNumeral line ∧ IsNumeral column ∧
    t = " at " ++ (line ++ unit ':' :: column)

def EndsInPlace (t : Text) : Prop := ∃ before place : Text, IsPlace place ∧ t = before ++ place

/-- What it takes to get a wording back from the message of a report. -/
def Separable (wording : Text) : Option Position → Prop
  | none => ¬ EndsInPlace wording
  | some p => Binary64.IsPlain p.line ∧ Binary64.IsPlain p.column

structure States (r : Report) (wording : Text) (position : Option Position) : Prop where
  message : r.message = wording ++ suffix position
  bareMessage : r.bareMessage = wording ↔ Separable wording position

variable {t rest number before tail : Text} {u : UInt16}

/-! ## Numerals -/

theorem not_mem_of_isNumeral (h : IsNumeral t) : unit ':' ∉ t := by
  obtain ⟨digits, -, hdigits, ht⟩ := h
  have hnot : unit ':' ∉ digits := by
    intro hmem
    exact absurd (hdigits _ hmem) (by decide)
  rcases ht with rfl | rfl
  · exact hnot
  · rw [List.mem_cons, not_or]
    exact ⟨by decide, hnot⟩

theorem dropReversedInteger_append (h : IsNumeral number) (hu : isDigit u = false)
    (hminus : u ≠ unit '-') :
    dropReversedInteger (number.reverse ++ u :: rest) = some (u :: rest) := by
  obtain ⟨digits, hne, hdigits, hnumber⟩ := h
  have hreversed : ∀ v ∈ digits.reverse, isDigit v = true := by
    intro v hv
    exact hdigits v (List.mem_reverse.mp hv)
  have hlength : 0 < digits.length := List.length_pos_iff.mpr hne
  rcases hnumber with rfl | rfl
  · have hdrop : (number.reverse ++ u :: rest).dropWhile isDigit = u :: rest := by
      rw [List.dropWhile_append_of_pos hreversed, List.dropWhile_cons_of_neg (by simp [hu])]
    unfold dropReversedInteger
    dsimp only
    rw [hdrop, if_neg, if_neg]
    · simpa using hminus
    · simp
      omega
  · have hdrop : ((unit '-' :: digits).reverse ++ u :: rest).dropWhile isDigit =
        unit '-' :: u :: rest := by
      rw [List.reverse_cons, List.append_assoc, List.dropWhile_append_of_pos hreversed]
      exact List.dropWhile_cons_of_neg (by decide)
    unfold dropReversedInteger
    dsimp only
    rw [hdrop, if_neg, if_pos List.head?_cons, List.tail_cons]
    · simp
      omega

theorem exists_of_dropReversedInteger (h : dropReversedInteger t = some rest) :
    ∃ number : Text, IsNumeral number ∧ t = number.reverse ++ rest := by
  have hsplit : t.takeWhile isDigit ++ t.dropWhile isDigit = t := List.takeWhile_append_dropWhile
  have hdigits : ∀ u ∈ (t.takeWhile isDigit).reverse, isDigit u = true := by
    intro u hu
    exact List.all_eq_true.mp List.all_takeWhile u (List.mem_reverse.mp hu)
  unfold dropReversedInteger at h
  dsimp only at h
  split at h
  · simp at h
  · next hlength =>
    have hne : (t.takeWhile isDigit).reverse ≠ [] := by
      intro hnil
      rw [List.reverse_eq_nil_iff.mp hnil, List.nil_append] at hsplit
      exact hlength (congrArg List.length hsplit)
    split at h
    · next hhead =>
      obtain ⟨tail, htail⟩ : ∃ tail, t.dropWhile isDigit = unit '-' :: tail :=
        List.head?_eq_some_iff.mp hhead
      obtain rfl : tail = rest := by simpa [htail] using h
      refine ⟨unit '-' :: (t.takeWhile isDigit).reverse, ⟨_, hne, hdigits, .inr rfl⟩, ?_⟩
      rw [List.reverse_cons, List.reverse_reverse, List.append_assoc, List.singleton_append,
        ← htail, hsplit]
    · obtain rfl := Option.some.inj h
      refine ⟨(t.takeWhile isDigit).reverse, ⟨_, hne, hdigits, .inl rfl⟩, ?_⟩
      rw [List.reverse_reverse, hsplit]

/-! ## Places -/

theorem dropReversedPlace_append (h : IsPlace tail) :
    dropReversedPlace (tail.reverse ++ rest) = some rest := by
  obtain ⟨line, column, hline, hcolumn, rfl⟩ := h
  have hwords : (Text.ofString " at ").reverse = [unit ' ', unit 't', unit 'a', unit ' '] := by
    decide
  generalize hback : line.reverse ++ unit ' ' :: (unit 't' :: unit 'a' :: unit ' ' :: rest) = back
  have hreversed : (Text.ofString " at " ++ (line ++ unit ':' :: column)).reverse ++ rest =
      column.reverse ++ unit ':' :: back := by
    simp [hwords, ← hback]
  have hcolon :
      dropReversedInteger (column.reverse ++ unit ':' :: back) = some (unit ':' :: back) :=
    dropReversedInteger_append hcolumn (by decide) (by decide)
  have hspace : dropReversedInteger back =
      some (unit ' ' :: (unit 't' :: unit 'a' :: unit ' ' :: rest)) := by
    rw [← hback]
    exact dropReversedInteger_append hline (by decide) (by decide)
  rw [hreversed]
  apply Option.bind_eq_some_iff.mpr
  refine ⟨_, hcolon, Option.bind_eq_some_iff.mpr ⟨(), rfl, ?_⟩⟩
  exact Option.bind_eq_some_iff.mpr ⟨_, hspace, Option.bind_eq_some_iff.mpr ⟨(), rfl, rfl⟩⟩

theorem of_guard_eq_some {p : Prop} [Decidable p] {w : Unit} (h : guard p = some w) : p := by
  unfold guard at h
  split at h
  · assumption
  · simp [failure] at h

theorem exists_of_dropReversedPlace (h : dropReversedPlace t = some rest) :
    ∃ place : Text, IsPlace place ∧ t = place.reverse ++ rest := by
  obtain ⟨behind, hcolumn, h⟩ := Option.bind_eq_some_iff.mp h
  obtain ⟨_, hcolon, h⟩ := Option.bind_eq_some_iff.mp h
  obtain ⟨front, hline, h⟩ := Option.bind_eq_some_iff.mp h
  obtain ⟨_, hwords, hrest⟩ := Option.bind_eq_some_iff.mp h
  obtain ⟨tail, rfl⟩ : ∃ tail, behind = unit ':' :: tail := by
    apply List.head?_eq_some_iff.mp
    exact of_guard_eq_some hcolon
  obtain ⟨later, rfl⟩ : ∃ later, (Text.ofString " at ").reverse ++ later = front := by
    apply List.isPrefixOf_iff_prefix.mp
    exact of_guard_eq_some hwords
  obtain ⟨column, hnumeral, rfl⟩ := exists_of_dropReversedInteger hcolumn
  obtain ⟨line, hnumeral', rfl⟩ := exists_of_dropReversedInteger hline
  refine ⟨" at " ++ (line ++ unit ':' :: column), ⟨line, column, hnumeral', hnumeral, rfl⟩, ?_⟩
  have hlater : later = rest := Option.some.inj hrest
  simp [hlater]

theorem withoutPlace_append (h : IsPlace tail) : withoutPlace (before ++ tail) = before := by
  unfold withoutPlace
  rw [List.reverse_append, dropReversedPlace_append h]
  exact List.reverse_reverse before

theorem withoutPlace_of_not_endsInPlace (h : ¬ EndsInPlace t) : withoutPlace t = t := by
  unfold withoutPlace
  cases hdrop : dropReversedPlace t.reverse with
  | none => rfl
  | some rest =>
      obtain ⟨place, hplace, hreverse⟩ := exists_of_dropReversedPlace hdrop
      refine absurd ⟨rest.reverse, place, hplace, ?_⟩ h
      rw [← List.reverse_reverse t, hreverse, List.reverse_append, List.reverse_reverse]

/-- Nothing but a place comes off the end of a text. -/
theorem withoutPlace_append_eq_iff (htail : tail ≠ []) :
    withoutPlace (before ++ tail) = before ↔ IsPlace tail := by
  constructor
  · intro h
    by_cases hends : EndsInPlace (before ++ tail)
    · obtain ⟨front, place, hplace, hsplit⟩ := hends
      rw [hsplit, withoutPlace_append hplace] at h
      rw [h] at hsplit
      rw [List.append_cancel_left hsplit]
      exact hplace
    · rw [withoutPlace_of_not_endsInPlace hends] at h
      exact absurd (List.append_right_eq_self.mp h) htail
  · exact withoutPlace_append

theorem withoutPlace_eq_self_iff : withoutPlace t = t ↔ ¬ EndsInPlace t := by
  constructor
  · rintro h ⟨before, place, hplace, rfl⟩
    rw [withoutPlace_append hplace] at h
    have hnil : place = [] := List.append_right_eq_self.mp h.symm
    obtain ⟨line, column, -, -, rfl⟩ := hplace
    exact absurd hnil (by simp)
  · exact withoutPlace_of_not_endsInPlace

/-! ## Positions -/

theorem isNumeral_sign_append_iff {n : Int} (h : unit '-' ∉ t) :
    IsNumeral (Binary64.sign n ++ t) ↔ t ≠ [] ∧ ∀ u ∈ t, isDigit u = true := by
  constructor
  · rintro ⟨digits, hne, hdigits, hsame⟩
    have hminus : unit '-' ∉ digits := by
      intro hmem
      exact absurd (hdigits _ hmem) (by decide)
    have heq : t = digits := by
      unfold Binary64.sign at hsame
      split at hsame
      · rcases hsame with hplain | hsigned
        · rw [← hplain] at hminus
          exact absurd List.mem_cons_self hminus
        · exact (List.cons.inj hsigned).2
      · rcases hsame with hplain | hsigned
        · exact hplain
        · rw [List.nil_append] at hsigned
          rw [hsigned] at h
          exact absurd List.mem_cons_self h
    rw [heq]
    exact ⟨hne, hdigits⟩
  · rintro ⟨hne, hdigits⟩
    refine ⟨t, hne, hdigits, ?_⟩
    unfold Binary64.sign
    split
    · exact .inr rfl
    · exact .inl rfl

theorem isNumeral_integerText_iff (n : Int) :
    IsNumeral (Binary64.integerText n) ↔ Binary64.IsPlain n := by
  cases Binary64.shown n with
  | finite k hnear htext hplain =>
      have hminus : unit '-' ∉ (Binary64.written k).map unit := by
        intro hmem
        exact absurd (Binary64.mem_map_written hmem) (by decide)
      have hne : (Binary64.written k).map unit ≠ [] := by
        simpa using Binary64.written_ne_nil k
      rw [htext, isNumeral_sign_append_iff hminus, Binary64.isDigit_map_written_iff, hplain]
      exact and_iff_right hne
  | infinite hnear htext hplain =>
      rw [htext, isNumeral_sign_append_iff (by decide)]
      refine iff_of_false ?_ hplain
      rintro ⟨-, hdigits⟩
      exact absurd (hdigits (unit 'I') (by decide)) (by decide)

theorem not_mem_integerText (n : Int) : unit ':' ∉ Binary64.integerText n := by
  intro hmem
  exact absurd (Binary64.mem_integerText hmem) (by decide)

theorem suffix_some (p : Position) :
    suffix (some p) =
      " at " ++ (Binary64.integerText p.line ++ unit ':' :: Binary64.integerText p.column) := by
  show Text.ofString " at " ++ (Binary64.integerText p.line ++ Text.ofString ":" ++ _) = _
  rw [List.append_assoc]
  rfl

theorem isPlace_suffix_iff (p : Position) :
    IsPlace (suffix (some p)) ↔ Binary64.IsPlain p.line ∧ Binary64.IsPlain p.column := by
  rw [← isNumeral_integerText_iff, ← isNumeral_integerText_iff, suffix_some]
  constructor
  · rintro ⟨line, column, hline, hcolumn, hsame⟩
    obtain ⟨hlines, hcolumns⟩ := append_cons_inj (not_mem_integerText p.line)
      (not_mem_of_isNumeral hline) (List.append_cancel_left hsame)
    rw [hlines, hcolumns]
    exact ⟨hline, hcolumn⟩
  · rintro ⟨hline, hcolumn⟩
    exact ⟨_, _, hline, hcolumn, rfl⟩

/-! ## Reports -/

theorem states (r : Report) : r.States r.wording r.position := by
  refine ⟨rfl, ?_⟩
  unfold bareMessage message
  cases r.position with
  | none =>
      rw [show suffix none = [] from rfl, List.append_nil]
      exact withoutPlace_eq_self_iff
  | some p =>
      rw [withoutPlace_append_eq_iff (by simp [suffix_some])]
      exact isPlace_suffix_iff p

theorem ofId?_id (code : ErrorCode) : ErrorCode.ofId? code.id = some code := by
  cases code with
  | lexical code => cases code <;> decide
  | readMismatch => decide
  | endOfStream => decide
  | invalidConfig => decide

theorem create_eq {code : ErrorCode} {fields : Fields} {position : Option Position} :
    create code.id fields position =
      match Template.render code.template fields with
      | some wording => .ok { code, wording, position, context := some fields }
      | none => .error .unshowable := by
  rw [create, ofId?_id]
  dsimp only
  rw [ofFields]
  cases Template.render code.template fields <;> rfl

/-- For every registered error, the wording of a report comes back from its message just if
its position is written in digits or, when there is none, if the wording does not end in a
place.  The wording is the one that was given, the filled template, the description of an
error in a source text or the words on a token that was not wanted.  A template is filled
unless it asks for a value that cannot be shown, and then there is no report. -/
theorem bareMessage_iff_separable (code : ErrorCode) (wording : Text)
    (position : Option Position) :
    (∀ context : Option Fields,
      ∃ r, ofId code.id wording position context = .ok r ∧ r.States wording position) ∧
    (∀ fields : Fields,
      (∀ filled, Template.render code.template fields = some filled →
        ∃ r, create code.id fields position = .ok r ∧ r.States filled position) ∧
      (Template.render code.template fields = none →
        create code.id fields position = .error .unshowable) ∧
      ((∀ field ∈ fields, field.2.isShowable = true) →
        ∃ filled, Template.render code.template fields = some filled)) ∧
    (∀ e : LexError, e.report.States e.description (some e.position)) ∧
    ∀ token : Token,
      (ReadError.mismatchReport token wording).States wording (some token.position) := by
  refine ⟨?_, ?_, ?_, ?_⟩
  · intro context
    refine ⟨{ code, wording, position, context }, ?_, states _⟩
    rw [ofId, ofId?_id]
  · intro fields
    refine ⟨?_, ?_, ?_⟩
    · intro filled hfilled
      refine ⟨{ code, wording := filled, position, context := some fields }, ?_, states _⟩
      rw [create_eq, hfilled]
    · intro hnone
      rw [create_eq, hnone]
    · intro h
      exact Option.isSome_iff_exists.mp (Template.isSome_render h code.template)
  · intro e
    exact states e.report
  · intro token
    exact states (ReadError.mismatchReport token wording)

/-- A field that ends in a place, in a report with a position. -/
theorem bareMessage_iff_separable_details :
    ∃ r, create "GT-C001" [("details", .text "x at 3:4")] (some ⟨1, 2⟩) = .ok r ∧
      r.message = Text.ofString "Invalid configuration: x at 3:4 at 1:2" ∧
      r.bareMessage = Text.ofString "Invalid configuration: x at 3:4" := by
  obtain ⟨-, hcreate, -⟩ := bareMessage_iff_separable .invalidConfig [] (some ⟨1, 2⟩)
  obtain ⟨r, hr, hmessage, hbare⟩ :=
    (hcreate [("details", .text "x at 3:4")]).1 "Invalid configuration: x at 3:4" rfl
  have hplain (n : Int) (hn : n.natAbs ≤ 2) : Binary64.IsPlain n :=
    ⟨n, Binary64.toInt?_ofInt (Nat.le_trans hn (by decide)), Nat.lt_of_le_of_lt hn (by decide)⟩
  exact ⟨r, hr, hmessage.trans (by decide +kernel),
    hbare.mpr ⟨hplain 1 (by decide), hplain 2 (by decide)⟩⟩

/-- A wording that ends in a place loses it when there is no position. -/
theorem not_bareMessage_eq_wording :
    ∃ r, ofId "GT-C001" "x at 3:4" none none = .ok r ∧ r.bareMessage = Text.ofString "x" ∧
      Text.ofString "x" ≠ r.wording := by
  refine ⟨{ code := .invalidConfig, wording := "x at 3:4" }, ?_, ?_, ?_⟩
  · rfl
  · decide
  · decide

end Report

/-- What a lexer keeps of an error is what its report says and what the user is told. -/
theorem LexError.shown_of_record (e : LexError) :
    Template.render (ErrorCode.lexical e.record.code).template e.context =
        some e.record.description ∧
      e.report.message = e.record.description ++ Report.suffix (some e.record.position) ∧
      e.summary = "Lexer error at line " ++ Binary64.integerText e.record.position.line ++ ": " ++
        e.record.description :=
  ⟨(Option.some_get e.shows).symm, rfl, rfl⟩

end Lexis
