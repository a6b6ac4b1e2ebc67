import Lexis.Error.Template

/-!
# Templates as pieces

A scan of a template from left to right finds units to copy and placeholders to fill.  What
it finds does not depend on the fields.  It goes through to the end, unless it meets an
opening brace that is never closed.  Each piece that it finds is shown when it is found, so a
value that cannot be shown takes the message away even where the template would have been used
as it stands.  A piece is read in the same way whatever follows it, so templates that are closed
can be put together.
-/

namespace Lexis.Template

inductive Piece where
  | copied (u : UInt16)
  | placeholder (name : Text)

namespace Piece

def written : Piece → Text
  | .copied u => [u]
  | .placeholder name => opening :: (name ++ [closing])

def filled? (fields : Fields) : Piece → Option Text
  | .copied u => some [u]
  | .placeholder name =>
      match fields.get? name with
      | some value => value.shown?
      | none => some []

end Piece

def Shows (fields : Fields) (pieces : List Piece) (texts : List Text) : Prop :=
  pieces.map (Piece.filled? fields) = texts.map some

def Hides (fields : Fields) (pieces : List Piece) : Prop :=
  ∃ p ∈ pieces, p.filled? fields = none

/-- One step of the scan: the piece at the beginning of a template, and what follows it. -/
inductive Step : Text → Piece → Text → Prop
  | copied {u : UInt16} {rest : Text} (hbrace : u = opening → rest.head? = some opening) :
      Step (u :: rest) (.copied u) rest
  | placeholder {name rest : Text} (hnext : name.head? ≠ some opening) (hname : closing ∉ name) :
      Step (opening :: (name ++ closing :: rest)) (.placeholder name) rest

/-- The scan of a template, up to where it has come. -/
inductive Scan : Text → List Piece → Text → Prop
  | here {t : Text} : Scan t [] t
  | piece {t next rest : Text} {p : Piece} {ps : List Piece} (hstep : Step t p next)
      (hscan : Scan next ps rest) : Scan t (p :: ps) rest

/-- The scan comes to an opening brace, not before another one, that nothing closes. -/
def Unclosed (template : Text) : Prop :=
  ∃ pieces rest, Scan template pieces (opening :: rest) ∧ rest.head? ≠ some opening ∧
    closing ∉ rest

variable {fields : Fields} {t next rest : Text} {p : Piece} {ps qs : List Piece}

/-! ## Filling in, piece by piece -/

theorem filled?_placeholder (fields : Fields) (name : Text) :
    (Piece.placeholder name).filled? fields = filling fields name := by
  simp only [Piece.filled?, filling]
  cases fields.get? name <;> rfl

theorem fill_of_not_mem {name : Text} (h : closing ∉ rest) :
    fill fields (some name) rest = .error .unclosed := by
  induction rest generalizing name with
  | nil => rfl
  | cons u rest ih =>
      have hu : u ≠ closing := fun heq ↦ h (heq ▸ List.mem_cons_self)
      rw [fill, if_neg hu]
      exact ih fun hmem ↦ h (List.mem_cons_of_mem u hmem)

theorem fill_opening (hhead : rest.head? ≠ some opening) (hclosing : closing ∉ rest) :
    fill fields none (opening :: rest) = .error .unclosed := by
  rw [fill, if_pos ⟨rfl, hhead⟩, fill_of_not_mem hclosing]

/-- The scan goes on behind a piece once the piece is shown. -/
def fillAfter (fields : Fields) (shown : Option Text) (rest : Text) : Except Obstacle Text :=
  match shown with
  | none => .error .unshowable
  | some text => (fill fields none rest).map (text ++ ·)

/-- The units before the first closing brace are the rest of the name. -/
theorem fill_through_closing {name : Text} (h : closing ∉ next) :
    fill fields (some name) (next ++ closing :: rest) =
      fillAfter fields (filling fields (name.reverse ++ next)) rest := by
  induction next generalizing name with
  | nil =>
      rw [List.nil_append, fill, if_pos rfl, List.append_nil]
      rfl
  | cons u next ih =>
      have hu : u ≠ closing := fun heq ↦ h (heq ▸ List.mem_cons_self)
      have hnext : closing ∉ next := fun hmem ↦ h (List.mem_cons_of_mem u hmem)
      rw [List.cons_append, fill, if_neg hu, ih hnext, List.reverse_cons, List.append_assoc]
      rfl

theorem Step.fill_eq (h : Step t p next) :
    fill fields none t = fillAfter fields (p.filled? fields) next := by
  cases h with
  | copied hbrace =>
      rw [fill, if_neg fun hopen ↦ hopen.2 (hbrace hopen.1)]
      rfl
  | @placeholder name rest hnext hname =>
      have hhead : (name ++ closing :: next).head? ≠ some opening := by
        cases name with
        | nil => simp [opening, closing]
        | cons u name => exact hnext
      rw [fill, if_pos ⟨rfl, hhead⟩, fill_through_closing hname, filled?_placeholder]
      rfl

/-- Up to where the scan has come, the message has what is shown for the pieces. -/
theorem Scan.fill_eq {texts : List Text} (h : Scan t ps rest)
    (hshown : Shows fields ps texts) :
    fill fields none t = (fill fields none rest).map (texts.flatten ++ ·) := by
  induction h generalizing texts with
  | here =>
      obtain rfl : texts = [] := by simpa [Shows] using hshown.symm
      cases fill fields none _ <;> rfl
  | piece hstep _ ih =>
      cases texts with
      | nil => simp [Shows] at hshown
      | cons text texts =>
          simp only [Shows, List.map_cons, List.cons.injEq] at hshown
          rw [hstep.fill_eq, hshown.1, fillAfter, ih hshown.2]
          cases fill fields none _ <;> simp [Except.map]

theorem Scan.fill_eq_unshowable (h : Scan t ps rest) (hhidden : Hides fields ps) :
    fill fields none t = .error .unshowable := by
  induction h with
  | here => simp [Hides] at hhidden
  | @piece t next rest p ps hstep _ ih =>
      rw [hstep.fill_eq]
      cases hp : p.filled? fields with
      | none => rfl
      | some text =>
          obtain ⟨q, hq, hnone⟩ := hhidden
          have hmem : q ∈ ps := by
            rcases List.mem_cons.mp hq with rfl | hmem
            · simp [hp] at hnone
            · exact hmem
          rw [fillAfter, ih ⟨q, hmem, hnone⟩]
          rfl

/-- The pieces can all be shown, or one of them cannot. -/
theorem shown_cases (fields : Fields) (ps : List Piece) :
    (∃ texts, Shows fields ps texts) ∨ Hides fields ps := by
  induction ps with
  | nil => exact .inl ⟨[], rfl⟩
  | cons p ps ih =>
      cases hp : p.filled? fields with
      | none => exact .inr ⟨p, List.mem_cons_self, hp⟩
      | some text =>
          rcases ih with ⟨texts, htexts⟩ | ⟨q, hq, hnone⟩
          · exact .inl ⟨text :: texts, by rw [Shows, List.map_cons, hp, htexts, List.map_cons]⟩
          · exact .inr ⟨q, List.mem_cons_of_mem p hq, hnone⟩

theorem Scan.render_eq {texts : List Text} (h : Scan t ps [])
    (hshown : Shows fields ps texts) :
    render t fields = some texts.flatten := by
  rw [render, h.fill_eq hshown, fill]
  simp [Except.map]

theorem Scan.render_eq_none (h : Scan t ps rest) (hhidden : Hides fields ps) :
    render t fields = none := by
  rw [render, h.fill_eq_unshowable hhidden]

/-- At a brace that nothing closes the template is used, once all before it was shown. -/
theorem Scan.render_eq_self {texts : List Text} (h : Scan t ps (opening :: rest))
    (hhead : rest.head? ≠ some opening) (hclosing : closing ∉ rest)
    (hshown : Shows fields ps texts) : render t fields = some t := by
  rw [render, h.fill_eq hshown, fill_opening hhead hclosing]
  rfl

/-! ## How far the scan comes -/

theorem Step.written_append (h : Step t p next) : t = p.written ++ next := by
  cases h with
  | copied => rfl
  | placeholder => simp [Piece.written]

theorem Scan.written_append (h : Scan t ps rest) : t = ps.flatMap Piece.written ++ rest := by
  induction h with
  | here => rfl
  | piece hstep _ ih => rw [List.flatMap_cons, List.append_assoc, ← ih, ← hstep.written_append]

/-- Before the end there is a piece to read or a brace that is not closed. -/
theorem exists_step (u : UInt16) (rest : Text) :
    (∃ p next, Step (u :: rest) p next ∧ next.length ≤ rest.length) ∨
      u = opening ∧ rest.head? ≠ some opening ∧ closing ∉ rest := by
  by_cases hbrace : u = opening → rest.head? = some opening
  · exact .inl ⟨_, rest, .copied hbrace, Nat.le_refl _⟩
  · obtain ⟨rfl, hhead⟩ := Classical.not_imp.mp hbrace
    by_cases hclosing : closing ∈ rest
    · obtain ⟨name, after, rfl, hname⟩ := List.eq_append_cons_of_mem hclosing
      have hnext : name.head? ≠ some opening := by
        cases name with
        | nil => simp
        | cons v name => exact hhead
      refine .inl ⟨_, after, .placeholder hnext hname, ?_⟩
      simp only [List.length_append, List.length_cons]
      omega
    · exact .inr ⟨rfl, hhead, hclosing⟩

theorem exists_scan (t : Text) : (∃ ps, Scan t ps []) ∨ Unclosed t := by
  induction hlength : t.length using Nat.strongRecOn generalizing t with
  | ind n ih =>
      subst hlength
      cases t with
      | nil => exact .inl ⟨[], .here⟩
      | cons u rest =>
          rcases exists_step u rest with ⟨p, next, hstep, hle⟩ | ⟨rfl, hhead, hclosing⟩
          · have hless : next.length < (u :: rest).length := Nat.lt_succ_of_le hle
            rcases ih _ hless next rfl with ⟨ps, hps⟩ | ⟨ps, after, hps, hopen⟩
            · exact .inl ⟨p :: ps, .piece hstep hps⟩
            · exact .inr ⟨p :: ps, after, .piece hstep hps, hopen⟩
          · exact .inr ⟨[], rest, .here, hhead, hclosing⟩

theorem not_unclosed_iff : ¬ Unclosed t ↔ ∃ ps, Scan t ps [] := by
  constructor
  · exact (exists_scan t).resolve_right
  · rintro ⟨ps, hps⟩ ⟨qs, rest, hqs, hhead, hclosing⟩
    -- without fields everything is shown, and the two scans fill in differently
    have hshown (pieces : List Piece) : ∃ texts, Shows [] pieces texts := by
      refine (shown_cases [] pieces).resolve_right ?_
      rintro ⟨p, -, hnone⟩
      cases p <;> simp [Piece.filled?, Fields.get?] at hnone
    obtain ⟨texts, htexts⟩ := hshown ps
    obtain ⟨others, hothers⟩ := hshown qs
    have hclosed := hps.fill_eq htexts
    rw [hqs.fill_eq hothers, fill_opening hhead hclosing, fill] at hclosed
    simp [Except.map] at hclosed

/-! ## Templates one behind the other -/

/-- A brace at the end of a template would not be closed, so no step looks beyond it. -/
theorem Step.append (h : Step t p next) (b : Text) : Step (t ++ b) p (next ++ b) := by
  cases h with
  | copied hbrace =>
      apply Step.copied
      intro hu
      obtain ⟨after, rfl⟩ := List.head?_eq_some_iff.mp (hbrace hu)
      rfl
  | @placeholder name rest hnext hname =>
      have hmore : Step (opening :: (name ++ closing :: (next ++ b))) (.placeholder name)
          (next ++ b) := .placeholder hnext hname
      simpa using hmore

theorem Scan.append (h : Scan t ps rest) (b : Text) : Scan (t ++ b) ps (rest ++ b) := by
  induction h with
  | here => exact .here
  | piece hstep _ ih => exact .piece (hstep.append b) ih

theorem Scan.trans (h : Scan t ps next) (hnext : Scan next qs rest) : Scan t (ps ++ qs) rest := by
  induction h with
  | here => exact hnext
  | piece hstep _ ih => exact .piece hstep (ih hnext)

/-- What is rendered is settled by the pieces that the scan finds.  If one of them cannot be
shown, there is no message.  Otherwise a template with a brace that is not closed is used as it
stands, and a closed one is divided into pieces: the message has each unit that is copied and
the value of each field that is named, with nothing for a field that is not there.  The pieces
are those of the template alone, so no value is read again.  Closed templates can be put
together before or after they are filled in. -/
theorem render_eq_filled (fields : Fields) :
    (∀ template pieces rest, Scan template pieces (opening :: rest) →
      rest.head? ≠ some opening → closing ∉ rest →
        (render template fields = some template ↔ ∃ texts, Shows fields pieces texts) ∧
        (Hides fields pieces → render template fields = none)) ∧
    (∀ template, ¬ Unclosed template → (∃ pieces, Scan template pieces []) ∧
      ∀ pieces, Scan template pieces [] → pieces.flatMap Piece.written = template ∧
        (∀ texts, Shows fields pieces texts → render template fields = some texts.flatten) ∧
        (Hides fields pieces → render template fields = none)) ∧
    (∀ pieces, (∃ texts, Shows fields pieces texts) ∨ Hides fields pieces) ∧
    ∀ a b, ¬ Unclosed a → ¬ Unclosed b → ¬ Unclosed (a ++ b) ∧
      render (a ++ b) fields =
        (render a fields).bind fun first ↦ (render b fields).map (first ++ ·) := by
  refine ⟨?_, ?_, shown_cases fields, ?_⟩
  · intro template pieces rest hscan hhead hclosing
    refine ⟨⟨fun hsame ↦ ?_, ?_⟩, hscan.render_eq_none⟩
    · rcases shown_cases fields pieces with hshown | hhidden
      · exact hshown
      · rw [hscan.render_eq_none hhidden] at hsame
        exact absurd hsame (by simp)
    · rintro ⟨texts, htexts⟩
      exact hscan.render_eq_self hhead hclosing htexts
  · intro template hclosed
    refine ⟨not_unclosed_iff.mp hclosed, fun pieces hscan ↦ ⟨?_, ?_, hscan.render_eq_none⟩⟩
    · have hwritten := hscan.written_append
      rw [List.append_nil] at hwritten
      exact hwritten.symm
    · intro texts htexts
      exact hscan.render_eq htexts
  · intro a b ha hb
    obtain ⟨ps, hps⟩ := not_unclosed_iff.mp ha
    obtain ⟨qs, hqs⟩ := not_unclosed_iff.mp hb
    have hboth : Scan (a ++ b) (ps ++ qs) [] := (hps.append b).trans hqs
    refine ⟨not_unclosed_iff.mpr ⟨_, hboth⟩, ?_⟩
    rcases shown_cases fields ps with ⟨first, hfirst⟩ | ⟨p, hp, hnone⟩
    · rw [hps.render_eq hfirst]
      rcases shown_cases fields qs with ⟨second, hsecond⟩ | ⟨q, hq, hnone⟩
      · have hall : Shows fields (ps ++ qs) (first ++ second) := by
          rw [Shows, List.map_append, List.map_append, hfirst, hsecond]
        rw [hqs.render_eq hsecond, hboth.render_eq hall, List.flatten_append]
        rfl
      · rw [hqs.render_eq_none ⟨q, hq, hnone⟩,
          hboth.render_eq_none ⟨q, List.mem_append_right ps hq, hnone⟩]
        rfl
    · rw [hps.render_eq_none ⟨p, hp, hnone⟩,
        hboth.render_eq_none ⟨p, List.mem_append_left qs hp, hnone⟩]
      rfl

/-- A value with braces of its own, two braces in a row, a brace that is not closed, and a value
that cannot be shown. -/
theorem render_eq_filled_braces :
    let fields : Fields :=
      [("n", .text "\x7bm\x7d"), ("m", .text "1"), ("o", .object [("toString", .null)])]
    render "\x7b\x7bn\x7d" fields = some (Text.ofString "\x7b\x7bm\x7d") ∧
      render ("\x7b\x7bn\x7d" ++ "\x7bm\x7d" : Text) fields =
        some (Text.ofString "\x7b\x7bm\x7d1") ∧
      render "\x7bn\x7d\x7bm" fields = some (Text.ofString "\x7bn\x7d\x7bm") ∧
      render "\x7bo\x7d!" fields = none := by
  intro fields
  have hn : Scan "\x7b\x7bn\x7d" [.copied opening, .placeholder "n"] [] :=
    .piece (.copied fun _ ↦ rfl) (.piece (.placeholder (by decide) (by decide)) .here)
  have hm : Scan "\x7bm\x7d" [.placeholder "m"] [] :=
    .piece (.placeholder (by decide) (by decide)) .here
  have ho : Scan "\x7bo\x7d!" [.placeholder "o", .copied (unit '!')] [] :=
    .piece (.placeholder (by decide) (by decide)) (.piece (.copied (by decide)) .here)
  have hopen : Scan "\x7bn\x7d\x7bm" [.placeholder "n"] (opening :: "m") :=
    .piece (.placeholder (by decide) (by decide)) .here
  obtain ⟨hunchanged, hpieces, -, happend⟩ := render_eq_filled fields
  have hfilled : render "\x7b\x7bn\x7d" fields = some (Text.ofString "\x7b\x7bm\x7d") :=
    ((hpieces _ (not_unclosed_iff.mpr ⟨_, hn⟩)).2 _ hn).2.1 [[opening], "\x7bm\x7d"] rfl
  refine ⟨hfilled, ?_, ?_, ?_⟩
  · rw [(happend _ _ (not_unclosed_iff.mpr ⟨_, hn⟩) (not_unclosed_iff.mpr ⟨_, hm⟩)).2, hfilled,
      hm.render_eq (show Shows fields _ ["1"] from rfl)]
    rfl
  · exact (hunchanged _ _ _ hopen (by decide) (by decide)).1.mpr ⟨["\x7bm\x7d"], rfl⟩
  · exact ((hpieces _ (not_unclosed_iff.mpr ⟨_, ho⟩)).2 _ ho).2.2 ⟨_, List.mem_cons_self, rfl⟩

/-- A value that cannot be shown comes before a brace that is not closed, and the template is not
used as it stands. -/
theorem not_render_eq_self_of_unclosed :
    let template : Text := "\x7ba\x7d\x7bb"
    let fields : Fields := [("a", .object [("toString", .number (.ofInt 1))])]
    Unclosed template ∧ render template fields = none := by
  refine ⟨⟨[.placeholder "a"], "b", ?_, by decide, by decide⟩, rfl⟩
  exact .piece (.placeholder (by decide) (by decide)) .here

end Lexis.Template
