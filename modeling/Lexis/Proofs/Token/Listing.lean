import Lexis.Proofs.Number.Shortest
import Lexis.Proofs.Text.Quoted
import Lexis.Proofs.Token.Kind
import Lexis.Token.Listing

/-!
# What a listing shows

The numbers, names and quoted values of a listing end where their readers expect it, so the
tokens can be read back from it.  Main statement: a listing shows each token with all that
its form tells of it, in their order and nothing else.
-/

namespace Lexis

namespace Text

variable {separator : UInt16}

theorem splitOn_of_not_mem {t : Text} (h : separator ∉ t) : splitOn separator t = [t] := by
  induction t with
  | nil => rfl
  | cons u rest ih =>
      rw [List.mem_cons, not_or] at h
      rw [splitOn, if_neg (Ne.symm h.1), ih h.2]

theorem splitOn_append {t : Text} (h : separator ∉ t) (rest : Text) :
    splitOn separator (t ++ separator :: rest) = t :: splitOn separator rest := by
  induction t with
  | nil => rw [List.nil_append, splitOn, if_pos rfl]
  | cons u t ih =>
      rw [List.mem_cons, not_or] at h
      rw [List.cons_append, splitOn, if_neg (Ne.symm h.1), ih h.2]

/-- Pieces that a separator keeps apart are got back. -/
theorem splitOn_join {pieces : List Text} (hne : pieces ≠ [])
    (h : ∀ piece ∈ pieces, separator ∉ piece) :
    splitOn separator (join [separator] pieces) = pieces := by
  induction pieces with
  | nil => exact absurd rfl hne
  | cons piece rest ih =>
      obtain ⟨hpiece, hrest⟩ := List.forall_mem_cons.mp h
      cases rest with
      | nil => exact splitOn_of_not_mem hpiece
      | cons next rest =>
          rw [join, List.append_assoc, List.singleton_append, splitOn_append hpiece,
            ih (List.cons_ne_nil _ _) hrest]
          exact List.cons_ne_nil _ _

end Text

namespace Token

open Binary64

/-- What the line of a token tells of it. -/
def heading (t : Token) : Binary64 × Binary64 × Kind × Text :=
  (ofInt t.position.line, ofInt t.position.column, t.kind, t.value)

/-- What the record of a token tells of it. -/
def fields (t : Token) : Kind × Text × Binary64 × Binary64 × Binary64 × Binary64 :=
  (t.kind, t.value, ofInt t.first, ofInt t.last, ofInt t.position.line, ofInt t.position.column)

/-- A token all of whose numbers are represented exactly. -/
structure Exact (t : Token) : Prop where
  first : (ofInt t.first).toInt? = some t.first
  last : (ofInt t.last).toInt? = some t.last
  line : (ofInt t.position.line).toInt? = some t.position.line
  column : (ofInt t.position.column).toInt? = some t.position.column

variable {t u : Token} {ts us : List Token} {n m : Int} {separator : UInt16} {rest rest' : Text}

/-! ## Parts of a listing -/

/-- Functions that agree on what they tell apart tell the same sequences apart. -/
theorem map_eq_map_iff {α β γ : Type} {f : α → β} {g : α → γ} {as bs : List α}
    (h : ∀ a ∈ as, ∀ b ∈ bs, (f a = f b ↔ g a = g b)) :
    as.map f = bs.map f ↔ as.map g = bs.map g := by
  induction as generalizing bs with
  | nil => cases bs <;> simp
  | cons a as ih =>
      cases bs with
      | nil => simp
      | cons b bs =>
          have hrest : as.map f = bs.map f ↔ as.map g = bs.map g := by
            apply ih
            intro a ha b hb
            exact h a (List.mem_cons_of_mem _ ha) b (List.mem_cons_of_mem _ hb)
          rw [List.map_cons, List.map_cons, List.map_cons, List.map_cons, List.cons.injEq,
            List.cons.injEq, h a List.mem_cons_self b List.mem_cons_self, hrest]

theorem not_mem_integerText {n : Int} (hdigit : Text.isDigit separator = false)
    (hmark : separator ∉ unit '-' :: marks) : separator ∉ integerText n := by
  intro hmem
  rcases mem_integerText hmem with h | h
  · rw [hdigit] at h
    exact absurd h (by decide)
  · exact hmark h

/-- A number shows where it ends if what follows is no part of numbers. -/
theorem integerText_append_inj (hdigit : Text.isDigit separator = false)
    (hmark : separator ∉ unit '-' :: marks)
    (h : integerText n ++ separator :: rest = integerText m ++ separator :: rest') :
    ofInt n = ofInt m ∧ rest = rest' := by
  obtain ⟨hsame, hrest⟩ := append_cons_inj (not_mem_integerText hdigit hmark)
    (not_mem_integerText hdigit hmark) h
  exact ⟨integerText_eq_iff.mp hsame, hrest⟩

/-! ## Lines -/

theorem line_eq (t : Token) :
    t.line = integerText t.position.line ++ unit ':' ::
      (integerText t.position.column ++ unit ' ' ::
        (Text.ofString t.kind.name ++ unit ' ' :: t.value.quoted)) := by
  have hcolon : Text.ofString ":" = [unit ':'] := by decide
  have hspace : Text.ofString " " = [unit ' '] := by decide
  simp only [line, Position.coordinates, hcolon, hspace, List.append_assoc, List.cons_append,
    List.nil_append]

theorem line_eq_iff : t.line = u.line ↔ t.heading = u.heading := by
  unfold heading
  constructor
  · intro h
    rw [line_eq, line_eq] at h
    obtain ⟨hline, h⟩ := integerText_append_inj (by decide) (by decide) h
    obtain ⟨hcolumn, h⟩ := integerText_append_inj (by decide) (by decide) h
    obtain ⟨hname, h⟩ := append_cons_inj (Kind.name_checked t.kind).2.1
      (Kind.name_checked u.kind).2.1 h
    rw [← List.append_nil t.value.quoted, ← List.append_nil u.value.quoted] at h
    obtain ⟨hvalue, -⟩ := Text.quoted_append_inj h
    rw [hline, hcolumn, Kind.name_injective hname, hvalue]
  · intro h
    obtain ⟨hline, hcolumn, hkind, hvalue⟩ : _ ∧ _ ∧ _ ∧ _ := by
      simpa only [Prod.mk.injEq] using h
    rw [line_eq, line_eq, integerText_eq_iff.mpr hline, integerText_eq_iff.mpr hcolumn, hkind,
      hvalue]

theorem not_mem_line (t : Token) : unit '\n' ∉ t.line := by
  have hnumber (n : Int) : unit '\n' ∉ integerText n :=
    not_mem_integerText (by decide) (by decide)
  rw [line_eq]
  simp only [List.mem_append, List.mem_cons, not_or]
  exact ⟨hnumber _, by decide, hnumber _, by decide, (Kind.name_checked t.kind).2.2, by decide,
    Text.not_mem_quoted t.value⟩

theorem splitOn_lines (h : ts ≠ []) : Text.splitOn (unit '\n') (lines ts) = ts.map line := by
  have hnewline : Text.ofString "\n" = [unit '\n'] := by decide
  unfold lines
  rw [hnewline]
  apply Text.splitOn_join
  · simpa using h
  · intro piece hpiece
    obtain ⟨t, -, rfl⟩ := List.mem_map.mp hpiece
    exact not_mem_line t

theorem lines_ne_nil (h : ts ≠ []) : lines ts ≠ [] := by
  intro hnil
  have hsplit := splitOn_lines h
  rw [hnil] at hsplit
  obtain ⟨t, -, hline⟩ : ∃ t ∈ ts, t.line = [] := by
    apply List.mem_map.mp
    rw [← hsplit]
    exact List.mem_singleton_self _
  simp [line_eq] at hline

theorem lines_eq_iff : lines ts = lines us ↔ ts.map heading = us.map heading := by
  have hlines : lines ts = lines us ↔ ts.map line = us.map line := by
    constructor
    · intro h
      by_cases hts : ts = []
      · by_cases hus : us = []
        · rw [hts, hus]
        · rw [hts] at h
          exact absurd h.symm (lines_ne_nil hus)
      · by_cases hus : us = []
        · rw [hus] at h
          exact absurd h (lines_ne_nil hts)
        · rw [← splitOn_lines hts, ← splitOn_lines hus, h]
    · intro h
      rw [lines, lines, h]
  rw [hlines]
  exact map_eq_map_iff fun t _ u _ ↦ line_eq_iff

/-! ## Records -/

theorem field_append_inj {name : String} {a b : Text}
    (h : field name a ++ rest = field name b ++ rest') : a ++ rest = b ++ rest' := by
  have hsplit (value rest : Text) : field name value ++ rest =
      (Text.ofString "    " ++ Text.quoted name ++ Text.ofString ": ") ++ (value ++ rest) :=
    List.append_assoc ..
  rw [hsplit, hsplit] at h
  exact List.append_cancel_left h

theorem number_append_inj
    (h : integerText n ++ (Text.ofString ",\n" ++ rest) =
      integerText m ++ (Text.ofString ",\n" ++ rest')) : ofInt n = ofInt m ∧ rest = rest' := by
  have hcomma : Text.ofString ",\n" = [unit ',', unit '\n'] := by decide
  rw [hcomma] at h
  obtain ⟨hnumber, hrest⟩ := integerText_append_inj (by decide) (by decide) h
  exact ⟨hnumber, (List.cons.inj hrest).2⟩

theorem record_append (t : Token) (rest : Text) :
    t.record ++ rest =
      Text.ofString "  \x7b\n" ++ (field "kind" (Text.quoted t.kind.name) ++ (Text.ofString ",\n" ++
        (field "value" t.value.quoted ++ (Text.ofString ",\n" ++
          (field "from" (integerText t.first) ++ (Text.ofString ",\n" ++
            (field "to" (integerText t.last) ++ (Text.ofString ",\n" ++
              (field "line" (integerText t.position.line) ++ (Text.ofString ",\n" ++
                (field "column" (integerText t.position.column) ++ unit '\n' ::
                  (Text.ofString "  \x7d" ++ rest)))))))))))) := by
  have hend : Text.ofString "\n  \x7d" = unit '\n' :: Text.ofString "  \x7d" := by decide
  simp only [record, Text.join, hend, List.append_assoc, List.cons_append]

/-- A record shows where it ends and what it tells. -/
theorem record_append_inj (h : t.record ++ rest = u.record ++ rest') :
    t.fields = u.fields ∧ rest = rest' := by
  rw [record_append, record_append] at h
  obtain ⟨hname, h⟩ := Text.quoted_append_inj (field_append_inj (List.append_cancel_left h))
  obtain ⟨hvalue, h⟩ := Text.quoted_append_inj (field_append_inj (List.append_cancel_left h))
  obtain ⟨hfirst, h⟩ := number_append_inj (field_append_inj (List.append_cancel_left h))
  obtain ⟨hlast, h⟩ := number_append_inj (field_append_inj h)
  obtain ⟨hline, h⟩ := number_append_inj (field_append_inj h)
  obtain ⟨hcolumn, h⟩ := integerText_append_inj (by decide) (by decide) (field_append_inj h)
  refine ⟨?_, List.append_cancel_left h⟩
  rw [fields, fields, Kind.name_injective hname, hvalue, hfirst, hlast, hline, hcolumn]

theorem record_eq_iff : t.record = u.record ↔ t.fields = u.fields := by
  constructor
  · intro h
    exact (record_append_inj (congrArg (· ++ []) h)).1
  · intro h
    obtain ⟨hkind, hvalue, hfirst, hlast, hline, hcolumn⟩ : _ ∧ _ ∧ _ ∧ _ ∧ _ ∧ _ := by
      simpa only [fields, Prod.mk.injEq] using h
    unfold record
    rw [hkind, hvalue, integerText_eq_iff.mpr hfirst, integerText_eq_iff.mpr hlast,
      integerText_eq_iff.mpr hline, integerText_eq_iff.mpr hcolumn]

/-- What follows a record: the others and the end of the listing. -/
def following : List Token → Text
  | [] => "\n]"
  | t :: ts => Text.ofString ",\n" ++ (t.record ++ following ts)

theorem records_cons (t : Token) (ts : List Token) :
    records (t :: ts) = Text.ofString "[\n" ++ (t.record ++ following ts) := by
  have hjoin : Text.join (Text.ofString ",\n") ((t :: ts).map record) ++ Text.ofString "\n]" =
      t.record ++ following ts := by
    induction ts generalizing t with
    | nil => rfl
    | cons u ts ih =>
        have hnext := ih u
        rw [List.map_cons] at hnext ⊢
        rw [List.map_cons, Text.join, List.append_assoc, List.append_assoc, hnext, following]
        exact List.cons_ne_nil _ _
  show Text.ofString "[\n" ++ _ ++ Text.ofString "\n]" = _
  rw [List.append_assoc, hjoin]

theorem following_injective (h : following ts = following us) :
    ts.map fields = us.map fields := by
  have hcomma : Text.ofString ",\n" = [unit ',', unit '\n'] := by decide
  have hend : Text.ofString "\n]" = [unit '\n', unit ']'] := by decide
  induction ts generalizing us with
  | nil =>
      cases us with
      | nil => rfl
      | cons u us => simp [following, hcomma, hend] at h
  | cons t ts ih =>
      cases us with
      | nil => simp [following, hcomma, hend] at h
      | cons u us =>
          obtain ⟨hfields, hrest⟩ := record_append_inj (List.append_cancel_left h)
          rw [List.map_cons, List.map_cons, hfields, ih hrest]

theorem records_nil_ne (t : Token) (ts : List Token) : records [] ≠ records (t :: ts) := by
  have hempty : records [] = [unit '[', unit ']'] := by decide
  have hopen : Text.ofString "[\n" = [unit '[', unit '\n'] := by decide
  rw [hempty, records_cons, hopen]
  intro h
  exact absurd (List.cons.inj (List.cons.inj h).2).1 (by decide)

theorem records_eq_iff : records ts = records us ↔ ts.map fields = us.map fields := by
  cases ts with
  | nil =>
      cases us with
      | nil => simp
      | cons u us => exact iff_of_false (records_nil_ne u us) (by simp)
  | cons t ts =>
      cases us with
      | nil => exact iff_of_false (records_nil_ne t ts).symm (by simp)
      | cons u us =>
          constructor
          · intro h
            rw [records_cons, records_cons] at h
            obtain ⟨hfields, hrest⟩ := record_append_inj (List.append_cancel_left h)
            rw [List.map_cons, List.map_cons, hfields, following_injective hrest]
          · intro h
            have hmap := (map_eq_map_iff fun t _ u _ ↦ record_eq_iff).mpr h
            unfold records
            rw [hmap]

/-! ## Exact numbers -/

theorem heading_eq_iff (ht : t.Exact) (hu : u.Exact) :
    t.heading = u.heading ↔
      (t.position.line, t.position.column, t.kind, t.value) =
        (u.position.line, u.position.column, u.kind, u.value) := by
  unfold heading
  simp only [Prod.mk.injEq]
  constructor
  · rintro ⟨hline, hcolumn, hrest⟩
    exact ⟨ofInt_injective ht.line hu.line hline,
      ofInt_injective ht.column hu.column hcolumn, hrest⟩
  · rintro ⟨hline, hcolumn, hrest⟩
    exact ⟨congrArg ofInt hline, congrArg ofInt hcolumn, hrest⟩

theorem fields_eq_iff (ht : t.Exact) (hu : u.Exact) : t.fields = u.fields ↔ t = u := by
  constructor
  · intro h
    obtain ⟨hkind, hvalue, hfirst, hlast, hline, hcolumn⟩ : _ ∧ _ ∧ _ ∧ _ ∧ _ ∧ _ := by
      simpa only [fields, Prod.mk.injEq] using h
    have hfirst := ofInt_injective ht.first hu.first hfirst
    have hlast := ofInt_injective ht.last hu.last hlast
    have hline := ofInt_injective ht.line hu.line hline
    have hcolumn := ofInt_injective ht.column hu.column hcolumn
    obtain ⟨kind, ⟨line, column⟩, first, last, value⟩ := t
    obtain ⟨kind', ⟨line', column'⟩, first', last', value'⟩ := u
    dsimp only at hkind hvalue hfirst hlast hline hcolumn
    rw [hkind, hvalue, hfirst, hlast, hline, hcolumn]
  · rintro rfl
    rfl

/-- Listings are the same just if they show the same lines or records, whose numbers are
those nearest to the integers of the tokens.  The text of lines has one for each token. -/
theorem listing_eq_iff (ts us : List Token) :
    (listing ts false = listing us false ↔ ts.map heading = us.map heading) ∧
    (ts ≠ [] → Text.splitOn (unit '\n') (listing ts false) = ts.map line) ∧
    (listing ts true = listing us true ↔ ts.map fields = us.map fields) ∧
    ((∀ t ∈ ts, t.Exact) → (∀ u ∈ us, u.Exact) →
      (listing ts false = listing us false ↔
        ts.map (fun t ↦ (t.position.line, t.position.column, t.kind, t.value)) =
          us.map fun u ↦ (u.position.line, u.position.column, u.kind, u.value)) ∧
      (listing ts true = listing us true ↔ ts = us)) := by
  have hlines : listing ts false = listing us false ↔ ts.map heading = us.map heading :=
    lines_eq_iff
  have hrecords : listing ts true = listing us true ↔ ts.map fields = us.map fields :=
    records_eq_iff
  refine ⟨hlines, splitOn_lines, hrecords, ?_⟩
  intro hts hus
  refine ⟨?_, ?_⟩
  · rw [hlines]
    exact map_eq_map_iff fun t ht u hu ↦ heading_eq_iff (hts t ht) (hus u hu)
  · have hsame : ts.map fields = us.map fields ↔ ts.map id = us.map id :=
      map_eq_map_iff fun t ht u hu ↦ fields_eq_iff (hts t ht) (hus u hu)
    rw [hrecords, hsame, List.map_id, List.map_id]

/-- A newline, and a backslash before a letter, are told apart on one line each. -/
theorem listing_eq_iff_newline :
    let newline : Token := ⟨.newline, ⟨1, 2⟩, 1, 1, "\n"⟩
    let escape : Token := ⟨.newline, ⟨1, 2⟩, 1, 1, "\\n"⟩
    Text.splitOn (unit '\n') (listing [newline, escape] false) = [newline.line, escape.line] ∧
      listing [newline] false ≠ listing [escape] false ∧
      listing [newline] true ≠ listing [escape] true := by
  intro newline escape
  have hone : (ofInt 1).toInt? = some 1 := toInt?_ofInt (by decide)
  have htwo : (ofInt 2).toInt? = some 2 := toInt?_ofInt (by decide)
  have hexact (value : Text) : Exact ⟨.newline, ⟨1, 2⟩, 1, 1, value⟩ := ⟨hone, hone, hone, htwo⟩
  have hvalue : Text.ofString "\n" ≠ Text.ofString "\\n" := by decide
  obtain ⟨-, hsplit, -, -⟩ := listing_eq_iff [newline, escape] []
  obtain ⟨-, -, -, hsame⟩ := listing_eq_iff [newline] [escape]
  obtain ⟨hlines, hrecords⟩ := hsame (by simpa using hexact "\n") (by simpa using hexact "\\n")
  refine ⟨hsplit (by simp), ?_, ?_⟩
  · rw [ne_eq, hlines]
    simpa [newline, escape] using hvalue
  · rw [ne_eq, hrecords]
    simpa [newline, escape] using hvalue

end Token

end Lexis
