import Lexis.Cursor.Scan
import Lexis.Proofs.Head.Basic

/-!
# Recognising with a head

The recognisers as loops that look ahead with a head and read.  Each of them gives a kind and
a value or fails, and leaves the head where it has come to.  A recogniser only reads, so the
units that are left bound its loops, and one that was begun on a unit and does not fail ends
on a unit.
-/

namespace Lexis.Head

open Text

variable {α β : Type} {h next : Head} {u : UInt16}

/-- The head was only read from and, unless something failed, stands on a unit if it did
before. -/
structure Settles (h : Head) (r : Except Defect α × Head) : Prop where
  reaches : h.Reaches r.2
  onUnit : h.atEnd = false → ∀ a, r.1 = .ok a → r.2.atEnd = false

namespace Settles

theorem here (h : Head) (r : Except Defect α) : h.Settles (r, h) :=
  ⟨.refl h, fun hend _ _ ↦ hend⟩

theorem error {d : Defect} (hreaches : h.Reaches next) :
    h.Settles (α := α) (.error d, next) :=
  ⟨hreaches, fun _ _ hok ↦ by simp at hok⟩

theorem of_onUnit {r : Except Defect α × Head} (hreaches : h.Reaches next)
    (hend : h.atEnd = false → next.atEnd = false) (hr : next.Settles r) : h.Settles r :=
  ⟨hreaches.trans hr.reaches, fun hstart ↦ hr.onUnit (hend hstart)⟩

theorem of_read {r : Except Defect α × Head} (hnext : h.peekNext = some u)
    (hr : h.read.Settles r) : h.Settles r :=
  .of_onUnit (.read h) (fun _ ↦ (read_of_peekNext_eq_some hnext).2.1) hr

theorem map {r : Except Defect α × Head} (hr : h.Settles r) (f : α → β) :
    h.Settles (r.1.map f, r.2) := by
  refine ⟨hr.reaches, fun hend b hb ↦ ?_⟩
  cases hresult : r.1 with
  | error d => simp [hresult, Except.map] at hb
  | ok a => exact hr.onUnit hend a hresult

end Settles

/-! ## Loops -/

/-- Reads as long as the next unit is in a class. -/
def passWhile (p : UInt16 → Bool) (h : Head) : Head :=
  match _hnext : h.peekNext with
  | none => h
  | some u => if p u then passWhile p h.read else h
termination_by h.left
decreasing_by exact left_read_lt_of_peekNext _hnext

theorem passWhile_eq (p : UInt16 → Bool) (h : Head) :
    h.passWhile p =
      match h.peekNext with
      | none => h
      | some u => if p u then h.read.passWhile p else h := by
  rw [passWhile]
  split <;> simp_all

theorem settles_passWhile (p : UInt16 → Bool) (h : Head) (r : Except Defect α) :
    h.Settles (r, h.passWhile p) := by
  fun_induction passWhile p h with
  | case1 h _ => exact .here h r
  | case2 h u hnext _ ih => exact .of_read hnext ih
  | case3 h u _ _ => exact .here h r

/-- Reads the marker of an exponent and what follows it, and a further unit after a sign. -/
def exponentStart (h : Head) : Option UInt16 × Head :=
  let current := h.read.readNext
  if current.1.any Numeral.isSign then current.2.readNext else current

theorem reaches_exponentStart (h : Head) : h.read.Reaches h.exponentStart.2 := by
  unfold exponentStart
  dsimp only
  split
  · exact (Reaches.read _).trans (Reaches.read _)
  · exact Reaches.read _

/-- The digit that an exponent needs was read, so the head is not at the end. -/
theorem atEnd_exponentStart (hdigit : h.exponentStart.1.any isDigit = true) :
    h.exponentStart.2.atEnd = false := by
  have hread (k : Head) (hk : k.readNext.1.any isDigit = true) : k.readNext.2.atEnd = false := by
    rw [readNext_fst] at hk
    cases hnext : k.peekNext with
    | none => simp [hnext] at hk
    | some u => exact (read_of_peekNext_eq_some hnext).2.1
  unfold exponentStart at hdigit ⊢
  dsimp only at hdigit ⊢
  split at hdigit
  · next hsign =>
    rw [if_pos hsign]
    exact hread _ hdigit
  · next hsign =>
    rw [if_neg hsign]
    exact hread _ hdigit

/-- The rest of a decimal numeral, after units that hold a point or an exponent as told. -/
def decimalLoop (point exponent : Bool) (h : Head) : Except Defect Kind × Head :=
  match _hnext : h.peekNext with
  | none => (.ok (Numeral.kind point exponent), h)
  | some u =>
      if u = unit '.' then
        if point then (.ok (Numeral.kind point exponent), h) else decimalLoop true exponent h.read
      else if isDigit u then decimalLoop point exponent h.read
      else if Numeral.isMarker u then
        if exponent then (.error .duplicateExponent, h)
        else if h.exponentStart.1.any isDigit then decimalLoop point true h.exponentStart.2
        else (.error .missingExponent, h.exponentStart.2)
      else (.ok (Numeral.kind point exponent), h)
termination_by h.left
decreasing_by
  · exact left_read_lt_of_peekNext _hnext
  · exact left_read_lt_of_peekNext _hnext
  · exact Nat.lt_of_le_of_lt h.reaches_exponentStart.left_le (left_read_lt_of_peekNext _hnext)

theorem decimalLoop_eq (point exponent : Bool) (h : Head) :
    decimalLoop point exponent h =
      match h.peekNext with
      | none => (.ok (Numeral.kind point exponent), h)
      | some u =>
          if u = unit '.' then
            if point then (.ok (Numeral.kind point exponent), h)
            else decimalLoop true exponent h.read
          else if isDigit u then decimalLoop point exponent h.read
          else if Numeral.isMarker u then
            if exponent then (.error .duplicateExponent, h)
            else if h.exponentStart.1.any isDigit then decimalLoop point true h.exponentStart.2
            else (.error .missingExponent, h.exponentStart.2)
          else (.ok (Numeral.kind point exponent), h) := by
  rw [decimalLoop]
  split <;> simp_all

theorem settles_decimalLoop (point exponent : Bool) (h : Head) :
    h.Settles (decimalLoop point exponent h) := by
  fun_induction decimalLoop point exponent h with
  | case1 | case2 | case5 | case8 => exact .here _ _
  | case3 _ _ _ _ hnext ih => exact .of_read hnext ih
  | case4 _ _ _ u hnext _ _ ih => exact .of_read hnext ih
  | case6 _ _ h _ _ _ _ _ _ hdigit ih =>
      apply Settles.of_onUnit (.of_read h.reaches_exponentStart) ?_ ih
      exact fun _ ↦ atEnd_exponentStart hdigit
  | case7 _ _ h => exact .error (.of_read h.reaches_exponentStart)

/-- The value of the hexadecimal digits ahead, of which no more than `remaining` are read. -/
def hexLoop : (remaining n : Nat) → Head → Nat × Head
  | 0, n, h => (n, h)
  | remaining + 1, n, h =>
      match h.peekNext with
      | none => (n, h)
      | some u => if isHexDigit u then hexLoop remaining (n * 16 + hexValue u) h.read else (n, h)

theorem settles_hexLoop (remaining n : Nat) (h : Head) (r : Except Defect α) :
    h.Settles (r, (hexLoop remaining n h).2) := by
  induction remaining generalizing n h with
  | zero => exact .here h r
  | succ remaining ih =>
      unfold hexLoop
      split
      · exact .here h r
      · next u hnext =>
        split
        · exact .of_read hnext (ih _ _)
        · exact .here h r

def codePoint (limit : Nat) (h : Head) : Except Defect Text × Head :=
  if h.peekNext.any isHexDigit then
    let read := hexLoop limit 0 h
    if 0x10ffff < read.1 then (.error (.escapeOutOfRange read.1), read.2)
    else (.ok (ofCodePoint read.1), read.2)
  else (.error .emptyEscape, h)

theorem settles_codePoint (limit : Nat) (h : Head) : h.Settles (h.codePoint limit) := by
  unfold codePoint
  dsimp only
  split
  · split <;> exact settles_hexLoop limit 0 h _
  · exact .here h _

def escape (marker : UInt16) (h : Head) : Except Defect Text × Head :=
  if marker = unit 'x' then h.codePoint 4
  else if marker = unit 'X' then h.codePoint 8
  else (.ok [Literal.control marker], h)

theorem settles_escape (marker : UInt16) (h : Head) : h.Settles (h.escape marker) := by
  unfold escape
  split
  · exact settles_codePoint 4 h
  · split
    · exact settles_codePoint 8 h
    · exact .here h _

/-- The value of a literal, after the text that was decoded so far. -/
def stringLoop (quote : Option UInt16) (escaped : Bool) (text : Text) (h : Head) :
    Except Defect Text × Head :=
  match _hnext : h.readNext.1 with
  | none => (.error .unterminatedString, h.read)
  | some u =>
      if escaped then
        match (h.read.escape u).1 with
        | .error d => (.error d, (h.read.escape u).2)
        | .ok decoded => stringLoop quote false (text ++ decoded) (h.read.escape u).2
      else if some u = quote then (.ok text, h.read)
      else if u = unit '\\' then stringLoop quote true text h.read
      else stringLoop quote false (text ++ [u]) h.read
termination_by h.left
decreasing_by
  all_goals rw [readNext_fst] at _hnext
  · exact Nat.lt_of_le_of_lt (settles_escape _ _).reaches.left_le (left_read_lt_of_peekNext _hnext)
  · exact left_read_lt_of_peekNext _hnext
  · exact left_read_lt_of_peekNext _hnext

theorem stringLoop_eq (quote : Option UInt16) (escaped : Bool) (text : Text) (h : Head) :
    stringLoop quote escaped text h =
      match h.peekNext with
      | none => (.error .unterminatedString, h.read)
      | some u =>
          if escaped then
            match (h.read.escape u).1 with
            | .error d => (.error d, (h.read.escape u).2)
            | .ok decoded => stringLoop quote false (text ++ decoded) (h.read.escape u).2
          else if some u = quote then (.ok text, h.read)
          else if u = unit '\\' then stringLoop quote true text h.read
          else stringLoop quote false (text ++ [u]) h.read := by
  rw [stringLoop, ← readNext_fst]
  split
  · next hnext => rw [hnext]
  · next u hnext => rw [hnext]

theorem settles_stringLoop (quote : Option UInt16) (escaped : Bool) (text : Text) (h : Head) :
    h.Settles (stringLoop quote escaped text h) := by
  fun_induction stringLoop quote escaped text h with
  | case1 _ _ h => exact .error (.read h)
  | case2 text h u hnext d hd => exact .error (.of_read (settles_escape u h.read).reaches)
  | case3 text h u hnext decoded hdecoded ih =>
      rw [readNext_fst] at hnext
      apply Settles.of_read hnext
      apply Settles.of_onUnit (settles_escape u h.read).reaches ?_ ih
      exact fun hend ↦ (settles_escape u h.read).onUnit hend decoded hdecoded
  | case4 _ _ h u hnext =>
      rw [readNext_fst] at hnext
      exact .of_read hnext (.here _ _)
  | case5 _ _ h _ hnext _ ih =>
      rw [readNext_fst] at hnext
      exact .of_read hnext ih
  | case6 _ _ h u hnext _ _ _ ih =>
      rw [readNext_fst] at hnext
      exact .of_read hnext ih

def commentLoop (h : Head) : Except Defect Unit × Head :=
  match _hnext : h.readNext.1 with
  | none => (.error .unterminatedComment, h.read)
  | some u =>
      if u = unit '*' ∧ h.read.peekNext = some (unit '/') then (.ok (), h.read.read)
      else commentLoop h.read
termination_by h.left
decreasing_by
  rw [readNext_fst] at _hnext
  exact left_read_lt_of_peekNext _hnext

theorem commentLoop_eq (h : Head) :
    h.commentLoop =
      match h.peekNext with
      | none => (.error .unterminatedComment, h.read)
      | some u =>
          if u = unit '*' ∧ h.read.peekNext = some (unit '/') then (.ok (), h.read.read)
          else h.read.commentLoop := by
  rw [commentLoop, ← h.readNext_fst]
  split
  · next hnext => rw [hnext]
  · next u hnext => rw [hnext]

theorem settles_commentLoop (h : Head) : h.Settles h.commentLoop := by
  fun_induction commentLoop h with
  | case1 h => exact .error (.read h)
  | case2 h u hnext hclose =>
      rw [readNext_fst] at hnext
      exact .of_read hnext (.of_read hclose.2 (.here _ _))
  | case3 h u hnext _ ih =>
      rw [readNext_fst] at hnext
      exact .of_read hnext ih

/-! ## Recognisers -/

def number (h : Head) : Except Defect (Kind × Text) × Head :=
  let read := decimalLoop (h.char == some (unit '.')) false h
  (read.1.map fun kind ↦ (kind, read.2.sliceFrom h.index), read.2)

def based (h : Head) : Except Defect (Kind × Text) × Head :=
  let marker := h.readNext.1
  let binary := marker == some (unit 'b') || marker == some (unit 'B')
  let last := h.read.passWhile (if binary then isBinaryDigit else isHexDigit)
  (.ok (if binary then .binary else .hex, last.sliceFrom h.index), last)

def word (h : Head) : Except Defect (Kind × Text) × Head :=
  let last := h.passWhile isWordPart
  (.ok (.ofWord (last.sliceFrom h.index), last.sliceFrom h.index), last)

def string (h : Head) : Except Defect (Kind × Text) × Head :=
  let read := stringLoop h.char false [] h
  let kind : Kind := if h.char = some (unit '\'') then .singleString else .doubleString
  (read.1.map fun text ↦ (kind, text), read.2)

def lineComment (keep : Bool) (h : Head) : Except Defect (Kind × Text) × Head :=
  let last := h.passWhile (· != unit '\n')
  (.ok (.lineComment, if keep then last.sliceFrom h.index else []), last)

def blockComment (keep : Bool) (h : Head) : Except Defect (Kind × Text) × Head :=
  let read := h.read.commentLoop
  (read.1.map fun _ ↦ (.blockComment, if keep then read.2.sliceFrom h.index else []), read.2)

def punctuation (p : Punctuation) (h : Head) : Except Defect (Kind × Text) × Head :=
  (.ok (.punctuation p, p.units), h)

def dots (h : Head) : Except Defect (Kind × Text) × Head :=
  if h.peekNext.any isDigit then h.number
  else if h.peekNext = some (unit '.') then
    if h.read.peekNext = some (unit '.') then h.read.read.punctuation .tripleDot
    else h.read.punctuation .doubleDot
  else h.punctuation .dot

def operatorDraft (text : Text) : Kind × Text :=
  (((Punctuation.ofText? text).map Kind.punctuation).getD .invalid, text)

def operator (first : UInt16) (h : Head) : Except Defect (Kind × Text) × Head :=
  match h.peekNext with
  | none => (.ok (operatorDraft [first]), h)
  | some u =>
      if Punctuation.joins first u then (.ok (operatorDraft [first, u]), h.read)
      else (.ok (operatorDraft [first]), h)

def slash (keep : Bool) (h : Head) : Except Defect (Kind × Text) × Head :=
  if h.peekNext = some (unit '/') then h.lineComment keep
  else if h.peekNext = some (unit '*') then h.blockComment keep
  else h.punctuation .slash

def isBaseMarker (u : UInt16) : Bool :=
  u == unit 'x' || u == unit 'X' || u == unit 'b' || u == unit 'B'

def draft (keep : Bool) (first : UInt16) (h : Head) : Except Defect (Kind × Text) × Head :=
  if first = unit '"' ∨ first = unit '\'' then h.string
  else if first = unit '0' ∧ h.peekNext.any isBaseMarker then h.based
  else if isDigit first then h.number
  else if first = unit '.' then h.dots
  else if isWordStart first then h.word
  else if first = unit '\n' then (.ok (.newline, [first]), h)
  else if first = unit '/' then h.slash keep
  else h.operator first

def nextToken (keep : Bool) (first : UInt16) (h : Head) : Except Defect Token × Head :=
  let read := h.draft keep first
  (read.1.map fun draft ↦ ⟨draft.1, h.position, h.index, read.2.index, draft.2⟩, read.2)

/-! ## What recognisers do to the head -/

theorem settles_number (h : Head) : h.Settles h.number :=
  (settles_decimalLoop _ _ h).map _

theorem settles_based (hnext : h.peekNext = some u) : h.Settles h.based :=
  .of_read hnext (settles_passWhile _ h.read _)

theorem settles_blockComment (keep : Bool) (hnext : h.peekNext = some u) :
    h.Settles (h.blockComment keep) :=
  .of_read hnext ((settles_commentLoop h.read).map _)

theorem settles_dots (h : Head) : h.Settles h.dots := by
  unfold dots
  split
  · exact settles_number h
  split
  · next hnext =>
    split
    · next hlast => exact .of_read hnext (.of_read hlast (.here _ _))
    · exact .of_read hnext (.here _ _)
  · exact .here h _

theorem settles_operator (first : UInt16) (h : Head) : h.Settles (h.operator first) := by
  unfold operator
  split
  · exact .here h _
  · next u hnext =>
    split
    · exact .of_read hnext (.here _ _)
    · exact .here h _

theorem settles_slash (keep : Bool) (h : Head) : h.Settles (h.slash keep) := by
  unfold slash
  split
  · exact settles_passWhile _ h _
  · split
    · next hnext => exact settles_blockComment keep hnext
    · exact .here h _

/-- Whatever unit is dispatched, the head is only read from. -/
theorem settles_draft (keep : Bool) (first : UInt16) (h : Head) :
    h.Settles (h.draft keep first) := by
  unfold draft
  split
  · exact (settles_stringLoop _ _ _ h).map _
  split
  · next hmarker =>
    cases hnext : h.peekNext with
    | none => simp [hnext] at hmarker
    | some u => exact settles_based hnext
  split
  · exact settles_number h
  split
  · exact settles_dots h
  split
  · exact settles_passWhile _ h _
  split
  · exact .here h _
  split
  · exact settles_slash keep h
  · exact settles_operator first h

theorem settles_nextToken (keep : Bool) (first : UInt16) (h : Head) :
    h.Settles (h.nextToken keep first) :=
  (settles_draft keep first h).map _

end Lexis.Head
