import Lexis.Proofs.Head.Agreement
import Lexis.Proofs.Lexer.Appended
import Lexis.Proofs.Lexer.Tokenize
import Lexis.Proofs.Run.Course

/-!
# Progress of the main loop

One round of the main loop passes over blanks, recognises a token and reads the unit behind
it.  It does what a scan of the cursor does, and takes at least one unit.  So there are no
more rounds than units, and no run appends more tokens than that.
-/

namespace Lexis

namespace Head

open Text

variable {source rest : Text} {h next : Head} {n : Nat} {u : UInt16} {keep : Bool} {t : Token}

/-! ## Rounds -/

def skipBlanks (h : Head) : Head :=
  match _hchar : h.char with
  | none => h
  | some u => if isBlank u then h.read.skipBlanks else h
termination_by h.left
decreasing_by exact left_read_lt (atEnd_of_char _hchar)

def details : Defect → Fields
  | .emptyEscape => [("details", .text "no hex code provided")]
  | .escapeOutOfRange n =>
      [("details", .text ("code point " ++ Text.ofNatHex n ++ " is out of range"))]
  | _ => []

theorem isShowable_details (d : Defect) : ∀ field ∈ details d, field.2.isShowable = true := by
  cases d <;> simp [details, Value.isShowable]

def raised (h : Head) (d : Defect) : LexError :=
  { code := d.code, position := h.position, context := details d
    shows := Template.isSome_render (isShowable_details d) _ }

def refused (t : Token) : LexError :=
  { code := .invalidToken, position := t.position, context := [("token", .text t.inspect)]
    shows := Template.isSome_render (by simp [Value.isShowable]) _ }

def roundHere (keep : Bool) (h : Head) : Except LexError (Option (Token × Head)) :=
  match h.char with
  | none => .ok none
  | some u =>
      let read := h.nextToken keep u
      match read.1 with
      | .error d => .error (read.2.raised d)
      | .ok t => if t.kind = .invalid then .error (refused t) else .ok (some (t, read.2.read))

def round (keep : Bool) (h : Head) : Except LexError (Option (Token × Head)) :=
  h.skipBlanks.roundHere keep

theorem reaches_skipBlanks (h : Head) : h.Reaches h.skipBlanks := by
  fun_induction skipBlanks h with
  | case1 h => exact .refl h
  | case2 h u _ _ ih => exact .of_read ih
  | case3 h => exact .refl h

theorem roundHere_eq_some (hround : h.roundHere keep = .ok (some (t, next))) :
    ∃ u, h.char = some u ∧ (h.nextToken keep u).1 = .ok t ∧
      next = (h.nextToken keep u).2.read := by
  unfold roundHere at hround
  split at hround
  · simp at hround
  · next u hchar =>
    dsimp only at hround
    split at hround
    · simp at hround
    · next found hfound =>
      split at hround
      · simp at hround
      · simp only [Except.ok.injEq, Option.some.injEq, Prod.mk.injEq] at hround
        obtain ⟨rfl, rfl⟩ := hround
        exact ⟨u, hchar, hfound, rfl⟩

/-- A round takes at least the unit that the token begins with. -/
theorem left_round_lt (hround : h.round keep = .ok (some (t, next))) : next.left < h.left := by
  obtain ⟨u, hchar, htoken, rfl⟩ := roundHere_eq_some hround
  have hsettles := settles_nextToken keep u h.skipBlanks
  have hend := hsettles.onUnit (atEnd_of_char hchar) t htoken
  calc
    (h.skipBlanks.nextToken keep u).2.read.left < (h.skipBlanks.nextToken keep u).2.left :=
      left_read_lt hend
    _ ≤ h.skipBlanks.left := hsettles.reaches.left_le
    _ ≤ h.left := h.reaches_skipBlanks.left_le

theorem round_wellFounded (keep : Bool) :
    WellFounded fun next h : Head ↦ ∃ t, h.round keep = .ok (some (t, next)) := by
  apply Subrelation.wf ?_ (measure left).wf
  rintro next h ⟨t, hround⟩
  exact left_round_lt hround

/-- The main loop, with all the tokens that it finds. -/
def rounds (keep : Bool) (h : Head) : Course :=
  match _hround : h.round keep with
  | .error e => ⟨[], .error e⟩
  | .ok none => ⟨[], .ok .exhausted⟩
  | .ok (some (t, next)) => (next.rounds keep).cons t
termination_by h.left
decreasing_by exact left_round_lt _hround

theorem length_rounds_le (keep : Bool) (h : Head) : (h.rounds keep).tokens.length ≤ h.left := by
  fun_induction rounds keep h with
  | case1 | case2 => exact Nat.zero_le _
  | case3 h t next hround ih =>
      have hlt := left_round_lt hround
      rw [Course.tokens_cons, List.length_cons]
      omega

theorem rounds_eq (keep : Bool) (h : Head) :
    h.rounds keep =
      match h.round keep with
      | .error e => ⟨[], .error e⟩
      | .ok none => ⟨[], .ok .exhausted⟩
      | .ok (some (t, next)) => (next.rounds keep).cons t := by
  rw [rounds]
  split <;> simp_all

/-! ## Rounds and scans -/

theorem skipBlanks_eq (h : Head) :
    h.skipBlanks =
      match h.char with
      | none => h
      | some u => if isBlank u then h.read.skipBlanks else h := by
  rw [skipBlanks]
  split <;> simp_all

theorem skipBlanks_standing (source : Text) (n : Nat) :
    (standing source n).skipBlanks =
      standing source (n + ((source.drop n).takeWhile isBlank).length) := by
  induction hrest : source.drop n generalizing n with
  | nil =>
      rw [skipBlanks_eq, char_standing, ← List.head?_drop, hrest]
      rfl
  | cons u rest ih =>
      rw [skipBlanks_eq, char_of_drop hrest]
      dsimp only
      split
      · next hu =>
        rw [read_standing, ih (n + 1) (drop_succ hrest), List.takeWhile_cons_of_pos hu,
          List.length_cons]
        congr 1
        omega
      · next hu =>
        rw [List.takeWhile_cons_of_neg hu]
        rfl

end Head

namespace Cursor

variable {source rest : Text} {c : Cursor} {n : Nat} {u : UInt16} {x : Lexeme} {fault : Fault}

theorem At.skipBlanks_standing (hc : c.At source) :
    (Head.standing source c.offset).skipBlanks = Head.standing source c.skipBlanks.offset := by
  rw [Head.skipBlanks_standing, ← hc.rest_eq, Cursor.skipBlanks,
    offset_advance c.length_blanks_le]

theorem At.position_standing (hc : c.At source) (hn : n ≤ c.rest.length) :
    (Head.standing source (c.offset + n)).position = c.locate n := by
  have hlength := hc.length_rest
  have hle := hc.offset_le
  rcases Nat.lt_or_eq_of_le hn with hlt | rfl
  · rw [hc.locate_of_lt hlt, Head.position_standing (by omega)]
  · rw [hc.locate_length, Head.standing_of_none (List.getElem?_eq_none (by omega))]

theorem context_eq_details {d : Defect} (hd : d ≠ .invalidUnit) (c : Cursor) :
    c.context d = Head.details d := by
  cases d with
  | invalidUnit => exact absurd rfl hd
  | _ => rfl

/-- A fault of the units ahead is raised where the head stands when it shows. -/
theorem At.raised_standing (hc : c.At source) (hn : fault.offset ≤ c.rest.length)
    (hd : fault.defect ≠ .invalidUnit) :
    (Head.standing source (c.offset + fault.offset)).raised fault.defect = c.error fault :=
  LexError.ext rfl (hc.position_standing hn) (context_eq_details hd c).symm

/-- The token of a lexeme stands from where the head was to where it is. -/
theorem At.token_standing (hc : c.At source) (hn : x.extra < c.rest.length) :
    (⟨x.kind, (Head.standing source c.offset).position, (Head.standing source c.offset).index,
      (Head.standing source (c.offset + x.extra)).index, x.value⟩ : Token) = c.token x := by
  have hlength := hc.length_rest
  have hle := hc.offset_le
  rw [Head.position_standing (by omega), Head.index_standing (by omega),
    Head.index_standing (by omega), ← hc.position_eq]
  rfl

theorem offset_le_of_fails (hfails : Lexeme.Fails u rest fault) :
    fault.offset ≤ rest.length + 1 := by
  by_cases hopen : fault.defect.Open
  · exact Nat.le_of_eq (hfails.shows.atEnd hopen)
  · rcases hfails.shows.atUnit hopen with hle | ⟨hend, -⟩ <;> omega

theorem error_invalidUnit (hrest : c.rest = u :: rest) :
    c.error ⟨.invalidUnit, 0⟩ = Head.refused (c.token ⟨.invalid, [u], 0⟩) := by
  have hposition : c.locate 0 = c.position := if_neg (by simp [advance, hrest])
  have htake : c.rest.take 1 = [u] := by rw [hrest]; rfl
  simp only [error, context, hposition, htake]
  rfl

/-- A head that stands at the offset of a cursor finds what the cursor scans there. -/
theorem At.roundHere_standing (hc : c.At source) (keep : Bool) :
    (Head.standing source c.offset).roundHere keep = (c.scanHere keep).map
      (Option.map fun found ↦ (found.1, Head.standing source found.2.offset)) := by
  cases hrest : c.rest with
  | nil =>
      have hchar : (Head.standing source c.offset).char = none := by
        rw [Head.char_standing, ← List.head?_drop, ← hc.rest_eq, hrest, List.head?_nil]
      unfold Head.roundHere scanHere
      rw [hchar, hrest]
      rfl
  | cons u rest =>
      have hdrop : source.drop c.offset = u :: rest := by rw [← hc.rest_eq, hrest]
      unfold Head.roundHere
      rw [Head.char_of_drop hdrop]
      dsimp only
      rcases Head.draft_standing keep hdrop with ⟨hdraft, hvalid⟩ | ⟨hx, hdraft⟩
      · cases hx : Lexeme.recognise keep u rest with
        | error fault =>
            have hoffset : fault.offset ≤ c.rest.length := by
              rw [hrest]
              exact offset_le_of_fails (Lexeme.fails_of_recognise hx)
            rw [scanHere_of_recognise_eq_error hrest hx,
              ← hc.raised_standing hoffset (hvalid fault hx)]
            simp only [Head.nextToken, hdraft, hx]
            rfl
        | ok x =>
            obtain ⟨tail, hreads⟩ := Lexeme.reads_of_recognise hx
            have hextra : x.extra < c.rest.length := by
              have hle := hreads.isPrefix.length_le
              rw [hrest, hreads.extra, List.length_cons]
              omega
            have hkind : x.kind ≠ .invalid := by
              intro hinvalid
              have hspelling := hreads.spelling
              rw [hinvalid] at hspelling
              exact hspelling
            have hnext : (c.advance (x.extra + 1)).offset = c.offset + x.extra + 1 :=
              offset_advance hextra
            rw [scanHere_of_recognise hrest hx, ← hc.token_standing hextra]
            simp only [Head.nextToken, hdraft, hx, Except.map, Head.placed, Head.reported,
              if_neg hkind, Head.read_standing, Option.map_some, hnext]
      · have hlength : 0 < c.rest.length := by simp [hrest]
        have htoken := hc.token_standing (x := ⟨.invalid, [u], 0⟩) hlength
        rw [scanHere_of_recognise_eq_error hrest hx, error_invalidUnit hrest, ← htoken]
        simp only [Head.nextToken, hdraft]
        rfl

theorem At.round_standing (hc : c.At source) (keep : Bool) :
    (Head.standing source c.offset).round keep = (c.scan keep).map
      (Option.map fun found ↦ (found.1, Head.standing source found.2.offset)) := by
  rw [Head.round, hc.skipBlanks_standing]
  exact hc.skipBlanks.roundHere_standing keep

/-- The main loop over a source text takes the course of a run that nothing restricts. -/
theorem At.rounds_standing (hc : c.At source) :
    (Head.standing source c.offset).rounds true = c.course := by
  rw [Head.rounds_eq, hc.round_standing]
  fun_induction course c with
  | case1 c e hscan => rw [hscan]; rfl
  | case2 c hscan => rw [hscan]; rfl
  | case3 c t next hscan ih =>
      have hnext := (hc.of_scan hscan).1
      rw [hscan]
      have hlater := ih hnext
      rw [← hnext.round_standing, ← Head.rounds_eq] at hlater
      exact congrArg (Course.cons t) hlater

end Cursor

theorem Placed.length_le {source : Text} {offset : Nat} {ts : List Token}
    (h : Placed source offset ts) : ts.length ≤ source.length - offset := by
  induction h with
  | nil => exact Nat.zero_le _
  | cons _ hle hlt hnext _ _ ih =>
      rw [List.length_cons]
      omega

namespace Head

variable {source : Text} {h next : Head}

/-! ## Reachable heads -/

theorem left_standing (source : Text) (n : Nat) :
    (standing source n).left = source.length - n := by
  cases hu : source[n]? with
  | none =>
      have hle := List.getElem?_eq_none_iff.mp hu
      rw [standing_of_none hu]
      simp only [left, if_true]
      omega
  | some u =>
      have hlt := (List.getElem?_eq_some_iff.mp hu).1
      rw [standing_of_some hu]
      simp only [left, Bool.false_eq_true, if_false]
      omega

theorem Reachable.of_reaches (hreach : Reachable source h) (hnext : h.Reaches next) :
    Reachable source next :=
  hreach.trans hnext

/-- Reading never moves a head back. -/
theorem Reachable.index_le (hreach : Reachable source h) (hnext : h.Reaches next) :
    h.index ≤ next.index := by
  obtain ⟨n, rfl⟩ := reachable_iff.mp hreach
  obtain ⟨k, rfl⟩ := hnext
  rw [iterate_read_standing]
  rcases Nat.lt_or_ge (n + k) source.length with hlt | hge
  · rw [index_standing hlt, index_standing (by omega)]
    omega
  · have hindex := (sound_standing source n).index_lt
    rw [standing_of_none (List.getElem?_eq_none hge)]
    dsimp only
    omega

theorem Reachable.index_lt_or_atEnd (hreach : Reachable source h) (hnext : h.Reaches next)
    (hleft : next.left < h.left) : h.index < next.index ∨ next.atEnd = true := by
  obtain ⟨n, rfl⟩ := reachable_iff.mp hreach
  obtain ⟨k, rfl⟩ := hnext
  rw [iterate_read_standing, left_standing, left_standing] at hleft
  rw [iterate_read_standing]
  rcases Nat.lt_or_ge (n + k) source.length with hlt | hge
  · rw [index_standing hlt, index_standing (by omega)]
    omega
  · rw [standing_of_none (List.getElem?_eq_none hge)]
    exact .inr rfl

/-- What holds of a head after the first read, and of what is done with it.  Whatever is
dispatched, a token that is returned ends where the head then stands. -/
structure Advances (source : Text) (h : Head) : Prop where
  sound : h.Sound source
  left_read_lt : h.atEnd = false → h.read.left < h.left
  reachable : ∀ keep first, Reachable source (h.nextToken keep first).2
  ended : h.atEnd = true → ∀ keep first, (h.nextToken keep first).2 = h
  returned : h.atEnd = false → ∀ keep first t, (h.nextToken keep first).1 = .ok t →
    (h.nextToken keep first).2.atEnd = false ∧ t.first = h.index ∧ t.first ≤ t.last ∧
      t.last = (h.nextToken keep first).2.index
  round : ∀ keep t next, h.round keep = .ok (some (t, next)) →
    Reachable source next ∧ (h.index < next.index ∨ next.atEnd = true)

theorem nextToken_eq_ok {keep : Bool} {first : UInt16} {t : Token}
    (hok : (h.nextToken keep first).1 = .ok t) :
    t.first = h.index ∧ t.last = (h.nextToken keep first).2.index := by
  unfold nextToken at hok ⊢
  dsimp only at hok ⊢
  cases hdraft : (h.draft keep first).1 with
  | error d => simp [hdraft, Except.map] at hok
  | ok draft =>
      rw [hdraft] at hok
      obtain rfl := Except.ok.inj hok
      exact ⟨rfl, rfl⟩

theorem reaches_of_round {keep : Bool} {t : Token}
    (hround : h.round keep = .ok (some (t, next))) : h.Reaches next := by
  obtain ⟨u, -, -, rfl⟩ := roundHere_eq_some hround
  exact h.reaches_skipBlanks.trans ((settles_nextToken keep u _).reaches.trans (.read _))

theorem Reachable.advances (hreach : Reachable source h) : h.Advances source where
  sound := hreach.sound
  left_read_lt := Head.left_read_lt
  reachable keep first := hreach.of_reaches (settles_nextToken keep first h).reaches
  ended hend keep first := (settles_nextToken keep first h).reaches.eq_of_atEnd hend
  returned := by
    intro hend keep first t hok
    have hsettles := settles_nextToken keep first h
    obtain ⟨hfirst, hlast⟩ := nextToken_eq_ok hok
    refine ⟨hsettles.onUnit hend t hok, hfirst, ?_, hlast⟩
    rw [hfirst, hlast]
    exact hreach.index_le hsettles.reaches
  round := by
    intro keep t next hround
    have hnext := reaches_of_round hround
    exact ⟨hreach.of_reaches hnext, hreach.index_lt_or_atEnd hnext (left_round_lt hround)⟩

/-- The invariant of the head and its progress.  Whatever is dispatched and whether or not
comments are kept, a head stays sound, and a token that is returned ends where the head stands.
The rounds of the main loop go forward and come to an end.  They do what the cursor does, and
no run appends more tokens than the source text has units. -/
theorem advances_of_reachable (source : Text) :
    (∀ h, Reachable source h → h.Advances source) ∧
    (∀ keep, WellFounded fun next h : Head ↦ ∃ t, h.round keep = .ok (some (t, next))) ∧
    (∀ keep, ((initial source).read.rounds keep).tokens.length ≤ source.length) ∧
    (∀ (c : Cursor) (keep : Bool), c.At source →
      (standing source c.offset).round keep = (c.scan keep).map
        (Option.map fun found ↦ (found.1, standing source found.2.offset))) ∧
    (initial source).read.rounds true = (Cursor.start source).course ∧
    (∀ (l : Lexer) (o : Observers) (receiver : Option Receiver) (options : RunOptions),
      ∃ ts, Lexer.Appends receiver l (l.run o receiver source options) ts ∧
        ts.length ≤ source.length) ∧
    ∀ (s : Session) (id : Nat) (options : RunOptions) (turns : List (Observers × Step)),
      s.stream id = .fresh source options → (∀ turn ∈ turns, turn.2.opens id = false) →
        (s.given id turns).length ≤ source.length := by
  refine ⟨fun _ ↦ Reachable.advances, round_wellFounded, ?_, fun _ keep hc ↦
    hc.round_standing keep, ?_, ?_, ?_⟩
  · intro keep
    have hle := length_rounds_le keep (initial source).read
    rw [read_initial, left_standing] at hle
    rwa [read_initial]
  · rw [read_initial]
    exact (Cursor.at_start source).rounds_standing
  · intro l o receiver options
    obtain ⟨ts, hts, happends⟩ := Lexer.run_appends l o receiver source options
    exact ⟨ts, happends, hts.length_le⟩
  · intro s id options turns hstream hopens
    have hreads : (s.stream id).Reads source 0 := by
      rw [hstream]
      exact .fresh
    exact (Session.given_placed hreads hopens).length_le

theorem advances_of_reachable_word :
    let source : Text := "ab 1e"
    let h := (initial source).read
    Reachable source h ∧ h.atEnd = false ∧
      (h.nextToken true (unit 'a')).1 = .ok ⟨.identifier, ⟨1, 1⟩, 0, 1, "ab"⟩ ∧
      (h.nextToken true (unit 'a')).2.atEnd = false ∧
      (h.nextToken true (unit 'a')).2.index = 1 := by
  intro source h
  have hreach : Reachable source h := .refl h
  have htoken : (h.nextToken true (unit 'a')).1 = .ok ⟨.identifier, ⟨1, 1⟩, 0, 1, "ab"⟩ :=
    eq_ok_of_toOption (by decide +kernel)
  obtain ⟨hadvances, -⟩ := advances_of_reachable source
  obtain ⟨hend, -, -, hlast⟩ := (hadvances h hreach).returned rfl true (unit 'a') _ htoken
  exact ⟨hreach, rfl, htoken, hend, hlast.symm⟩

end Head

end Lexis
