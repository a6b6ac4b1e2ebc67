import Lexis.Proofs.Head.Recognise
import Lexis.Proofs.Lexeme.Fault

/-!
# Heads and lists

A recogniser that reads with a head does the same as the one that takes the units ahead as a
list.  The offset of a fault is the number of reads that were made before it showed.
-/

namespace Lexis.Head

open Text

variable {α : Type} {source rest tail : Text} {n : Nat} {u : UInt16}

/-- What a recogniser of the units ahead finds, and where the head stands behind it. -/
def placed (source : Text) (n : Nat) : Except Fault (α × Nat) → Except Defect α × Head
  | .ok (a, k) => (.ok a, standing source (n + k))
  | .error fault => (.error fault.defect, standing source (n + fault.offset))

theorem drop_succ (hdrop : source.drop n = u :: rest) : source.drop (n + 1) = rest := by
  rw [← List.drop_drop, hdrop, List.drop_succ_cons, List.drop_zero]

theorem peekNext_of_nil (hdrop : source.drop (n + 1) = []) :
    (standing source n).peekNext = none := by
  rw [peekNext_standing, ← List.head?_drop, hdrop, List.head?_nil]

theorem peekNext_of_cons (hdrop : source.drop (n + 1) = u :: rest) :
    (standing source n).peekNext = some u := by
  rw [peekNext_standing, ← List.head?_drop, hdrop, List.head?_cons]

/-- The slice from the first unit of a token is what was read since. -/
theorem sliceFrom_standing (hdrop : source.drop n = u :: rest) (htail : tail <+: rest) :
    (standing source (n + tail.length)).sliceFrom (standing source n).index = u :: tail := by
  have hlength : source.length = n + (rest.length + 1) := by
    have heq := congrArg List.length hdrop
    rw [List.length_drop, List.length_cons] at heq
    omega
  have hle := htail.length_le
  have hunits : ((n + tail.length : Nat) + 1 - n : Int).toNat = tail.length + 1 := by omega
  rw [sliceFrom, source_standing, index_standing (by omega), index_standing (by omega), hunits,
    Int.toNat_natCast, hdrop, List.take_succ_cons, ← List.prefix_iff_eq_take.mp htail]

/-! ## Classes -/

theorem passWhile_standing (p : UInt16 → Bool) (source : Text) (n : Nat) :
    (standing source n).passWhile p =
      standing source (n + ((source.drop (n + 1)).takeWhile p).length) := by
  induction hrest : source.drop (n + 1) generalizing n with
  | nil =>
      rw [passWhile_eq, peekNext_of_nil hrest]
      rfl
  | cons u rest ih =>
      rw [passWhile_eq, peekNext_of_cons hrest]
      dsimp only
      split
      · next hu =>
        rw [read_standing, ih (n + 1) (drop_succ hrest), List.takeWhile_cons_of_pos hu,
          List.length_cons]
        congr 1
        omega
      · next hu =>
        rw [List.takeWhile_cons_of_neg hu]
        rfl

/-! ## Numerals -/

theorem exponentStart_standing (source : Text) (n : Nat) :
    (standing source n).exponentStart =
      if source[n + 2]?.any Numeral.isSign then (source[n + 3]?, standing source (n + 3))
      else (source[n + 2]?, standing source (n + 2)) := by
  rw [exponentStart, read_standing, readNext_standing, readNext_standing]

theorem exponentStart_unsigned (hdrop : source.drop (n + 2) = rest)
    (hsign : rest.head?.any Numeral.isSign = false) :
    (standing source n).exponentStart = (rest.head?, standing source (n + 2)) := by
  rw [exponentStart_standing, ← List.head?_drop, hdrop, hsign]
  rfl

theorem exponentStart_signed {v : UInt16} (hdrop : source.drop (n + 2) = v :: rest)
    (hsign : Numeral.isSign v = true) :
    (standing source n).exponentStart = (rest.head?, standing source (n + 3)) := by
  have hthird : source[n + 3]? = rest.head? := by rw [← List.head?_drop, drop_succ hdrop]
  rw [exponentStart_standing, ← List.head?_drop, hdrop, List.head?_cons, Option.any_some, hsign,
    hthird]
  rfl

/-- At a marker, the unit that has to be a digit decides. -/
theorem decimalLoop_marker {point : Bool} {current : Option UInt16} {m : Nat}
    (hdrop : source.drop (n + 1) = u :: rest) (hmarker : Numeral.isMarker u = true)
    (hstart : (standing source n).exponentStart = (current, standing source m)) :
    decimalLoop point false (standing source n) =
      if current.any isDigit then decimalLoop point true (standing source m)
      else (.error .missingExponent, standing source m) := by
  have hfigure : ¬ Numeral.IsFigure u := Numeral.not_isFigure_of_isMarker hmarker
  have hdot : u ≠ unit '.' := fun hu ↦ hfigure (.inr hu)
  have hdigit : ¬ isDigit u = true := fun hu ↦ hfigure (.inl hu)
  rw [decimalLoop_eq, peekNext_of_cons hdrop]
  simp only [if_neg hdot, hdigit, hmarker, hstart, Bool.false_eq_true, if_false, if_true]

theorem placed_numeral_prepend (units : Text) (r : Except Fault (Text × Kind)) :
    placed source n ((Numeral.prepend units r).map fun read ↦ (read.2, read.1.length)) =
      placed source (n + units.length) (r.map fun read ↦ (read.2, read.1.length)) := by
  cases r with
  | error fault =>
      simp [Numeral.prepend, Except.map, placed, Fault.shift, Nat.add_comm, Nat.add_left_comm]
  | ok read => simp [Numeral.prepend, Except.map, placed, Nat.add_assoc]

theorem decimalLoop_standing (point exponent : Bool) (source : Text) (n : Nat) :
    decimalLoop point exponent (standing source n) =
      placed source n ((Numeral.decimalTail point exponent (source.drop (n + 1))).map
        fun read ↦ (read.2, read.1.length)) := by
  generalize hrest : source.drop (n + 1) = rest
  fun_induction Numeral.decimalTail point exponent rest generalizing n with
  | case1 point exponent =>
      rw [decimalLoop_eq, peekNext_of_nil hrest]
      rfl
  | case2 point exponent u rest hu ih =>
      have hdot : u ≠ unit '.' := Numeral.ne_point_of_isDigit hu
      rw [decimalLoop_eq, peekNext_of_cons hrest, placed_numeral_prepend]
      simp only [if_neg hdot, if_pos hu]
      rw [read_standing]
      exact ih (n + 1) (drop_succ hrest)
  | case3 point exponent u rest hu hpoint ih =>
      obtain ⟨rfl, rfl⟩ := hpoint
      rw [decimalLoop_eq, peekNext_of_cons hrest, placed_numeral_prepend]
      simp only [if_true, Bool.false_eq_true, if_false]
      rw [read_standing]
      exact ih (n + 1) (drop_succ hrest)
  | case4 point u rest hu hpoint hmarker =>
      have hdot : u ≠ unit '.' := fun hu ↦ Numeral.not_isFigure_of_isMarker hmarker (.inr hu)
      rw [decimalLoop_eq, peekNext_of_cons hrest]
      simp only [if_neg hdot, hu, hmarker, Bool.false_eq_true, if_false, if_true]
      rfl
  | case5 point exponent u hu hpoint hmarker hexponent =>
      obtain rfl : exponent = false := by simpa using hexponent
      exact decimalLoop_marker hrest hmarker (exponentStart_unsigned (drop_succ hrest) rfl)
  | case6 point exponent u hu hpoint hmarker hexponent v rest hv ih =>
      obtain rfl : exponent = false := by simpa using hexponent
      have hsign : Numeral.isSign v = false := by
        cases hsign : Numeral.isSign v with
        | false => rfl
        | true => simp [Numeral.isDigit_eq_false_of_isSign hsign] at hv
      have hstart := exponentStart_unsigned (drop_succ hrest) hsign
      rw [placed_numeral_prepend]
      exact ((decimalLoop_marker hrest hmarker hstart).trans (if_pos hv)).trans
        (ih (n + 2) (drop_succ (drop_succ hrest)))
  | case7 point exponent u hu hpoint hmarker hexponent s hs hsign =>
      obtain rfl : exponent = false := by simpa using hexponent
      exact decimalLoop_marker hrest hmarker (exponentStart_signed (drop_succ hrest) hsign)
  | case8 point exponent u hu hpoint hmarker hexponent s hs hsign v rest hv ih =>
      obtain rfl : exponent = false := by simpa using hexponent
      have hstart := exponentStart_signed (drop_succ hrest) hsign
      rw [placed_numeral_prepend]
      exact ((decimalLoop_marker hrest hmarker hstart).trans (if_pos hv)).trans
        (ih (n + 3) (drop_succ (drop_succ (drop_succ hrest))))
  | case9 point exponent u hu hpoint hmarker hexponent s hs hsign v rest hv =>
      obtain rfl : exponent = false := by simpa using hexponent
      have hstart := exponentStart_signed (drop_succ hrest) hsign
      exact (decimalLoop_marker hrest hmarker hstart).trans (if_neg hv)
  | case10 point exponent u hu hpoint hmarker hexponent v rest hv hsign =>
      obtain rfl : exponent = false := by simpa using hexponent
      have hstart := exponentStart_unsigned (drop_succ hrest) (Bool.eq_false_iff.mpr hsign)
      exact (decimalLoop_marker hrest hmarker hstart).trans (if_neg hv)
  | case11 point exponent u rest hu hpoint hmarker =>
      rw [decimalLoop_eq, peekNext_of_cons hrest]
      simp only [hu, hmarker, Bool.false_eq_true, if_false]
      -- a point that is left here is a second one
      split
      · next hdot =>
        have hsecond : point = true := by simpa [hdot] using hpoint
        rw [if_pos hsecond]
        rfl
      · rfl

/-! ## String literals -/

theorem hexLoop_standing (limit m : Nat) (source : Text) (n : Nat) :
    hexLoop limit m (standing source n) =
      ((((source.drop (n + 1)).take limit).takeWhile isHexDigit).foldl
          (fun m u ↦ m * 16 + hexValue u) m,
        standing source
          (n + (((source.drop (n + 1)).take limit).takeWhile isHexDigit).length)) := by
  induction limit generalizing m n with
  | zero => rfl
  | succ limit ih =>
      unfold hexLoop
      cases hrest : source.drop (n + 1) with
      | nil =>
          rw [peekNext_of_nil hrest]
          rfl
      | cons u rest =>
          rw [peekNext_of_cons hrest, List.take_succ_cons]
          dsimp only
          split
          · next hu =>
            rw [read_standing, ih, drop_succ hrest, List.takeWhile_cons_of_pos hu,
              List.foldl_cons, List.length_cons]
            congr 2
            omega
          · next hu =>
            rw [List.takeWhile_cons_of_neg hu]
            rfl

theorem codePoint_standing {limit : Nat} (hlimit : 0 < limit) (source : Text) (n : Nat) :
    (standing source n).codePoint limit =
      placed source n (Literal.codePoint limit (source.drop (n + 1))) := by
  have hfirst : (standing source n).peekNext.any isHexDigit = true ↔
      ((source.drop (n + 1)).take limit).takeWhile isHexDigit ≠ [] := by
    obtain ⟨limit, rfl⟩ := Nat.exists_eq_succ_of_ne_zero (Nat.ne_of_gt hlimit)
    rw [peekNext_standing, ← List.head?_drop]
    cases source.drop (n + 1) with
    | nil => simp
    | cons u rest =>
        by_cases hu : isHexDigit u = true <;> simp [hu]
  unfold codePoint Literal.codePoint
  rw [hexLoop_standing]
  dsimp only
  by_cases hdigits : ((source.drop (n + 1)).take limit).takeWhile isHexDigit = []
  · rw [if_pos hdigits, if_neg fun hsome ↦ hfirst.mp hsome hdigits]
    rfl
  · rw [if_neg hdigits, if_pos (hfirst.mpr hdigits)]
    unfold positional
    split <;> rfl

theorem escape_standing (marker : UInt16) (source : Text) (n : Nat) :
    (standing source n).escape marker =
      placed source n (Literal.escape marker (source.drop (n + 1))) := by
  unfold escape Literal.escape
  split
  · exact codePoint_standing (by decide) source n
  · split
    · exact codePoint_standing (by decide) source n
    · rfl

theorem placed_literal_prepend (text decoded : Text) (k : Nat) (r : Except Fault (Text × Nat)) :
    placed source n ((Literal.prepend decoded k r).map fun read ↦ (text ++ read.1, read.2)) =
      placed source (n + k) (r.map fun read ↦ (text ++ decoded ++ read.1, read.2)) := by
  cases r with
  | error fault =>
      simp [Literal.prepend, Except.map, placed, Fault.shift, Nat.add_comm, Nat.add_left_comm]
  | ok read => simp [Literal.prepend, Except.map, placed, Nat.add_assoc]

/-- The units that belong to an escape are there. -/
theorem le_of_escape {marker : UInt16} {decoded : Text} {taken : Nat}
    (h : Literal.escape marker rest = .ok (decoded, taken)) : taken ≤ rest.length := by
  have hcode (limit : Nat) (hlimit : Literal.codePoint limit rest = .ok (decoded, taken)) :
      taken ≤ rest.length := by
    unfold Literal.codePoint at hlimit
    dsimp only at hlimit
    split at hlimit
    · simp at hlimit
    · split at hlimit
      · simp at hlimit
      · obtain ⟨-, rfl⟩ := Prod.mk.inj (Except.ok.inj hlimit)
        exact ((List.takeWhile_sublist _).trans (List.take_sublist _ _)).length_le
  unfold Literal.escape at h
  split at h
  · exact hcode 4 h
  · split at h
    · exact hcode 8 h
    · obtain ⟨-, rfl⟩ := Prod.mk.inj (Except.ok.inj h)
      exact Nat.zero_le _

theorem stringLoop_unescaped (quote : UInt16) (text : Text)
    (hdrop : source.drop (n + 1) = u :: rest) :
    stringLoop (some quote) false text (standing source n) =
      if u = quote then (.ok text, standing source (n + 1))
      else if u = unit '\\' then stringLoop (some quote) true text (standing source (n + 1))
      else stringLoop (some quote) false (text ++ [u]) (standing source (n + 1)) := by
  rw [stringLoop_eq, peekNext_of_cons hdrop, read_standing]
  simp only [Bool.false_eq_true, if_false, Option.some.injEq]

/-- Behind a backslash, the marker is read and what it denotes is decoded. -/
theorem stringLoop_escaped {marker : UInt16} {after : Text} (quote : Option UInt16) (text : Text)
    (hdrop : source.drop (n + 1) = marker :: after) :
    stringLoop quote true text (standing source n) =
      match Literal.escape marker after with
      | .error fault => (.error fault.defect, standing source (n + 1 + fault.offset))
      | .ok (decoded, taken) =>
          stringLoop quote false (text ++ decoded) (standing source (n + 1 + taken)) := by
  rw [stringLoop_eq, peekNext_of_cons hdrop, read_standing]
  dsimp only
  rw [if_pos rfl, escape_standing, drop_succ hdrop]
  cases Literal.escape marker after <;> rfl

theorem stringLoop_nil {quote : Option UInt16} {escaped : Bool} {text : Text}
    (hdrop : source.drop (n + 1) = []) :
    stringLoop quote escaped text (standing source n) =
      (.error .unterminatedString, standing source (n + 1)) := by
  rw [stringLoop_eq, peekNext_of_nil hdrop, read_standing]

/-- The head stands behind the units of an escape that the list still has to skip. -/
theorem stringLoop_standing {skip : Nat} (quote : UInt16) (text : Text)
    (hdrop : source.drop (n + 1) = rest) (hskip : skip ≤ rest.length) :
    stringLoop (some quote) false text (standing source (n + skip)) =
      placed source n ((Literal.body quote skip rest).map fun read ↦ (text ++ read.1, read.2)) := by
  fun_induction Literal.body quote skip rest generalizing n text with
  | case1 skip =>
      obtain rfl : skip = 0 := Nat.le_zero.mp hskip
      exact stringLoop_nil hdrop
  | case2 skip u rest ih =>
      have hlater := ih text (drop_succ hdrop) (Nat.le_of_succ_le_succ hskip)
      rw [placed_literal_prepend, List.append_nil, ← hlater, Nat.add_assoc, Nat.add_comm 1]
  | case3 rest =>
      rw [Nat.add_zero, stringLoop_unescaped quote text hdrop, if_pos rfl]
      simp [Except.map, placed]
  | case4 hquote =>
      rw [Nat.add_zero, stringLoop_unescaped quote text hdrop, if_neg hquote, if_pos rfl,
        stringLoop_nil (drop_succ hdrop)]
      rfl
  | case5 marker rest fault hescape hquote =>
      rw [Nat.add_zero, stringLoop_unescaped quote text hdrop, if_neg hquote, if_pos rfl,
        stringLoop_escaped _ _ (drop_succ hdrop), hescape]
      simp [placed, Except.map, Fault.shift, Nat.add_comm, Nat.add_left_comm]
  | case6 marker rest decoded taken hescape hquote ih =>
      have hlater := ih (text ++ decoded) (drop_succ (drop_succ hdrop)) (le_of_escape hescape)
      rw [Nat.add_zero, stringLoop_unescaped quote text hdrop, if_neg hquote, if_pos rfl,
        stringLoop_escaped _ _ (drop_succ hdrop), hescape, placed_literal_prepend]
      exact hlater
  | case7 u rest hquote hslash ih =>
      have hlater := ih (text ++ [u]) (drop_succ hdrop) (Nat.zero_le _)
      rw [Nat.add_zero, stringLoop_unescaped quote text hdrop, if_neg hquote, if_neg hslash,
        placed_literal_prepend]
      exact hlater

/-! ## Comments -/

theorem commentLoop_standing (source : Text) (n : Nat) :
    (standing source n).commentLoop =
      match Lexeme.throughClose? (source.drop (n + 1)) with
      | some tail => (.ok (), standing source (n + tail.length))
      | none => (.error .unterminatedComment,
          standing source (n + ((source.drop (n + 1)).length + 1))) := by
  generalize hrest : source.drop (n + 1) = rest
  fun_induction Lexeme.throughClose? rest generalizing n with
  | case1 =>
      rw [commentLoop_eq, peekNext_of_nil hrest, read_standing]
      rfl
  | case2 u =>
      rw [commentLoop_eq, peekNext_of_cons hrest, read_standing]
      dsimp only
      rw [peekNext_of_nil (drop_succ hrest), if_neg (by simp), commentLoop_eq,
        peekNext_of_nil (drop_succ hrest), read_standing]
      rfl
  | case3 u v rest hclose =>
      obtain ⟨rfl, rfl⟩ := hclose
      rw [commentLoop_eq, peekNext_of_cons hrest, read_standing]
      dsimp only
      rw [peekNext_of_cons (drop_succ hrest), if_pos ⟨rfl, rfl⟩, read_standing]
      rfl
  | case4 u v rest hopen ih =>
      rw [commentLoop_eq, peekNext_of_cons hrest, read_standing]
      dsimp only
      rw [peekNext_of_cons (drop_succ hrest), if_neg (by simpa using hopen),
        ih (n + 1) (drop_succ hrest)]
      cases Lexeme.throughClose? (v :: rest) with
      | none =>
          dsimp only [Option.map_none, List.length_cons]
          congr 2
          omega
      | some tail =>
          dsimp only [Option.map_some, List.length_cons]
          congr 2
          omega

/-! ## Recognisers -/

/-- What is drafted of a lexeme, and how many units are read for it. -/
def reported (x : Lexeme) : (Kind × Text) × Nat := ((x.kind, x.value), x.extra)

theorem char_of_drop (hdrop : source.drop n = u :: rest) :
    (standing source n).char = some u := by
  rw [char_standing, ← List.head?_drop, hdrop, List.head?_cons]

theorem peekNext_of_drop (hdrop : source.drop n = u :: rest) :
    (standing source n).peekNext = rest.head? := by
  rw [peekNext_standing, ← List.head?_drop, drop_succ hdrop]

theorem number_standing (hdrop : source.drop n = u :: rest) :
    (standing source n).number = placed source n ((Numeral.decimal u rest).map reported) := by
  unfold number Numeral.decimal
  rw [char_of_drop hdrop, decimalLoop_standing, drop_succ hdrop, Option.some_beq_some]
  cases hread : Numeral.decimalTail (u == unit '.') false rest with
  | error fault => rfl
  | ok read =>
      obtain ⟨tail, kind⟩ := read
      have hvalue := sliceFrom_standing hdrop (Numeral.run_of_decimalTail hread).isPrefix
      dsimp only [Except.map, placed]
      rw [hvalue]
      rfl

theorem string_standing (hdrop : source.drop n = u :: rest) :
    (standing source n).string = placed source n ((Literal.string u rest).map reported) := by
  unfold string Literal.string
  have hloop := stringLoop_standing u [] (drop_succ hdrop) (Nat.zero_le _)
  rw [char_of_drop hdrop]
  rw [Nat.add_zero] at hloop
  rw [hloop]
  cases Literal.body u 0 rest with
  | error fault => rfl
  | ok read =>
      obtain ⟨value, k⟩ := read
      simp [Except.map, placed, reported, Literal.kind]

theorem word_standing (hdrop : source.drop n = u :: rest) :
    (standing source n).word = placed source n (.ok (reported (Lexeme.word u rest))) := by
  have hvalue := sliceFrom_standing hdrop (List.takeWhile_prefix isWordPart)
  unfold word
  rw [passWhile_standing, drop_succ hdrop]
  dsimp only
  rw [hvalue]
  rfl

theorem lineComment_standing (keep : Bool) (hdrop : source.drop n = u :: rest) :
    (standing source n).lineComment keep =
      placed source n (.ok (reported (Lexeme.lineComment keep u rest))) := by
  have hvalue := sliceFrom_standing hdrop (List.takeWhile_prefix (· != unit '\n'))
  unfold lineComment
  rw [passWhile_standing, drop_succ hdrop]
  dsimp only
  rw [hvalue]
  rfl

theorem blockComment_standing (keep : Bool) {asterisk : UInt16}
    (hdrop : source.drop n = u :: asterisk :: rest) :
    (standing source n).blockComment keep =
      placed source n ((Lexeme.blockComment keep u asterisk rest).map reported) := by
  unfold blockComment Lexeme.blockComment
  rw [read_standing, commentLoop_standing, drop_succ (drop_succ hdrop)]
  cases hclose : Lexeme.throughClose? rest with
  | none =>
      dsimp only [placed, Except.map]
      congr 2
      omega
  | some tail =>
      have htail : asterisk :: tail <+: asterisk :: rest :=
        (List.prefix_cons_inj asterisk).mpr (isClosed_of_throughClose? hclose).1
      have hvalue := sliceFrom_standing hdrop htail
      have hlength : n + (asterisk :: tail).length = n + 1 + tail.length := by
        rw [List.length_cons]
        omega
      rw [hlength] at hvalue
      dsimp only [placed, Except.map, reported, Lexeme.comment]
      rw [hvalue, hlength]

theorem slash_standing (keep : Bool) (hdrop : source.drop n = u :: rest) :
    (standing source n).slash keep =
      placed source n ((Lexeme.slash keep u rest).map reported) := by
  unfold slash
  rw [peekNext_of_drop hdrop]
  cases rest with
  | nil => rfl
  | cons v rest =>
      simp only [Lexeme.slash, List.head?_cons, Option.some.injEq]
      split
      · exact lineComment_standing keep hdrop
      · split
        · exact blockComment_standing keep hdrop
        · rfl

theorem dots_standing (hdrop : source.drop n = u :: rest)
    (hdigit : ¬ rest.head?.any isDigit = true) :
    (standing source n).dots =
      placed source n (.ok (reported (Lexeme.punctuation (Lexeme.dots rest)))) := by
  have hsecond : (standing source (n + 1)).peekNext = rest.tail.head? := by
    rw [peekNext_standing, ← List.head?_drop, ← List.drop_one, ← drop_succ hdrop, List.drop_drop]
  unfold dots Lexeme.dots
  rw [peekNext_of_drop hdrop, if_neg hdigit, read_standing, read_standing, hsecond]
  split
  · split <;> rfl
  · rfl

theorem based_standing {x : Lexeme} (hdrop : source.drop n = u :: rest)
    (hx : Numeral.based? u rest = some x) :
    (standing source n).based = placed source n (.ok (reported x)) := by
  obtain ⟨rfl, marker, digits, rfl, hmarker⟩ := Lexeme.based?_cases hx
  have hread (p : UInt16 → Bool) : (standing source (n + 1)).passWhile p =
      standing source (n + (marker :: digits.takeWhile p).length) := by
    rw [passWhile_standing, drop_succ (drop_succ hdrop), List.length_cons]
    congr 1
    omega
  have hvalue (p : UInt16 → Bool) := sliceFrom_standing hdrop
    ((List.prefix_cons_inj marker).mpr (List.takeWhile_prefix p))
  unfold based
  rw [readNext_fst, peekNext_of_drop hdrop, read_standing]
  dsimp only
  rw [hread, hvalue]
  rcases hmarker with ⟨rfl | rfl, rfl⟩ | ⟨rfl | rfl, rfl⟩ <;> rfl

theorem based?_isSome_iff :
    (Numeral.based? u rest).isSome = true ↔
      u = unit '0' ∧ rest.head?.any isBaseMarker = true := by
  cases rest with
  | nil => simp [Numeral.based?]
  | cons marker digits =>
      simp only [Numeral.based?, isBaseMarker, List.head?_cons, Option.any_some,
        Bool.or_eq_true, beq_iff_eq]
      by_cases hu : u = unit '0'
      · rw [if_neg (not_not_intro hu)]
        split
        · next hmarker => exact iff_of_true rfl ⟨hu, .inl (.inl hmarker)⟩
        · split
          · next hmarker => exact iff_of_true rfl ⟨hu, hmarker.imp_left .inr⟩
          · next hhex hbinary =>
            refine iff_of_false (by simp) ?_
            rintro ⟨-, (hmarker | hmarker) | hmarker⟩
            · exact hhex hmarker
            · exact hbinary (.inl hmarker)
            · exact hbinary (.inr hmarker)
      · rw [if_pos hu]
        exact iff_of_false (by simp) fun h ↦ hu h.1

theorem operator_eq (hdrop : source.drop n = u :: rest) :
    (standing source n).operator u =
      (.ok (operatorDraft (u :: (rest.take 1).filter (Punctuation.joins u))),
        standing source (n + ((rest.take 1).filter (Punctuation.joins u)).length)) := by
  unfold operator
  rw [peekNext_of_drop hdrop, read_standing]
  cases rest with
  | nil => rfl
  | cons v rest =>
      rw [Lexeme.joined_eq]
      dsimp only [List.head?_cons]
      split <;> rfl

/-- Where the tables know no operator the draft stays invalid. -/
theorem operator_standing (hdrop : source.drop n = u :: rest) :
    ((standing source n).operator u = placed source n ((Lexeme.operator u rest).map reported) ∧
      ∀ fault, Lexeme.operator u rest = .error fault → fault.defect ≠ .invalidUnit) ∨
    Lexeme.operator u rest = .error ⟨.invalidUnit, 0⟩ ∧
      (standing source n).operator u = (.ok (.invalid, [u]), standing source n) := by
  rw [operator_eq hdrop]
  cases hp : Punctuation.ofText? (u :: (rest.take 1).filter (Punctuation.joins u)) with
  | some p =>
      have hx : Lexeme.operator u rest =
          .ok (.plain (.punctuation p) u ((rest.take 1).filter (Punctuation.joins u))) := by
        simp only [Lexeme.operator, hp]
      rw [hx]
      refine .inl ⟨?_, by simp⟩
      simp [placed, Except.map, reported, operatorDraft, hp, Lexeme.plain]
  | none =>
      have hx : Lexeme.operator u rest = .error ⟨.invalidUnit, 0⟩ := by
        simp only [Lexeme.operator, hp]
      -- two units that go together make an operator, so nothing was joined
      have htail : (rest.take 1).filter (Punctuation.joins u) = [] := by
        cases rest with
        | nil => rfl
        | cons v rest =>
            rw [Lexeme.joined_eq] at hp ⊢
            split
            · next hjoins =>
              rw [if_pos hjoins] at hp
              have hsome := Punctuation.isSome_ofText?_of_joins hjoins
              simp [hp] at hsome
            · rfl
      rw [htail] at hp ⊢
      exact .inr ⟨hx, by simp [operatorDraft, hp]⟩

/-- The head drafts what is recognised in the units from where it stands.  Only the unit that
begins no token is drafted as well, with an invalid kind. -/
theorem draft_standing (keep : Bool) (hdrop : source.drop n = u :: rest) :
    ((standing source n).draft keep u =
        placed source n ((Lexeme.recognise keep u rest).map reported) ∧
      ∀ fault, Lexeme.recognise keep u rest = .error fault → fault.defect ≠ .invalidUnit) ∨
    Lexeme.recognise keep u rest = .error ⟨.invalidUnit, 0⟩ ∧
      (standing source n).draft keep u = (.ok (.invalid, [u]), standing source n) := by
  have hnumber (fault : Fault) (hfault : Numeral.decimal u rest = .error fault) :
      fault.defect ≠ .invalidUnit :=
    (Numeral.decimalTail_eq_error (Lexeme.map_eq_error hfault)).1.ne.1
  unfold draft Lexeme.recognise
  rw [peekNext_of_drop hdrop]
  by_cases hquote : u = unit '"' ∨ u = unit '\''
  · simp only [if_pos hquote]
    refine .inl ⟨string_standing hdrop, fun fault hfault ↦ ?_⟩
    exact (Literal.body_eq_error (Lexeme.map_eq_error hfault)).1.ne.1
  simp only [if_neg hquote]
  by_cases hdigit : isDigit u = true
  · simp only [if_pos hdigit, Lexeme.numeral]
    left
    cases hx : Numeral.based? u rest with
    | some x =>
        rw [if_pos (based?_isSome_iff.mp (by simp [hx]))]
        exact ⟨based_standing hdrop hx, by simp⟩
    | none =>
        rw [if_neg fun hbased ↦ by simpa [hx] using based?_isSome_iff.mpr hbased]
        exact ⟨number_standing hdrop, hnumber⟩
  have hzero : ¬ (u = unit '0' ∧ rest.head?.any isBaseMarker = true) := by
    rintro ⟨rfl, -⟩
    exact hdigit (by decide)
  rw [if_neg hzero]
  simp only [if_neg hdigit]
  by_cases hpoint : u = unit '.'
  · simp only [if_pos hpoint]
    left
    split
    · next hnext =>
      refine ⟨?_, hnumber⟩
      rw [dots, peekNext_of_drop hdrop, if_pos hnext]
      exact number_standing hdrop
    · next hnext => exact ⟨dots_standing hdrop hnext, by simp⟩
  simp only [if_neg hpoint]
  by_cases hword : isWordStart u = true
  · simp only [if_pos hword]
    exact .inl ⟨word_standing hdrop, by simp⟩
  simp only [if_neg hword]
  by_cases hnewline : u = unit '\n'
  · simp only [if_pos hnewline]
    exact .inl ⟨rfl, by simp⟩
  simp only [if_neg hnewline]
  by_cases hslash : u = unit '/'
  · simp only [if_pos hslash]
    refine .inl ⟨slash_standing keep hdrop, fun fault hfault ↦ ?_⟩
    obtain ⟨tail, -, -, rfl⟩ := Lexeme.slash_eq_error (hslash ▸ hfault)
    simp
  · simp only [if_neg hslash]
    exact operator_standing hdrop

end Lexis.Head
