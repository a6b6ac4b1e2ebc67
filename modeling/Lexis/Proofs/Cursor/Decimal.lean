import Lexis.Proofs.Cursor.Position
import Lexis.Proofs.Lexeme.Cut
import Lexis.Proofs.Lexeme.Longest

/-!
# How the reading of a decimal numeral ends

Reading takes the longest numeral that the text begins with.  It succeeds unless a
marker follows.  Such a marker is a second one, or it begins no exponent, and
either way the numeral is refused.
-/

namespace Lexis

open Text

/-- The longest beginning of a text that is a decimal numeral, with or without a
point and an exponent. -/
structure IsLongestDecimal (text : Text) (point exponent : Bool) (w : Text) : Prop where
  isPrefix : w <+: text
  isDecimal : IsDecimal point exponent w
  longest : ∀ v, v <+: text → (∃ point exponent, IsDecimal point exponent v) → v.length ≤ w.length

theorem IsLongestDecimal.unique {text w w' : Text} {point exponent point' exponent' : Bool}
    (h : IsLongestDecimal text point exponent w) (h' : IsLongestDecimal text point' exponent' w') :
    w' = w ∧ point' = point ∧ exponent' = exponent := by
  have hlength : w'.length = w.length := by
    apply Nat.le_antisymm
    · exact h.longest w' h'.isPrefix ⟨point', exponent', h'.isDecimal⟩
    · exact h'.longest w h.isPrefix ⟨point, exponent, h.isDecimal⟩
  have hprefix : w' <+: w :=
    List.prefix_of_prefix_length_le h'.isPrefix h.isPrefix (Nat.le_of_eq hlength)
  obtain rfl := hprefix.eq_of_length hlength
  exact ⟨rfl, Numeral.isDecimal_unique h'.isDecimal h.isDecimal⟩

namespace Numeral

/-- Where no further unit belongs to a numeral that holds a point and an exponent as
told, and what reading makes of it. -/
inductive Halts (point : Bool) : (exponent : Bool) → Text → Except Fault (Text × Kind) → Prop
  | stop {exponent : Bool} {after : Text}
      (h : ∀ u, after.head? = some u →
        isDigit u = false ∧ (u = unit '.' → point = true) ∧ isMarker u = false) :
      Halts point exponent after (.ok ([], kind point exponent))
  | repeated {marker : UInt16} {later : Text} (hmarker : isMarker marker) :
      Halts point true (marker :: later) (.error ⟨.duplicateExponent, 0⟩)
  | missing {marker : UInt16} {sign later : Text} (hmarker : isMarker marker)
      (hsign : IsSignPart sign) (hfirst : sign = [] → later.head?.any isSign = false)
      (hdigit : later.head?.any isDigit = false) :
      Halts point false (marker :: (sign ++ later)) (.error ⟨.missingExponent, 2 + sign.length⟩)

theorem prepend_nil (r : Except Fault (Text × Kind)) : prepend [] r = r := by
  cases r <;> rfl

theorem prepend_prepend (v w : Text) (r : Except Fault (Text × Kind)) :
    prepend v (prepend w r) = prepend (v ++ w) r := by
  cases r with
  | error fault => simp [prepend, Fault.shift, Nat.add_comm, Nat.add_left_comm]
  | ok read => simp [prepend]

theorem isSignPart_nil : IsSignPart [] :=
  .inl rfl

theorem isSignPart_singleton {s : UInt16} (h : isSign s) : IsSignPart [s] :=
  .inr ⟨s, rfl, h⟩

/-- Reading takes units as long as they belong to the numeral, and halts. -/
theorem exists_halts (point exponent : Bool) (rest : Text) :
    ∃ tail after point' exponent' result, rest = tail ++ after ∧
      Run point exponent tail tail (kind point' exponent') ∧
      Halts point' exponent' after result ∧
      decimalTail point exponent rest = prepend tail result := by
  fun_induction decimalTail point exponent rest with
  | case1 point exponent =>
      refine ⟨[], [], point, exponent, _, rfl, .stop ?_, .stop ?_, (prepend_nil _).symm⟩
      · simp
      · simp
  | case2 point exponent u rest hu ih =>
      obtain ⟨tail, after, point', exponent', result, rfl, hrun, hhalts, hread⟩ := ih
      refine ⟨u :: tail, after, point', exponent', result, rfl, .digit hu hrun, hhalts, ?_⟩
      rw [hread, prepend_prepend]
      rfl
  | case3 point exponent u rest _ hpoint ih =>
      obtain ⟨rfl, rfl⟩ := hpoint
      obtain ⟨tail, after, point', exponent', result, rfl, hrun, hhalts, hread⟩ := ih
      refine ⟨_ :: tail, after, point', exponent', result, rfl, .point hrun, hhalts, ?_⟩
      rw [hread, prepend_prepend]
      rfl
  | case4 point u rest _ _ hmarker =>
      refine ⟨[], u :: rest, point, true, _, rfl, .stop ?_, .repeated hmarker, (prepend_nil _).symm⟩
      simp
  | case5 point exponent u _ _ hmarker hexponent =>
      obtain rfl : exponent = false := by simpa using hexponent
      refine ⟨[], [u], point, false, _, rfl, .stop ?_, ?_, (prepend_nil _).symm⟩
      · simp
      · exact .missing hmarker isSignPart_nil (by simp) (by simp)
  | case6 point exponent u _ _ hmarker hexponent v rest hv ih =>
      obtain rfl : exponent = false := by simpa using hexponent
      obtain ⟨tail, after, point', exponent', result, rfl, hrun, hhalts, hread⟩ := ih
      refine ⟨u :: v :: tail, after, point', exponent', result, rfl,
        .exponent hmarker isSignPart_nil hv hrun, hhalts, ?_⟩
      rw [hread, prepend_prepend]
      rfl
  | case7 point exponent u _ _ hmarker hexponent s hv hs =>
      obtain rfl : exponent = false := by simpa using hexponent
      refine ⟨[], [u, s], point, false, _, rfl, .stop ?_, ?_, (prepend_nil _).symm⟩
      · simp
      · exact .missing hmarker (isSignPart_singleton hs) (by simp) (by simp)
  | case8 point exponent u _ _ hmarker hexponent s _ hs v rest hv ih =>
      obtain rfl : exponent = false := by simpa using hexponent
      obtain ⟨tail, after, point', exponent', result, rfl, hrun, hhalts, hread⟩ := ih
      refine ⟨u :: s :: v :: tail, after, point', exponent', result, rfl,
        .exponent hmarker (isSignPart_singleton hs) hv hrun, hhalts, ?_⟩
      rw [hread, prepend_prepend]
      rfl
  | case9 point exponent u _ _ hmarker hexponent s _ hs v rest hv =>
      obtain rfl : exponent = false := by simpa using hexponent
      refine ⟨[], u :: s :: v :: rest, point, false, _, rfl, .stop ?_, ?_, (prepend_nil _).symm⟩
      · simp
      · exact .missing hmarker (isSignPart_singleton hs) (by simp) (by simpa using hv)
  | case10 point exponent u _ _ hmarker hexponent v rest hv hs =>
      obtain rfl : exponent = false := by simpa using hexponent
      refine ⟨[], u :: v :: rest, point, false, _, rfl, .stop ?_, ?_, (prepend_nil _).symm⟩
      · simp
      · exact .missing hmarker isSignPart_nil (by simpa using hs) (by simpa using hv)
  | case11 point exponent u rest hdigit hpoint hmarker =>
      refine ⟨[], u :: rest, point, exponent, _, rfl, .stop ?_, .stop ?_, (prepend_nil _).symm⟩
      · simp
      · intro v hv
        obtain rfl : u = v := by simpa using hv
        refine ⟨by simpa using hdigit, ?_, by simpa using hmarker⟩
        intro hu
        cases point with
        | true => rfl
        | false => exact absurd ⟨hu, rfl⟩ hpoint

/-! ## What is read is the longest numeral -/

theorem kind_injective {point exponent point' exponent' : Bool}
    (h : kind point exponent = kind point' exponent') : point = point' ∧ exponent = exponent' := by
  cases point <;> cases exponent <;> cases point' <;> cases exponent' <;> simp_all [kind]

theorem Continues.exponent_eq_false {point exponent : Bool} {marker : UInt16} {w : Text}
    (hmarker : isMarker marker) (h : Continues point exponent (marker :: w)) :
    exponent = false := by
  obtain ⟨-, hfigures | ⟨hfalse, -⟩⟩ := h
  · exact absurd (hfigures marker List.mem_cons_self) (not_isFigure_of_isMarker hmarker)
  · exact hfalse

/-- What continues a numeral behind a text that was read. -/
theorem Run.continues {point exponent point' exponent' : Bool} {rest tail w : Text} {k : Kind}
    (h : Run point exponent rest tail k) (hrest : rest = tail) (hk : k = kind point' exponent')
    (hc : Continues point exponent (tail ++ w)) : Continues point' exponent' w := by
  induction h with
  | stop =>
      obtain ⟨rfl, rfl⟩ := kind_injective hk
      exact hc
  | digit hu _ ih =>
      apply ih (List.cons.inj hrest).2 hk
      exact hc.tail hu
  | point _ ih =>
      apply ih (List.cons.inj hrest).2 hk
      exact hc.tail_of_point
  | @exponent point marker digit sign rest tail k hmarker hsign hdigit _ ih =>
      obtain ⟨sign', digit', after, hw, hsign', hdigit', hafter⟩ := hc.tail_of_isMarker hmarker
      have hsame : sign ++ digit :: (tail ++ w) = sign' ++ digit' :: after := by simpa using hw
      obtain ⟨rfl, -⟩ := sign_eq_of_isPrefix hsign hsign' hdigit hdigit'
        ⟨[], (List.append_nil _).trans hsame.symm⟩
      obtain ⟨-, rfl⟩ := List.cons.inj (List.append_cancel_left hsame)
      apply ih ?_ hk hafter
      exact (List.cons.inj (List.append_cancel_left (List.cons.inj hrest).2)).2

theorem Halts.eq_nil {point exponent : Bool} {after w : Text} {result : Except Fault (Text × Kind)}
    (h : Halts point exponent after result) (hw : w <+: after)
    (hc : Continues point exponent w) : w = [] := by
  cases w with
  | nil => rfl
  | cons u w =>
      cases h with
      | stop hstop =>
          obtain ⟨later, rfl⟩ := hw
          obtain ⟨hdigit, hpoint, hmarker⟩ := hstop u rfl
          rcases hc.head with h | ⟨h, hfalse⟩ | h
          · simp [hdigit] at h
          · simp [hpoint h] at hfalse
          · simp [hmarker] at h
      | repeated hmarker =>
          obtain ⟨rfl, -⟩ := List.cons_prefix_cons.mp hw
          exact absurd (hc.exponent_eq_false hmarker) (by simp)
      | @missing marker sign later hmarker hsign hfirst hdigit =>
          -- An exponent that continues the numeral would stand where none begins.
          obtain ⟨rfl, hrest⟩ := List.cons_prefix_cons.mp hw
          obtain ⟨sign', digit', after, rfl, hsign', hdigit', -⟩ := hc.tail_of_isMarker hmarker
          obtain ⟨rest, hrest⟩ := hrest
          rcases hsign with rfl | ⟨s, rfl, hs⟩
          · rcases hsign' with rfl | ⟨s', rfl, hs'⟩
            · obtain rfl : digit' :: (after ++ rest) = later := by simpa using hrest
              simp [hdigit'] at hdigit
            · obtain rfl : s' :: digit' :: (after ++ rest) = later := by simpa using hrest
              simp [hs'] at hfirst
          · rcases hsign' with rfl | ⟨s', rfl, hs'⟩
            · obtain ⟨rfl, -⟩ := List.cons.inj hrest
              simp [isDigit_eq_false_of_isSign hs] at hdigit'
            · obtain ⟨-, hlater⟩ : s' = s ∧ digit' :: (after ++ rest) = later := by
                simpa using hrest
              simp [← hlater, hdigit'] at hdigit

theorem isDecimal_of_run {point exponent : Bool} {u : UInt16} {tail : Text}
    (hu : isDigit u ∨ u = unit '.' ∧ tail.head?.any isDigit)
    (h : Run (u == unit '.') false tail tail (kind point exponent)) :
    IsDecimal point exponent (u :: tail) := by
  have hread : decimal u tail = .ok (.plain (kind point exponent) u tail) := by
    rw [decimal, decimalTail_of_run h]
    rfl
  obtain ⟨tail', point', exponent', -, hx, hdecimal⟩ := isDecimal_of_decimal hu hread
  simp only [Lexeme.plain, Lexeme.mk.injEq, List.cons.injEq, true_and] at hx
  obtain ⟨hkind, rfl, -⟩ := hx
  obtain ⟨rfl, rfl⟩ := kind_injective hkind
  exact hdecimal

theorem Halts.isDigit_eq_false {point exponent : Bool} {u : UInt16} {after : Text}
    {result : Except Fault (Text × Kind)} (h : Halts point exponent (u :: after) result) :
    isDigit u = false := by
  have hmarked {marker : UInt16} (hmarker : isMarker marker) : isDigit marker = false := by
    cases hdigit : isDigit marker with
    | false => rfl
    | true => exact absurd (.inl hdigit) (not_isFigure_of_isMarker hmarker)
  cases h with
  | stop hstop => exact (hstop u rfl).1
  | repeated hmarker => exact hmarked hmarker
  | missing hmarker => exact hmarked hmarker

theorem isLongestDecimal_of_halts {point exponent : Bool} {u : UInt16} {tail after : Text}
    {result : Except Fault (Text × Kind)} (hbegins : Begins (u :: (tail ++ after)))
    (hrun : Run (u == unit '.') false tail tail (kind point exponent))
    (hhalts : Halts point exponent after result) :
    IsLongestDecimal (u :: (tail ++ after)) point exponent (u :: tail) := by
  have hu : isDigit u ∨ u = unit '.' ∧ tail.head?.any isDigit := by
    obtain ⟨v, rest, hcons, hfirst⟩ := hbegins
    obtain ⟨rfl, rfl⟩ := List.cons.inj hcons
    refine hfirst.imp_right fun ⟨hpoint, d, hd, hdigit⟩ ↦ ⟨hpoint, ?_⟩
    cases tail with
    | cons d' tail =>
        obtain rfl : d' = d := by simpa using hd
        simpa using hdigit
    | nil =>
        obtain ⟨later, rfl⟩ := List.head?_eq_some_iff.mp hd
        simp [hhalts.isDigit_eq_false] at hdigit
  refine ⟨⟨after, rfl⟩, isDecimal_of_run hu hrun, ?_⟩
  rintro v hv ⟨point', exponent', hdecimal⟩
  obtain ⟨v', w, rfl, -⟩ := hdecimal.begins
  obtain ⟨rfl, hw⟩ := List.cons_prefix_cons.mp hv
  have hc := continues_of_isDecimal hdecimal
  by_cases hle : w.length ≤ tail.length
  · simpa using hle
  · obtain ⟨w', rfl⟩ : tail <+: w :=
      List.prefix_of_prefix_length_le (List.prefix_append tail after) hw (by omega)
    have hnil : w' = [] :=
      hhalts.eq_nil ((List.prefix_append_right_inj tail).mp hw) (hrun.continues rfl rfl hc)
    simp [hnil]

def BeginsBased (text : Text) : Prop :=
  ∃ marker rest, text = unit '0' :: marker :: rest ∧
    marker ∈ [unit 'x', unit 'X', unit 'b', unit 'B']

theorem recognise_of_begins {keep : Bool} {u : UInt16} {rest : Text} (h : Begins (u :: rest))
    (hbased : ¬ BeginsBased (u :: rest)) : Lexeme.recognise keep u rest = decimal u rest := by
  obtain ⟨v, tail, hcons, hfirst⟩ := h
  obtain ⟨rfl, rfl⟩ := List.cons.inj hcons
  rcases hfirst with hdigit | ⟨rfl, d, hd, hdigit⟩
  · have hnone : based? u rest = none := by
      cases hread : based? u rest with
      | none => rfl
      | some x =>
          obtain ⟨rfl, marker, digits, rfl, hmarker⟩ := Lexeme.based?_cases hread
          refine absurd ⟨marker, digits, rfl, ?_⟩ hbased
          rcases hmarker with ⟨rfl | rfl, -⟩ | ⟨rfl | rfl, -⟩ <;> simp
    rw [Lexeme.recognise_of_isDigit hdigit, Lexeme.numeral, hnone]
  · rw [Lexeme.recognise_point, hd, if_pos (by simpa using hdigit)]

end Numeral

/-! ## In a source text -/

def Text.behindMarker (source : Text) (offset : Nat) : Nat :=
  if source[offset + 1]?.any Numeral.isSign then offset + 2 else offset + 1

namespace Cursor

variable {source : Text} {c : Cursor}

/-- The end of the input shows at the last unit, unless this ends a line. -/
theorem At.locate_eq_min {n : Nat} (h : c.At source) (hrest : c.rest ≠ []) (hn : n ≤ c.rest.length)
    (hlast : n = c.rest.length → ∃ u, c.rest.getLast? = some u ∧ u ≠ unit '\n') :
    c.locate n = source.position (min (c.offset + n) (source.length - 1)) := by
  have hlength := h.length_rest
  have hle := h.offset_le
  have hpos := List.length_pos_iff.mpr hrest
  rcases Nat.lt_or_eq_of_le hn with hlt | rfl
  · rw [h.locate_of_lt hlt, Nat.min_eq_left (by omega)]
  · obtain ⟨u, hu, hnewline⟩ := hlast rfl
    have hend : source.getLast? = some u := by
      rw [← List.take_append_drop c.offset source, ← h.rest_eq, List.getLast?_append, hu]
      rfl
    rw [h.locate_length, Text.endPosition_eq hend, if_neg hnewline, Nat.min_eq_right (by omega)]

def markerError (source : Text) (offset : Nat) (exponent : Bool) (w : Text) : LexError :=
  if exponent then
    { code := .duplicateExponent, position := source.position (offset + w.length - 1)
      shows := rfl }
  else
    let behind := source.behindMarker (offset + w.length)
    { code := .malformedExponent, position := source.position (min behind (source.length - 1))
      shows := rfl }

variable {keep point exponent : Bool} {u marker : UInt16} {rest tail after later sign : Text}

theorem At.getElem?_behind (h : c.At source) (hrest : c.rest = u :: (tail ++ after)) (n : Nat) :
    source[c.offset + (u :: tail).length + n]? = after[n]? := by
  rw [Nat.add_assoc, h.getElem?, hrest, ← List.cons_append,
    List.getElem?_append_right (Nat.le_add_right _ _), Nat.add_sub_cancel_left]

theorem At.error_repeated (h : c.At source) (hrest : c.rest = u :: (tail ++ after)) :
    c.error ⟨.duplicateExponent, tail.length⟩ = markerError source c.offset true (u :: tail) := by
  have hlt : tail.length < c.rest.length := by
    rw [hrest, List.length_cons, List.length_append]
    omega
  rw [error, h.locate_of_lt hlt]
  rfl

theorem At.error_missing (h : c.At source)
    (hrest : c.rest = u :: (tail ++ marker :: (sign ++ later)))
    (hmarker : Numeral.isMarker marker) (hsign : Numeral.IsSignPart sign)
    (hfirst : sign = [] → later.head?.any Numeral.isSign = false) :
    c.error ⟨.missingExponent, 2 + sign.length + tail.length⟩ =
      markerError source c.offset false (u :: tail) := by
  have hbehind : source.behindMarker (c.offset + (u :: tail).length) =
      c.offset + (2 + sign.length + tail.length) := by
    have hnext : source[c.offset + (u :: tail).length + 1]? = (sign ++ later)[0]? :=
      h.getElem?_behind hrest 1
    unfold behindMarker
    rw [hnext]
    rcases hsign with rfl | ⟨s, rfl, hs⟩
    · rw [List.nil_append, ← List.head?_eq_getElem?, if_neg (by simpa using hfirst rfl)]
      simp only [List.length_cons, List.length_nil]
      omega
    · rw [List.cons_append, List.getElem?_cons_zero, if_pos (by simpa using hs)]
      simp only [List.length_cons, List.length_nil]
      omega
  have hlocate : c.locate (2 + sign.length + tail.length) = source.position
      (min (c.offset + (2 + sign.length + tail.length)) (source.length - 1)) := by
    apply h.locate_eq_min
    · simp [hrest]
    · simp only [hrest, List.length_cons, List.length_append]
      omega
    · intro hn
      simp only [hrest, List.length_cons, List.length_append] at hn
      obtain rfl : later = [] := List.length_eq_zero_iff.mp (by omega)
      rw [hrest]
      rcases hsign with rfl | ⟨s, rfl, hs⟩
      · refine ⟨marker, by simp [List.getLast?_cons], ?_⟩
        rintro rfl
        revert hmarker
        decide
      · refine ⟨s, by simp [List.getLast?_cons], ?_⟩
        rintro rfl
        revert hs
        decide
  rw [error, hlocate, markerError, hbehind]
  rfl

/-- What a scan makes of a numeral: its token, or the error at the marker behind it. -/
theorem At.scanHere_of_halts {result : Except Fault (Text × Kind)} (h : c.At source)
    (hrest : c.rest = u :: (tail ++ after))
    (hrecognise : Lexeme.recognise keep u (tail ++ after) =
      (Numeral.prepend tail result).map fun (tail, kind) ↦ .plain kind u tail)
    (hhalts : Numeral.Halts point exponent after result) :
    ((∀ v, after.head? = some v → ¬ Numeral.isMarker v) →
      c.scanHere keep = .ok (some
        (⟨Numeral.kind point exponent, source.position c.offset, c.offset,
          c.offset + (u :: tail).length - 1, u :: tail⟩, c.advance (u :: tail).length))) ∧
    ∀ v, after.head? = some v → Numeral.isMarker v →
      c.scanHere keep = .error (markerError source c.offset exponent (u :: tail)) := by
  cases hhalts with
  | stop hstop =>
      refine ⟨fun _ ↦ ?_, fun v hv hmarker ↦ ?_⟩
      · have hlast : (c.offset : Int) + tail.length = c.offset + (u :: tail).length - 1 := by
          rw [List.length_cons]
          omega
        rw [scanHere_of_recognise hrest hrecognise, token, h.position_eq]
        simp only [Lexeme.plain, List.append_nil, List.length_cons, hlast]
      · simp [(hstop v hv).2.2] at hmarker
  | repeated hmarker =>
      refine ⟨fun hnone ↦ absurd hmarker (hnone _ rfl), fun v _ _ ↦ ?_⟩
      rw [scanHere_of_recognise_eq_error hrest hrecognise, ← h.error_repeated hrest, Fault.shift,
        Nat.zero_add]
  | missing hmarker hsign hfirst =>
      refine ⟨fun hnone ↦ absurd hmarker (hnone _ rfl), fun v _ _ ↦ ?_⟩
      rw [scanHere_of_recognise_eq_error hrest hrecognise,
        ← h.error_missing hrest hmarker hsign hfirst, Fault.shift]

/-- The longest numeral at an offset is the token there, unless a marker follows.  A
marker is an error: behind an exponent it shows at the last unit of the numeral, and
otherwise where the digits of the exponent are missing. -/
theorem scanHere_numeral (source : Text) (p : Nat) (keep : Bool)
    (hbegins : Numeral.Begins (source.drop p)) (hbased : ¬ Numeral.BeginsBased (source.drop p)) :
    let here := (start source).advance p
    (∃ w point exponent, IsLongestDecimal (source.drop p) point exponent w) ∧
      ∀ w point exponent, IsLongestDecimal (source.drop p) point exponent w →
        ((∀ u, source[p + w.length]? = some u → ¬ Numeral.isMarker u) →
          here.scanHere keep = .ok (some
            (⟨Numeral.kind point exponent, source.position p, p, p + w.length - 1, w⟩,
              here.advance w.length))) ∧
        ∀ u, source[p + w.length]? = some u → Numeral.isMarker u →
          here.scanHere keep = .error (markerError source p exponent w) := by
  intro here
  obtain ⟨u, rest, hdrop, -⟩ := id hbegins
  obtain ⟨hat, hoffset, hrest⟩ := at_of_drop hdrop
  rw [hdrop] at hbegins hbased ⊢
  obtain ⟨tail, after, point, exponent, result, rfl, hrun, hhalts, hread⟩ :=
    Numeral.exists_halts (u == unit '.') false rest
  have hlongest := Numeral.isLongestDecimal_of_halts hbegins hrun hhalts
  have hrecognise := @Numeral.recognise_of_begins keep _ _ hbegins hbased
  rw [Numeral.decimal, hread] at hrecognise
  refine ⟨⟨_, _, _, hlongest⟩, ?_⟩
  intro w point' exponent' hw
  obtain ⟨rfl, rfl, rfl⟩ := hlongest.unique hw
  have hnext : source[p + (u :: tail).length]? = after.head? := by
    rw [List.head?_eq_getElem?, ← hat.getElem?_behind hrest 0, hoffset]
    rfl
  have houtcome := hat.scanHere_of_halts hrest hrecognise hhalts
  rw [hoffset] at houtcome
  rw [hnext]
  exact houtcome

/-- An exponent without digits behind its sign. -/
theorem scanHere_numeral_missing_digits :
    Numeral.Begins ((Text.ofString "x = 1.5e+;").drop 4) ∧
      ¬ Numeral.BeginsBased ((Text.ofString "x = 1.5e+;").drop 4) ∧
      IsLongestDecimal ((Text.ofString "x = 1.5e+;").drop 4) true false "1.5" ∧
      ((start "x = 1.5e+;").advance 4).scanHere true =
        .error { code := .malformedExponent, position := ⟨1, 10⟩, shows := rfl } := by
  have hbegins : Numeral.Begins ((Text.ofString "x = 1.5e+;").drop 4) :=
    ⟨unit '1', ".5e+;", by decide, .inl (by decide)⟩
  have hbased : ¬ Numeral.BeginsBased ((Text.ofString "x = 1.5e+;").drop 4) := by
    rintro ⟨marker, rest, hdrop, -⟩
    exact absurd (List.cons.inj hdrop).1 (by decide)
  have hlongest : IsLongestDecimal ((Text.ofString "x = 1.5e+;").drop 4) true false "1.5" := by
    apply @Numeral.isLongestDecimal_of_halts true false (unit '1') ".5" "e+;" _ hbegins
    · exact .point (.digit (by decide) (.stop (by simp)))
    · have hsign : Numeral.IsSignPart "+" := .inr ⟨unit '+', rfl, by decide⟩
      exact @Numeral.Halts.missing true (unit 'e') "+" ";" (by decide) hsign (by decide) (by decide)
  refine ⟨hbegins, hbased, hlongest, ?_⟩
  have houtcome := scanHere_numeral "x = 1.5e+;" 4 true hbegins hbased
  exact (houtcome.2 _ _ _ hlongest).2 (unit 'e') (by decide) (by decide)

end Cursor

end Lexis
