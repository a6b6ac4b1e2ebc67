import Lexis.Cursor.Scan
import Lexis.Proofs.Lexeme.Reading

/-!
# Scanning inside a source text

A cursor that stands in a source text stays in it.  What a scan passes over is
blank, and the token that it gives is what is recognised where the blanks end.
-/

namespace Lexis

open Text

def Token.Recognised (keep : Bool) (source : Text) (t : Token) : Prop :=
  ∃ (n : Nat) (u : UInt16) (rest : Text) (x : Lexeme), source.drop n = u :: rest ∧
    Lexeme.recognise keep u rest = .ok x ∧ t.kind = x.kind ∧ t.value = x.value ∧
    t.first = n ∧ t.last = n + x.extra

namespace Cursor

structure In (source : Text) (c : Cursor) : Prop where
  offset_le : c.offset ≤ source.length
  rest_eq : c.rest = source.drop c.offset

theorem in_start (source : Text) : (start source).In source :=
  ⟨Nat.zero_le _, rfl⟩

theorem offset_step {c : Cursor} (h : c.rest ≠ []) : c.step.offset = c.offset + 1 := by
  unfold step
  split
  · next hrest => exact absurd hrest h
  · split <;> rfl

theorem offset_advance {c : Cursor} {n : Nat} (h : n ≤ c.rest.length) :
    (c.advance n).offset = c.offset + n := by
  induction n generalizing c with
  | zero => rfl
  | succ n ih =>
      have hrest : c.rest ≠ [] := by
        intro hnil
        rw [hnil] at h
        simp at h
      have hlength : n ≤ c.step.rest.length := by
        rw [rest_step, List.length_drop]
        omega
      rw [advance, ih hlength, offset_step hrest]
      omega

theorem In.length_rest {source : Text} {c : Cursor} (h : c.In source) :
    c.rest.length = source.length - c.offset := by
  rw [h.rest_eq, List.length_drop]

theorem In.advance {source : Text} {c : Cursor} {n : Nat} (h : c.In source)
    (hn : n ≤ c.rest.length) : (c.advance n).In source := by
  have hlength := h.length_rest
  have hle := h.offset_le
  constructor
  · rw [offset_advance hn]
    omega
  · rw [offset_advance hn, rest_advance, h.rest_eq, List.drop_drop]

theorem In.getElem? {source : Text} {c : Cursor} (h : c.In source) (n : Nat) :
    source[c.offset + n]? = c.rest[n]? := by
  rw [h.rest_eq, List.getElem?_drop]

theorem length_blanks_le (c : Cursor) : (c.rest.takeWhile isBlank).length ≤ c.rest.length :=
  (List.takeWhile_sublist _).length_le

theorem In.skipBlanks {source : Text} {c : Cursor} (h : c.In source) : c.skipBlanks.In source :=
  h.advance c.length_blanks_le

theorem offset_le_skipBlanks (c : Cursor) : c.offset ≤ c.skipBlanks.offset := by
  rw [Cursor.skipBlanks, offset_advance c.length_blanks_le]
  omega

/-- The units between a cursor and the next token are blanks. -/
theorem In.isBlank {source : Text} {c : Cursor} (h : c.In source) {i : Nat} {u : UInt16}
    (hfirst : c.offset ≤ i) (hlast : i < c.skipBlanks.offset) (hu : source[i]? = some u) :
    isBlank u := by
  obtain ⟨n, rfl⟩ := Nat.exists_eq_add_of_le hfirst
  rw [Cursor.skipBlanks, offset_advance c.length_blanks_le] at hlast
  have hlt : n < (c.rest.takeWhile Text.isBlank).length := by omega
  obtain ⟨after, hafter⟩ : c.rest.takeWhile Text.isBlank <+: c.rest := List.takeWhile_prefix _
  have hsame : c.rest[n]? = (c.rest.takeWhile Text.isBlank)[n]? := by
    calc
      c.rest[n]? = (c.rest.takeWhile Text.isBlank ++ after)[n]? := by rw [hafter]
      _ = (c.rest.takeWhile Text.isBlank)[n]? := List.getElem?_append_left hlt
  rw [h.getElem?, hsame] at hu
  exact mem_takeWhile (List.mem_of_getElem? hu)

/-! ## One scan -/

theorem scanHere_eq_some {keep : Bool} {c next : Cursor} {t : Token}
    (h : c.scanHere keep = .ok (some (t, next))) :
    ∃ u rest x, c.rest = u :: rest ∧ Lexeme.recognise keep u rest = .ok x ∧ t = c.token x ∧
      next = c.advance (x.extra + 1) := by
  unfold scanHere at h
  split at h
  · simp at h
  · next u rest hrest =>
    split at h
    · simp at h
    · next x hx =>
      simp only [Except.ok.injEq, Option.some.injEq, Prod.mk.injEq] at h
      exact ⟨u, rest, x, hrest, hx, h.1.symm, h.2.symm⟩

theorem scanHere_of_recognise {keep : Bool} {c : Cursor} {u : UInt16} {rest : Text} {x : Lexeme}
    (hrest : c.rest = u :: rest) (hx : Lexeme.recognise keep u rest = .ok x) :
    c.scanHere keep = .ok (some (c.token x, c.advance (x.extra + 1))) := by
  unfold scanHere
  rw [hrest]
  dsimp only
  rw [hx]

theorem scanHere_of_recognise_eq_error {keep : Bool} {c : Cursor} {u : UInt16} {rest : Text}
    {fault : Fault} (hrest : c.rest = u :: rest)
    (hfault : Lexeme.recognise keep u rest = .error fault) :
    c.scanHere keep = .error (c.error fault) := by
  unfold scanHere
  rw [hrest]
  dsimp only
  rw [hfault]

theorem scanHere_eq_error {keep : Bool} {c : Cursor} {e : LexError}
    (h : c.scanHere keep = .error e) :
    ∃ u rest fault, c.rest = u :: rest ∧ Lexeme.recognise keep u rest = .error fault ∧
      e = c.error fault := by
  unfold scanHere at h
  split at h
  · simp at h
  · next u rest hrest =>
    split at h
    · next fault hfault => exact ⟨u, rest, fault, hrest, hfault, (Except.error.inj h).symm⟩
    · simp at h

theorem rest_eq_nil_of_scanHere {keep : Bool} {c : Cursor} (h : c.scanHere keep = .ok none) :
    c.rest = [] := by
  unfold scanHere at h
  split at h
  · next hrest => exact hrest
  · split at h <;> simp at h

/-- What a scan that gives a token says: where the token stands, what is
recognised there, and where the next scan begins. -/
structure Scanned (keep : Bool) (source : Text) (c : Cursor) (t : Token) (next : Cursor) :
    Prop where
  in_next : next.In source
  offset_le : c.offset ≤ t.first
  blank : ∀ (i : Nat) (u : UInt16), c.offset ≤ i → i < t.first → source[i]? = some u → isBlank u
  offset_next : next.offset = t.last + 1
  recognised : t.Recognised keep source

theorem scanned_of_scan {keep : Bool} {source : Text} {c next : Cursor} {t : Token}
    (hc : c.In source) (h : c.scan keep = .ok (some (t, next))) :
    Scanned keep source c t next := by
  obtain ⟨u, rest, x, hrest, hx, rfl, rfl⟩ := scanHere_eq_some h
  obtain ⟨tail, hreads⟩ := Lexeme.reads_of_recognise hx
  have hin := hc.skipBlanks
  have hextra : x.extra + 1 ≤ c.skipBlanks.rest.length := by
    have hle := hreads.isPrefix.length_le
    rw [hrest, hreads.extra, List.length_cons]
    omega
  refine ⟨hin.advance hextra, ?_, ?_, ?_, _, u, rest, x, ?_, hx, rfl, rfl, rfl, rfl⟩
  · exact Int.ofNat_le.mpr c.offset_le_skipBlanks
  · intro i v hfirst hlast hv
    exact hc.isBlank hfirst (by simpa [token] using hlast) hv
  · rw [offset_advance hextra]
    simp only [token]
    omega
  · rw [← hrest, hin.rest_eq]

/-- Nothing but blanks is left when a scan gives no token. -/
theorem isBlank_of_scan_eq_none {keep : Bool} {source : Text} {c : Cursor} {i : Nat} {u : UInt16}
    (hc : c.In source) (h : c.scan keep = .ok none) (hi : c.offset ≤ i)
    (hu : source[i]? = some u) : isBlank u := by
  have hnil := rest_eq_nil_of_scanHere h
  have hend : source.length ≤ c.skipBlanks.offset := by
    rw [hc.skipBlanks.rest_eq] at hnil
    exact List.drop_eq_nil_iff.mp hnil
  have hlt : i < source.length := (List.getElem?_eq_some_iff.mp hu).1
  exact hc.isBlank hi (by omega) hu

end Cursor

end Lexis
