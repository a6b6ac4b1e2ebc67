import Lexis.Proofs.Lexeme.Longest
import Lexis.Proofs.Run.Course

/-!
# How the tokens of a run tile its source text

The invariant of an unrestricted run is that nothing but blanks lies between the
token before and the one that comes next.  What a token says of itself follows
from what is recognised where it stands.
-/

namespace Lexis

open Text

/-- The units of a source text that a token takes. -/
def Token.spelling (source : Text) (t : Token) : Text :=
  (source.drop t.first.toNat).take (t.last + 1 - t.first).toNat

def Kind.quote? : Kind → Option UInt16
  | .singleString => some (unit '\'')
  | .doubleString => some (unit '"')
  | _ => none

theorem Kind.quote?_eq_none {k : Kind} (h : k.quote? = none) : k ∉ Kind.strings := by
  intro hk
  simp only [Kind.strings, List.mem_cons, List.not_mem_nil, or_false] at hk
  rcases hk with rfl | rfl <;> simp [Kind.quote?] at h

theorem Kind.isQuoted_of_spelling {k : Kind} {q : UInt16} {w : Text} (hq : k.quote? = some q)
    (hw : k.Spelling w) : IsQuoted q w := by
  cases k <;> simp [Kind.quote?] at hq <;> subst hq <;> exact hw

/-! ## One token -/

namespace Token.Recognised

variable {source : Text} {t : Token}

/-- A token takes the units that its lexeme reads. -/
theorem reads (h : t.Recognised true source) :
    ∃ (n : Nat) (u : UInt16) (rest tail : Text) (x : Lexeme),
      source.drop n = u :: rest ∧ Lexeme.recognise true u rest = .ok x ∧
        Lexeme.Reads true u rest tail x ∧ t.spelling source = u :: tail ∧
        t.kind = x.kind ∧ t.value = x.value ∧ t.first = n ∧ t.last = n + tail.length := by
  obtain ⟨n, u, rest, x, hdrop, hx, hkind, hvalue, hfirst, hlast⟩ := h
  obtain ⟨tail, hreads⟩ := Lexeme.reads_of_recognise hx
  rw [hreads.extra] at hlast
  refine ⟨n, u, rest, tail, x, hdrop, hx, hreads, ?_, hkind, hvalue, hfirst, hlast⟩
  have hfrom : t.first.toNat = n := by omega
  have hlength : (t.last + 1 - t.first).toNat = tail.length + 1 := by omega
  obtain ⟨after, rfl⟩ := hreads.isPrefix
  rw [Token.spelling, hfrom, hlength, hdrop, List.take_succ_cons, List.take_left]

theorem bounds (h : t.Recognised true source) :
    0 ≤ t.first ∧ t.first ≤ t.last ∧ t.last < source.length := by
  obtain ⟨n, u, rest, tail, x, hdrop, -, hreads, -, -, -, hfirst, hlast⟩ := h.reads
  have hlength : source.length - n = rest.length + 1 := by
    rw [← List.length_drop, hdrop, List.length_cons]
  have htail := hreads.isPrefix.length_le
  omega

theorem kind_ne_invalid (h : t.Recognised true source) : t.kind ≠ .invalid := by
  obtain ⟨n, u, rest, tail, x, -, -, hreads, -, hkind, -⟩ := h.reads
  have hspelling := hreads.spelling
  intro hinvalid
  rw [← hkind, hinvalid] at hspelling
  exact hspelling

theorem value_eq (h : t.Recognised true source) (hq : t.kind.quote? = none) :
    t.value = t.spelling source := by
  obtain ⟨n, u, rest, tail, x, -, -, hreads, htext, hkind, hvalue, -⟩ := h.reads
  rw [hkind] at hq
  rw [hvalue, htext]
  exact hreads.value (Kind.quote?_eq_none hq) fun _ ↦ rfl

theorem quotes (h : t.Recognised true source) {q : UInt16} (hq : t.kind.quote? = some q) :
    t.first < t.last ∧ source[t.first.toNat]? = some q ∧ source[t.last.toNat]? = some q := by
  obtain ⟨n, u, rest, tail, x, hdrop, -, hreads, -, hkind, -, hfirst, hlast⟩ := h.reads
  rw [hkind] at hq
  obtain ⟨content, hquoted, -⟩ := Kind.isQuoted_of_spelling hq hreads.spelling
  obtain ⟨rfl, rfl⟩ := List.cons.inj hquoted
  obtain ⟨after, rfl⟩ := hreads.isPrefix
  simp only [List.length_append, List.length_singleton] at hlast
  have hget (i : Nat) : source[n + i]? = (u :: (content ++ [u] ++ after))[i]? := by
    rw [← hdrop, List.getElem?_drop]
  have hfrom : t.first.toNat = n + 0 := by omega
  have hto : t.last.toNat = n + (content.length + 1) := by omega
  refine ⟨by omega, ?_, ?_⟩
  · rw [hfrom, hget]
    rfl
  · rw [hto, hget]
    simp

/-- A token takes the longest text of any lexical class, and is of its class. -/
theorem longest (h : t.Recognised true source) :
    IsLongestLexeme (source.drop t.first.toNat) (t.spelling source) ∧
      ∀ k : Kind, k.Spelling (t.spelling source) ↔ k = t.kind := by
  obtain ⟨n, u, rest, tail, x, hdrop, hx, hreads, htext, hkind, -, hfirst, -⟩ := h.reads
  have hfrom : t.first.toNat = n := by omega
  rw [hfrom, hdrop, htext, hkind]
  refine ⟨⟨?_, ?_, ?_⟩, ?_⟩
  · exact (List.prefix_cons_inj u).mpr hreads.isPrefix
  · exact ⟨x.kind, hreads.spelling⟩
  · rintro w hw ⟨k, hk⟩
    cases w with
    | nil => exact Nat.zero_le _
    | cons v w =>
        obtain ⟨rfl, hpre⟩ := List.cons_prefix_cons.mp hw
        have hextra := hreads.extra
        simp only [List.length_cons]
        rcases Lexeme.covers_of_recognise hx hpre hk with hlt | ⟨heq, -⟩ <;> omega
  · intro k
    constructor
    · intro hk
      rcases Lexeme.covers_of_recognise hx hreads.isPrefix hk with hlt | ⟨-, hsame⟩
      · exact absurd hlt (by rw [hreads.extra]; exact Nat.lt_irrefl _)
      · exact hsame
    · rintro rfl
      exact hreads.spelling

end Token.Recognised

/-! ## All tokens of a run -/

def BlankBetween (source : Text) (i j : Int) : Prop :=
  ∀ (k : Nat) (u : UInt16), i ≤ k → k < j → source[k]? = some u → isBlank u

/-- From an offset on, a source text is made of these tokens and of blanks. -/
inductive Tiles (source : Text) : Int → List Token → Prop
  | nil {offset : Int} (hblank : BlankBetween source offset source.length) :
      Tiles source offset []
  | cons {offset : Int} {t : Token} {ts : List Token} (hle : offset ≤ t.first)
      (hblank : BlankBetween source offset t.first) (ht : t.Recognised true source)
      (hrest : Tiles source (t.last + 1) ts) : Tiles source offset (t :: ts)

/-- An unrestricted run that does not fail tiles what is before its cursor. -/
theorem Cursor.tiles_course {source : Text} {c : Cursor} (hc : c.In source)
    {reason : StopReason} (hend : c.course.ending = .ok reason) :
    Tiles source c.offset c.course.tokens := by
  induction c using Cursor.course.induct with
  | case1 c e hscan =>
      rw [course_of_scan_error hscan] at hend
      simp at hend
  | case2 c hscan =>
      rw [course_of_scan_none hscan]
      apply Tiles.nil
      intro k u hle _ hu
      exact isBlank_of_scan_eq_none hc hscan (by omega) hu
  | case3 c t next hscan ih =>
      have hscanned := scanned_of_scan hc hscan
      rw [course_of_scan_some hscan] at hend ⊢
      refine .cons hscanned.offset_le ?_ hscanned.recognised ?_
      · intro k u hle hlt hu
        exact hscanned.blank k u (by omega) hlt hu
      · rw [← hscanned.offset_next]
        exact ih hscanned.in_next hend

/-- What a run gives out before it fails is recognised as well. -/
theorem Cursor.recognised_of_mem_course {source : Text} {c : Cursor} {t : Token}
    (hc : c.In source) (ht : t ∈ c.course.tokens) : t.Recognised true source := by
  induction c using Cursor.course.induct with
  | case1 c e hscan => simp [course_of_scan_error hscan] at ht
  | case2 c hscan => simp [course_of_scan_none hscan] at ht
  | case3 c s next hscan ih =>
      have hscanned := scanned_of_scan hc hscan
      rw [course_of_scan_some hscan, Course.tokens_cons] at ht
      rcases List.mem_cons.mp ht with rfl | ht
      · exact hscanned.recognised
      · exact ih hscanned.in_next ht

namespace Tiles

variable {source : Text} {offset : Int} {ts : List Token} {t : Token}

theorem recognised (h : Tiles source offset ts) (ht : t ∈ ts) : t.Recognised true source := by
  induction h with
  | nil => simp at ht
  | cons _ _ hhead _ ih =>
      rcases List.mem_cons.mp ht with rfl | ht
      · exact hhead
      · exact ih ht

theorem offset_le (h : Tiles source offset ts) (ht : t ∈ ts) : offset ≤ t.first := by
  induction h with
  | nil => simp at ht
  | cons hle _ hhead _ ih =>
      rcases List.mem_cons.mp ht with rfl | ht
      · exact hle
      · have hrest := ih ht
        have hhead := hhead.bounds
        omega

theorem pairwise (h : Tiles source offset ts) : ts.Pairwise fun s t ↦ s.last < t.first := by
  induction h with
  | nil => exact .nil
  | cons _ _ _ hrest ih =>
      refine .cons (fun t ht ↦ ?_) ih
      have hle := hrest.offset_le ht
      omega

theorem isBlank (h : Tiles source offset ts) {k : Nat} {u : UInt16} (hk : offset ≤ k)
    (hu : source[k]? = some u) (hout : ∀ t ∈ ts, k < t.first ∨ t.last < k) : isBlank u := by
  induction h with
  | nil hblank =>
      have hlt : k < source.length := (List.getElem?_eq_some_iff.mp hu).1
      exact hblank k u hk (by omega) hu
  | cons _ hblank _ _ ih =>
      rcases hout _ List.mem_cons_self with hbefore | hbehind
      · exact hblank k u hk hbefore hu
      · exact ih (by omega) fun t ht ↦ hout t (List.mem_cons_of_mem _ ht)

end Tiles

end Lexis
