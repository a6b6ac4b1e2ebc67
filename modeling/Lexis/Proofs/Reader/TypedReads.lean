import Lexis.Proofs.Number.Exact
import Lexis.Proofs.Reader.Lists
import Lexis.Proofs.Token.Classes

/-!
# Reads of a value

A read of a number, a truth value or a string takes the next token only if its kind and
its hash are those that are asked for.  A token that is not granted stays where it is.
An integer that is out of range is the exception: it is only found to be so when it has
been taken, and then the read fails whatever the caller asks for.
-/

namespace Lexis

inductive ValueType where
  | float
  | integer
  | boolean
  | string

namespace ValueType

def request : ValueType → Option Binary64 → Option OnFail → Request
  | .float => .readFloat
  | .integer => .readInteger
  | .boolean => .readBoolean
  | .string => .readString

def kinds : ValueType → List Kind
  | .float => Kind.floats ++ Kind.integers
  | .integer => Kind.integers
  | .boolean => Kind.booleans
  | .string => Kind.strings

def absent : ValueType → Response
  | .float => .float none
  | .integer => .integer none
  | .boolean => .boolean none
  | .string => .text none

def value : ValueType → Token → Except CoercionError Response
  | .float, t => t.float.map fun x ↦ .float (some x)
  | .integer, t => t.integer.map fun n ↦ .integer (some n)
  | .boolean, t => .ok (.boolean (some (t.kind == .trueWord)))
  | .string, t => .ok (.text (some t.value))

def wording : ValueType → Text
  | .float => "Expected float literal"
  | .integer => "Expected integer literal"
  | .boolean => "Expected boolean literal"
  | .string => "Expected string literal"

def refusal (type : ValueType) (onFail : Option OnFail) (t : Token) :
    Except ReadError Response :=
  (Remainder.mismatch type.wording t onFail).map fun _ ↦ type.absent

/-- A token has the kind and the hash that are asked for. -/
def Fits (type : ValueType) (hash : Option Binary64) (t : Token) : Prop :=
  t.kind ∈ type.kinds ∧ ∀ x ∈ hash, x.toNat? = some t.value.hash.toNat

def Reads (type : ValueType) (hash : Option Binary64) (t : Token) : Prop :=
  type.Fits hash t ∧ ∃ answer, type.value t = .ok answer

/-- A token is an integer as it is asked for, but out of range. -/
def Overflows (type : ValueType) (hash : Option Binary64) (t : Token) : Prop :=
  type = .integer ∧ type.Fits hash t ∧
    ∃ n : Int, t.exactInteger = .ok n ∧ Binary64.maxSafe < n.natAbs

variable {type : ValueType} {hash : Option Binary64} {onFail : Option OnFail} {t : Token}

/-- A token that is granted has a value, unless it is an integer out of range. -/
theorem Fits.value_cases (h : type.Fits hash t) :
    (∃ answer, type.value t = .ok answer) ∧ ¬ type.Overflows hash t ∨
      type.value t = .error (.unsafeInteger t.value) ∧ type.Overflows hash t := by
  obtain ⟨hkind, -⟩ := id h
  cases type with
  | float =>
      obtain ⟨x, hx⟩ := Token.exists_float hkind
      refine .inl ⟨⟨.float (some x), by simp [value, hx, Except.map]⟩, ?_⟩
      simp [Overflows]
  | boolean => exact .inl ⟨⟨_, rfl⟩, by simp [Overflows]⟩
  | string => exact .inl ⟨⟨_, rfl⟩, by simp [Overflows]⟩
  | integer =>
      obtain ⟨n, hn⟩ := Token.exists_exactInteger hkind
      have hinteger := Token.integer_of_exactInteger hn
      by_cases hsafe : n.natAbs ≤ Binary64.maxSafe
      · rw [if_pos hsafe] at hinteger
        refine .inl ⟨⟨.integer (some n), by simp [value, hinteger, Except.map]⟩, ?_⟩
        rintro ⟨-, -, n', hn', hlarge⟩
        obtain rfl : n = n' := by simpa [hn] using hn'
        omega
      · rw [if_neg hsafe] at hinteger
        refine .inr ⟨by simp [value, hinteger, Except.map], rfl, h, n, hn, ?_⟩
        omega

theorem value_ne_absent {answer : Response} (h : type.value t = .ok answer) :
    answer ≠ type.absent := by
  rintro rfl
  cases type with
  | float =>
      unfold value at h
      cases hx : t.float <;> simp [hx, Except.map, absent] at h
  | integer =>
      unfold value at h
      cases hn : t.integer <;> simp [hn, Except.map, absent] at h
  | boolean => simp [value, absent] at h
  | string => simp [value, absent] at h

inductive Ends (type : ValueType) (hash : Option Binary64) (onFail : Option OnFail)
    (m : Remainder) : Except ReadError Response × Remainder → Prop
  | noToken (h : (m.passFor {}).tokens = []) :
      Ends type hash onFail m (.error (.noToken .read), m.passFor {})
  | refused {t : Token} {rest : List Token} (h : (m.passFor {}).tokens = t :: rest)
      (hfits : ¬ type.Fits hash t) :
      Ends type hash onFail m (type.refusal onFail t, m.passFor {})
  | taken {t : Token} {rest : List Token} (h : (m.passFor {}).tokens = t :: rest)
      (hfits : type.Fits hash t) :
      Ends type hash onFail m ((type.value t).mapError .coercion, (m.passFor {}).pass 1)

/-- A read of a value ends in this way when its answers have the form that the type
says. -/
theorem ends_readAs {α : Type} (form : Option α → Response)
    (coerce : Token → Except CoercionError α)
    (hvalue : ∀ t, type.value t = (coerce t).map fun a ↦ form (some a))
    (habsent : type.absent = form none) (m : Remainder) :
    Ends type hash onFail m
      ((m.readAs type.kinds hash onFail type.wording coerce).1.map form,
        (m.readAs type.kinds hash onFail type.wording coerce).2) := by
  let criteria : Criteria := { kinds := some type.kinds, hash }
  unfold Remainder.readAs Remainder.read
  cases htokens : (m.passFor {}).tokens with
  | nil =>
      have htry : m.tryRead criteria = (.noToken, m.passFor {}) := Remainder.tryRead_of_nil htokens
      rw [htry]
      exact .noToken htokens
  | cons t rest =>
      have hmeets : criteria.Meets t ↔ type.Fits hash t := by simp [criteria, Criteria.Meets, Fits]
      have htry : m.tryRead criteria =
          if criteria.Meets t then (.read t, (m.passFor {}).pass 1)
          else (.mismatch t, m.passFor {}) :=
        Remainder.tryRead_of_cons htokens
      by_cases hfits : type.Fits hash t
      · rw [htry, if_pos (hmeets.mpr hfits)]
        have hend : Ends type hash onFail m _ := .taken htokens hfits
        rw [hvalue] at hend
        dsimp only
        generalize coerce t = result at hend ⊢
        cases result <;> exact hend
      · rw [htry, if_neg (mt hmeets.mp hfits)]
        have hend : Ends type hash onFail m _ := .refused htokens hfits
        rw [refusal, habsent] at hend
        rcases onFail with _ | text | message | _ <;> exact hend

theorem ends_handle (type : ValueType) (hash : Option Binary64) (onFail : Option OnFail)
    (m : Remainder) : Ends type hash onFail m (m.handle (type.request hash onFail)) := by
  cases type with
  | float => exact ends_readAs .float Token.float (fun _ ↦ rfl) rfl m
  | integer => exact ends_readAs .integer Token.integer (fun _ ↦ rfl) rfl m
  | boolean => exact ends_readAs .boolean _ (fun _ ↦ rfl) rfl m
  | string => exact ends_readAs .text _ (fun _ ↦ rfl) rfl m

theorem Overflows.fits (h : type.Overflows hash t) : type.Fits hash t :=
  h.2.1

section Ends

variable {m : Remainder} {rest : List Token} {done : Except ReadError Response × Remainder}

theorem Ends.of_fits (h : Ends type hash onFail m done) (hleft : (m.passFor {}).tokens = t :: rest)
    (hfits : type.Fits hash t) :
    done.1 = (type.value t).mapError .coercion ∧ done.2.tokens = rest := by
  cases h with
  | noToken htokens => simp [htokens] at hleft
  | refused htokens hne =>
      obtain ⟨rfl, -⟩ := List.cons.inj (htokens.symm.trans hleft)
      exact absurd hfits hne
  | taken htokens =>
      obtain ⟨rfl, rfl⟩ := List.cons.inj (htokens.symm.trans hleft)
      exact ⟨rfl, by rw [Remainder.pass_one htokens]⟩

theorem Ends.of_not_fits (h : Ends type hash onFail m done)
    (hleft : (m.passFor {}).tokens = t :: rest) (hfits : ¬ type.Fits hash t) :
    done = (type.refusal onFail t, m.passFor {}) := by
  cases h with
  | noToken htokens => simp [htokens] at hleft
  | refused htokens =>
      obtain ⟨rfl, -⟩ := List.cons.inj (htokens.symm.trans hleft)
      rfl
  | taken htokens hgranted =>
      obtain ⟨rfl, -⟩ := List.cons.inj (htokens.symm.trans hleft)
      exact absurd hgranted hfits

/-- An integer out of range is taken before it is found to be so. -/
theorem Ends.of_overflows (h : Ends type hash onFail m done)
    (hleft : (m.passFor {}).tokens = t :: rest) (hoverflows : type.Overflows hash t) :
    done.1 = .error (.coercion (.unsafeInteger t.value)) ∧ done.2.tokens = rest := by
  obtain ⟨hanswer, htokens⟩ := h.of_fits hleft hoverflows.fits
  refine ⟨?_, htokens⟩
  rcases hoverflows.fits.value_cases with ⟨-, hnot⟩ | ⟨hvalue, -⟩
  · exact absurd hoverflows hnot
  · rw [hanswer, hvalue]
    rfl

/-- A read that gives no value leaves its token, unless this is an integer out of
range. -/
theorem Ends.tokens_eq_iff (h : Ends type hash onFail m done)
    (hfailed : (∃ e, done.1 = .error e) ∨ done.1 = .ok type.absent) :
    done.2.tokens = (m.passFor {}).tokens ↔
      ∀ t ∈ (m.passFor {}).tokens.head?, ¬ type.Overflows hash t := by
  cases hleft : (m.passFor {}).tokens with
  | nil =>
      cases h with
      | noToken htokens => simp [htokens]
      | refused htokens => simp [htokens] at hleft
      | taken htokens => simp [htokens] at hleft
  | cons t rest =>
      simp only [List.head?_cons, Option.mem_some_iff, forall_eq']
      by_cases hfits : type.Fits hash t
      · rcases hfits.value_cases with ⟨⟨answer, hvalue⟩, -⟩ | ⟨-, hoverflows⟩
        · -- A token that has a value is no failure.
          have hanswer : done.1 = .ok answer := by
            rw [(h.of_fits hleft hfits).1, hvalue]
            rfl
          rcases hfailed with ⟨e, he⟩ | habsent
          · simp [hanswer] at he
          · rw [hanswer] at habsent
            exact absurd (Except.ok.inj habsent) (value_ne_absent hvalue)
        · rw [(h.of_fits hleft hfits).2]
          simp [hoverflows]
      · rw [h.of_not_fits hleft hfits, hleft]
        exact iff_of_true rfl fun hoverflows ↦ hfits hoverflows.fits

/-- Without a wording, a read gives no value where its token has none, unless this is an
integer out of range. -/
theorem Ends.absent_iff (h : Ends type hash (some .nothing) m done)
    (hleft : (m.passFor {}).tokens = t :: rest) (hreads : ¬ type.Reads hash t) :
    done.1 = .ok type.absent ↔ ¬ type.Overflows hash t := by
  by_cases hfits : type.Fits hash t
  · rcases hfits.value_cases with ⟨hvalue, -⟩ | ⟨-, hoverflows⟩
    · exact absurd ⟨hfits, hvalue⟩ hreads
    · simp [(h.of_overflows hleft hoverflows).1, hoverflows]
  · rw [h.of_not_fits hleft hfits]
    exact iff_of_true rfl fun hoverflows ↦ hfits hoverflows.fits

end Ends

end ValueType

namespace Reader

theorem ends_handle_list (r : Reader (List Token)) (type : ValueType) (hash : Option Binary64)
    (onFail : Option OnFail) :
    type.Ends hash onFail r.remainder
      ((r.handle (type.request hash onFail)).1,
        (r.handle (type.request hash onFail)).2.remainder) := by
  obtain ⟨hanswer, hremainder, -⟩ :=
    (r.follows_handle (type.request hash onFail)).of_failure_eq_none r.failure_list
  rw [hanswer, hremainder]
  exact type.ends_handle hash onFail r.remainder

/-- After whatever requests, a read of a value that fails leaves the next token, apart from
the separators that it passes over, unless this is an integer out of range; and without a
wording it gives no value instead of failing, with the same exception.  Such an integer
is lost, and the read fails whatever is asked for. -/
theorem readValue_keeps_iff (ts : List Token) (skips : Bool) (earlier : List Request)
    (type : ValueType) (hash : Option Binary64) (onFail : Option OnFail) :
    let r := ({ source := ts, skipsSeparators := skips } : Reader (List Token)).after earlier
    let done := r.handle (type.request hash onFail)
    let left :=
      if r.skipsSeparators then r.remainder.tokens.dropWhile Token.isSeparator
      else r.remainder.tokens
    ((∃ e, done.1 = .error e) ∨ done.1 = .ok type.absent →
      (done.2.remainder.tokens = left ↔ ∀ t ∈ left.head?, ¬ type.Overflows hash t)) ∧
    (∀ t ∈ left.head?, ¬ type.Reads hash t → onFail = some .nothing →
      (done.1 = .ok type.absent ↔ ¬ type.Overflows hash t)) ∧
    ∀ t ∈ left.head?, type.Overflows hash t →
      done.1 = .error (.coercion (.unsafeInteger t.value)) ∧
        done.2.remainder.tokens = left.tail := by
  intro r done left
  have hends := r.ends_handle_list type hash onFail
  have hleft : (r.remainder.passFor {}).tokens = left := r.remainder.tokens_passFor
  rw [← hleft]
  refine ⟨hends.tokens_eq_iff, ?_, ?_⟩
  · rintro t ht hreads rfl
    obtain ⟨rest, hcons⟩ := List.head?_eq_some_iff.mp ht
    exact hends.absent_iff hcons hreads
  · intro t ht hoverflows
    obtain ⟨rest, hcons⟩ := List.head?_eq_some_iff.mp ht
    rw [hcons]
    exact hends.of_overflows hcons hoverflows

/-- A separator is passed over, and the word behind it is left. -/
theorem readValue_keeps_word :
    let word : Token := ⟨.trueWord, ⟨2, 1⟩, 1, 4, "true"⟩
    let r : Reader (List Token) := { source := [⟨.newline, ⟨1, 1⟩, 0, 0, "\n"⟩, word] }
    let done := r.handle (.readInteger none (some .nothing))
    done.1 = .ok (.integer none) ∧ done.2.remainder.tokens = [word] := by
  intro word r done
  obtain ⟨hkeeps, habsent, -⟩ :=
    readValue_keeps_iff r.source true [] .integer none (some .nothing)
  have hword : ¬ ValueType.integer.Fits none word := by
    rintro ⟨hkind, -⟩
    exact absurd hkind (by decide)
  have hoverflows : ¬ ValueType.integer.Overflows none word := fun h ↦ hword h.fits
  simp only [after, remainder_list] at hkeeps habsent
  have hanswer : done.1 = .ok (.integer none) :=
    (habsent word (by decide) (fun h ↦ hword h.1) trivial).mpr hoverflows
  refine ⟨hanswer, (hkeeps (.inr hanswer)).mpr ?_⟩
  intro t ht
  obtain rfl : word = t := Option.some.inj ht
  exact hoverflows

/-- An integer out of range is gone after a read that fails, although the caller asks for
no failure. -/
theorem not_readValue_keeps :
    let large : Token := ⟨.integer, ⟨1, 1⟩, 0, 15, "9007199254740992"⟩
    let r : Reader (List Token) := { source := [large] }
    let done := r.handle (.readInteger none (some .nothing))
    done.1 = .error (.coercion (.unsafeInteger "9007199254740992")) ∧
      done.2.remainder.tokens = [] := by
  intro large r done
  have hlarge : large.exactInteger = .ok 9007199254740992 := congrArg Except.ok (by decide)
  have hoverflows : ValueType.integer.Overflows none large :=
    ⟨rfl, ⟨by decide, by simp⟩, _, hlarge, by decide⟩
  have hremainder : r.remainder = { tokens := [large] } := remainder_list [large] true
  have hends := r.ends_handle_list .integer none (some .nothing)
  apply hends.of_overflows ?_ hoverflows
  rw [hremainder]
  decide

end Reader

end Lexis
