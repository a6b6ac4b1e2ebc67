import Lexis.Reader.Error
import Lexis.Reader.Source
import Lexis.Text.Hash

/-!
# Readers

A reader takes tokens from a source with one token of lookahead.  It asks for a
token only when it has to, and never again once the source has ended.
-/

namespace Lexis

/-- A reader of tokens.  It holds the token that it has looked at, whether its source has
ended, and the token that was taken last; `pulled` counts how often the source was asked. -/
structure Reader (σ : Type) where
  source : σ
  buffered : Option Token := none
  exhausted : Bool := false
  current : Option Token := none
  skipsSeparators : Bool := true
  pulled : Nat := 0
  /-- No token is held behind the end. -/
  coherent : exhausted = true → buffered = none := by simp

/-- What the next token must be.  Every criterion that is given must hold. -/
structure Criteria where
  kind : Option Kind := none
  kinds : Option (List Kind) := none
  hash : Option Binary64 := none
  value : Option Text := none
  /-- Whether to pass over newlines and comments first, if not as usual. -/
  skipSeparators : Option Bool := none

def Criteria.accepts (c : Criteria) (t : Token) : Bool :=
  c.kind.all (· == t.kind) && c.kinds.all (·.contains t.kind) &&
    c.hash.all (·.toNat? == some t.value.hash.toNat) && c.value.all (· == t.value)

inductive OnFail where
  | wording (text : Text)
  | custom (message : Token → Text)
  | nothing

inductive Attempt where
  | read (token : Token)
  | mismatch (token : Token)
  | noToken

namespace Reader

variable {σ : Type} [Source σ]

def peek (r : Reader σ) : Except RunError (Option Token) × Reader σ :=
  if h : r.buffered = none ∧ r.exhausted = false then
    match Source.pull r.source with
    | (.error e, source) => (.error e, { r with source, pulled := r.pulled + 1 })
    | (.ok none, source) =>
        (.ok none,
          { r with source, pulled := r.pulled + 1, exhausted := true, coherent := fun _ ↦ h.1 })
    | (.ok (some token), source) =>
        (.ok (some token),
          { r with
            source, pulled := r.pulled + 1, buffered := some token, coherent := by simp [h.2] })
  else (.ok r.buffered, r)

def take (r : Reader σ) (token : Token) : Reader σ :=
  { r with buffered := none, current := some token, coherent := fun _ ↦ rfl }

/-- A bound on the number of tokens that can still be taken. -/
def size (r : Reader σ) : Nat :=
  if r.buffered.isSome then Source.size r.source + 1
  else if r.exhausted then 0
  else Source.size r.source

omit [Source σ] in
theorem exhausted_of_buffered {r : Reader σ} {t : Token} (h : r.buffered = some t) :
    r.exhausted = false := by
  cases hexhausted : r.exhausted with
  | false => rfl
  | true => simp [r.coherent hexhausted] at h

theorem size_take_of_peek {r r' : Reader σ} {t : Token} (h : r.peek = (.ok (some t), r')) :
    (r'.take t).size < r.size := by
  unfold peek at h
  split at h
  · next hunknown =>
    split at h
    · simp at h
    · simp at h
    · next token source hpull =>
      simp only [Prod.mk.injEq, Except.ok.injEq, Option.some.injEq] at h
      obtain ⟨rfl, rfl⟩ := h
      simpa [size, take, hunknown] using Source.size_of_pull hpull
  · simp only [Prod.mk.injEq, Except.ok.injEq] at h
    obtain ⟨hbuffered, rfl⟩ := h
    simp [size, take, hbuffered, exhausted_of_buffered hbuffered]

def skipWhile (p : Token → Bool) (limit : Option Nat) (r : Reader σ) :
    Except RunError Unit × Reader σ :=
  if limit = some 0 then (.ok (), r)
  else
    match _h : r.peek with
    | (.error e, r') => (.error e, r')
    | (.ok none, r') => (.ok (), r')
    | (.ok (some token), r') =>
        if p token then skipWhile p (limit.map (· - 1)) (r'.take token) else (.ok (), r')
termination_by r.size
decreasing_by exact size_take_of_peek _h

theorem skipWhile_eq (p : Token → Bool) (limit : Option Nat) (r : Reader σ) :
    r.skipWhile p limit =
      if limit = some 0 then (.ok (), r)
      else
        match r.peek with
        | (.error e, r') => (.error e, r')
        | (.ok none, r') => (.ok (), r')
        | (.ok (some token), r') =>
            if p token then skipWhile p (limit.map (· - 1)) (r'.take token) else (.ok (), r') := by
  rw [skipWhile]
  split
  · rfl
  · split <;> simp_all

def skipSeparators (r : Reader σ) : Except RunError Unit × Reader σ :=
  r.skipWhile (fun t ↦ Kind.separators.contains t.kind) none

def skipFor (r : Reader σ) (c : Criteria) : Except RunError Unit × Reader σ :=
  if c.skipSeparators.getD r.skipsSeparators then r.skipSeparators else (.ok (), r)

def tryRead (r : Reader σ) (c : Criteria) : Except RunError Attempt × Reader σ :=
  match r.skipFor c with
  | (.error e, r) => (.error e, r)
  | (.ok (), r) =>
      match r.peek with
      | (.error e, r) => (.error e, r)
      | (.ok none, r) => (.ok .noToken, r)
      | (.ok (some token), r) =>
          if c.accepts token then (.ok (.read token), r.take token)
          else (.ok (.mismatch token), r)

def refuse (onFail : OnFail) (token : Token) : Except ReadError (Option Token) :=
  match onFail with
  | .nothing => .ok none
  | .wording text => .error (.mismatch token text)
  | .custom message => .error (.custom (message token))

/-- Takes the next token, which must meet the criteria.  Without a token left the
read fails whatever `onFail` says. -/
def read (r : Reader σ) (c : Criteria) (onFail : OnFail) :
    Except ReadError (Option Token) × Reader σ :=
  match r.tryRead c with
  | (.error e, r) => (.error (.source e), r)
  | (.ok (.read token), r) => (.ok (some token), r)
  | (.ok .noToken, r) => (.error (.noToken .read), r)
  | (.ok (.mismatch token), r) => (refuse onFail token, r)

/-- Takes the next token if it has one of the kinds, and then its value.  A token
without a value has been taken all the same. -/
def readAs {α : Type} (r : Reader σ) (kinds : List Kind) (hash : Option Binary64)
    (onFail : OnFail) (value : Token → Except CoercionError α) :
    Except ReadError (Option α) × Reader σ :=
  match r.read { kinds := some kinds, hash } onFail with
  | (.error e, r) => (.error e, r)
  | (.ok none, r) => (.ok none, r)
  | (.ok (some token), r) =>
      match value token with
      | .ok a => (.ok (some a), r)
      | .error e => (.error (.coercion e), r)

def skip (r : Reader σ) : Except ReadError Unit × Reader σ :=
  match r.peek with
  | (.error e, r) => (.error (.source e), r)
  | (.ok none, r) => (.error (.noToken .skip), r)
  | (.ok (some token), r) => (.ok (), r.take token)

/-- Takes at most `count` tokens, or tokens while they have one of the kinds, or
both; one of the two bounds must be given. -/
def skipMany (r : Reader σ) (count : Option Binary64) (kinds : Option (List Kind)) :
    Except ReadError Unit × Reader σ :=
  if count.isNone && kinds.isNone then (.error .noBound, r)
  else
    let (result, r) := r.skipWhile (fun t ↦ kinds.all (·.contains t.kind))
      (count.bind Binary64.countdown)
    (result.mapError .source, r)

def skipTo (r : Reader σ) (kinds : List Kind) (through : Bool) :
    Except ReadError Unit × Reader σ :=
  if kinds.isEmpty then (.error .noTarget, r)
  else
    match r.skipWhile (fun t ↦ !kinds.contains t.kind) none with
    | (.error e, r) => (.error (.source e), r)
    | (.ok (), r) =>
        match r.peek with
        | (.error e, r) => (.error (.source e), r)
        | (.ok none, r) => (.ok (), r)
        | (.ok (some token), r) => (.ok (), if through then r.take token else r)

end Reader

end Lexis
