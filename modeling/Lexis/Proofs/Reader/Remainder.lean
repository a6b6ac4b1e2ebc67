import Lexis.Reader.Request

/-!
# Reading from a plain list

What a reader answers depends on the tokens that were not taken yet, on the token
that was taken last and on whether reads pass over separators.  Here requests are
answered from these alone, by functions on lists: there is no source to ask, and
nothing is looked at before it is needed.
-/

namespace Lexis

def Criteria.Meets (c : Criteria) (t : Token) : Prop :=
  (∀ k ∈ c.kind, k = t.kind) ∧ (∀ ks ∈ c.kinds, t.kind ∈ ks) ∧
    (∀ x ∈ c.hash, x.toNat? = some t.value.hash.toNat) ∧ ∀ v ∈ c.value, v = t.value

theorem Criteria.accepts_iff {c : Criteria} {t : Token} : c.accepts t = true ↔ c.Meets t := by
  simp only [accepts, Bool.and_eq_true, Option.all_eq_true, Option.mem_def, beq_iff_eq,
    List.contains_iff_mem, and_assoc, Meets]

instance (c : Criteria) (t : Token) : Decidable (c.Meets t) :=
  decidable_of_iff _ c.accepts_iff

/-- Ones can be taken from a natural number as often as it says. -/
theorem Binary64.countdown_of_toInt? {x : Binary64} {n : Int} (h : x.toInt? = some n) :
    x.countdown = some n.toNat := by
  unfold toInt? at h
  unfold countdown
  cases hview : x.view with
  | nan => simp [hview] at h
  | infinite negative => simp [hview] at h
  | finite negative significand exponent =>
      simp only [hview] at h ⊢
      split at h
      · next hwhole =>
        rw [← Option.some.inj h]
        cases negative with
        | true => simp only [signed, if_true, Int.toNat_neg_natCast]
        | false =>
            have hscale : 0 < pow2 (-exponent).toNat := Nat.two_pow_pos _
            obtain ⟨k, hk⟩ : pow2 (-exponent).toNat ∣ significand * pow2 exponent.toNat :=
              Nat.dvd_mul_right_of_dvd (Nat.dvd_of_mod_eq_zero hwhole) _
            simp only [signed, Bool.false_eq_true, if_false, Int.toNat_natCast, Option.some.injEq]
            rw [hk, Nat.mul_add_div hscale, Nat.mul_div_cancel_left _ hscale,
              Nat.div_eq_of_lt (Nat.sub_lt hscale Nat.one_pos), Nat.add_zero]
      · simp at h

/-- What is left of a list of tokens: those that were not taken, the one that was
taken last, and whether reads pass over newlines and comments. -/
structure Remainder where
  tokens : List Token
  current : Option Token := none
  skipsSeparators : Bool := true

def Token.isSeparator (t : Token) : Bool :=
  match t.kind with
  | .newline | .lineComment | .blockComment => true
  | _ => false

theorem Token.isSeparator_eq (t : Token) : t.isSeparator = Kind.separators.contains t.kind := by
  obtain ⟨kind, position, first, last, value⟩ := t
  cases kind <;> rfl

theorem Token.isOneOf_eq (t : Token) (kinds : List Kind) (value : Option Text) :
    t.isOneOf kinds value = decide (t.kind ∈ kinds ∧ ∀ v ∈ value, v = t.value) := by
  cases value with
  | none => simp [isOneOf]
  | some v => simp [isOneOf, Bool.beq_eq_decide_eq]

namespace Remainder

def pass (m : Remainder) (n : Nat) : Remainder :=
  { m with
    tokens := m.tokens.drop n
    current := (m.tokens.take n).getLast?.or m.current }

/-- Takes the longest beginning of at most `limit` tokens that satisfy `p`. -/
def passWhile (m : Remainder) (p : Token → Bool) (limit : Option Nat) : Remainder :=
  m.pass ((limit.elim m.tokens m.tokens.take).takeWhile p).length

/-- How many tokens a count allows.  An integer allows as many as it says, and a
negative one none; without a count there is no bound. -/
def allowance : Option Binary64 → Option Nat
  | none => none
  | some x =>
      match x.toInt? with
      | some n => some n.toNat
      | none => x.countdown

/-- What is left for a read, which passes over newlines and comments if the criteria
say so, or else as usual. -/
def passFor (m : Remainder) (c : Criteria) : Remainder :=
  if c.skipSeparators.getD m.skipsSeparators then m.passWhile Token.isSeparator none else m

def tryRead (m : Remainder) (c : Criteria) : Attempt × Remainder :=
  let m := m.passFor c
  match m.tokens with
  | [] => (.noToken, m)
  | t :: _ => if c.Meets t then (.read t, m.pass 1) else (.mismatch t, m)

/-- The answer to a read that meets a token which is not the wanted one: it is worded in the
usual way if the caller asks for nothing else. -/
def mismatch (usual : Text) (t : Token) : Option OnFail → Except ReadError (Option Token)
  | none => .error (.mismatch t usual)
  | some (.wording text) => .error (.mismatch t text)
  | some (.custom message) => .error (.custom (message t))
  | some .nothing => .ok none

def read (m : Remainder) (c : Criteria) (onFail : Option OnFail) (usual : Text) :
    Except ReadError (Option Token) × Remainder :=
  match m.tryRead c with
  | (.read t, m) => (.ok (some t), m)
  | (.noToken, m) => (.error (.noToken .read), m)
  | (.mismatch t, m) => (mismatch usual t onFail, m)

def readAs {α : Type} (m : Remainder) (kinds : List Kind) (hash : Option Binary64)
    (onFail : Option OnFail) (usual : Text) (value : Token → Except CoercionError α) :
    Except ReadError (Option α) × Remainder :=
  match m.read { kinds := some kinds, hash } onFail usual with
  | (.error e, m) => (.error e, m)
  | (.ok none, m) => (.ok none, m)
  | (.ok (some t), m) => (((value t).map some).mapError .coercion, m)

def skip (m : Remainder) : Except ReadError Unit × Remainder :=
  if m.tokens.isEmpty then (.error (.noToken .skip), m) else (.ok (), m.pass 1)

def skipMany (m : Remainder) (count : Option Binary64) (kinds : Option (List Kind)) :
    Except ReadError Unit × Remainder :=
  if count.isNone && kinds.isNone then (.error .noBound, m)
  else (.ok (), m.passWhile (fun t ↦ kinds.all (·.contains t.kind)) (allowance count))

def skipTo (m : Remainder) (kinds : List Kind) (through : Bool) :
    Except ReadError Unit × Remainder :=
  if kinds.isEmpty then (.error .noTarget, m)
  else
    let m := m.passWhile (fun t ↦ !kinds.contains t.kind) none
    (.ok (), if through then m.pass 1 else m)

def handle (m : Remainder) : Request → Except ReadError Response × Remainder
  | .peek => (.ok (.token m.tokens.head?), m)
  | .peekKind => (.ok (.kind (m.tokens.head?.map (·.kind))), m)
  | .nextIs kinds value =>
      let isNext (t : Token) : Bool := t.kind ∈ kinds ∧ ∀ v ∈ value, v = t.value
      (.ok (.isNext (m.tokens.head?.map isNext)), m)
  | .isAtEnd => (.ok (.isAtEnd m.tokens.isEmpty), m)
  | .read criteria onFail =>
      let (result, m) := m.read criteria onFail "Failed to read token"
      (result.map .token, m)
  | .tryRead criteria =>
      let (attempt, m) := m.tryRead criteria
      (.ok (.attempt attempt), m)
  | .readFloat hash onFail =>
      let (result, m) := m.readAs [.float, .floatExp, .integer, .integerExp, .hex, .binary] hash
        onFail "Expected float literal" Token.float
      (result.map .float, m)
  | .readInteger hash onFail =>
      let (result, m) := m.readAs [.integer, .integerExp, .hex, .binary] hash
        onFail "Expected integer literal" Token.integer
      (result.map .integer, m)
  | .readBoolean hash onFail =>
      let (result, m) := m.readAs [.trueWord, .falseWord] hash
        onFail "Expected boolean literal" fun t ↦ .ok (decide (t.kind = .trueWord))
      (result.map .boolean, m)
  | .readString hash onFail =>
      let (result, m) := m.readAs [.singleString, .doubleString] hash
        onFail "Expected string literal" fun t ↦ .ok t.value
      (result.map .text, m)
  | .skip =>
      let (result, m) := m.skip
      (result.map fun _ ↦ .done, m)
  | .skipSeparators => (.ok .done, m.passWhile Token.isSeparator none)
  | .skipMany count kinds =>
      let (result, m) := m.skipMany count kinds
      (result.map fun _ ↦ .done, m)
  | .skipTo kinds through =>
      let (result, m) := m.skipTo kinds through
      (result.map fun _ ↦ .done, m)
  | .setSkipping skips => (.ok .nothing, { m with skipsSeparators := skips })

def after (m : Remainder) : List Request → Remainder
  | [] => m
  | q :: rest => (m.handle q).2.after rest

/-! ## The end of the list -/

/-- Whether to pass while `p` holds, within `limit`, goes on behind the last token. -/
def exhausts (m : Remainder) (p : Token → Bool) (limit : Option Nat) : Bool :=
  m.tokens.all p && limit.all (m.tokens.length < ·)

/-- Whether a request needs a token beyond those that are left. -/
def overruns (m : Remainder) : Request → Bool
  | .peek | .peekKind | .nextIs _ _ | .isAtEnd | .skip => m.tokens.isEmpty
  | .read criteria _ | .tryRead criteria => (m.passFor criteria).tokens.isEmpty
  | .readFloat _ _ | .readInteger _ _ | .readBoolean _ _ | .readString _ _ =>
      (m.passFor {}).tokens.isEmpty
  | .skipSeparators => m.exhausts Token.isSeparator none
  | .skipMany count kinds =>
      !(count.isNone && kinds.isNone) &&
        m.exhausts (fun t ↦ kinds.all (·.contains t.kind)) (allowance count)
  | .skipTo kinds _ => !kinds.isEmpty && m.exhausts (fun t ↦ !kinds.contains t.kind) none
  | .setSkipping _ => false

theorem allowance_eq (count : Option Binary64) :
    allowance count = count.bind Binary64.countdown := by
  cases count with
  | none => rfl
  | some x =>
      cases hx : x.toInt? with
      | none => simp [allowance, hx]
      | some n => simp [allowance, hx, Binary64.countdown_of_toInt? hx]

/-! ## Passing one token after the other -/

variable {m : Remainder} {p : Token → Bool} {limit : Option Nat} {t : Token} {ts : List Token}

theorem pass_of_nil (h : m.tokens = []) (n : Nat) : m.pass n = m := by
  obtain ⟨tokens, current, skips⟩ := m
  subst h
  simp [pass]

theorem pass_zero (m : Remainder) : m.pass 0 = m := by
  simp [pass]

theorem pass_one (h : m.tokens = t :: ts) :
    m.pass 1 = { m with tokens := ts, current := some t } := by
  simp [pass, h]

theorem pass_succ (h : m.tokens = t :: ts) (n : Nat) : m.pass (n + 1) = (m.pass 1).pass n := by
  rw [pass_one h]
  simp [pass, h, List.getLast?_cons]

/-- A limit that is not used up allows one token less after the next one. -/
theorem passWhile_of_cons (h : m.tokens = t :: ts) (hp : p t = true) (hlimit : limit ≠ some 0) :
    m.passWhile p limit = (m.pass 1).passWhile p (limit.map (· - 1)) := by
  have hwithin : limit.elim m.tokens m.tokens.take =
      t :: (limit.map (· - 1)).elim ts ts.take := by
    rw [h]
    cases limit with
    | none => rfl
    | some n =>
        obtain ⟨k, rfl⟩ := Nat.exists_eq_succ_of_ne_zero fun hzero ↦ hlimit (congrArg some hzero)
        rfl
  rw [passWhile, hwithin, List.takeWhile_cons, if_pos hp, List.length_cons, pass_succ h,
    passWhile, pass_one h]

theorem exhausts_of_cons (h : m.tokens = t :: ts) (hp : p t = true) (hlimit : limit ≠ some 0) :
    m.exhausts p limit = (m.pass 1).exhausts p (limit.map (· - 1)) := by
  rw [pass_one h]
  cases limit with
  | none => simp [exhausts, h, hp]
  | some n =>
      obtain ⟨k, rfl⟩ := Nat.exists_eq_succ_of_ne_zero fun hzero ↦ hlimit (congrArg some hzero)
      simp [exhausts, h, hp]

theorem passWhile_of_stop (limit : Option Nat) (h : m.tokens = t :: ts) (hp : p t = false) :
    m.passWhile p limit = m ∧ m.exhausts p limit = false := by
  refine ⟨?_, by simp [exhausts, h, hp]⟩
  cases limit with
  | none => simp [passWhile, h, hp, pass_zero]
  | some n => cases n <;> simp [passWhile, h, hp, pass_zero]

theorem passWhile_of_nil (h : m.tokens = []) (hlimit : limit ≠ some 0) :
    m.passWhile p limit = m ∧ m.exhausts p limit = true := by
  refine ⟨pass_of_nil h _, ?_⟩
  cases limit with
  | none => simp [exhausts, h]
  | some n =>
      have hpos : 0 < n := Nat.pos_of_ne_zero fun hzero ↦ hlimit (congrArg some hzero)
      simp [exhausts, h, hpos]

theorem passWhile_zero (m : Remainder) (p : Token → Bool) :
    m.passWhile p (some 0) = m ∧ m.exhausts p (some 0) = false := by
  simp [passWhile, exhausts, pass_zero]

/-- Without a limit, the end is found exactly if nothing is left. -/
theorem exhausts_none (m : Remainder) (p : Token → Bool) :
    m.exhausts p none = (m.passWhile p none).tokens.isEmpty := by
  generalize htokens : m.tokens = ts
  induction ts generalizing m with
  | nil =>
      obtain ⟨hpass, hexhausts⟩ := @passWhile_of_nil m p none htokens (by simp)
      rw [hpass, hexhausts, htokens]
      rfl
  | cons t ts ih =>
      cases hp : p t with
      | false =>
          obtain ⟨hpass, hexhausts⟩ := passWhile_of_stop none htokens hp
          rw [hpass, hexhausts, htokens]
          rfl
      | true =>
          rw [passWhile_of_cons htokens hp (by simp), exhausts_of_cons htokens hp (by simp)]
          exact ih (m.pass 1) (by rw [pass_one htokens])

/-! ## What a read meets -/

/-- A read as usual meets the first token behind the separators that it passes over. -/
theorem tokens_passFor (m : Remainder) :
    (m.passFor {}).tokens =
      if m.skipsSeparators then m.tokens.dropWhile Token.isSeparator else m.tokens := by
  have hdrop : m.tokens.drop (m.tokens.takeWhile Token.isSeparator).length =
      m.tokens.dropWhile Token.isSeparator := by
    have happend := @List.takeWhile_append_dropWhile _ Token.isSeparator m.tokens
    calc
      _ = (m.tokens.takeWhile Token.isSeparator ++ m.tokens.dropWhile Token.isSeparator).drop
          (m.tokens.takeWhile Token.isSeparator).length := by rw [happend]
      _ = m.tokens.dropWhile Token.isSeparator := List.drop_left
  unfold passFor
  simp only [Option.getD_none]
  cases m.skipsSeparators with
  | true => exact hdrop
  | false => rfl

theorem tryRead_of_nil {c : Criteria} (h : (m.passFor c).tokens = []) :
    m.tryRead c = (.noToken, m.passFor c) := by
  simp only [tryRead, h]

theorem tryRead_of_cons {c : Criteria} (h : (m.passFor c).tokens = t :: ts) :
    m.tryRead c =
      if c.Meets t then (.read t, (m.passFor c).pass 1) else (.mismatch t, m.passFor c) := by
  simp only [tryRead, h]

end Remainder

end Lexis
