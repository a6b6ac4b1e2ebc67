import Lexis.Proofs.Reader.Remainder

/-!
# A reader stands for what is left of its source

The tokens that a reader has not taken are the one that it has looked at, if any, and
those that its source still gives out.  Every request is answered as if these were
a plain list.  Only where a token beyond them is needed does it matter how the source
ends: it may fail there instead.
-/

namespace Lexis

/-- What a source gives out: its tokens in order and, unless it ends behind them, the
error that it fails with and the source after that. -/
structure Supply (σ : Type) where
  tokens : List Token
  failure : Option (RunError × σ)

def Supply.cons {σ : Type} (t : Token) (supply : Supply σ) : Supply σ :=
  { supply with tokens := t :: supply.tokens }

variable {σ : Type} [Source σ]

def Source.supply (s : σ) : Supply σ :=
  match _h : pull s with
  | (.error e, after) => ⟨[], some (e, after)⟩
  | (.ok none, _) => ⟨[], none⟩
  | (.ok (some t), after) => (supply after).cons t
termination_by Source.size s
decreasing_by exact Source.size_of_pull _h

theorem Source.supply_eq (s : σ) :
    supply s =
      match pull s with
      | (.error e, after) => ⟨[], some (e, after)⟩
      | (.ok none, _) => ⟨[], none⟩
      | (.ok (some t), after) => (supply after).cons t := by
  rw [supply]
  split <;> simp_all

inductive Lookahead where
  | unknown
  | ready (token : Token)
  | ended
deriving DecidableEq

namespace Reader

section Ahead

omit [Source σ]

variable {r : Reader σ} {t : Token}

def ahead (r : Reader σ) : Lookahead :=
  match r.buffered with
  | some t => .ready t
  | none => if r.exhausted then .ended else .unknown

theorem ahead_eq_ready_iff : r.ahead = .ready t ↔ r.buffered = some t := by
  unfold ahead
  cases r.buffered with
  | some u => simp
  | none => cases r.exhausted <;> simp

theorem ahead_eq_ended_iff : r.ahead = .ended ↔ r.exhausted = true := by
  unfold ahead
  cases hbuffered : r.buffered with
  | some u => simp [exhausted_of_buffered hbuffered]
  | none => cases r.exhausted <;> simp

theorem ahead_eq_unknown_iff : r.ahead = .unknown ↔ r.buffered = none ∧ r.exhausted = false := by
  unfold ahead
  cases r.buffered with
  | some u => simp
  | none => cases r.exhausted <;> simp

/-- Behind a token that was looked at, nothing is known. -/
theorem ahead_take (h : r.ahead = .ready t) : (r.take t).ahead = .unknown := by
  have hopen : r.exhausted = false := exhausted_of_buffered (ahead_eq_ready_iff.mp h)
  exact ahead_eq_unknown_iff.mpr ⟨rfl, hopen⟩

end Ahead

theorem peek_of_ready {r : Reader σ} {t : Token} (h : r.ahead = .ready t) :
    r.peek = (.ok (some t), r) := by
  have hbuffered := ahead_eq_ready_iff.mp h
  simp [peek, hbuffered]

theorem peek_of_ended {r : Reader σ} (h : r.ahead = .ended) : r.peek = (.ok none, r) := by
  have hexhausted := ahead_eq_ended_iff.mp h
  simp [peek, hexhausted, r.coherent hexhausted]

def supply (r : Reader σ) : Supply σ :=
  match r.ahead with
  | .unknown => Source.supply r.source
  | .ready t => (Source.supply r.source).cons t
  | .ended => ⟨[], none⟩

def remainder (r : Reader σ) : Remainder := ⟨r.supply.tokens, r.current, r.skipsSeparators⟩

/-! ## Looking ahead -/

/-- What a reader finds when it looks ahead: the first of the tokens that are left,
or the end of the source, or its failure. -/
inductive Peeks (r : Reader σ) : Except RunError (Option Token) × Reader σ → Prop
  | token {t : Token} {ts : List Token} {r' : Reader σ} (htokens : r.supply.tokens = t :: ts)
      (hahead : r'.ahead = .ready t) (hsupply : r'.supply = r.supply)
      (hcurrent : r'.current = r.current) (hskips : r'.skipsSeparators = r.skipsSeparators) :
      Peeks r (.ok (some t), r')
  | ended {r' : Reader σ} (hsupply : r.supply = ⟨[], none⟩) (hahead : r'.ahead = .ended)
      (hcurrent : r'.current = r.current) (hskips : r'.skipsSeparators = r.skipsSeparators) :
      Peeks r (.ok none, r')
  | failed {e : RunError} {after : σ} {r' : Reader σ} (hsupply : r.supply = ⟨[], some (e, after)⟩)
      (hsource : r'.source = after) (hahead : r'.ahead = .unknown)
      (hcurrent : r'.current = r.current) (hskips : r'.skipsSeparators = r.skipsSeparators) :
      Peeks r (.error e, r')

theorem peeks_peek (r : Reader σ) : Peeks r r.peek := by
  cases hahead : r.ahead with
  | ready t =>
      have hsupply : r.supply = (Source.supply r.source).cons t := by rw [supply, hahead]
      rw [peek_of_ready hahead]
      exact .token (congrArg Supply.tokens hsupply) hahead rfl rfl rfl
  | ended =>
      rw [peek_of_ended hahead]
      exact .ended (by rw [supply, hahead]) hahead rfl rfl
  | unknown =>
      have hsupply : r.supply = Source.supply r.source := by rw [supply, hahead]
      have hknown := ahead_eq_unknown_iff.mp hahead
      rw [Source.supply_eq] at hsupply
      unfold peek
      rw [dif_pos hknown]
      split
      · next e after hpull =>
        rw [hpull] at hsupply
        exact .failed hsupply rfl (ahead_eq_unknown_iff.mpr hknown) rfl rfl
      · next after hpull =>
        rw [hpull] at hsupply
        exact .ended hsupply (ahead_eq_ended_iff.mpr rfl) rfl rfl
      · next t after hpull =>
        rw [hpull] at hsupply
        refine .token (congrArg Supply.tokens hsupply) (ahead_eq_ready_iff.mpr rfl) ?_ rfl rfl
        rw [hsupply]
        rfl

theorem remainder_of_supply {r r' : Reader σ} (hsupply : r'.supply = r.supply)
    (hcurrent : r'.current = r.current) (hskips : r'.skipsSeparators = r.skipsSeparators) :
    r'.remainder = r.remainder := by
  rw [remainder, remainder, hsupply, hcurrent, hskips]

theorem supply_of_ended {r : Reader σ} (h : r.ahead = .ended) : r.supply = ⟨[], none⟩ := by
  rw [supply, h]

theorem supply_of_ready {r : Reader σ} {t : Token} (h : r.ahead = .ready t) :
    r.supply = (r.take t).supply.cons t := by
  have htaken : (r.take t).supply = Source.supply r.source := by
    rw [supply, ahead_take h]
    rfl
  rw [supply, h, htaken]

theorem remainder_take {r : Reader σ} {t : Token} (h : r.ahead = .ready t) :
    (r.take t).remainder = r.remainder.pass 1 := by
  rw [remainder, remainder, supply_of_ready h]
  rfl

/-! ## Operations -/

/-- How an operation ends that has an answer and a remainder on the plain list.  Where
it needs no token beyond the list, or where the source ends there, it ends in the same
way.  Otherwise the source fails, once all the tokens of the list were taken. -/
inductive Follows {ε α : Type} (r : Reader σ) (wrap : RunError → ε)
    (plain : Except ε α × Remainder) : (overruns : Bool) → Except ε α × Reader σ → Prop
  | within {r' : Reader σ} (hremainder : r'.remainder = plain.2)
      (hfailure : r'.supply.failure = r.supply.failure)
      (hahead : r'.ahead = .ended ↔ r.ahead = .ended) :
      Follows r wrap plain false (plain.1, r')
  | ended {r' : Reader σ} (hnone : r.supply.failure = none) (hremainder : r'.remainder = plain.2)
      (hahead : r'.ahead = .ended) : Follows r wrap plain true (plain.1, r')
  | failed {e : RunError} {after : σ} {r' : Reader σ}
      (hsome : r.supply.failure = some (e, after)) (htokens : plain.2.tokens = [])
      (hsource : r'.source = after) (hahead : r'.ahead = .unknown)
      (hcurrent : r'.current = plain.2.current)
      (hskips : r'.skipsSeparators = plain.2.skipsSeparators) :
      Follows r wrap plain true (.error (wrap e), r')

namespace Follows

variable {ε ε' α β : Type} {r s : Reader σ} {wrap : RunError → ε} {wrap' : RunError → ε'}
  {plain : Except ε α × Remainder} {beyond : Bool} {done : Except ε α × Reader σ}

/-- What follows the list from a later point on follows it from an earlier one too. -/
theorem rebase (h : Follows s wrap plain beyond done)
    (hfailure : s.supply.failure = r.supply.failure)
    (hahead : s.ahead = .ended ↔ r.ahead = .ended) : Follows r wrap plain beyond done := by
  cases h with
  | within hremainder hsame hended =>
      exact .within hremainder (hsame.trans hfailure) (hended.trans hahead)
  | ended hnone hremainder hended => exact .ended (hfailure ▸ hnone) hremainder hended
  | failed hsome htokens hsource hunknown hcurrent hskips =>
      exact .failed (hfailure ▸ hsome) htokens hsource hunknown hcurrent hskips

/-- The answer may be put into another form, as long as errors of the source stay
what they are. -/
theorem map (f : Except ε α → Except ε' β) (h : Follows r wrap plain beyond done)
    (hf : ∀ e, f (.error (wrap e)) = .error (wrap' e)) :
    Follows r wrap' (f plain.1, plain.2) beyond (f done.1, done.2) := by
  cases h with
  | within hremainder hfailure hahead => exact .within hremainder hfailure hahead
  | ended hnone hremainder hahead => exact .ended hnone hremainder hahead
  | failed hsome htokens hsource hahead hcurrent hskips =>
      rw [hf]
      exact .failed hsome htokens hsource hahead hcurrent hskips

end Follows

theorem ahead_ne_ended {r : Reader σ} {t : Token} {ts : List Token}
    (h : r.supply.tokens = t :: ts) : r.ahead ≠ .ended := by
  intro hended
  simp [supply_of_ended hended] at h

section Peek

variable {ε α : Type} {r r' : Reader σ} {t : Token} {e : RunError} (wrap : RunError → ε)
  (answer : Except ε α)

theorem tokens_of_peek (h : r.peek = (.ok (some t), r')) :
    ∃ ts, r.remainder.tokens = t :: ts := by
  cases h ▸ r.peeks_peek with
  | token htokens => exact ⟨_, htokens⟩

theorem tokens_of_peek_none (h : r.peek = (.ok none, r')) : r.remainder.tokens = [] := by
  cases h ▸ r.peeks_peek with
  | ended hsupply => rw [remainder, hsupply]

theorem tokens_of_peek_error (h : r.peek = (.error e, r')) : r.remainder.tokens = [] := by
  cases h ▸ r.peeks_peek with
  | failed hsupply => rw [remainder, hsupply]

theorem follows_of_peek (h : r.peek = (.ok (some t), r')) :
    Follows r wrap (answer, r.remainder) false (answer, r') := by
  cases h ▸ r.peeks_peek with
  | token htokens hahead hsupply hcurrent hskips =>
      refine .within (remainder_of_supply hsupply hcurrent hskips) (by rw [hsupply]) ?_
      simp [hahead, ahead_ne_ended htokens]

theorem follows_take (h : r.peek = (.ok (some t), r')) :
    Follows r wrap (answer, r.remainder.pass 1) false (answer, r'.take t) := by
  cases h ▸ r.peeks_peek with
  | token htokens hahead hsupply hcurrent hskips =>
      refine .within ?_ ?_ ?_
      · rw [remainder_take hahead, remainder_of_supply hsupply hcurrent hskips]
      · rw [← hsupply, supply_of_ready hahead]
        rfl
      · simp [ahead_take hahead, ahead_ne_ended htokens]

theorem follows_of_peek_none (h : r.peek = (.ok none, r')) :
    Follows r wrap (answer, r.remainder) true (answer, r') := by
  cases h ▸ r.peeks_peek with
  | ended hsupply hahead hcurrent hskips =>
      have hsame : r'.supply = r.supply := (supply_of_ended hahead).trans hsupply.symm
      exact .ended (by rw [hsupply]) (remainder_of_supply hsame hcurrent hskips) hahead

theorem follows_of_peek_error (h : r.peek = (.error e, r')) :
    Follows r wrap (answer, r.remainder) true (.error (wrap e), r') := by
  cases h ▸ r.peeks_peek with
  | failed hsupply hsource hahead hcurrent hskips =>
      exact .failed (by rw [hsupply]) (by rw [remainder, hsupply]) hsource hahead hcurrent hskips

end Peek

theorem follows_skipWhile (p : Token → Bool) (limit : Option Nat) (r : Reader σ) :
    Follows r id (.ok (), r.remainder.passWhile p limit) (r.remainder.exhausts p limit)
      (r.skipWhile p limit) := by
  fun_induction skipWhile p limit r with
  | case1 r =>
      obtain ⟨hpass, hexhausts⟩ := r.remainder.passWhile_zero p
      rw [hpass, hexhausts]
      exact .within rfl rfl Iff.rfl
  | case2 limit r hlimit e r' hpeek =>
      obtain ⟨hpass, hexhausts⟩ :=
        Remainder.passWhile_of_nil (p := p) (tokens_of_peek_error hpeek) hlimit
      rw [hpass, hexhausts]
      exact follows_of_peek_error id _ hpeek
  | case3 limit r hlimit r' hpeek =>
      obtain ⟨hpass, hexhausts⟩ :=
        Remainder.passWhile_of_nil (p := p) (tokens_of_peek_none hpeek) hlimit
      rw [hpass, hexhausts]
      exact follows_of_peek_none id _ hpeek
  | case4 limit r hlimit t r' hpeek hp ih =>
      obtain ⟨ts, htokens⟩ := tokens_of_peek hpeek
      rw [Remainder.passWhile_of_cons htokens hp hlimit,
        Remainder.exhausts_of_cons htokens hp hlimit]
      -- The loop goes on behind the token; what it does there counts from here too.
      cases follows_take id (.ok () : Except RunError Unit) hpeek with
      | within hremainder hfailure hahead =>
          rw [hremainder] at ih
          exact ih.rebase hfailure hahead
  | case5 limit r hlimit t r' hpeek hp =>
      obtain ⟨ts, htokens⟩ := tokens_of_peek hpeek
      obtain ⟨hpass, hexhausts⟩ :=
        Remainder.passWhile_of_stop limit htokens (by simpa using hp)
      rw [hpass, hexhausts]
      exact follows_of_peek id _ hpeek

theorem follows_skipSeparators (r : Reader σ) :
    Follows r id (.ok (), r.remainder.passWhile Token.isSeparator none)
      (r.remainder.exhausts Token.isSeparator none) r.skipSeparators := by
  have hskip : r.skipSeparators = r.skipWhile Token.isSeparator none := by
    unfold skipSeparators
    congr 1
    funext t
    exact t.isSeparator_eq.symm
  rw [hskip]
  exact follows_skipWhile Token.isSeparator none r

theorem follows_skipFor (r : Reader σ) (c : Criteria) :
    ∃ beyond, Follows r id (.ok (), r.remainder.passFor c) beyond (r.skipFor c) := by
  unfold skipFor Remainder.passFor
  have hskips : r.remainder.skipsSeparators = r.skipsSeparators := rfl
  rw [hskips]
  split
  · exact ⟨_, r.follows_skipSeparators⟩
  · exact ⟨false, .within rfl rfl Iff.rfl⟩

theorem follows_tryRead (r : Reader σ) (c : Criteria) :
    Follows r id (.ok (r.remainder.tryRead c).1, (r.remainder.tryRead c).2)
      (r.remainder.passFor c).tokens.isEmpty (r.tryRead c) := by
  obtain ⟨beyond, hskip⟩ := r.follows_skipFor c
  unfold tryRead Remainder.tryRead
  generalize r.remainder.passFor c = m at hskip ⊢
  generalize r.skipFor c = skipped at hskip ⊢
  cases hskip with
  | @within s hremainder hfailure hahead =>
      obtain rfl : s.remainder = m := hremainder
      rcases hpeek : s.peek with ⟨e | _ | t, s'⟩
      · simp only [hpeek, tokens_of_peek_error hpeek]
        exact (follows_of_peek_error id _ hpeek).rebase hfailure hahead
      · simp only [hpeek, tokens_of_peek_none hpeek]
        exact (follows_of_peek_none id _ hpeek).rebase hfailure hahead
      · obtain ⟨ts, htokens⟩ := tokens_of_peek hpeek
        simp only [hpeek, htokens, Criteria.accepts_iff]
        split
        · exact (follows_take id _ hpeek).rebase hfailure hahead
        · exact (follows_of_peek id _ hpeek).rebase hfailure hahead
  | @ended s hnone hremainder hahead =>
      obtain rfl : s.remainder = m := hremainder
      -- The end was met among the separators, and is not asked for again.
      have htokens : s.remainder.tokens = [] := tokens_of_peek_none (peek_of_ended hahead)
      simp only [peek_of_ended hahead, htokens]
      exact .ended hnone rfl hahead
  | failed hsome htokens hsource hahead hcurrent hskips =>
      have hnil : m.tokens = [] := htokens
      simp only [hnil]
      exact .failed hsome hnil hsource hahead hcurrent hskips

def granted (onFail : OnFail) : Except RunError Attempt → Except ReadError (Option Token)
  | .error e => .error (.source e)
  | .ok (.read t) => .ok (some t)
  | .ok .noToken => .error (.noToken .read)
  | .ok (.mismatch t) => refuse onFail t

/-- A wording is the usual one unless the caller gives another one. -/
theorem refuse_getD (onFail : Option OnFail) (usual : Text) (t : Token) :
    refuse (onFail.getD (.wording usual)) t = Remainder.mismatch usual t onFail := by
  rcases onFail with _ | text | message | _ <;> rfl

theorem follows_read (r : Reader σ) (c : Criteria) (onFail : Option OnFail) (usual : Text) :
    Follows r .source (r.remainder.read c onFail usual) (r.remainder.passFor c).tokens.isEmpty
      (r.read c (onFail.getD (.wording usual))) := by
  generalize hfail : onFail.getD (.wording usual) = fail
  have hread : r.read c fail = (granted fail (r.tryRead c).1, (r.tryRead c).2) := by
    unfold read
    rcases r.tryRead c with ⟨e | t | t | _, r'⟩ <;> rfl
  have hplain : r.remainder.read c onFail usual =
      (granted fail (.ok (r.remainder.tryRead c).1), (r.remainder.tryRead c).2) := by
    unfold Remainder.read
    rcases r.remainder.tryRead c with ⟨t | t | _, m⟩
    · rfl
    · simp only [granted, ← hfail, refuse_getD]
    · rfl
  rw [hread, hplain]
  exact (r.follows_tryRead c).map (granted fail) fun _ ↦ rfl

def valued {α : Type} (value : Token → Except CoercionError α) :
    Except ReadError (Option Token) → Except ReadError (Option α)
  | .error e => .error e
  | .ok none => .ok none
  | .ok (some t) => ((value t).map some).mapError .coercion

theorem follows_readAs {α : Type} (r : Reader σ) (kinds : List Kind) (hash : Option Binary64)
    (onFail : Option OnFail) (usual : Text) (value : Token → Except CoercionError α) :
    Follows r .source (r.remainder.readAs kinds hash onFail usual value)
      (r.remainder.passFor {}).tokens.isEmpty
      (r.readAs kinds hash (onFail.getD (.wording usual)) value) := by
  let criteria : Criteria := { kinds := some kinds, hash }
  have hread (fail : OnFail) : r.readAs kinds hash fail value =
      (valued value (r.read criteria fail).1, (r.read criteria fail).2) := by
    unfold readAs
    rcases r.read criteria fail with ⟨e | _ | t, r'⟩
    · rfl
    · rfl
    · simp only [valued]
      cases value t <;> rfl
  have hplain : r.remainder.readAs kinds hash onFail usual value =
      (valued value (r.remainder.read criteria onFail usual).1,
        (r.remainder.read criteria onFail usual).2) := by
    unfold Remainder.readAs
    rcases r.remainder.read criteria onFail usual with ⟨e | _ | t, m⟩ <;> rfl
  rw [hread, hplain]
  exact (r.follows_read criteria onFail usual).map (valued value) fun _ ↦ rfl

theorem follows_skip (r : Reader σ) :
    Follows r .source r.remainder.skip r.remainder.tokens.isEmpty r.skip := by
  unfold skip Remainder.skip
  rcases hpeek : r.peek with ⟨e | _ | t, r'⟩
  · rw [tokens_of_peek_error hpeek]
    exact follows_of_peek_error ReadError.source _ hpeek
  · rw [tokens_of_peek_none hpeek]
    exact follows_of_peek_none ReadError.source _ hpeek
  · obtain ⟨ts, htokens⟩ := tokens_of_peek hpeek
    rw [htokens]
    exact follows_take ReadError.source _ hpeek

theorem follows_skipMany (r : Reader σ) (count : Option Binary64) (kinds : Option (List Kind)) :
    Follows r .source (r.remainder.skipMany count kinds)
      (r.remainder.overruns (.skipMany count kinds)) (r.skipMany count kinds) := by
  simp only [skipMany, Remainder.skipMany, Remainder.overruns, Remainder.allowance_eq]
  cases count.isNone && kinds.isNone with
  | true => exact .within rfl rfl Iff.rfl
  | false => exact (follows_skipWhile _ _ r).map (Except.mapError ReadError.source) fun _ ↦ rfl

theorem follows_skipTo (r : Reader σ) (kinds : List Kind) (through : Bool) :
    Follows r .source (r.remainder.skipTo kinds through)
      (r.remainder.overruns (.skipTo kinds through)) (r.skipTo kinds through) := by
  simp only [skipTo, Remainder.skipTo, Remainder.overruns]
  cases kinds.isEmpty with
  | true => exact .within rfl rfl Iff.rfl
  | false =>
      have hskip := follows_skipWhile (fun t ↦ !kinds.contains t.kind) none r
      have hbeyond := r.remainder.exhausts_none fun t ↦ !kinds.contains t.kind
      simp only [Bool.false_eq_true, if_false, Bool.not_false, Bool.true_and]
      generalize r.remainder.passWhile _ none = m at hskip hbeyond ⊢
      generalize r.remainder.exhausts _ none = beyond at hskip hbeyond ⊢
      generalize r.skipWhile _ none = skipped at hskip ⊢
      cases hskip with
      | @within s hremainder hfailure hahead =>
          obtain rfl : s.remainder = m := hremainder
          -- A skip without a limit that has not met the end stands before a token.
          rcases hpeek : s.peek with ⟨e | _ | t, s'⟩
          · simp [tokens_of_peek_error hpeek] at hbeyond
          · simp [tokens_of_peek_none hpeek] at hbeyond
          · simp only [hpeek]
            cases through with
            | true => exact (follows_take ReadError.source _ hpeek).rebase hfailure hahead
            | false => exact (follows_of_peek ReadError.source _ hpeek).rebase hfailure hahead
      | @ended s hnone hremainder hahead =>
          have htokens : m.tokens = [] := by simpa using hbeyond.symm
          simp only [peek_of_ended hahead, Remainder.pass_of_nil htokens, ite_self]
          exact .ended hnone hremainder hahead
      | failed hsome htokens hsource hahead hcurrent hskips =>
          have hnil : m.tokens = [] := htokens
          simp only [Remainder.pass_of_nil hnil, ite_self]
          exact .failed hsome hnil hsource hahead hcurrent hskips

theorem follows_look (r : Reader σ) (view : Option Token → Response) :
    Follows r .source (.ok (view r.remainder.tokens.head?), r.remainder)
      r.remainder.tokens.isEmpty (r.look view) := by
  unfold look
  rcases hpeek : r.peek with ⟨e | _ | t, r'⟩
  · rw [tokens_of_peek_error hpeek]
    exact follows_of_peek_error ReadError.source _ hpeek
  · rw [tokens_of_peek_none hpeek]
    exact follows_of_peek_none ReadError.source _ hpeek
  · obtain ⟨ts, htokens⟩ := tokens_of_peek hpeek
    rw [htokens]
    exact follows_of_peek ReadError.source _ hpeek

/-- Every request is answered as if the tokens that are left were a plain list, up to
a failure of the source behind them. -/
theorem follows_handle (r : Reader σ) (q : Request) :
    Follows r .source (r.remainder.handle q) (r.remainder.overruns q) (r.handle q) := by
  cases q with
  | peek => exact r.follows_look Response.token
  | peekKind => exact r.follows_look fun t ↦ .kind (t.map (·.kind))
  | nextIs kinds value =>
      have hlook := r.follows_look fun t ↦ .isNext (t.map (·.isOneOf kinds value))
      simpa only [handle, Remainder.handle, Remainder.overruns, Token.isOneOf_eq] using hlook
  | isAtEnd =>
      have hnone : r.remainder.tokens.head?.isNone = r.remainder.tokens.isEmpty := by
        cases r.remainder.tokens <;> rfl
      have hlook := r.follows_look fun t ↦ .isAtEnd t.isNone
      rwa [hnone] at hlook
  | read criteria onFail =>
      exact (r.follows_read _ _ _).map (Except.map Response.token) fun _ ↦ rfl
  | tryRead criteria =>
      exact (r.follows_tryRead criteria).map
        (fun x ↦ (x.map Response.attempt).mapError ReadError.source) fun _ ↦ rfl
  | readFloat hash onFail =>
      exact (r.follows_readAs _ _ _ _ _).map (Except.map Response.float) fun _ ↦ rfl
  | readInteger hash onFail =>
      exact (r.follows_readAs _ _ _ _ _).map (Except.map Response.integer) fun _ ↦ rfl
  | readBoolean hash onFail =>
      exact (r.follows_readAs _ _ _ _ _).map (Except.map Response.boolean) fun _ ↦ rfl
  | readString hash onFail =>
      exact (r.follows_readAs _ _ _ _ _).map (Except.map Response.text) fun _ ↦ rfl
  | skip => exact r.follows_skip.map (Except.map fun _ ↦ Response.done) fun _ ↦ rfl
  | skipSeparators =>
      exact r.follows_skipSeparators.map
        (fun x ↦ (x.map fun _ ↦ Response.done).mapError ReadError.source) fun _ ↦ rfl
  | skipMany count kinds =>
      exact (r.follows_skipMany count kinds).map (Except.map fun _ ↦ Response.done) fun _ ↦ rfl
  | skipTo kinds through =>
      exact (r.follows_skipTo kinds through).map (Except.map fun _ ↦ Response.done) fun _ ↦ rfl
  | setSkipping skips => exact .within rfl rfl Iff.rfl

end Reader

end Lexis
