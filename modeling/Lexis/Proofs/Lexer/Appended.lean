import Lexis.Proofs.Lexer.Given
import Lexis.Proofs.Run.Placement

/-!
# What a run appends

Observers and receivers may raise, reset the lexer or ask for another run at any
token.  Whatever they do, the tokens that a run appends stand one behind the other
in its source text, each with the position of its first unit.
-/

namespace Lexis

def Event.token? : Event → Option Token
  | .appended _ t => some t
  | .delivered t => some t
  | _ => none

theorem Observers.eq_of_mem_notify {o : Observers} {e e' : Event} (h : e' ∈ (o.notify e).1) :
    e' = e := by
  unfold Observers.notify at h
  split at h <;> simp_all

namespace Lexer

def NeverResets (receiver : Option Receiver) : Prop :=
  ∀ call t, (deliver receiver call t).2 ≠ .reset

/-- The tokens `ts` are what a run has appended to the lexer `l`: they stand behind
the tokens before, those that were forgotten on the way apart.  They are the result,
and what observers and receivers were told of. -/
structure Appends (receiver : Option Receiver) (l : Lexer) (done : Outcome (List Token))
    (ts : List Token) : Prop where
  isSuffix : done.lexer.tokens.toList <:+ l.tokens.toList ++ ts
  tokens_eq : NeverResets receiver → done.lexer.tokens.toList = l.tokens.toList ++ ts
  result_eq : ∀ given, done.result = .ok given → given = ts
  told : ∀ e ∈ done.events, ∀ t, e.token? = some t → t ∈ ts

/-! ## One turn -/

variable {l : Lexer} {o : Observers} {receiver : Option Receiver} {rule : StopRule}
  {p : Progress} {source : Text}

@[simp] theorem tokens_abort {α : Type} (l : Lexer) (o : Observers) (events : List Event)
    (e : RunError) : (l.abort o events e : Outcome α).lexer.tokens = l.tokens := by
  cases e <;> rfl

theorem token?_of_mem_abort {α : Type} {events : List Event} {e : RunError} {x : Event} {t : Token}
    (hx : x ∈ (l.abort o events e : Outcome α).events) (ht : x.token? = some t) : x ∈ events := by
  cases e with
  | lexical error =>
      rcases List.mem_append.mp hx with hx | hx
      · exact hx
      · rw [Observers.eq_of_mem_notify hx] at ht
        simp [Event.token?] at ht
  | _ => exact hx

theorem token?_of_mem_deliver {call : Nat} {t u : Token} {x : Event}
    (hx : x ∈ (deliver receiver call t).1) (hu : x.token? = some u) : u = t := by
  cases receiver with
  | none => simp [deliver] at hx
  | some receive =>
      obtain rfl : x = .delivered t := by simpa [deliver] using hx
      exact (Option.some.inj hu).symm

theorem exists_result_abort {α : Type} (l : Lexer) (o : Observers) (events : List Event)
    (e : RunError) : ∃ e', (l.abort o events e : Outcome α).result = .error e' := by
  cases e <;> exact ⟨_, rfl⟩

/-- Observers who are told of an event do not change the tokens, and the events that
follow tell of no other token. -/
theorem tell_cases {α : Type} {l l' : Lexer} {e : Event} {r : α} {done : Outcome α}
    (htokens : l'.tokens = l.tokens)
    (hdone : done =
      match o.notify e with
      | (events, none) => ⟨l', events, .ok r⟩
      | (events, some raised) => l.abort o events raised) :
    done.lexer.tokens = l.tokens ∧ (done.result = .ok r ∨ ∃ e, done.result = .error e) ∧
      ∀ x ∈ done.events, ∀ t, x.token? = some t → e.token? = some t := by
  have htold {x : Event} {t : Token} (hx : x ∈ (o.notify e).1) (ht : x.token? = some t) :
      e.token? = some t := by
    rw [← Observers.eq_of_mem_notify hx]
    exact ht
  generalize o.notify e = notified at hdone htold
  obtain ⟨events, raised⟩ := notified
  cases raised with
  | none =>
      subst hdone
      exact ⟨htokens, .inl rfl, fun x hx t ht ↦ htold hx ht⟩
  | some raised =>
      subst hdone
      refine ⟨tokens_abort l o events raised, .inr (exists_result_abort l o events raised), ?_⟩
      intro x hx t ht
      exact htold (token?_of_mem_abort hx ht) ht

/-- A turn of a run appends the token that it gives out, also when the observers
raise, and nothing else. -/
theorem resume_appends (l : Lexer) (o : Observers) (rule : StopRule) (p : Progress) :
    (∃ t next, p.advance l.filter rule = .emitted t next ∧
      (l.resume o rule p).lexer.tokens = l.tokens.push t ∧
      ((l.resume o rule p).result = .ok (some (t, next)) ∨
        ∃ e, (l.resume o rule p).result = .error e) ∧
      ∀ x ∈ (l.resume o rule p).events, ∀ u, x.token? = some u → u = t) ∨
    (l.resume o rule p).lexer.tokens = l.tokens ∧
      ((l.resume o rule p).result = .ok none ∨ ∃ e, (l.resume o rule p).result = .error e) ∧
      ∀ x ∈ (l.resume o rule p).events, ∀ u, x.token? ≠ some u := by
  cases hadvance : p.advance l.filter rule with
  | emitted t next =>
      obtain ⟨htokens, hresult, htold⟩ := tell_cases rfl
        (show l.resume o rule p = _ by simp only [resume, hadvance]; rfl)
      refine .inl ⟨t, next, rfl, htokens, hresult, ?_⟩
      intro x hx u hu
      exact (Option.some.inj (htold x hx u hu)).symm
  | stopped reason =>
      obtain ⟨htokens, hresult, htold⟩ := tell_cases rfl
        (show l.resume o rule p = _ by simp only [resume, hadvance]; rfl)
      refine .inr ⟨htokens, hresult, ?_⟩
      intro x hx u hu
      simpa [Event.token?] using htold x hx u hu
  | failed e =>
      have hresume : l.resume o rule p = l.abort o [] (.lexical e) := by
        simp only [resume, hadvance]
      rw [hresume]
      refine .inr ⟨tokens_abort l o _ _, .inr (exists_result_abort l o _ _), ?_⟩
      intro x hx u hu
      simpa using token?_of_mem_abort hx hu

/-! ## A whole run -/

namespace Appends

variable {l' : Lexer} {later done : Outcome (List Token)} {events : List Event} {t : Token}
  {ts : List Token}

/-- A run that fails or stops after it has appended at most one token. -/
theorem of_tokens_eq (htokens : done.lexer.tokens.toList = l.tokens.toList ++ ts)
    (hresult : ∀ given, done.result = .ok given → given = ts)
    (htold : ∀ e ∈ done.events, ∀ t, e.token? = some t → t ∈ ts) : Appends receiver l done ts := by
  refine ⟨⟨[], ?_⟩, fun _ ↦ htokens, hresult, htold⟩
  rw [List.nil_append, htokens]

theorem nothing (htokens : done.lexer.tokens = l.tokens)
    (hresult : ∀ given, done.result = .ok given → given = [])
    (htold : ∀ e ∈ done.events, ∀ t, e.token? ≠ some t) : Appends receiver l done [] := by
  apply of_tokens_eq
  · rw [htokens, List.append_nil]
  · exact hresult
  · exact fun e he t ht ↦ absurd ht (htold e he t)

theorem result_after (h : Appends receiver l' later ts) (given : List Token)
    (hgiven : (later.after events t).result = .ok given) : given = t :: ts := by
  have hresult := h.result_eq
  simp only [Outcome.after] at hgiven
  cases hlater : later.result with
  | error e =>
      rw [hlater] at hgiven
      simp [Except.map] at hgiven
  | ok rest =>
      rw [hlater] at hgiven
      obtain rfl := hresult rest hlater
      exact (Except.ok.inj hgiven).symm

theorem told_after (h : Appends receiver l' later ts)
    (htold : ∀ e ∈ events, ∀ u, e.token? = some u → u = t) :
    ∀ e ∈ (later.after events t).events, ∀ u, e.token? = some u → u ∈ t :: ts := by
  intro e he u hu
  rcases List.mem_append.mp he with he | he
  · rw [htold e he u hu]
    exact List.mem_cons_self
  · exact List.mem_cons_of_mem t (h.told e he u hu)

theorem after (h : Appends receiver l' later ts) (htokens : l'.tokens = l.tokens.push t)
    (htold : ∀ e ∈ events, ∀ u, e.token? = some u → u = t) :
    Appends receiver l (later.after events t) (t :: ts) := by
  have hpush : l'.tokens.toList ++ ts = l.tokens.toList ++ t :: ts := by
    rw [htokens]
    simp
  refine ⟨?_, ?_, h.result_after, h.told_after htold⟩
  · rw [← hpush]
    exact h.isSuffix
  · intro hnever
    rw [← hpush]
    exact h.tokens_eq hnever

/-- Behind a reset only what comes later is left. -/
theorem after_reset (h : Appends receiver l'.reset later ts) (hreset : ¬ NeverResets receiver)
    (htold : ∀ e ∈ events, ∀ u, e.token? = some u → u = t) :
    Appends receiver l (later.after events t) (t :: ts) := by
  refine ⟨?_, fun hnever ↦ absurd hnever hreset, h.result_after, h.told_after htold⟩
  have hlater : later.lexer.tokens.toList <:+ ts := h.isSuffix
  exact hlater.trans ((List.suffix_cons t ts).trans (List.suffix_append _ _))

theorem abandon {e : RunError} (htokens : l'.tokens = l.tokens.push t)
    (htold : ∀ e ∈ events, ∀ u, e.token? = some u → u = t) :
    Appends receiver l (.abandon l' events e) [t] := by
  apply of_tokens_eq
  · simp [Outcome.abandon, htokens]
  · intro given hgiven
    simp [Outcome.abandon] at hgiven
  · intro e he u hu
    simp [htold e he u hu]

end Appends

/-- The tokens that the rest of a run appends are placed behind its cursor. -/
theorem drive_appends (hp : p.cursor.At source) :
    ∃ ts, Placed source p.cursor.offset ts ∧ Appends receiver l (l.drive o receiver rule p) ts := by
  generalize hlength : p.cursor.rest.length = length
  induction length using Nat.strongRecOn generalizing l p with
  | ind length ih =>
      subst hlength
      rw [drive_eq]
      rcases resume_appends l o rule p with
        ⟨t, next, hadvance, htokens, hresult, htold⟩ | ⟨htokens, hresult, htold⟩
      · -- A token was appended.  Only an answer to go on leads to further tokens.
        obtain ⟨hnext, n, hfirst, hle, hlt, hposition⟩ := Progress.at_of_advance hp hadvance
        have hplaced {ts : List Token} (hts : Placed source next.cursor.offset ts) :
            Placed source p.cursor.offset (t :: ts) :=
          .cons hfirst hle hlt hnext.offset_le hposition hts
        rcases hresult with hresult | ⟨e, hresult⟩
        · have hless := length_rest_of_resume hresult
          have htold' : ∀ e ∈ (l.resume o rule p).events ++ (deliver receiver (p.count + 1) t).1,
              ∀ u, e.token? = some u → u = t := by
            intro e he u hu
            rcases List.mem_append.mp he with he | he
            · exact htold e he u hu
            · exact token?_of_mem_deliver he hu
          simp only [hresult]
          cases hreply : (deliver receiver (p.count + 1) t).2 with
          | proceed =>
              obtain ⟨ts, hts, happends⟩ := ih _ hless hnext rfl
              exact ⟨t :: ts, hplaced hts, happends.after htokens htold'⟩
          | reset =>
              obtain ⟨ts, hts, happends⟩ := ih _ hless hnext rfl
              refine ⟨t :: ts, hplaced hts, happends.after_reset ?_ htold'⟩
              exact fun hnever ↦ hnever _ _ hreply
          | rerun => exact ⟨[t], hplaced .nil, .abandon htokens htold'⟩
          | raise message => exact ⟨[t], hplaced .nil, .abandon htokens htold'⟩
          | fail error => exact ⟨[t], hplaced .nil, .abandon htokens htold'⟩
        · refine ⟨[t], hplaced .nil, .of_tokens_eq ?_ ?_ ?_⟩
          · simp [hresult, htokens]
          · simp [hresult]
          · simp only [hresult, List.mem_singleton]
            exact htold
      · refine ⟨[], .nil, ?_⟩
        rcases hresult with hresult | ⟨e, hresult⟩
        · simp only [hresult]
          exact .nothing htokens (by simp) htold
        · simp only [hresult]
          exact .nothing htokens (by simp) htold

/-- A run begins with the tokens that the lexer has kept, and its start tells of
none. -/
theorem start_appends (l : Lexer) (o : Observers) (source : Text) (options : RunOptions) :
    (l.start o source options).lexer.tokens = l.tokens ∧
      ((∃ rule, (l.start o source options).result = .ok (rule, .start source)) ∨
        ∃ e, (l.start o source options).result = .error e) ∧
      ∀ x ∈ (l.start o source options).events, ∀ u, x.token? ≠ some u := by
  unfold start
  split
  · exact ⟨rfl, .inr ⟨_, rfl⟩, by simp⟩
  · split
    · exact ⟨rfl, .inr ⟨_, rfl⟩, by simp⟩
    · next rule hrule =>
      have htold : ∀ x ∈ (o.notify (.started source.length)).1, ∀ u, x.token? ≠ some u := by
        intro x hx u
        rw [Observers.eq_of_mem_notify hx]
        simp [Event.token?]
      generalize o.notify (.started source.length) = notified at htold
      obtain ⟨events, raised⟩ := notified
      cases raised with
      | none => exact ⟨rfl, .inl ⟨rule, rfl⟩, htold⟩
      | some e => exact ⟨rfl, .inr ⟨e, rfl⟩, htold⟩

theorem run_appends (l : Lexer) (o : Observers) (receiver : Option Receiver) (source : Text)
    (options : RunOptions) :
    ∃ ts, Placed source 0 ts ∧ Appends receiver l (l.run o receiver source options) ts := by
  obtain ⟨htokens, hresult, htold⟩ := start_appends l o source options
  unfold run
  rcases hresult with ⟨rule, hresult⟩ | ⟨e, hresult⟩
  · obtain ⟨ts, hts, happends⟩ : ∃ ts, Placed source (Progress.start source).cursor.offset ts ∧
        Appends receiver (l.start o source options).lexer
          ((l.start o source options).lexer.drive o receiver rule (.start source)) ts :=
      drive_appends (Cursor.at_start source)
    have hsuffix := happends.isSuffix
    have hall := happends.tokens_eq
    rw [htokens] at hsuffix hall
    simp only [hresult]
    refine ⟨ts, hts, hsuffix, hall, happends.result_eq, ?_⟩
    intro x hx u hu
    rcases List.mem_append.mp hx with hx | hx
    · exact absurd hu (htold x hx u)
    · exact happends.told x hx u hu
  · simp only [hresult]
    exact ⟨[], .nil, .nothing htokens (by simp) htold⟩

end Lexer

/-! ## A stream in a session -/

/-- A stream over this source text that has given nothing from the offset on. -/
inductive Stream.Reads (source : Text) : (offset : Nat) → Stream → Prop
  | fresh {options : RunOptions} : Reads source 0 (.fresh source options)
  | suspended {rule : StopRule} {p : Progress} (h : p.cursor.At source) :
      Reads source p.cursor.offset (.suspended rule p)
  | finished {offset : Nat} : Reads source offset .finished

theorem Placed.eq_nil {source : Text} {ts : List Token} (h : Placed source source.length ts) :
    ts = [] := by
  cases h with
  | nil => rfl
  | cons => omega

namespace Session

variable {s : Session} {id : Nat} {o : Observers} {x : Step} {source : Text} {offset : Nat}

/-- What a stream gives in one step is placed before all that it can give later. -/
def Advances (source : Text) (offset : Nat) (got : List Token) (stream : Stream) : Prop :=
  ∃ next, stream.Reads source next ∧
    ∀ ts, Placed source next ts → Placed source offset (got ++ ts)

theorem advances_of_finished {got : List Token} (h : Placed source offset got) :
    Advances source offset got .finished := by
  refine ⟨source.length, .finished, fun ts hts ↦ ?_⟩
  rw [hts.eq_nil, List.append_nil]
  exact h

theorem advances_fromTurn {l l' : Lexer} {rule : StopRule} {p : Progress} {events : List Event}
    (hp : p.cursor.At source) (hl : l'.tokens = l.tokens)
    {done : Outcome (Option Token) × Stream}
    (hdone : done = Lexer.fromTurn events rule (l'.resume o rule p)) :
    Advances source p.cursor.offset
      (match done.1.result with
        | .ok token => token.toList
        | .error _ => done.1.lexer.tokens.toList.drop l.tokens.size) done.2 := by
  subst hdone
  unfold Lexer.fromTurn
  rcases Lexer.resume_appends l' o rule p with
    ⟨t, next, hadvance, htokens, hresult, -⟩ | ⟨htokens, hresult, -⟩
  · obtain ⟨hnext, n, hfirst, hle, hlt, hposition⟩ := Progress.at_of_advance hp hadvance
    rcases hresult with hresult | ⟨e, hresult⟩
    · simp only [hresult]
      refine ⟨next.cursor.offset, .suspended hnext, fun ts hts ↦ ?_⟩
      exact .cons hfirst hle hlt hnext.offset_le hposition hts
    · simp only [hresult, htokens, hl]
      apply advances_of_finished
      simpa using Placed.singleton hfirst hle hlt hnext.offset_le hposition
  · rcases hresult with hresult | ⟨e, hresult⟩
    · simp only [hresult]
      exact advances_of_finished .nil
    · simp only [hresult, htokens, hl]
      apply advances_of_finished
      rw [List.drop_eq_nil_of_le (by simp)]
      exact .nil

theorem advances_next {stream : Stream} (l : Lexer) (h : stream.Reads source offset) :
    Advances source offset
      (match (l.next o stream).1.result with
        | .ok token => token.toList
        | .error _ => (l.next o stream).1.lexer.tokens.toList.drop l.tokens.size)
      (l.next o stream).2 := by
  cases h with
  | @fresh options =>
      obtain ⟨htokens, hresult, -⟩ := Lexer.start_appends l o source options
      rcases hresult with ⟨rule, hresult⟩ | ⟨e, hresult⟩
      · have hnext : l.next o (.fresh source options) =
            Lexer.fromTurn (l.start o source options).events rule
              ((l.start o source options).lexer.resume o rule (.start source)) := by
          simp only [Lexer.next, hresult]
        exact advances_fromTurn (p := .start source) (Cursor.at_start source) htokens hnext
      · simp only [Lexer.next, hresult, htokens]
        apply advances_of_finished
        rw [List.drop_eq_nil_of_le (by simp)]
        exact .nil
  | suspended hp => exact advances_fromTurn hp rfl rfl
  | finished => exact advances_of_finished .nil

theorem advances_drain {stream : Stream} (l : Lexer) (h : stream.Reads source offset) :
    Advances source offset
      (match (l.drain o stream).result with
        | .ok tokens => tokens
        | .error _ => (l.drain o stream).lexer.tokens.toList.drop l.tokens.size) .finished := by
  have hdone : ∃ ts, Placed source offset ts ∧ Lexer.Appends none l (l.drain o stream) ts := by
    cases h with
    | fresh => exact Lexer.run_appends l o none source _
    | suspended hp => exact Lexer.drive_appends hp
    | finished => exact ⟨[], .nil, .nothing rfl (by simp [Lexer.drain]) (by simp [Lexer.drain])⟩
  obtain ⟨ts, hts, happends⟩ := hdone
  apply advances_of_finished
  cases hresult : (l.drain o stream).result with
  | ok given =>
      rw [happends.result_eq given hresult]
      exact hts
  | error e =>
      have hnever : Lexer.NeverResets none := by
        intro call t
        simp [Lexer.deliver]
      simp only [happends.tokens_eq hnever]
      simpa using hts

theorem advances_turn (h : (s.stream id).Reads source offset) (hopens : x.opens id = false) :
    Advances source offset (s.gives id o x) ((s.turn o x).stream id) := by
  rcases spares_or_eq hopens with hspares | rfl | rfl | rfl
  · rw [gives_of_not_takes hspares.takes, stream_turn_of_spares hspares]
    exact ⟨offset, h, fun ts hts ↦ hts⟩
  · rw [gives_next, stream_turn_next]
    exact advances_next s.lexer h
  · rw [gives_drain, stream_turn_drain]
    exact advances_drain s.lexer h
  · rw [gives_of_not_takes rfl, stream_turn_close]
    exact advances_of_finished .nil

/-- Whatever happens in a session, what a stream gives is placed in its source
text. -/
theorem given_placed {turns : List (Observers × Step)} (h : (s.stream id).Reads source offset)
    (hopens : ∀ turn ∈ turns, turn.2.opens id = false) :
    Placed source offset (s.given id turns) := by
  induction turns generalizing s offset with
  | nil => exact .nil
  | cons turn rest ih =>
      obtain ⟨o, x⟩ := turn
      obtain ⟨next, hstream, hplaced⟩ := advances_turn (o := o) h (hopens _ List.mem_cons_self)
      rw [given]
      apply hplaced
      exact ih hstream fun turn hturn ↦ hopens turn (List.mem_cons_of_mem _ hturn)

end Session

/-! ## Positions -/

/-- Tokens with the positions of their first units, in increasing order. -/
structure Positioned (source : Text) (ts : List Token) : Prop where
  position : ∀ t ∈ ts, ∃ n : Nat, t.first = n ∧ n < source.length ∧
    t.position = source.position n ∧
    (t.position.column = 1 ↔ n = 0 ∨ source[n - 1]? = some (unit '\n'))
  increasing : ts.Pairwise fun s t ↦ s.position.Before t.position

theorem Placed.positioned {source : Text} {offset : Nat} {ts : List Token}
    (h : Placed source offset ts) : Positioned source ts := by
  refine ⟨fun t ht ↦ ?_, h.pairwise_before⟩
  obtain ⟨n, hfirst, -, hlt, hposition⟩ := h.exists_offset ht
  refine ⟨n, hfirst, hlt, hposition, ?_⟩
  rw [hposition]
  exact Text.column_eq_one_iff (by omega)

/-- All tokens that a run over a source text appends have the positions of their
first units, and these increase along the run.  It does not matter what the lexer has
done before, what is left out, where the run stops or fails and what observers and
receivers do, nor whether the run is a stream that is taken among other steps. -/
theorem positioned_of_run (source : Text) (options : RunOptions) :
    (∀ (l : Lexer) (o : Observers) (receiver : Option Receiver),
      ∃ ts, Lexer.Appends receiver l (l.run o receiver source options) ts ∧
        Positioned source ts) ∧
    ∀ (s : Session) (id : Nat) (turns : List (Observers × Step)),
      s.stream id = .fresh source options → (∀ turn ∈ turns, turn.2.opens id = false) →
        Positioned source (s.given id turns) := by
  constructor
  · intro l o receiver
    obtain ⟨ts, hts, happends⟩ := Lexer.run_appends l o receiver source options
    exact ⟨ts, happends, hts.positioned⟩
  · intro s id turns hstream hopens
    have hreads : (s.stream id).Reads source 0 := by
      rw [hstream]
      exact .fresh
    exact (Session.given_placed hreads hopens).positioned

def sparseStream : Session where
  lexer := { filter := { comments := true, newlines := true } }
  streams := [(0, .fresh "a\n'\n' /*\n*/\r\tb" {})]

theorem positioned_of_run_across_lines :
    sparseStream.stream 0 = .fresh "a\n'\n' /*\n*/\r\tb" {} ∧
      (sparseStream.given 0 [(.none, .next 0), (.none, .drain 0)]).map (·.position) =
        [⟨1, 1⟩, ⟨2, 1⟩, ⟨4, 5⟩] ∧
      Positioned "a\n'\n' /*\n*/\r\tb"
        (sparseStream.given 0 [(.none, .next 0), (.none, .drain 0)]) :=
  ⟨rfl, by decide +kernel, (positioned_of_run _ _).2 _ _ _ rfl (by decide)⟩

end Lexis
