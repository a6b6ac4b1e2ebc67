import Lexis.Proofs.Lexer.Release

/-!
# What a stream gives to its owner

Steps of a session concern one stream or none.  A step that does not concern a
stream leaves it as it is, so that the history of a session can be followed for
one stream at a time.
-/

namespace Lexis

namespace Step

def takes (id : Nat) : Step → Bool
  | .next i => i == id
  | .drain i => i == id
  | _ => false

def closes (id : Nat) : Step → Bool
  | .close i => i == id
  | _ => false

def opens (id : Nat) : Step → Bool
  | .openStream i _ _ => i == id
  | _ => false

end Step

namespace Session

/-- What the owner of a stream gets in a step: the tokens of the answer or, if the
step fails, those that the lexer has kept before it failed. -/
def gives (s : Session) (id : Nat) (o : Observers) (x : Step) : List Token :=
  if x.takes id then
    match ({ s with observers := o }.step x).2.2 with
    | .ok (.next token) => token.toList
    | .ok (.tokens tokens) => tokens
    | .ok _ => []
    | .error _ => (s.turn o x).lexer.tokens.toList.drop s.lexer.tokens.size
  else []

def given (s : Session) (id : Nat) : List (Observers × Step) → List Token
  | [] => []
  | (o, x) :: rest => s.gives id o x ++ (s.turn o x).given id rest

variable {s : Session} {id : Nat} {o : Observers} {x : Step}

theorem lookup_setStream (id i : Nat) (stream : Stream) (streams : List (Nat × Stream)) :
    (setStream id stream streams).lookup i =
      if i = id then (streams.lookup i).map fun _ ↦ stream else streams.lookup i := by
  induction streams with
  | nil => simp [setStream]
  | cons entry rest ih =>
      obtain ⟨j, old⟩ := entry
      by_cases hid : j = id
      · subst hid
        by_cases hi : i = j
        · simp [setStream, hi]
        · have hne : (i == j) = false := by simpa using hi
          simp [setStream, hi, List.lookup_cons, hne]
      · simp only [setStream, if_neg hid, List.lookup_cons]
        by_cases hi : i = j
        · subst hi
          simp [hid]
        · have hne : (i == j) = false := by simpa using hi
          rw [hne, ih]

/-- A step on one stream leaves the others as they are. -/
theorem stream_of_setStream_ne {s' : Session} {i : Nat} {stream : Stream} (hne : i ≠ id)
    (h : s'.streams = setStream i stream s.streams) : s'.stream id = s.stream id := by
  unfold Session.stream
  rw [h, lookup_setStream, if_neg (Ne.symm hne)]

theorem stream_of_setStream_self {s' : Session} {stream : Stream}
    (hstream : s.stream id = .finished → stream = .finished)
    (h : s'.streams = setStream id stream s.streams) : s'.stream id = stream := by
  unfold Session.stream at hstream ⊢
  rw [h, lookup_setStream, if_pos rfl]
  cases hlookup : s.streams.lookup id with
  | none => exact (hstream (by simp [hlookup])).symm
  | some old => rfl

theorem suspended_pos (h : (s.stream id).isSuspended = true) : 0 < s.suspended := by
  unfold Session.stream at h
  cases hlookup : s.streams.lookup id with
  | none => simp [hlookup] at h
  | some stream =>
      rw [hlookup] at h
      unfold suspended
      apply List.countP_pos_iff.mpr
      obtain ⟨before, after, hstreams, -⟩ := List.lookup_eq_some_iff.mp hlookup
      refine ⟨(id, stream), ?_, h⟩
      simp [hstreams]

/-- A step that does not concern a stream. -/
structure Spares (x : Step) (id : Nat) : Prop where
  takes : x.takes id = false
  closes : x.closes id = false
  opens : x.opens id = false

theorem gives_of_not_takes (h : x.takes id = false) : s.gives id o x = [] := by
  simp [gives, h]

theorem stream_turn_of_spares (h : Spares x id) : (s.turn o x).stream id = s.stream id := by
  obtain ⟨htakes, hcloses, hopens⟩ := h
  cases x with
  | run source options receiver => rfl
  | tryRun source options receiver => rfl
  | reset => rfl
  | setFilter comments newlines => rfl
  | tokens => rfl
  | openStream i source options =>
      have hne : (id == i) = false := by
        simpa using Ne.symm (by simpa [Step.opens] using hopens : i ≠ id)
      unfold Session.stream
      simp only [turn, step, List.lookup_cons, hne]
  | next i => exact stream_of_setStream_ne (by simpa [Step.takes] using htakes) rfl
  | close i => exact stream_of_setStream_ne (by simpa [Step.closes] using hcloses) rfl
  | drain i => exact stream_of_setStream_ne (by simpa [Step.takes] using htakes) rfl

theorem spares_or_eq (hopens : x.opens id = false) :
    Spares x id ∨ x = .next id ∨ x = .drain id ∨ x = .close id := by
  by_cases htakes : x.takes id = true
  · cases x <;> simp_all [Step.takes]
  · by_cases hcloses : x.closes id = true
    · cases x <;> simp_all [Step.closes]
    · exact .inl ⟨by simpa using htakes, by simpa using hcloses, hopens⟩

/-! ## Steps on one stream -/

theorem turn_next (s : Session) (id : Nat) (o : Observers) :
    s.turn o (.next id) =
      ⟨(s.lexer.next o (s.stream id)).1.lexer, o,
        setStream id (s.lexer.next o (s.stream id)).2 s.streams⟩ := rfl

theorem turn_drain (s : Session) (id : Nat) (o : Observers) :
    s.turn o (.drain id) =
      ⟨(s.lexer.drain o (s.stream id)).lexer, o, setStream id .finished s.streams⟩ := rfl

theorem stream_turn_next (s : Session) (id : Nat) (o : Observers) :
    (s.turn o (.next id)).stream id = (s.lexer.next o (s.stream id)).2 := by
  apply stream_of_setStream_self (s := s) _ rfl
  intro hfinished
  rw [hfinished]
  rfl

theorem stream_turn_drain (s : Session) (id : Nat) (o : Observers) :
    (s.turn o (.drain id)).stream id = .finished :=
  stream_of_setStream_self (s := s) (fun _ ↦ rfl) rfl

theorem stream_turn_close (s : Session) (id : Nat) (o : Observers) :
    (s.turn o (.close id)).stream id = .finished :=
  stream_of_setStream_self (s := s) (fun _ ↦ rfl) rfl

theorem gives_next (s : Session) (id : Nat) (o : Observers) :
    s.gives id o (.next id) =
      match (s.lexer.next o (s.stream id)).1.result with
      | .ok token => token.toList
      | .error _ =>
          (s.lexer.next o (s.stream id)).1.lexer.tokens.toList.drop s.lexer.tokens.size := by
  have hanswer : ({ s with observers := o }.step (.next id)).2.2 =
      (s.lexer.next o (s.stream id)).1.result.map .next := rfl
  rw [gives, if_pos (by simp [Step.takes]), hanswer]
  cases (s.lexer.next o (s.stream id)).1.result <;> rfl

theorem gives_drain (s : Session) (id : Nat) (o : Observers) :
    s.gives id o (.drain id) =
      match (s.lexer.drain o (s.stream id)).result with
      | .ok tokens => tokens
      | .error _ =>
          (s.lexer.drain o (s.stream id)).lexer.tokens.toList.drop s.lexer.tokens.size := by
  have hanswer : ({ s with observers := o }.step (.drain id)).2.2 =
      (s.lexer.drain o (s.stream id)).result.map .tokens := rfl
  rw [gives, if_pos (by simp [Step.takes]), hanswer]
  cases (s.lexer.drain o (s.stream id)).result <;> rfl

/-- A stream that has finished gives nothing more. -/
theorem turn_of_finished (h : s.stream id = .finished) (hopens : x.opens id = false) :
    (s.turn o x).stream id = .finished ∧ s.gives id o x = [] := by
  rcases spares_or_eq hopens with hspares | rfl | rfl | rfl
  · exact ⟨(stream_turn_of_spares hspares).trans h, gives_of_not_takes hspares.takes⟩
  · rw [stream_turn_next, gives_next, h]
    exact ⟨rfl, rfl⟩
  · rw [stream_turn_drain, gives_drain, h]
    exact ⟨rfl, rfl⟩
  · rw [stream_turn_close]
    exact ⟨rfl, gives_of_not_takes rfl⟩

theorem given_of_finished {turns : List (Observers × Step)} (h : s.stream id = .finished)
    (hopens : ∀ turn ∈ turns, turn.2.opens id = false) :
    s.given id turns = [] ∧ (s.after turns).stream id = .finished := by
  induction turns generalizing s with
  | nil => exact ⟨rfl, h⟩
  | cons turn rest ih =>
      obtain ⟨o, x⟩ := turn
      obtain ⟨hstream, hgives⟩ := turn_of_finished (o := o) h (hopens _ List.mem_cons_self)
      have hrest := ih hstream fun turn hturn ↦ hopens turn (List.mem_cons_of_mem _ hturn)
      rw [given, after, hgives]
      exact hrest

end Session

end Lexis
