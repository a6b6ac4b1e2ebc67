import Lexis.Lexer.Session

/-!
# Token sources

A source gives out finitely many tokens, one at a time.  A list of tokens is a
source, and so is a stream of a lexer, which may also fail.
-/

namespace Lexis

/-- A supply of tokens. -/
class Source (σ : Type) where
  /-- Asks for the next token; there is none once the source has ended. -/
  pull : σ → Except RunError (Option Token) × σ
  /-- A bound on the number of tokens that are left. -/
  size : σ → Nat
  size_of_pull : ∀ {s s' : σ} {t : Token}, pull s = (.ok (some t), s') → size s' < size s

def pullList : List Token → Except RunError (Option Token) × List Token
  | [] => (.ok none, [])
  | t :: rest => (.ok (some t), rest)

instance : Source (List Token) where
  pull := pullList
  size := List.length
  size_of_pull {s s' t} h := by
    cases s with
    | nil => simp [pullList] at h
    | cons head rest =>
      simp only [pullList, Prod.mk.injEq] at h
      simp [← h.2]

/-- A stream with the lexer that it belongs to and those who observe it. -/
structure LexStream where
  lexer : Lexer
  observers : Observers := .none
  stream : Stream

namespace LexStream

def ofText (source : Text) (filter : Filter) (options : RunOptions)
    (observers : Observers := .none) : LexStream :=
  ⟨{ filter }, observers, .fresh source options⟩

def pull (s : LexStream) : Except RunError (Option Token) × LexStream :=
  let (outcome, stream) := s.lexer.next s.observers s.stream
  (outcome.result, { s with lexer := outcome.lexer, stream })

def size (s : LexStream) : Nat :=
  match s.stream with
  | .fresh source _ => source.length
  | .suspended _ p => p.cursor.rest.length
  | .finished => 0

end LexStream

/-- A new run begins before the whole source text. -/
theorem Lexer.rest_of_start {l : Lexer} {o : Observers} {source : Text} {options : RunOptions}
    {rule : StopRule} {p : Progress} (h : (l.start o source options).result = .ok (rule, p)) :
    p.cursor.rest = source := by
  unfold start at h
  split at h
  · simp at h
  · split at h
    · simp at h
    · dsimp only at h
      split at h
      · simp only [Except.ok.injEq, Prod.mk.injEq] at h
        rw [← h.2]
        rfl
      · simp at h

/-- A turn that gives out a token suspends the stream behind it. -/
theorem Lexer.eq_of_fromTurn {events : List Event} {rule : StopRule}
    {turn : Outcome (Option (Token × Progress))} {outcome : Outcome (Option Token)}
    {stream : Stream} {t : Token}
    (h : fromTurn events rule turn = (outcome, stream)) (ht : outcome.result = .ok (some t)) :
    ∃ p, turn.result = .ok (some (t, p)) ∧ stream = .suspended rule p := by
  unfold fromTurn at h
  split at h
  · simp only [Prod.mk.injEq] at h
    simp [← h.1] at ht
  · simp only [Prod.mk.injEq] at h
    simp [← h.1] at ht
  · next token p hturn =>
    simp only [Prod.mk.injEq] at h
    simp only [← h.1, Except.ok.injEq, Option.some.injEq] at ht
    exact ⟨p, by rw [hturn, ht], h.2.symm⟩

theorem LexStream.size_of_pull {s s' : LexStream} {t : Token}
    (h : s.pull = (.ok (some t), s')) : s'.size < s.size := by
  obtain ⟨l, o, stream⟩ := s
  unfold pull at h
  cases hnext : l.next o stream with
  | mk outcome after =>
    simp only [hnext, Prod.mk.injEq] at h
    obtain ⟨ht, rfl⟩ := h
    cases stream with
    | finished =>
      simp only [Lexer.next, Prod.mk.injEq] at hnext
      simp [← hnext.1] at ht
    | suspended rule p =>
      obtain ⟨q, hq, rfl⟩ := Lexer.eq_of_fromTurn hnext ht
      exact Lexer.length_rest_of_resume hq
    | fresh source options =>
      simp only [Lexer.next] at hnext
      split at hnext
      · simp only [Prod.mk.injEq] at hnext
        simp [← hnext.1] at ht
      · next rule p hstart =>
        obtain ⟨q, hq, rfl⟩ := Lexer.eq_of_fromTurn hnext ht
        have hlt := Lexer.length_rest_of_resume hq
        rw [Lexer.rest_of_start hstart] at hlt
        exact hlt

instance : Source LexStream where
  pull := LexStream.pull
  size := LexStream.size
  size_of_pull := LexStream.size_of_pull

end Lexis
