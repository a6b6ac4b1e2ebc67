import Lexis.Cursor.Scan
import Lexis.Number.Shortest

/-!
# The progress of a run

A run goes through a source text token by token.  It leaves out the tokens that
its filter drops and gives out the others one at a time.  It stops behind a
token of a given kind, dropped or not, once it has given out a given number of
tokens, or at the end of the input.
-/

namespace Lexis

structure Filter where
  comments : Bool := false
  newlines : Bool := false
deriving DecidableEq

def Filter.drops (f : Filter) (t : Token) : Bool :=
  if t.isComment then f.comments else if t.isNewline then f.newlines else false

structure StopRule where
  untilKind : Option Kind := none
  limit : Option Nat := none
deriving DecidableEq

inductive StopReason where
  | exhausted
  | reached
  | limited
deriving DecidableEq, Repr

def StopReason.name : StopReason → String
  | .exhausted => "end"
  | .reached => "until"
  | .limited => "limit"

/-- What a run is asked to do.  The limit has not been checked. -/
structure RunOptions where
  untilKind : Option Kind := none
  maxTokens : Option Binary64 := none

def RunOptions.rule (options : RunOptions) : Except Binary64 StopRule :=
  match options.maxTokens with
  | none => .ok ⟨options.untilKind, none⟩
  | some x =>
      match x.toNat? with
      | some n => .ok ⟨options.untilKind, some n⟩
      | none => .error x

/-- How far a run has come: the cursor, how many tokens it has given out and
whether it has met the kind to stop at. -/
structure Progress where
  cursor : Cursor
  count : Nat := 0
  reached : Bool := false

inductive Turn where
  | emitted (token : Token) (next : Progress)
  | stopped (reason : StopReason)
  | failed (error : LexError)

namespace Progress

def start (source : Text) : Progress := { cursor := .start source }

def full (rule : StopRule) (p : Progress) : Bool := rule.limit.any (· ≤ p.count)

def advance (filter : Filter) (rule : StopRule) (p : Progress) : Turn :=
  if p.reached then .stopped .reached
  else if p.full rule then .stopped .limited
  else
    match _h : p.cursor.scan (!filter.comments) with
    | .error e => .failed e
    | .ok none => .stopped .exhausted
    | .ok (some (token, cursor)) =>
        let reached := rule.untilKind == some token.kind
        if filter.drops token then advance filter rule { p with cursor, reached }
        else .emitted token { cursor, count := p.count + 1, reached }
termination_by p.cursor.rest.length
decreasing_by exact Cursor.length_rest_of_scan _h

theorem advance_eq (filter : Filter) (rule : StopRule) (p : Progress) :
    p.advance filter rule =
      if p.reached then .stopped .reached
      else if p.full rule then .stopped .limited
      else
        match p.cursor.scan (!filter.comments) with
        | .error e => .failed e
        | .ok none => .stopped .exhausted
        | .ok (some (token, cursor)) =>
            let reached := rule.untilKind == some token.kind
            if filter.drops token then advance filter rule { p with cursor, reached }
            else .emitted token { cursor, count := p.count + 1, reached } := by
  rw [advance]
  split
  · rfl
  · split
    · rfl
    · split <;> simp_all

theorem length_rest_of_advance {filter : Filter} {rule : StopRule} {p next : Progress}
    {token : Token} (h : p.advance filter rule = .emitted token next) :
    next.cursor.rest.length < p.cursor.rest.length := by
  fun_induction advance filter rule p with
  | case1 => simp at h
  | case2 => simp at h
  | case3 => simp at h
  | case4 => simp at h
  | case5 p _ _ t cursor hscan reached _ ih =>
    exact Nat.lt_trans (ih h) (Cursor.length_rest_of_scan hscan)
  | case6 p _ _ t cursor hscan reached _ =>
    simp only [Turn.emitted.injEq] at h
    obtain ⟨-, rfl⟩ := h
    exact Cursor.length_rest_of_scan hscan

end Progress

end Lexis
