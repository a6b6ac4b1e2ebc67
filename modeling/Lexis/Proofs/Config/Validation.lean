import Lexis.Proofs.Command.Program
import Lexis.Proofs.Config.KeyOrder
import Lexis.Proofs.Token.Kind

/-!
# What is accepted as a configuration

A document is accepted exactly if it has no unknown field and every field has a value of its
type.  Otherwise the error is about the first unknown field or else about the first field
whose value does not fit, and it is reported by name unless it would have to show a value that
cannot be shown.  What is accepted, here or on the command line, a run accepts too.
-/

namespace Lexis

namespace Config

/-! ## Fields of their types -/

/-- What is asked of the value of a field, and the error if it is not so. -/
structure Check where
  key : Text
  Fits : Value → Prop
  error : Value → ConfigError

namespace Check

def boolean (key : String) : Check :=
  ⟨key, fun value ↦ ∃ b, value = .bool b, fun _ ↦ .notBoolean key⟩

def limit : Check :=
  ⟨"maxTokens", fun value ↦ ∃ x n, value = .number x ∧ x.Is n, fun _ ↦ .badLimit⟩

def kind : Check :=
  ⟨"untilKind", fun value ↦ ∃ k : Kind, value = .text k.name, .badKind⟩

def Passes (check : Check) (fields : Fields) : Prop :=
  ∀ value, fields.get? check.key = some value → check.Fits value

def Fails (check : Check) (fields : Fields) (e : ConfigError) : Prop :=
  ∃ value, fields.get? check.key = some value ∧ ¬ check.Fits value ∧ e = check.error value

end Check

/-- The fields in the order in which their values are looked at. -/
def checks : List Check :=
  [.boolean "skipComments", .boolean "skipNewlines", .limit, .kind]

inductive FirstFailure (fields : Fields) : List Check → ConfigError → Prop
  | here {check : Check} {later : List Check} {e : ConfigError} (h : check.Fails fields e) :
      FirstFailure fields (check :: later) e
  | later {check : Check} {later : List Check} {e : ConfigError} (hpasses : check.Passes fields)
      (h : FirstFailure fields later e) : FirstFailure fields (check :: later) e

/-- The configuration has the values of the fields, and no others. -/
structure Given (fields : Fields) (c : Config) : Prop where
  known : ∀ name ∈ fields.names, name ∈ keys
  skipComments : fields.get? "skipComments" = c.skipComments.map .bool
  skipNewlines : fields.get? "skipNewlines" = c.skipNewlines.map .bool
  maxTokens : fields.get? "maxTokens" = c.maxTokens.map .number
  counts : ∀ x ∈ c.maxTokens, ∃ n, x.Is n
  untilKind : fields.get? "untilKind" = c.untilKind.map fun k ↦ .text k.name

variable {fields : Fields} {c : Config} {e : ConfigError}

/-- The value of a field that may be absent, after a conversion that may fail. -/
def readField {α : Type} (fields : Fields) (key : Text) (convert : Value → Option α)
    (error : Value → ConfigError) : Except ConfigError (Option α) :=
  match fields.get? key with
  | none => .ok none
  | some value =>
      match convert value with
      | some a => .ok (some a)
      | none => .error (error value)

def truth? : Value → Option Bool
  | .bool b => some b
  | _ => none

def count? : Value → Option Binary64
  | .number x => if x.toNat?.isSome then some x else none
  | _ => none

theorem boolean_eq (fields : Fields) (key : String) :
    boolean fields key = readField fields key truth? fun _ ↦ .notBoolean key := by
  unfold boolean readField
  cases fields.get? key with
  | none => rfl
  | some value => cases value <;> rfl

theorem limit_eq (fields : Fields) :
    limit fields = readField fields "maxTokens" count? fun _ ↦ .badLimit := by
  unfold limit readField
  cases fields.get? "maxTokens" with
  | none => rfl
  | some value =>
      cases value with
      | number x => by_cases hx : x.toNat?.isSome = true <;> simp [count?, hx]
      | _ => rfl

theorem kind_eq (fields : Fields) :
    kind fields = readField fields "untilKind" kindOf? .badKind := by
  unfold kind readField
  cases fields.get? "untilKind" with
  | none => rfl
  | some value => cases hkind : kindOf? value <;> simp only [hkind]

section

variable {α : Type} {convert : Value → Option α}

theorem readField_eq_ok_iff {key : Text} {error : Value → ConfigError} {write : α → Value}
    {P : α → Prop} {x : Option α} (h : ∀ value a, convert value = some a ↔ value = write a ∧ P a) :
    readField fields key convert error = .ok x ↔
      fields.get? key = x.map write ∧ ∀ a ∈ x, P a := by
  unfold readField
  cases fields.get? key with
  | none => cases x <;> simp
  | some value =>
      cases x with
      | none => cases hvalue : convert value <;> simp [hvalue]
      | some a =>
          have hsome : convert value = some a ↔ value = write a ∧ P a := h value a
          cases hvalue : convert value with
          | none =>
              rw [hvalue] at hsome
              simpa [hvalue] using hsome
          | some b =>
              rw [hvalue] at hsome
              simpa [hvalue] using hsome

theorem readField_eq_error_iff (check : Check)
    (h : ∀ value, (∃ a, convert value = some a) ↔ check.Fits value) :
    readField fields check.key convert check.error = .error e ↔ check.Fails fields e := by
  unfold readField Check.Fails
  cases fields.get? check.key with
  | none => simp
  | some value =>
      have hfits := h value
      cases hvalue : convert value with
      | none =>
          simp only [hvalue, reduceCtorEq, exists_false, false_iff] at hfits
          simp [hvalue, hfits, eq_comm]
      | some a =>
          simp only [hvalue, Option.some.injEq, exists_eq', true_iff] at hfits
          simp [hvalue, hfits]

/-- A check that is made before others decides first. -/
theorem bind_eq_error_iff {β : Type} {read : Except ConfigError α} {check : Check}
    {later : List Check} {next : α → Except ConfigError β}
    (hread : ∀ e, read = .error e ↔ check.Fails fields e)
    (hnext : ∀ a e, next a = .error e ↔ FirstFailure fields later e) :
    (read >>= next) = .error e ↔ FirstFailure fields (check :: later) e := by
  cases hvalue : read with
  | error found =>
      have hfails : check.Fails fields found := (hread found).mp hvalue
      constructor
      · intro h
        obtain rfl : found = e := Except.error.inj h
        exact .here hfails
      · intro h
        cases h with
        | here h => rw [← hvalue, (hread e).mpr h]; rfl
        | later hpasses h =>
            obtain ⟨value, hget, hfits, -⟩ := hfails
            exact absurd (hpasses value hget) hfits
  | ok a =>
      have hnever (e : ConfigError) : ¬ check.Fails fields e := by
        rw [← hread, hvalue]
        simp
      have hpasses : check.Passes fields := by
        intro value hget
        by_cases hfits : check.Fits value
        · exact hfits
        · exact absurd ⟨value, hget, hfits, rfl⟩ (hnever (check.error value))
      constructor
      · intro h
        exact .later hpasses ((hnext a e).mp h)
      · intro h
        cases h with
        | here h => exact absurd h (hnever e)
        | later _ h => exact (hnext a e).mpr h

end

theorem truth?_eq_some_iff (value : Value) (b : Bool) :
    truth? value = some b ↔ value = .bool b ∧ True := by
  cases value <;> simp [truth?]

theorem count?_eq_some_iff (value : Value) (x : Binary64) :
    count? value = some x ↔ value = .number x ∧ ∃ n, x.Is n := by
  simp only [← Binary64.toNat?_eq_some_iff, ← Option.isSome_iff_exists]
  cases value with
  | number y =>
      simp only [count?, Option.ite_none_right_eq_some, Option.some.injEq, Value.number.injEq]
      constructor
      · rintro ⟨hy, rfl⟩
        exact ⟨rfl, hy⟩
      · rintro ⟨rfl, hy⟩
        exact ⟨hy, rfl⟩
  | _ => simp [count?]

theorem kindOf?_eq_some_iff (value : Value) (k : Kind) :
    kindOf? value = some k ↔ value = .text k.name ∧ True := by
  cases value with
  | text name =>
      simp only [kindOf?, Value.text.injEq, and_true]
      constructor
      · exact Kind.eq_name_of_ofName?
      · rintro rfl
        exact k.ofName?_name
  | _ => simp [kindOf?]

/-! ## Documents -/

theorem find?_eq_none_iff :
    (fields.visitOrder.find? fun key ↦ !keys.contains key) = none ↔
      ∀ name ∈ fields.names, name ∈ keys := by
  simp [List.find?_eq_none, Fields.mem_visitOrder]

theorem boolean_eq_ok_iff {key : String} {b : Option Bool} :
    boolean fields key = .ok b ↔ fields.get? key = b.map .bool := by
  rw [boolean_eq, readField_eq_ok_iff truth?_eq_some_iff]
  exact and_iff_left fun _ _ ↦ trivial

theorem limit_eq_ok_iff {x : Option Binary64} :
    limit fields = .ok x ↔ fields.get? "maxTokens" = x.map .number ∧ ∀ y ∈ x, ∃ n, y.Is n := by
  rw [limit_eq, readField_eq_ok_iff count?_eq_some_iff]

theorem kind_eq_ok_iff {k : Option Kind} :
    kind fields = .ok k ↔ fields.get? "untilKind" = k.map fun k ↦ .text k.name := by
  rw [kind_eq, readField_eq_ok_iff kindOf?_eq_some_iff]
  exact and_iff_left fun _ _ ↦ trivial

theorem ofFields_eq_ok_iff : ofFields fields = .ok c ↔ Given fields c := by
  unfold ofFields
  constructor
  · intro h
    split at h
    · simp at h
    · next hknown =>
      obtain ⟨comments, hcomments, h⟩ := exists_of_bind_eq_ok h
      obtain ⟨newlines, hnewlines, h⟩ := exists_of_bind_eq_ok h
      obtain ⟨maxTokens, hlimit, h⟩ := exists_of_bind_eq_ok h
      obtain ⟨untilKind, hkind, h⟩ := exists_of_bind_eq_ok h
      obtain ⟨hnumber, hcounts⟩ := limit_eq_ok_iff.mp hlimit
      rw [← Except.ok.inj h]
      exact ⟨find?_eq_none_iff.mp hknown, boolean_eq_ok_iff.mp hcomments,
        boolean_eq_ok_iff.mp hnewlines, hnumber, hcounts, kind_eq_ok_iff.mp hkind⟩
  · intro h
    rw [find?_eq_none_iff.mpr h.known]
    dsimp only
    rw [boolean_eq_ok_iff.mpr h.skipComments, boolean_eq_ok_iff.mpr h.skipNewlines,
      limit_eq_ok_iff.mpr ⟨h.maxTokens, h.counts⟩, kind_eq_ok_iff.mpr h.untilKind]
    rfl

theorem boolean_eq_error_iff {key : String} :
    boolean fields key = .error e ↔ (Check.boolean key).Fails fields e := by
  rw [boolean_eq]
  apply readField_eq_error_iff (.boolean key)
  intro value
  simp [truth?_eq_some_iff, Check.boolean]

theorem limit_eq_error_iff : limit fields = .error e ↔ Check.limit.Fails fields e := by
  rw [limit_eq]
  apply readField_eq_error_iff .limit
  intro value
  simp [count?_eq_some_iff, Check.limit]

theorem kind_eq_error_iff : kind fields = .error e ↔ Check.kind.Fails fields e := by
  rw [kind_eq]
  apply readField_eq_error_iff .kind
  intro value
  simp [kindOf?_eq_some_iff, Check.kind]

/-- Without an unknown field the values are checked one after the other. -/
theorem checked_eq_error_iff :
    (do
      let skipComments ← boolean fields "skipComments"
      let skipNewlines ← boolean fields "skipNewlines"
      let maxTokens ← limit fields
      let untilKind ← kind fields
      return { skipComments, skipNewlines, maxTokens, untilKind } : Except ConfigError Config) =
        .error e ↔ FirstFailure fields checks e := by
  apply bind_eq_error_iff fun _ ↦ boolean_eq_error_iff
  intro _ _
  apply bind_eq_error_iff fun _ ↦ boolean_eq_error_iff
  intro _ _
  apply bind_eq_error_iff fun _ ↦ limit_eq_error_iff
  intro _ _
  apply bind_eq_error_iff fun _ ↦ kind_eq_error_iff
  intro _ e
  constructor
  · intro h
    cases h
  · intro h
    cases h

theorem ofFields_eq_error_iff :
    ofFields fields = .error e ↔
      (∃ key, fields.IsFirst (· ∉ keys) key ∧ e = .unknownKey key) ∨
        (∀ name ∈ fields.names, name ∈ keys) ∧ FirstFailure fields checks e := by
  have hunknown (key : Text) : fields.IsFirst (· ∉ keys) key ↔
      (fields.visitOrder.find? fun key ↦ !keys.contains key) = some key := by
    rw [Fields.find?_visitOrder_eq_some_iff]
    simp
  unfold ofFields
  simp only [hunknown, ← find?_eq_none_iff]
  cases hfound : fields.visitOrder.find? fun key ↦ !keys.contains key with
  | some key => simp [eq_comm]
  | none =>
      dsimp only
      rw [checked_eq_error_iff]
      simp

inductive Describes : Value → Config → Prop
  | nothing : Describes .null {}
  | fields {fields : Fields} {c : Config} (h : Given fields c) : Describes (.object fields) c

inductive FirstFault : Value → ConfigError → Prop
  | notObject {value : Value} (hnull : value ≠ .null)
      (hobject : ∀ fields, value ≠ .object fields) : FirstFault value .notObject
  | unknownKey {fields : Fields} {key : Text} (h : fields.IsFirst (· ∉ keys) key) :
      FirstFault (.object fields) (.unknownKey key)
  | illTyped {fields : Fields} {e : ConfigError} (hknown : ∀ name ∈ fields.names, name ∈ keys)
      (h : FirstFailure fields checks e) : FirstFault (.object fields) e

theorem ofValue_eq_ok_iff {value : Value} : ofValue value = .ok c ↔ Describes value c := by
  constructor
  · intro h
    cases value with
    | null =>
        rw [← Except.ok.inj h]
        exact .nothing
    | object fields => exact .fields (ofFields_eq_ok_iff.mp h)
    | _ => simp [ofValue] at h
  · intro h
    cases h with
    | nothing => rfl
    | fields h => exact ofFields_eq_ok_iff.mpr h

theorem ofValue_eq_error_iff {value : Value} : ofValue value = .error e ↔ FirstFault value e := by
  constructor
  · intro h
    cases value with
    | null => simp [ofValue] at h
    | object fields =>
        rcases ofFields_eq_error_iff.mp h with ⟨key, hfirst, rfl⟩ | ⟨hknown, hfailure⟩
        · exact .unknownKey hfirst
        · exact .illTyped hknown hfailure
    | _ =>
        obtain rfl := Except.error.inj h
        exact .notObject (by simp) (by simp)
  · intro h
    cases h with
    | notObject hnull hobject => cases value <;> simp_all [ofValue]
    | unknownKey h => exact ofFields_eq_error_iff.mpr (.inl ⟨_, h, rfl⟩)
    | illTyped hknown h => exact ofFields_eq_error_iff.mpr (.inr ⟨hknown, h⟩)

end Config

/-! ## Reports -/

namespace ConfigError

def key? : ConfigError → Option Text
  | .unknownKey key => some key
  | .notBoolean key => some key
  | .badLimit => some "maxTokens"
  | .badKind _ => some "untilKind"
  | _ => none

/-- The error is reported under its identifier, and by the name of the field. -/
structure Reports (e : ConfigError) (r : Report) : Prop where
  report?_eq : e.report? = some r
  id_eq : r.code.id = "GT-C001"
  message_eq : ∃ details, e.details? = some details ∧
    r.message = "Invalid configuration: " ++ details
  names : ∀ key ∈ e.key?, key <:+: r.message

theorem message_of_details {details : Text}
    (h : ∀ field ∈ ([("details", .text details)] : Fields), field.2.isShowable = true) :
    (Report.ofShowable .invalidConfig [("details", .text details)] none h).message =
      "Invalid configuration: " ++ details := by
  have hrender : Template.render (ErrorCode.template .invalidConfig) [("details", .text details)] =
      some (Text.ofString "Invalid configuration: " ++ (details ++ [])) := rfl
  rw [List.append_nil] at hrender
  simp only [Report.message, Report.ofShowable, Report.suffix, List.append_nil, hrender,
    Option.get_some]

theorem key?_isInfix {e : ConfigError} {key details : Text} (hkey : e.key? = some key)
    (hdetails : e.details? = some details) : key <:+: details := by
  cases e with
  | notObject => simp [key?] at hkey
  | unknownKey name =>
      obtain rfl : name = key := Option.some.inj hkey
      obtain rfl := Option.some.inj hdetails
      exact (List.suffix_append _ _).isInfix
  | notBoolean name =>
      obtain rfl := Option.some.inj hkey
      obtain rfl := Option.some.inj hdetails
      exact (List.prefix_append _ _).isInfix
  | badLimit =>
      obtain rfl := Option.some.inj hkey
      obtain rfl := Option.some.inj hdetails
      have hname : Text.ofString "maxTokens" <+:
          Text.ofString "maxTokens must be a non-negative integer" := by decide
      exact hname.isInfix
  | badKind value =>
      obtain rfl := Option.some.inj hkey
      obtain ⟨shown, -, rfl⟩ := Option.map_eq_some_iff.mp hdetails
      have hname : Text.ofString "untilKind" <+:
          Text.ofString "untilKind must be a token kind, got " := by decide
      exact (hname.trans (List.prefix_append _ shown)).isInfix
  | malformed file message => simp [key?] at hkey

theorem details?_isSome_iff {e : ConfigError} :
    (∃ details, e.details? = some details) ↔
      ∀ value, e = .badKind value → value.isShowable = true := by
  cases e with
  | badKind value =>
      simp only [details?, Value.shown?, badKind.injEq, forall_eq']
      split <;> simp_all
  | _ => simp [details?]

theorem exists_reports_iff {e : ConfigError} :
    (∃ r, e.Reports r) ↔ ∀ value, e = .badKind value → value.isShowable = true := by
  rw [← details?_isSome_iff]
  constructor
  · rintro ⟨r, hr⟩
    obtain ⟨details, hdetails, -⟩ := hr.message_eq
    exact ⟨details, hdetails⟩
  · rintro ⟨details, hdetails⟩
    refine ⟨_, by rw [report?, hdetails]; rfl, rfl, ⟨details, hdetails, message_of_details _⟩, ?_⟩
    intro key hkey
    rw [message_of_details]
    exact (key?_isInfix hkey hdetails).trans (List.suffix_append _ _).isInfix

end ConfigError

namespace Config

/-! ## From a document to a run -/

variable {value : Value} {c : Config}

theorem Describes.bounded (h : Describes value c) : c.Bounded := by
  cases h with
  | nothing => simp [Bounded]
  | fields h =>
      intro x hx
      obtain ⟨n, hn⟩ := h.counts x hx
      exact ⟨n, Binary64.toNat?_eq_some_iff.mpr hn⟩

/-- With a limit that can be counted to, only the source text can make a run fail. -/
theorem Bounded.lexical_of_run_eq_error (hc : c.Bounded) {l : Lexer} {o : Observers}
    {receiver : Option Receiver} {source : Text} {e : RunError} (hl : l.running = false)
    (ho : o.Calm) (hr : Lexer.Proceeds receiver)
    (h : (l.run o receiver source c.options).result = .error e) :
    ∃ error, e = .lexical error := by
  obtain ⟨rule, hrule⟩ := hc.rule
  rw [Lexer.run_eq_completed hl ho hr hrule] at h
  change Course.result _ = _ at h
  unfold Course.result at h
  split at h
  · simp at h
  · next error _ => exact ⟨error, (Except.error.inj h).symm⟩

/-- A document is accepted exactly if it describes a configuration, and that is what comes of
it.  Otherwise the error is about the first thing that is wrong, and it is reported under its
identifier by the name of the field, unless it is about a kind that cannot be shown.  What is
accepted has a limit that a run accepts, also with the flags of a command line put before it,
so such a run fails with an error in the source text or not at all. -/
theorem ofValue_exact (value : Value) :
    (∀ c, ofValue value = .ok c ↔ Describes value c) ∧
    (∀ e, ofValue value = .error e ↔ FirstFault value e) ∧
    (∀ e, FirstFault value e → ((∃ r, e.Reports r) ↔
      ∀ shown, e = .badKind shown → shown.isShowable = true)) ∧
    ∀ c, ofValue value = .ok c →
      ∀ arguments input flags, Command.parse arguments = .ok (.lex input flags) →
        let merged := flags.config.orElse c
        (∃ rule, merged.options.rule = .ok rule) ∧
        ∀ (l : Lexer) (o : Observers) (receiver : Option Receiver) (source : Text),
          l.filter = merged.filter → l.running = false → o.Calm → Lexer.Proceeds receiver →
            ∀ e, (l.run o receiver source merged.options).result = .error e →
              ∃ error, e = .lexical error := by
  refine ⟨fun _ ↦ ofValue_eq_ok_iff, fun _ ↦ ofValue_eq_error_iff,
    fun _ _ ↦ ConfigError.exists_reports_iff, ?_⟩
  intro c hc arguments input flags hflags merged
  have hmerged : merged.Bounded :=
    (Command.bounded_of_parse hflags).orElse (ofValue_eq_ok_iff.mp hc).bounded
  refine ⟨hmerged.rule, ?_⟩
  intro l o receiver source _ hl ho hr e
  exact hmerged.lexical_of_run_eq_error hl ho hr

/-- Two limits, of which the one on the command line counts, and a string that is not
closed. -/
theorem ofValue_exact_unclosed :
    let value : Value := .object [("maxTokens", .number (.zero true))]
    let flags : Flags := { maxTokens := some (.ofInt 2) }
    let merged := flags.config.orElse { maxTokens := some (.zero true) }
    ofValue value = .ok { maxTokens := some (.zero true) } ∧
      Command.parse ["--max", "2", "-"] = .ok (.lex .stdin flags) ∧
      ∃ error, (Lexer.run {} .none none "'" merged.options).result = .error (.lexical error) := by
  intro value flags merged
  have hdescribes : Describes value { maxTokens := some (.zero true) } := by
    refine .fields ⟨by decide, rfl, rfl, rfl, ?_, rfl⟩
    intro x hx
    rw [← Option.some.inj hx]
    exact ⟨0, true, 0, -1074, by decide +kernel, by rw [Nat.zero_mul, Nat.zero_mul], fun _ ↦ rfl⟩
  have hparse : Command.parse ["--max", "2", "-"] = .ok (.lex .stdin flags) := rfl
  have hfails : (Lexer.run {} .none none "'" merged.options).result.toOption = none := by
    decide +kernel
  obtain ⟨haccepted, -, -, hrun⟩ := ofValue_exact value
  have hvalue := (haccepted _).mpr hdescribes
  refine ⟨hvalue, hparse, ?_⟩
  cases hresult : (Lexer.run {} .none none "'" merged.options).result with
  | ok ts => simp [hresult, Except.toOption] at hfails
  | error e =>
      obtain ⟨error, rfl⟩ := (hrun _ hvalue _ _ _ hparse).2 {} .none none "'" rfl rfl
        Observers.calm_none Lexer.proceeds_none e hresult
      exact ⟨error, rfl⟩

/-- An object with a field `toString` is no kind, and no report says so. -/
theorem not_reported_unshowable :
    let value : Value := .object [("untilKind", .object [("toString", .number (.ofInt 1))])]
    ∃ e, ofValue value = .error e ∧ FirstFault value e ∧ e.report? = none ∧
      e.message = "Cannot convert object to primitive value" := by
  intro value
  have hfirst : FirstFault value (.badKind (.object [("toString", .number (.ofInt 1))])) := by
    refine .illTyped (by decide) ?_
    -- the other three fields are not there
    refine .later nofun (.later nofun (.later nofun (.here ⟨_, rfl, ?_, rfl⟩)))
    rintro ⟨k, hk⟩
    cases hk
  exact ⟨_, ofValue_eq_error_iff.mpr hfirst, hfirst, rfl, rfl⟩

end Config

end Lexis
