import Lexis.Proofs.Command.Reading
import Lexis.Proofs.Lexer.Options
import Lexis.Proofs.Lexer.Tokenize
import Lexis.Proofs.Number.Exact

/-!
# What the program writes

The options that reach a run always have a limit that can be counted to, whether they come
from the arguments or from a configuration.  So a run can only fail at the source text,
and what it notes of itself follows from its course.  The program then writes all of
the tokens or none.
-/

namespace Lexis

def Config.Bounded (c : Config) : Prop := ∀ x ∈ c.maxTokens, ∃ n, x.toNat? = some n

namespace Command

theorem toNat?_of_count? {value : Text} {x : Binary64} (h : count? value = some x) :
    ∃ n, x.toNat? = some n := by
  unfold count? at h
  dsimp only at h
  split at h
  · next hvalue =>
    rw [← Option.some.inj h]
    exact ⟨_, Binary64.toNat?_ofInt (Binary64.isSome_safeInteger?_ofInt.mp hvalue.2.2)⟩
  · simp at h

theorem bounded_of_parseLex {input : Option Input} {flags flags' : Flags} {input' : Input}
    {arguments : List Text} (hflags : flags.config.Bounded)
    (h : parseLex input flags arguments = .ok (.lex input' flags')) : flags'.config.Bounded := by
  fun_induction parseLex input flags arguments with
  | case1 =>
      obtain ⟨-, rfl⟩ := Command.lex.inj (Except.ok.inj h)
      exact hflags
  | case2 | case7 | case8 | case10 | case11 | case13 | case15 | case16 | case18 | case20 | case21 =>
      simp at h
  | case12 _ _ _ _ n hcount _ _ _ _ _ ih =>
      apply ih ?_ h
      intro x hx
      obtain rfl : n = x := Option.some.inj hx
      exact toNat?_of_count? hcount
  | case3 | case4 | case5 | case6 | case9 | case14 | case17 | case19 | case22 =>
      -- the limit is as it was
      rename_i ih
      exact ih hflags h

theorem bounded_of_parse {arguments : List Text} {input : Input} {flags : Flags}
    (h : parse arguments = .ok (.lex input flags)) : flags.config.Bounded := by
  unfold parse at h
  dsimp only at h
  split at h
  · simp at h
  split at h
  · simp at h
  split at h
  · cases hvalue : valueAfter "--explain" arguments <;> simp [hvalue, Except.map] at h
  · exact bounded_of_parseLex (by simp [Config.Bounded, Flags.config]) h

end Command

namespace Config

variable {c : Config}

theorem toNat?_of_limit {fields : Fields} {x : Binary64} (h : limit fields = .ok (some x)) :
    ∃ n, x.toNat? = some n := by
  unfold limit at h
  split at h
  · simp at h
  · next y hy =>
    split at h
    · next hsome =>
      obtain rfl : y = x := by simpa using h
      exact Option.isSome_iff_exists.mp hsome
    · simp at h
  · simp at h

theorem exists_of_bind_eq_ok {ε α β : Type} {x : Except ε α} {f : α → Except ε β} {b : β}
    (h : (x >>= f) = .ok b) : ∃ a, x = .ok a ∧ f a = .ok b := by
  cases x with
  | error e => simp [bind, Except.bind] at h
  | ok a => exact ⟨a, rfl, h⟩

theorem bounded_of_ofFields {fields : Fields} (h : ofFields fields = .ok c) : c.Bounded := by
  unfold ofFields at h
  split at h
  · simp at h
  · obtain ⟨comments, -, h⟩ := exists_of_bind_eq_ok h
    obtain ⟨newlines, -, h⟩ := exists_of_bind_eq_ok h
    obtain ⟨maxTokens, hlimit, h⟩ := exists_of_bind_eq_ok h
    obtain ⟨untilKind, -, h⟩ := exists_of_bind_eq_ok h
    rw [← Except.ok.inj h]
    rintro x rfl
    exact toNat?_of_limit hlimit

theorem bounded_of_ofValue {value : Value} (h : ofValue value = .ok c) : c.Bounded := by
  unfold ofValue at h
  split at h
  · rw [← Except.ok.inj h]
    simp [Bounded]
  · exact bounded_of_ofFields h
  · simp at h

theorem Bounded.orElse {fallback : Config} (h : c.Bounded) (hfallback : fallback.Bounded) :
    (c.orElse fallback).Bounded := by
  intro x hx
  cases hlimit : c.maxTokens with
  | none =>
      apply hfallback x
      simpa [Config.orElse, hlimit] using hx
  | some y =>
      apply h x
      simpa [Config.orElse, hlimit] using hx

theorem Bounded.rule (h : c.Bounded) : ∃ rule, c.options.rule = .ok rule := by
  unfold RunOptions.rule options
  cases hlimit : c.maxTokens with
  | none => exact ⟨_, rfl⟩
  | some x =>
      obtain ⟨n, hn⟩ := h x hlimit
      exact ⟨⟨c.untilKind, some n⟩, by simp only [hn]⟩

end Config

namespace Program

/-! ## One run -/

theorem calm_observers (verbose : Bool) : (observers verbose).Calm := by
  intro event
  cases event <;> cases verbose <;> rfl

/-- Where nobody notes the tokens, only the end of a run is noted. -/
theorem events_eq_last {o : Observers} {course : Course}
    (ho : ∀ i t, (o.notify (.appended i t)).1 = []) :
    course.events o none 0 = (o.notify (course.lastEvent course.tokens.length)).1 := by
  unfold Course.events
  rw [Nat.zero_add]
  apply List.append_left_eq_self.mpr
  apply List.flatMap_eq_nil_iff.mpr
  intro ti _
  simp [ho, Lexer.deliver]

theorem flatMap_note {verbose : Bool} {event : Event}
    (h : observers verbose event = if verbose then .notes else .ignores) :
    ((observers verbose).notify event).1.flatMap note = if verbose then note event else [] := by
  unfold Observers.notify
  rw [h]
  cases verbose <;> simp

/-- What the program writes is settled by the course of the run. -/
theorem listTokens_eq {source : Text} {config : Config} {flags : Flags} {rule : StopRule}
    (hrule : config.options.rule = .ok rule) :
    listTokens source config flags =
      let course := (Cursor.start source).course.restrict config.filter rule
      let begun := if flags.verbose then note (.started source.length) else []
      match course.ending with
      | .ok reason =>
          success (Token.listing course.tokens flags.json)
            (begun ++ if flags.verbose then note (.ended course.tokens.length reason) else [])
      | .error e => failure (.run (.lexical e)) begun := by
  let lexer : Lexer := { filter := config.filter }
  have hrun : lexer.run (observers flags.verbose) none source config.options =
      lexer.completed (observers flags.verbose) none source
        ((Cursor.start source).course.restrict config.filter rule) :=
    Lexer.run_eq_completed rfl (calm_observers flags.verbose) Lexer.proceeds_none hrule
  unfold listTokens
  dsimp only
  rw [hrun]
  generalize (Cursor.start source).course.restrict config.filter rule = course
  have hevents : course.events (observers flags.verbose) none 0 =
      ((observers flags.verbose).notify (course.lastEvent course.tokens.length)).1 :=
    events_eq_last fun _ _ ↦ rfl
  have hbegun : ((observers flags.verbose).notify (.started source.length)).1.flatMap note =
      if flags.verbose then note (.started source.length) else [] := flatMap_note rfl
  simp only [Lexer.completed, List.flatMap_append, hbegun, hevents, Course.result,
    Course.lastEvent]
  cases course.ending with
  | error e => exact congrArg (failure _) (List.append_nil _)
  | ok reason =>
      have hended := @flatMap_note flags.verbose (.ended course.tokens.length reason) rfl
      simp only [lexer, Array.empty_append, hended]

/-! ## The program -/

/-- Why the program does not come to a run, or to an answer without one. -/
inductive Rejects (env : Environment Id) (arguments : List Text) : ProgramError → Prop
  | arguments {error : ArgumentError} (h : Command.parse arguments = .error error) :
      Rejects env arguments (.arguments error)
  | unknownId {id : Text} (h : Command.parse arguments = .ok (.explain id))
      (hid : ErrorCode.explain? id = none) : Rejects env arguments (.unknownId id)
  | file {input : Input} {flags : Flags} {error : FileError}
      (h : Command.parse arguments = .ok (.lex input flags))
      (hsource : Reads env input (.error error)) : Rejects env arguments (.file error)
  | config {input : Input} {flags : Flags} {source : Text} {error : LoadError}
      (h : Command.parse arguments = .ok (.lex input flags))
      (hsource : Reads env input (.ok source))
      (hconfig : Configures env flags (.error error)) : Rejects env arguments (.config error)

section

variable {env : Environment Id} {arguments : List Text} {input : Input} {flags : Flags}
  {source : Text} {config : Config}

theorem run_of_lex (h : Command.parse arguments = .ok (.lex input flags)) :
    run env arguments = lex env input flags := by
  unfold run
  rw [h]

theorem lex_of_configures (hsource : Reads env input (.ok source))
    (hconfig : Configures env flags (.ok config)) :
    lex env input flags = listTokens source (flags.config.orElse config) flags := by
  unfold lex
  rw [reads_iff.mp hsource]
  dsimp only [bind]
  rw [configures_iff.mp hconfig]
  rfl

theorem Rejects.run_eq {error : ProgramError} (h : Rejects env arguments error) :
    run env arguments = failure error [] := by
  cases h with
  | arguments h =>
      unfold run
      rw [h]
      rfl
  | unknownId h hid =>
      unfold run
      rw [h]
      dsimp only
      rw [hid]
      rfl
  | file h hsource =>
      rw [run_of_lex h]
      unfold lex
      rw [reads_iff.mp hsource]
      rfl
  | config h hsource hconfig =>
      rw [run_of_lex h]
      unfold lex
      rw [reads_iff.mp hsource]
      dsimp only [bind]
      rw [configures_iff.mp hconfig]
      rfl

theorem bounded_of_configures (h : Configures env flags (.ok config)) : config.Bounded := by
  cases h with
  | absent h => simp [Config.Bounded]
  | accepted h hread hparse hvalue => exact Config.bounded_of_ofValue hvalue

end

theorem run_cases (env : Environment Id) (arguments : List Text) :
    (∃ text notes, run env arguments = success text notes) ∨
      ∃ error notes, run env arguments = failure error notes := by
  cases hparse : Command.parse arguments with
  | error e => exact .inr ⟨_, _, (Rejects.arguments hparse).run_eq⟩
  | ok command =>
      cases command with
      | help => exact .inl ⟨usage, [], by unfold run; rw [hparse]; rfl⟩
      | version => exact .inl ⟨version, [], by unfold run; rw [hparse]; rfl⟩
      | explain id =>
          cases hid : ErrorCode.explain? id with
          | none => exact .inr ⟨_, _, (Rejects.unknownId hparse hid).run_eq⟩
          | some text => exact .inl ⟨text, [], by unfold run; rw [hparse]; simp only [hid]; rfl⟩
      | lex input flags =>
          cases hsource : readSource env input with
          | error e => exact .inr ⟨_, _, (Rejects.file hparse (reads_iff.mpr hsource)).run_eq⟩
          | ok source =>
              have hreads := reads_iff.mpr hsource
              cases hconfig : readConfig env flags with
              | error e =>
                  have hrejects := Rejects.config hparse hreads (configures_iff.mpr hconfig)
                  exact .inr ⟨_, _, hrejects.run_eq⟩
              | ok config =>
                  rw [run_of_lex hparse, lex_of_configures hreads (configures_iff.mpr hconfig)]
                  unfold listTokens
                  dsimp only
                  split
                  · exact .inl ⟨_, _, rfl⟩
                  · exact .inr ⟨_, _, rfl⟩

/-- The program writes all of the tokens or none.  Where it comes to a run, it lists the
tokens of the source text, with each option as the arguments or else the configuration
say, or it reports the error in the source text.  Everything else is refused with one
line. -/
theorem run_all_or_nothing (env : Environment Id) (arguments : List Text) :
    (∀ input flags source config, Command.parse arguments = .ok (.lex input flags) →
      Reads env input (.ok source) → Configures env flags (.ok config) →
      let filter : Filter :=
        ⟨(flags.skipComments.or config.skipComments).getD false,
          (flags.skipNewlines.or config.skipNewlines).getD false⟩
      let options : RunOptions :=
        ⟨flags.untilKind.or config.untilKind, flags.maxTokens.or config.maxTokens⟩
      let begun := line ("Lexing " ++ Text.ofNat source.length ++ " characters")
      (∃ ts reason, tokenize source filter options = .ok ts ∧
        Lexer.Takes source filter options ⟨ts, .ok reason⟩ ∧
        let listing := Token.listing ts flags.json
        let ended :=
          line ("Produced " ++ Text.ofNat ts.length ++ " tokens (stopped by " ++ reason.name ++ ")")
        run env arguments =
          { stdout := if listing = [] then [] else line listing
            stderr := if flags.verbose then begun ++ ended else []
            exitCode := 0 }) ∨
      ∃ e, tokenize source filter options = .error (.lexical e) ∧
        let report :=
          line ("Lexer error at line " ++ Binary64.integerText e.position.line ++ ": " ++
            e.description)
        run env arguments =
          { stdout := []
            stderr := (if flags.verbose then begun else []) ++ report
            exitCode := 1 }) ∧
    (∀ error, Rejects env arguments error →
      run env arguments = { stdout := [], stderr := line error.summary, exitCode := 1 }) ∧
    ((run env arguments).exitCode = 0 ∨
      (run env arguments).exitCode = 1 ∧ (run env arguments).stdout = []) := by
  refine ⟨?_, ?_, ?_⟩
  · intro input flags source config hparse hsource hconfig filter options begun
    have hbounded : (flags.config.orElse config).Bounded :=
      (Command.bounded_of_parse hparse).orElse (bounded_of_configures hconfig)
    obtain ⟨rule, hrule⟩ := hbounded.rule
    have hfilter : (flags.config.orElse config).filter = filter := by
      simp [filter, Config.filter, Config.orElse, Flags.config]
    have hoptions : (flags.config.orElse config).options = options := by
      simp [options, Config.options, Config.orElse, Flags.config]
    have hrun : run env arguments = _ :=
      (run_of_lex hparse).trans (lex_of_configures hsource hconfig)
    rw [listTokens_eq hrule, hfilter] at hrun
    rw [hoptions] at hrule
    have htokenize := @tokenize_eq_result source filter options rule hrule
    have htakes := @Lexer.takes_restrict source filter options rule hrule
    generalize (Cursor.start source).course.restrict filter rule = course at hrun htokenize htakes
    obtain ⟨ts, ending⟩ := course
    cases ending with
    | ok reason =>
        refine .inl ⟨ts, reason, htokenize, htakes, ?_⟩
        rw [hrun]
        cases flags.verbose <;> rfl
    | error e => exact .inr ⟨e, htokenize, hrun⟩
  · intro error herror
    exact herror.run_eq
  · rcases run_cases env arguments with ⟨text, notes, hrun⟩ | ⟨error, notes, hrun⟩
    · rw [hrun]
      exact .inl rfl
    · rw [hrun]
      exact .inr ⟨rfl, rfl⟩

/-- A source text from standard input, with a configuration in the working directory; a document
that cannot be read; and an input that cannot. -/
theorem run_all_or_nothing_configured :
    let document := Text.ofString "skipNewlines: true"
    let parse (text : Text) : Except Text Value :=
      if text = document then .ok (.object [("skipNewlines", .bool true)])
      else .error "unexpected end"
    let bytes (text : Text) : List UInt8 := text.map UInt16.toUInt8
    let env (document : Text) : Environment Id :=
      { readFile := fun path ↦
          if path = Text.ofString ".gt-lex.yaml" then .ok (bytes document)
          else .error (.notFound path)
        fileExists := fun path ↦ path == Text.ofString ".gt-lex.yaml"
        readInput := .ok (bytes "a\nb")
        parse }
    run (env document) ["-"] = { stdout := "1:1 id \"a\"\n2:1 id \"b\"\n" } ∧
      run (env "[") ["-"] =
        { stderr := "Invalid configuration: .gt-lex.yaml: unexpected end\n", exitCode := 1 } ∧
      run { env document with readInput := .error .isDirectory } ["-"] =
        { stderr := "EISDIR: illegal operation on a directory, read\n", exitCode := 1 } := by
  intro document parse bytes env
  have hparse : Command.parse ["-"] = .ok (.lex .stdin {}) := eq_ok_of_toOption (by decide)
  have hchooses (text : Text) : Chooses (env text) {} (some ".gt-lex.yaml") := .found rfl rfl
  refine ⟨?_, ?_, ?_⟩
  · have htokens : tokenize "a\nb" ⟨false, true⟩ {} =
        .ok [⟨.identifier, ⟨1, 1⟩, 0, 0, "a"⟩, ⟨.identifier, ⟨2, 1⟩, 2, 2, "b"⟩] :=
      eq_ok_of_toOption (by decide +kernel)
    have hdecoded : Text.Utf8.decode (bytes "a\nb") = Text.ofString "a\nb" := rfl
    have hreads : Reads (env document) .stdin (.ok "a\nb") := hdecoded ▸ .input rfl
    have hknown : (Fields.visitOrder [("skipNewlines", .bool true)]).find?
        (fun key ↦ !Config.keys.contains key) = none := by decide +kernel
    have hvalue : Config.ofValue (.object [("skipNewlines", .bool true)]) =
        .ok { skipNewlines := some true } := by
      rw [Config.ofValue, Config.ofFields, hknown]
      rfl
    have hconfig : Configures (env document) {} (.ok { skipNewlines := some true }) :=
      .accepted (hchooses document) rfl rfl hvalue
    obtain ⟨hlex, -⟩ := run_all_or_nothing (env document) ["-"]
    rcases hlex _ _ _ _ hparse hreads hconfig with ⟨ts, reason, hts, -, hrun⟩ | ⟨e, he, -⟩
    · obtain rfl := Except.ok.inj (htokens.symm.trans hts)
      rw [hrun]
      refine (Output.mk.injEq ..).mpr ⟨?_, rfl, rfl⟩
      decide
    · exact absurd (htokens.symm.trans he) (by simp)
  · have hconfig : Configures (env "[") {}
        (.error (.config (.malformed ".gt-lex.yaml" "unexpected end"))) :=
      .malformed (hchooses "[") rfl rfl
    obtain ⟨-, hrejects, -⟩ := run_all_or_nothing (env "[") ["-"]
    rw [hrejects _ (.config hparse (.input rfl) hconfig)]
    refine (Output.mk.injEq ..).mpr ⟨rfl, ?_, rfl⟩
    decide +kernel
  · obtain ⟨-, hrejects, -⟩ :=
      run_all_or_nothing { env document with readInput := .error .isDirectory } ["-"]
    exact hrejects _ (.file hparse (.noInput rfl))

end Program

end Lexis
