import Lexis.Command.Arguments
import Lexis.Proofs.Number.Exact
import Lexis.Proofs.Number.Positional
import Lexis.Proofs.Token.Kind

/-!
# The grammar of the arguments

The arguments of a run are phrases of one or two words.  Main statement: arguments are
accepted exactly if they divide into phrases of which one gives the input, and of the
phrases for an option the last one counts.  So the order of phrases for different options
does not matter.
-/

namespace Lexis

/-- Decimal digits of a number up to which every integer has a pattern of its own. -/
structure IsCount (digits : Text) : Prop where
  ne_nil : digits ≠ []
  isDigit : ∀ u ∈ digits, Text.isDigit u = true
  le : Text.valueIn 10 digits ≤ Binary64.maxSafe

/-- Words of the command line that belong together. -/
inductive Phrase where
  | json
  | verbose
  | skipComments
  | skipNewlines
  | untilKind (kind : Kind)
  | maxTokens (digits : Text) (h : IsCount digits)
  | config (path : Text)
  | inline (source : Text)
  | stdin
  | file (path : Text) (h : path.head? ≠ some (unit '-'))

namespace Phrase

def words : Phrase → List Text
  | json => ["--json"]
  | verbose => ["--verbose"]
  | skipComments => ["--skip-comments"]
  | skipNewlines => ["--skip-newlines"]
  | untilKind kind => ["--until", kind.name]
  | maxTokens digits _ => ["--max", digits]
  | config path => ["--config", path]
  | inline source => ["-e", source]
  | stdin => ["-"]
  | file path _ => [path]

def input? : Phrase → Option Input
  | inline source => some (.inline source)
  | stdin => some .stdin
  | file path _ => some (.file path)
  | _ => none

def kind? : Phrase → Option Kind
  | untilKind kind => some kind
  | _ => none

def limit? : Phrase → Option Binary64
  | maxTokens digits _ => some (Binary64.ofInt (Text.valueIn 10 digits))
  | _ => none

def path? : Phrase → Option Text
  | config path => some path
  | _ => none

def apply (flags : Flags) : Phrase → Flags
  | json => { flags with json := true }
  | verbose => { flags with verbose := true }
  | skipComments => { flags with skipComments := some true }
  | skipNewlines => { flags with skipNewlines := some true }
  | untilKind kind => { flags with untilKind := some kind }
  | maxTokens digits _ =>
      { flags with maxTokens := some (Binary64.ofInt (Text.valueIn 10 digits)) }
  | config path => { flags with configPath := some path }
  | _ => flags

end Phrase

/-- The options that phrases ask for: a switch is on if it occurs, and the last value of
each other option counts. -/
def Flags.ofPhrases (phrases : List Phrase) : Flags where
  json := phrases.any (· matches .json)
  verbose := phrases.any (· matches .verbose)
  skipComments := if phrases.any (· matches .skipComments) then some true else none
  skipNewlines := if phrases.any (· matches .skipNewlines) then some true else none
  untilKind := (phrases.filterMap Phrase.kind?).getLast?
  maxTokens := (phrases.filterMap Phrase.limit?).getLast?
  configPath := (phrases.filterMap Phrase.path?).getLast?

theorem Flags.foldl_apply (phrases : List Phrase) :
    phrases.foldl Phrase.apply {} = Flags.ofPhrases phrases := by
  generalize hreverse : phrases.reverse = reversed
  induction reversed generalizing phrases with
  | nil =>
      obtain rfl : phrases = [] := List.reverse_eq_nil_iff.mp hreverse
      rfl
  | cons last earlier ih =>
      obtain rfl : phrases = earlier.reverse ++ [last] := by
        simpa using congrArg List.reverse hreverse
      rw [List.foldl_append, ih earlier.reverse (List.reverse_reverse _)]
      cases last <;> simp [ofPhrases, Phrase.apply, Phrase.kind?, Phrase.limit?, Phrase.path?]

/-! ## One phrase -/

theorem Text.positional_of_isDigit {digits : Text} (h : ∀ u ∈ digits, Text.isDigit u = true) :
    Text.positional 10 digits = Text.valueIn 10 digits := by
  apply Text.positional_eq_valueIn
  intro u hu
  have hfigure : Text.figure u < 10 := Text.isDigit_iff.mp (h u hu)
  omega

namespace Command

theorem count?_eq_some_iff {digits : Text} {x : Binary64} :
    count? digits = some x ↔
      IsCount digits ∧ x = Binary64.ofInt (Text.valueIn 10 digits) := by
  unfold count?
  dsimp only
  constructor
  · intro h
    split at h
    · next hcount =>
      obtain ⟨hne, hall, hsafe⟩ := hcount
      have hdigits := List.all_eq_true.mp hall
      rw [Text.positional_of_isDigit hdigits] at h hsafe
      have hle := Binary64.isSome_safeInteger?_ofInt.mp hsafe
      exact ⟨⟨hne, hdigits, hle⟩, (Option.some.inj h).symm⟩
    · simp at h
  · rintro ⟨hcount, rfl⟩
    rw [Text.positional_of_isDigit hcount.isDigit,
      if_pos ⟨hcount.ne_nil, List.all_eq_true.mpr hcount.isDigit,
        Binary64.isSome_safeInteger?_ofInt.mpr hcount.le⟩]

def conclude (inputs : List Input) (flags : Flags) : Except ArgumentError Command :=
  match inputs with
  | [] => .error .noInput
  | [input] => .ok (.lex input flags)
  | _ => .error .manyInputs

variable {input : Option Input} {flags : Flags} {arguments rest : List Text}

/-- A phrase sets an option or gives the input, of which there must be one. -/
theorem parseLex_words (phrase : Phrase) :
    parseLex input flags (phrase.words ++ rest) =
      phrase.input?.elim (parseLex input (phrase.apply flags) rest) fun new ↦
        input.elim (parseLex (some new) flags rest) fun _ ↦ .error .manyInputs := by
  cases phrase with
  | json => cases rest <;> rfl
  | verbose => cases rest <;> rfl
  | skipComments => cases rest <;> rfl
  | skipNewlines => cases rest <;> rfl
  | untilKind kind =>
      show parseLex input flags (Text.ofString "--until" :: Text.ofString kind.name :: rest) = _
      rw [parseLex.eq_def]
      simp only [Kind.ofName?_name]
      rfl
  | maxTokens digits h =>
      have hcount : count? digits = some (Binary64.ofInt (Text.valueIn 10 digits)) :=
        count?_eq_some_iff.mpr ⟨h, rfl⟩
      show parseLex input flags (Text.ofString "--max" :: digits :: rest) = _
      rw [parseLex.eq_def]
      simp only [hcount]
      rfl
  | config path => rfl
  | inline source => cases input <;> rfl
  | stdin => cases input <;> cases rest <;> rfl
  | file path h =>
      have hne (word : String) (hword : (Text.ofString word).head? = some (unit '-')) :
          path ≠ Text.ofString word := by
        rintro rfl
        exact h hword
      show parseLex input flags (path :: rest) = _
      rw [parseLex.eq_def]
      dsimp only
      rw [if_neg (hne _ rfl), if_neg (hne _ rfl), if_neg (hne _ rfl), if_neg (hne _ rfl),
        if_neg (hne _ rfl), if_neg (hne _ rfl), if_neg (hne _ rfl), if_neg (hne _ rfl),
        if_neg (hne _ rfl), if_neg h]
      cases input <;> rfl

/-! ## Many phrases -/

/-- The step taken phrase by phrase: what was given before comes in front. -/
theorem parseLex_flatMap (phrases : List Phrase) :
    parseLex input flags (phrases.flatMap Phrase.words) =
      conclude (input.toList ++ phrases.filterMap Phrase.input?)
        (phrases.foldl Phrase.apply flags) := by
  induction phrases generalizing input flags with
  | nil => cases input <;> rfl
  | cons phrase rest ih =>
      rw [List.flatMap_cons, parseLex_words, List.foldl_cons]
      cases hinput : phrase.input? with
      | none =>
          rw [List.filterMap_cons_none hinput]
          exact ih
      | some new =>
          have happly : phrase.apply flags = flags := by
            cases phrase <;> first | rfl | simp [Phrase.input?] at hinput
          rw [List.filterMap_cons_some hinput, happly]
          cases input with
          | none => exact ih
          | some given => rfl

theorem exists_phrases_words (phrase : Phrase)
    (h : ∃ phrases : List Phrase, rest = phrases.flatMap Phrase.words) :
    ∃ phrases : List Phrase, phrase.words ++ rest = phrases.flatMap Phrase.words := by
  obtain ⟨phrases, rfl⟩ := h
  exact ⟨phrase :: phrases, List.flatMap_cons.symm⟩

/-- What is accepted can be divided into phrases. -/
theorem exists_phrases_of_parseLex {command : Command}
    (h : parseLex input flags arguments = .ok command) :
    ∃ phrases : List Phrase, arguments = phrases.flatMap Phrase.words := by
  fun_induction parseLex input flags arguments with
  | case1 => exact ⟨[], rfl⟩
  | case2 | case7 | case8 | case10 | case11 | case13 | case15 | case16 | case18 | case20 | case21 =>
      simp at h
  | case3 input flags rest ih => exact exists_phrases_words .json (ih h)
  | case4 input flags rest _ ih => exact exists_phrases_words .verbose (ih h)
  | case5 input flags rest _ _ ih => exact exists_phrases_words .skipComments (ih h)
  | case6 input flags rest _ _ _ ih => exact exists_phrases_words .skipNewlines (ih h)
  | case9 input flags name rest kind hkind _ _ _ _ ih =>
      rw [Kind.eq_name_of_ofName? hkind]
      exact exists_phrases_words (.untilKind kind) (ih h)
  | case12 input flags digits rest n hcount _ _ _ _ _ ih =>
      exact exists_phrases_words (.maxTokens digits (count?_eq_some_iff.mp hcount).1) (ih h)
  | case14 input flags path rest _ _ _ _ _ _ ih => exact exists_phrases_words (.config path) (ih h)
  | case17 input flags source rest new _ _ _ _ _ _ _ _ ih =>
      exact exists_phrases_words (.inline source) (ih h)
  | case19 input flags rest new _ _ _ _ _ _ _ _ _ ih => exact exists_phrases_words .stdin (ih h)
  | case22 input flags path rest _ _ _ _ _ _ _ _ _ hpath new _ ih =>
      exact exists_phrases_words (.file path hpath) (ih h)

theorem conclude_eq_ok_iff {inputs : List Input} {command : Command} :
    conclude inputs flags = .ok command ↔
      ∃ input, inputs = [input] ∧ command = .lex input flags := by
  match inputs with
  | [] => simp [conclude]
  | [input] => simp [conclude, eq_comm]
  | _ :: _ :: _ => simp [conclude]

/-! ## The arguments -/

def answered : List String := ["--help", "-h", "--version", "-v", "--explain"]

theorem parse_eq_parseLex (h : ∀ word ∈ answered, Text.ofString word ∉ arguments) :
    parse arguments = parseLex none {} arguments := by
  have hnot (word : String) (hword : word ∈ answered) :
      arguments.contains (Text.ofString word) = false := by
    simpa using h word hword
  simp only [parse, hnot "--help" (by decide), hnot "-h" (by decide),
    hnot "--version" (by decide), hnot "-v" (by decide), hnot "--explain" (by decide)]
  rfl

structure Unrepeated (phrases : List Phrase) : Prop where
  kind : (phrases.filterMap Phrase.kind?).length ≤ 1
  limit : (phrases.filterMap Phrase.limit?).length ≤ 1
  path : (phrases.filterMap Phrase.path?).length ≤ 1

theorem eq_of_perm_of_length_le_one {α : Type} {xs ys : List α} (h : xs.Perm ys)
    (hlength : ys.length ≤ 1) : xs = ys := by
  match ys with
  | [] => exact h.eq_nil
  | [y] => exact List.perm_singleton.mp h
  | _ :: _ :: _ => simp at hlength

theorem Unrepeated.ofPhrases_eq {phrases permuted : List Phrase} (h : Unrepeated phrases)
    (hperm : permuted.Perm phrases) : Flags.ofPhrases permuted = Flags.ofPhrases phrases := by
  have hkinds := eq_of_perm_of_length_le_one (hperm.filterMap Phrase.kind?) h.kind
  have hlimits := eq_of_perm_of_length_le_one (hperm.filterMap Phrase.limit?) h.limit
  have hpaths := eq_of_perm_of_length_le_one (hperm.filterMap Phrase.path?) h.path
  unfold Flags.ofPhrases
  simp only [hperm.any_eq, hkinds, hlimits, hpaths]

/-- Unless they hold a word that is answered anywhere, arguments are accepted exactly if
they divide into phrases with one input among them; the command then has this input and
the options of the phrases.  The phrases may come in any order if no option with a value
occurs twice. -/
theorem parse_eq_ok_iff (hplain : ∀ word ∈ answered, Text.ofString word ∉ arguments) :
    (∀ command, parse arguments = .ok command ↔
      ∃ (phrases : List Phrase) (input : Input),
        arguments = phrases.flatMap Phrase.words ∧ phrases.filterMap Phrase.input? = [input] ∧
          command = .lex input (Flags.ofPhrases phrases)) ∧
    ∀ (phrases permuted : List Phrase) (command : Command), parse arguments = .ok command →
      arguments = phrases.flatMap Phrase.words → Unrepeated phrases → permuted.Perm phrases →
        parse (permuted.flatMap Phrase.words) = .ok command := by
  have hparse (phrases : List Phrase)
      (hwords : ∀ word ∈ answered, Text.ofString word ∉ phrases.flatMap Phrase.words) :
      parse (phrases.flatMap Phrase.words) =
        conclude (phrases.filterMap Phrase.input?) (Flags.ofPhrases phrases) := by
    rw [parse_eq_parseLex hwords, parseLex_flatMap, Flags.foldl_apply]
    rfl
  constructor
  · intro command
    constructor
    · intro h
      obtain ⟨phrases, rfl⟩ := exists_phrases_of_parseLex ((parse_eq_parseLex hplain).symm.trans h)
      rw [hparse phrases hplain] at h
      obtain ⟨input, hinput, rfl⟩ := conclude_eq_ok_iff.mp h
      exact ⟨phrases, input, rfl, hinput, rfl⟩
    · rintro ⟨phrases, input, rfl, hinput, rfl⟩
      rw [hparse phrases hplain]
      exact conclude_eq_ok_iff.mpr ⟨input, hinput, rfl⟩
  · rintro phrases permuted command h rfl hunrepeated hperm
    have hwords : ∀ word ∈ answered, Text.ofString word ∉ permuted.flatMap Phrase.words := by
      intro word hword hmem
      exact hplain word hword ((hperm.flatMap_right Phrase.words).mem_iff.mp hmem)
    rw [hparse phrases hplain] at h
    obtain ⟨input, hinput, rfl⟩ := conclude_eq_ok_iff.mp h
    rw [hparse permuted hwords, hunrepeated.ofPhrases_eq hperm]
    apply conclude_eq_ok_iff.mpr
    refine ⟨input, ?_, rfl⟩
    apply eq_of_perm_of_length_le_one
    · rw [← hinput]
      exact hperm.filterMap Phrase.input?
    · exact Nat.le_refl 1

theorem isCount_twelve : IsCount "12" where
  ne_nil := by decide
  isDigit := List.all_eq_true.mp (by decide)
  le := by decide

/-- The source text looks like an option, and the phrases are then reordered. -/
theorem parse_eq_ok_iff_reordered :
    let arguments := ["--max", "12", "--json", "-e", "--json", "--until", "newline"].map
      Text.ofString
    let reordered := ["--until", "newline", "-e", "--json", "--json", "--max", "12"].map
      Text.ofString
    let flags : Flags :=
      { json := true, untilKind := some .newline, maxTokens := some (Binary64.ofInt 12) }
    (∀ word ∈ answered, Text.ofString word ∉ arguments) ∧
      parse arguments = .ok (.lex (.inline "--json") flags) ∧
      parse reordered = .ok (.lex (.inline "--json") flags) := by
  intro arguments reordered flags
  let limit : Phrase := .maxTokens "12" isCount_twelve
  let phrases : List Phrase := [limit, .json, .inline "--json", .untilKind .newline]
  have hplain : ∀ word ∈ answered, Text.ofString word ∉ arguments := by decide
  obtain ⟨hiff, hperm⟩ := parse_eq_ok_iff hplain
  have hparse : parse arguments = .ok (.lex (.inline "--json") flags) :=
    (hiff _).mpr ⟨phrases, .inline "--json", rfl, rfl, rfl⟩
  refine ⟨hplain, hparse, ?_⟩
  have hunrepeated : Unrepeated phrases := ⟨by decide, by decide, by decide⟩
  have hreversed : phrases.reverse.Perm phrases := List.reverse_perm phrases
  exact hperm phrases _ _ hparse rfl hunrepeated hreversed

end Command

end Lexis
