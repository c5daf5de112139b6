import RegularLanguage.Command.Run
import RegularLanguage.Proofs.Grammar.RightLinear
import RegularLanguage.Proofs.Pattern.Automaton
/-!
# What a run reports

A run that writes no files succeeds exactly when its pattern can be read under the dialect that the
configuration and the given alphabet choose. What it prints then is told by the words that the
pattern denotes, whatever the stages in between look like: a smallest automaton for these words, a
grammar of them, and a verdict on each given word (`runFor_succeeds_and_reports`).

| here | `relang` |
| --- | --- |
| `IsConfigured`, `Overrides` | what `main` makes of `--config` and `--alphabet` |
| `asking` | the namespace that `parse_args` gives |
-/

namespace RegularLanguage

/-! ## Quoted texts stand on one line -/

namespace Text

theorem lineFeed_not_mem_toDigits (n : Nat) : '\n' ∉ Nat.toDigits 16 n := by
  have hdigit : ∀ k, '\n' ≠ Nat.digitChar k := fun k => (Nat.digitChar_ne '\n' (by decide)).symm
  induction n using Nat.strong_induction_on with
  | h n ih =>
    rw [Nat.toDigits_eq_if (by decide : 1 < 16)]
    split
    · exact fun h => hdigit n (List.mem_singleton.1 h)
    · rw [List.mem_append, List.mem_singleton, not_or]
      exact ⟨ih (n / 16) (by omega), hdigit _⟩

theorem lineFeed_not_mem_byCodePoint (c : Char) : '\n' ∉ byCodePoint c := by
  simp only [byCodePoint]
  split_ifs <;> simp [hexadecimal, lineFeed_not_mem_toDigits]

theorem lineFeed_not_mem_quotedChar {quote c : Char} (h : '\n' ≠ quote) :
    '\n' ∉ quotedChar quote c := by
  unfold quotedChar
  split_ifs with hquote hfeed hreturn htab hshown
  · rcases hquote with rfl | rfl <;> simp [h]
  · simp
  · simp
  · simp
  · exact lineFeed_not_mem_byCodePoint c
  · exact fun hc => hfeed (List.mem_singleton.1 hc).symm

theorem lineFeed_not_mem_quoted (text : String) : '\n' ∉ (quoted text).toList := by
  have hquote : '\n' ≠ quoteFor text.toList := by
    unfold quoteFor
    split <;> decide
  simp [quoted, hquote, lineFeed_not_mem_quotedChar hquote]

end Text

/-! ## The report on an expression -/

/-- The automaton accepts what the expression denotes, and none that does has fewer states. -/
structure DFA.IsSmallestFor (d : DFA) (r : Regex) : Prop where
  isValid : d.IsValid
  accepts_iff : ∀ w, d.accepts w = true ↔ r.Matches w
  length_le : ∀ e : DFA, e.IsValid → (∀ w, e.accepts w = true ↔ r.Matches w) →
    d.states.length ≤ e.states.length

/-- The start variable derives what the expression denotes. -/
def Grammar.Generates (g : Grammar) (r : Regex) : Prop :=
  ∀ w, (∃ used, g.Derives [.nonterminal .start] used w) ↔ r.Matches w

namespace Command

/-- The line says whether the expression denotes the word's characters. -/
structure IsVerdict (r : Regex) (word line : String) : Prop where
  exists_eq : ∃ verdict, line = Text.quoted word ++ ": " ++ verdict ++ "\n" ∧
    (verdict = "accepted" ∧ r.Matches (.ofText word) ∨
      verdict = "rejected" ∧ ¬ r.Matches (.ofText word))
  /-- What is shown of the word does not break the line. -/
  lineFeed_not_mem : '\n' ∉ (Text.quoted word).toList

/-- The text shows a smallest automaton for what the expression denotes, then, below an empty line,
a grammar of it and a verdict on each word in turn. -/
def IsReport (r : Regex) (words : List String) (text : String) : Prop :=
  ∃ (d : DFA) (g : Grammar) (verdicts : List String), d.IsSmallestFor r ∧ g.Generates r ∧
    List.Forall₂ (IsVerdict r) words verdicts ∧
      text = d.toTable ++ "\n" ++ g.toText ++ String.join verdicts

variable {d : DFA} {r : Regex}

theorem isVerdict_verdictLine (h : d.IsSmallestFor r) (word : String) :
    IsVerdict r word (verdictLine d (.text word)) := by
  refine ⟨?_, Text.lineFeed_not_mem_quoted word⟩
  by_cases hw : r.Matches (.ofText word)
  · refine ⟨"accepted", ?_, .inl ⟨rfl, hw⟩⟩
    have haccepts := (h.accepts_iff (.ofText word)).2 hw
    simp [verdictLine, Given.toWord, Given.shown, haccepts, String.append_assoc]
  · refine ⟨"rejected", ?_, .inr ⟨rfl, hw⟩⟩
    have hrejects := mt (h.accepts_iff (.ofText word)).1 hw
    simp [verdictLine, Given.toWord, Given.shown, hrejects, String.append_assoc]

theorem isReport_report (h : d.IsSmallestFor r) (words : List String) :
    IsReport r words (report d (words.map .text)) := by
  have hgrammar : d.toGrammar.Generates r := fun w =>
    (DFA.exists_derives_start_iff h.isValid).trans (h.accepts_iff w)
  refine ⟨d, d.toGrammar, words.map fun word => verdictLine d (.text word), h, hgrammar, ?_, ?_⟩
  · rw [List.forall₂_map_right_iff, List.forall₂_same]
    exact fun word _ => isVerdict_verdictLine h word
  · rw [report, List.map_map]
    rfl

/-- The last of the automata that an expression leads to is a smallest one for it. -/
theorem stages_isSmallestFor (c : Dialect) (r : Regex) :
    (Stages.ofRegex c r).minimal.IsSmallestFor r := by
  have hvalid := r.toNFA_determinize_isValid c.declared c.declared false
  have hwords := r.toNFA_minimize_accepts c.declared c.declared false
  have hminimal := DFA.minimize_isMinimal hvalid
  refine ⟨hminimal.toIsValid, hwords, fun e he hlanguage => hminimal.length_le he fun w => ?_⟩
  rw [Bool.eq_iff_iff, hlanguage]
  exact (hwords w).symm

/-- The states of the smallest automaton are numbered from nought. So what a report shows of it can
be written, unless the states outnumber the numbers of few enough digits. -/
theorem stages_writable (c : Dialect) (r : Regex)
    (hfew : (Stages.ofRegex c r).minimal.states.length ≤ 10 ^ Text.digitLimit) :
    (Stages.ofRegex c r).minimal.writeTable = .ok (Stages.ofRegex c r).minimal.toTable ∧
      (Stages.ofRegex c r).minimal.writeGrammar = .ok (Stages.ofRegex c r).minimal.toGrammar := by
  have hvalid := (stages_isSmallestFor c r).isValid
  obtain ⟨k, hk⟩ : ∃ k, (Stages.ofRegex c r).minimal.states = (List.range k).map Int.ofNat :=
    DFA.exists_minimize_states_eq (r.toNFA_determinize_isValid c.declared c.declared false)
  rw [hk, List.length_map, List.length_range] at hfew
  have hshort : ∀ q ∈ (Stages.ofRegex c r).minimal.states,
      Text.digitCount q ≤ Text.digitLimit := by
    intro q hq
    rw [hk] at hq
    obtain ⟨i, hi, rfl⟩ := List.mem_map.1 hq
    exact (Text.digitCount_le_iff (by decide)).2 (Nat.lt_of_lt_of_le (List.mem_range.1 hi) hfew)
  refine ⟨Text.writing_of_forall_le _ hshort, DFA.writeGrammar_of_short hvalid fun q hq => ?_⟩
  obtain ⟨w, hw⟩ := hq.1
  exact hshort q (hvalid.mem_of_runFrom hvalid.start_mem hw)

/-! ## The dialect of a run -/

/-- The dialect is the one that the configuration file describes. If no file is named, the markers
are the usual ones and all symbols are allowed. -/
def IsConfigured (contents : String → Except FileError String) (config : Option String)
    (c : Dialect) : Prop :=
  match config with
  | none => c.alphabet = none ∧ c.escape = '\\' ∧ c.epsilon = 'ε' ∧ c.empty = '∅'
  | some path => loadDialect contents path = .ok c

/-- The markers are those of the configured dialect. An alphabet that is given decides alone which
symbols are allowed, even if it has none. -/
structure Overrides (c : Dialect) (alphabet : Option String) (d : Dialect) : Prop where
  escape_eq : d.escape = c.escape
  epsilon_eq : d.epsilon = c.epsilon
  empty_eq : d.empty = c.empty
  allows_iff : ∀ a, d.allows a = true ↔
    match alphabet with
    | none => c.allows a = true
    | some symbols => a ∈ Word.ofText symbols

/-- What a command line without a directory for files asks for, when each option has its value. -/
def asking (pattern : String) (alphabet config : Option String) (words : List String)
    (level : Level) : Arguments :=
  { pattern
    alphabet := alphabet.map .text
    config := config.map .text
    words := words.map .text
    level := some level }

variable {contents : String → Except FileError String} {config : Option String} {c : Dialect}
  {level : Level} {a : Arguments}

theorem overrides_withAlphabet (c : Dialect) (symbols : String) :
    Overrides c (some symbols) (c.withAlphabet (some (Word.ofText symbols))) := by
  obtain ⟨hescape, hepsilon, hempty⟩ := c.withAlphabet_markers (some (Word.ofText symbols))
  refine ⟨hescape, hepsilon, hempty, fun a => ?_⟩
  simp [Dialect.allows_withAlphabet]

theorem eq_of_isConfigured_none (hc : IsConfigured contents none c) : c = {} := by
  obtain ⟨alphabet, escape, epsilon, empty, _⟩ := c
  obtain ⟨rfl, rfl, rfl, rfl⟩ := hc
  rfl

theorem chooseDialect_of_isConfigured (hconfig : a.config = config.map .text)
    (hc : IsConfigured contents config c) : chooseDialect contents a =
      .ok (a.alphabet.elim c fun given => c.withAlphabet (some given.toWord)) := by
  rw [chooseDialect, hconfig]
  cases config with
  | none =>
    have hdefault : c = {} := eq_of_isConfigured_none hc
    rw [hdefault]
    cases a.alphabet <;> rfl
  | some path =>
    have hload : loadDialect contents path = .ok c := hc
    simp only [Option.map_some, hload]
    cases a.alphabet <;> rfl

/-- The configured dialect serves if no alphabet is given, and otherwise with that alphabet. -/
theorem exists_chooseDialect_asking (pattern : String) (alphabet : Option String)
    (words : List String) (level : Level) (hc : IsConfigured contents config c) :
    ∃ d, Overrides c alphabet d ∧
      chooseDialect contents (asking pattern alphabet config words level) = .ok d := by
  have hchoose := chooseDialect_of_isConfigured
    (a := asking pattern alphabet config words level) rfl hc
  refine ⟨_, ?_, hchoose⟩
  cases alphabet with
  | none => exact ⟨rfl, rfl, rfl, fun _ => Iff.rfl⟩
  | some symbols => exact overrides_withAlphabet c symbols

/-! ## The run -/

theorem run_of_read {texts : List String} {o : Outcome} (hread : Arguments.read texts = .ok a)
    (ho : runFor contents a = .ok o) : run contents texts = o := by
  rw [run, hread]
  simp only [ho]

theorem runFor_of_chooseDialect (hlevel : a.level = some level)
    (hd : chooseDialect contents a = .ok c) : runFor contents a = .ok (runWith c level a) := by
  rw [runFor, hlevel, hd]
  rfl

/-- A pattern that cannot be read ends the run. -/
theorem runWith_of_error {e : PatternError} (h : c.parse a.pattern = .error e) :
    runWith c level a = { exit := 2, stderr := faultText a.pattern e } := by
  rw [runWith, h]

theorem runWith_of_ok {r : Regex} (h : c.parse a.pattern = .ok r) (hdir : a.dotDirectory = none) :
    (runWith c level a).exit = 0 ∧
      (runWith c level a).stdout = report (Stages.ofRegex c r).minimal a.words := by
  rw [runWith, h, hdir]
  exact ⟨rfl, rfl⟩

/-- A run that writes no files succeeds exactly if its pattern can be read, and then it prints a
report on the expression; otherwise it prints nothing. -/
theorem runFor_succeeds_and_reports (contents : String → Except FileError String) (pattern : String)
    (alphabet config : Option String) (words : List String) (level : Level) (c : Dialect)
    (hc : IsConfigured contents config c) :
    ∃ d o, Overrides c alphabet d ∧
      runFor contents (asking pattern alphabet config words level) = .ok o ∧
      (∀ texts, Arguments.read texts = .ok (asking pattern alphabet config words level) →
        run contents texts = o) ∧
      (o.exit = 0 ↔ ∃ r, d.parse pattern = .ok r) ∧
      ((¬ ∃ r, d.parse pattern = .ok r) → o.exit = 2 ∧ o.stdout = "") ∧
      ∀ r, d.parse pattern = .ok r → IsReport r words o.stdout := by
  obtain ⟨d, hoverrides, hd⟩ := exists_chooseDialect_asking pattern alphabet words level hc
  have hrun := runFor_of_chooseDialect rfl hd
  refine ⟨d, _, hoverrides, hrun, fun texts hread => run_of_read hread hrun, ?_⟩
  cases hparse : d.parse pattern with
  | error e =>
    rw [runWith_of_error hparse]
    simp
  | ok r =>
    have hdir : (asking pattern alphabet config words level).dotDirectory = none := rfl
    obtain ⟨hexit, hstdout⟩ := runWith_of_ok hparse hdir
    have hreport := isReport_report (stages_isSmallestFor d r) words
    refine ⟨⟨fun _ => ⟨r, rfl⟩, fun _ => hexit⟩, fun h => absurd ⟨r, rfl⟩ h, fun s hs => ?_⟩
    cases hs
    exact hstdout ▸ hreport

/-- A file for which `e` stands for the empty word. -/
def briefFile : String → Except FileError String
  | "brief.json" => .ok "\x7b\"alphabet\": \"ab\", \"epsilon\": \"e\"\x7d"
  | _ => .error .notFound

def brief : Dialect := { alphabet := some ["a", "b"], epsilon := 'e' }

theorem runFor_succeeds_and_reports_brief :
    IsConfigured briefFile (some "brief.json") brief ∧
      ∃ d o, Overrides brief (some "c") d ∧
        runFor briefFile (asking "cc|e" (some "c") (some "brief.json") ["cc", "a"] .warning) =
          .ok o ∧
        (∀ texts, Arguments.read texts =
            .ok (asking "cc|e" (some "c") (some "brief.json") ["cc", "a"] .warning) →
          run briefFile texts = o) ∧
        (o.exit = 0 ↔ ∃ r, d.parse "cc|e" = .ok r) ∧
        ((¬ ∃ r, d.parse "cc|e" = .ok r) → o.exit = 2 ∧ o.stdout = "") ∧
        ∀ r, d.parse "cc|e" = .ok r → IsReport r ["cc", "a"] o.stdout := by
  have hc : loadDialect briefFile "brief.json" = .ok brief := by decide +kernel
  exact ⟨hc, runFor_succeeds_and_reports _ _ _ _ _ _ _ hc⟩

-- an empty alphabet allows nothing, whatever the file allows
example : (run briefFile ["ab", "--config", "brief.json", "--alphabet="]).exit = 2 := by
  decide +kernel

end Command

end RegularLanguage
