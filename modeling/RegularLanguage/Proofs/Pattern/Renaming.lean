import Mathlib.Data.List.Nodup
import Mathlib.Logic.Equiv.Basic
import RegularLanguage.Proofs.Pattern.Scan
/-!
# Reading under other characters

Apart from operators and markers a character means nothing to the reader. Where characters are
renamed one to one, the operators staying as they are, and the dialect along with them, the two
texts are read in step: the same groups are open at the same places, over renamed symbols
(`Dialect.scan_rename`). So the outcomes differ in the names of symbols alone
(`Dialect.parse_rename`).
-/

namespace RegularLanguage

/-- A one-to-one change of characters that leaves the operators as they are. -/
structure Renaming where
  char : Equiv.Perm Char
  char_operator : ∀ c ∈ operators, char c = c

namespace Renaming

variable (ρ : Renaming) {a b : Symbol}

def text (s : String) : String := String.ofList (s.toList.map ρ.char)

@[simp]
theorem toList_text (s : String) : (ρ.text s).toList = s.toList.map ρ.char :=
  String.toList_ofList

@[simp]
theorem text_singleton (c : Char) : ρ.text (String.singleton c) = String.singleton (ρ.char c) := by
  rw [← String.toList_inj, toList_text, String.toList_singleton, String.toList_singleton]
  rfl

theorem text_inj : ρ.text a = ρ.text b ↔ a = b := by
  rw [← String.toList_inj, toList_text, toList_text,
    List.map_inj_right fun _ _ h => ρ.char.injective h, String.toList_inj]

theorem map_operators : operators.map ρ.char = operators :=
  (List.map_congr_left ρ.char_operator).trans (List.map_id _)

/-- What an attempt gives over renamed symbols: `g` says what renaming does to a success. -/
def outcome {α β : Type} (g : α → β) : Except PatternError α → Except PatternError β
  | .ok a => .ok (g a)
  | .error e => .error (e.rename ρ.text)

theorem outcome_bind {α β γ δ : Type} {x : Except PatternError α} {k : α → Except PatternError γ}
    {k' : β → Except PatternError δ} {g : α → β} {h : γ → δ}
    (hk : ∀ a, k' (g a) = ρ.outcome h (k a)) :
    (ρ.outcome g x).bind k' = ρ.outcome h (x.bind k) := by
  cases x with
  | ok a => exact hk a
  | error e => rfl

end Renaming

/-! ## Groups -/

namespace OpenGroup

variable (ρ : Renaming) {g : OpenGroup} {r : Regex} {position : Nat}

/-- The same group over renamed symbols. -/
def rename (f : Symbol → Symbol) (g : OpenGroup) : OpenGroup where
  alternatives := g.alternatives.map fun x => (x.1.rename f, x.2)
  factors := g.factors.map fun x => (x.1.map (Regex.rename f), x.2.rename f)

theorem term_rename (f : Symbol → Symbol) : (g.rename f).term = g.term.map (Regex.rename f) := by
  unfold term rename
  rcases g.factors with _ | ⟨_ | before, last⟩ <;> rfl

theorem push_rename (f : Symbol → Symbol) :
    (g.rename f).push (r.rename f) = (g.push r).rename f := by
  rw [push, term_rename]
  rfl

theorem alternatives_rename (f : Symbol → Symbol) :
    (g.rename f).alternatives = g.alternatives.map fun x => (x.1.rename f, x.2) := rfl

theorem star_rename : (g.rename ρ.text).star position =
    ρ.outcome (OpenGroup.rename ρ.text) (g.star position) := by
  unfold star rename
  rcases g.factors with _ | ⟨before, last⟩ <;> rfl

theorem bar_rename : (g.rename ρ.text).bar position =
    ρ.outcome (OpenGroup.rename ρ.text) (g.bar position) := by
  rw [bar, bar, term_rename, alternatives_rename]
  rcases g.term with _ | t <;> rcases g.alternatives with _ | ⟨u, last⟩ <;> rfl

theorem close_rename : (g.rename ρ.text).close = ρ.outcome (Regex.rename ρ.text) g.close := by
  rw [close, close, term_rename, alternatives_rename]
  rcases g.term with _ | t <;> rcases g.alternatives with _ | ⟨u, last⟩ <;> rfl

end OpenGroup

/-! ## Dialects -/

namespace Dialect

variable (ρ : Renaming) (d : Dialect) {c : Char} {cs : List Char} {position : Nat}

def rename : Dialect where
  alphabet := (d.alphabet.map (List.map ρ.text)).map Ascending.ofList
  escape := ρ.char d.escape
  epsilon := ρ.char d.epsilon
  empty := ρ.char d.empty
  distinct := by
    have h := d.distinct.map ρ.char.injective
    rwa [List.map_append, ρ.map_operators] at h

theorem allows_rename (a : Symbol) : (d.rename ρ).allows (ρ.text a) = d.allows a := by
  unfold allows rename
  cases d.alphabet with
  | none => rfl
  | some symbols => simp [ρ.text_inj]

theorem literal_rename (c : Char) : (d.rename ρ).literal (ρ.char c) position =
    ρ.outcome (Regex.rename ρ.text) (d.literal c position) := by
  unfold literal
  rw [← ρ.text_singleton, allows_rename]
  split <;> rfl

theorem isPlain_rename (h : d.IsPlain c) : (d.rename ρ).IsPlain (ρ.char c) := by
  have hmem : ρ.char c ∉ (operators ++ [d.escape, d.epsilon, d.empty]).map ρ.char := by
    rw [List.mem_map_of_injective ρ.char.injective]
    exact h
  rwa [List.map_append, ρ.map_operators] at hmem

/-- The scan of the renamed text is in step with the scan of the text. -/
theorem scan_rename (g : OpenGroup) (outer : List (Nat × OpenGroup)) :
    (d.rename ρ).scan position (g.rename ρ.text) (outer.map fun x => (x.1, x.2.rename ρ.text))
        (cs.map ρ.char) =
      ρ.outcome (Regex.rename ρ.text) (d.scan position g outer cs) := by
  fun_induction scan d position g outer cs with
  | case1 position g outer =>
    rw [List.map_nil, scan, OpenGroup.close_rename]
    refine ρ.outcome_bind fun r => ?_
    cases outer <;> rfl
  | case2 position g outer cs ih =>
    rw [List.map_cons, ρ.char_operator '(' (by decide), scan_opening]
    exact ih
  | case3 position g outer cs _ ih =>
    rw [List.map_cons, ρ.char_operator ')' (by decide), scan_closing_eq, OpenGroup.close_rename]
    refine ρ.outcome_bind fun r => ?_
    cases outer with
    | nil => rfl
    | cons x outer =>
      have hread := ih r x.2 outer
      rwa [← OpenGroup.push_rename] at hread
  | case4 position g outer cs _ _ ih =>
    rw [List.map_cons, ρ.char_operator '|' (by decide), scan_bar, OpenGroup.bar_rename]
    exact ρ.outcome_bind ih
  | case5 position g outer cs _ _ _ ih =>
    rw [List.map_cons, ρ.char_operator '*' (by decide), scan_star, OpenGroup.star_rename]
    exact ρ.outcome_bind ih
  | case6 position g outer =>
    rw [List.map_singleton]
    exact (d.rename ρ).scan_danglingEscape
  | case7 position g outer c cs _ _ _ _ ih =>
    rw [List.map_cons, List.map_cons]
    refine (d.rename ρ).scan_escape.trans ?_
    rw [literal_rename]
    refine ρ.outcome_bind fun r => ?_
    rw [OpenGroup.push_rename]
    exact ih r
  | case8 position g outer cs _ _ _ _ _ ih =>
    rw [← OpenGroup.push_rename] at ih
    rw [List.map_cons]
    exact (d.rename ρ).scan_epsilon.trans ih
  | case9 position g outer cs _ _ _ _ _ _ ih =>
    rw [← OpenGroup.push_rename] at ih
    rw [List.map_cons]
    exact (d.rename ρ).scan_empty.trans ih
  | case10 position g outer c cs hopening hclosing hbar hstar hescape hepsilon hempty ih =>
    have hplain : d.IsPlain c := by
      simp [IsPlain, operators, hopening, hclosing, hbar, hstar, hescape, hepsilon, hempty]
    rw [List.map_cons, scan_plain _ (d.isPlain_rename ρ hplain), literal_rename]
    refine ρ.outcome_bind fun r => ?_
    rw [OpenGroup.push_rename]
    exact ih r

/-- The renamed markers and symbols make up a dialect. Under it the renamed pattern stands for the
expression with its symbols renamed, or it has the same fault at the same place. -/
theorem parse_rename (p : String) :
    make (d.alphabet.map (List.map ρ.text)) (.string (String.singleton (ρ.char d.escape)))
        (.string (String.singleton (ρ.char d.epsilon)))
        (.string (String.singleton (ρ.char d.empty))) = .ok (d.rename ρ) ∧
      (d.rename ρ).parse (ρ.text p) =
        match d.parse p with
        | .ok r => .ok (r.rename ρ.text)
        | .error e => .error (e.rename ρ.text) := by
  have hparse : (d.rename ρ).parse (ρ.text p) = ρ.outcome (Regex.rename ρ.text) (d.parse p) := by
    rw [parse, ρ.toList_text]
    exact d.scan_rename ρ {} []
  refine ⟨(d.rename ρ).make_markers _, hparse.trans ?_⟩
  cases d.parse p <;> rfl

/-- A marker and a letter change places. -/
def exchange : Renaming := ⟨Equiv.swap 'ε' 'x', by simp [operators, Equiv.swap_apply_def]⟩

example : (({} : Dialect).rename exchange).parse "ε|x" = .ok (.union (.literal "ε") .epsilon) := by
  decide +kernel

end Dialect

end RegularLanguage
