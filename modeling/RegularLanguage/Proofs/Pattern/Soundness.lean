import RegularLanguage.Pattern.Grammar
import RegularLanguage.Proofs.Pattern.Scan
/-!
# What is read follows the grammar

The text before the current place is cut at the parentheses that are still open. Of each group, the
text up to the last bar is a union, the text after it a term whose last factor is known (`IsPart`).
Each character keeps this, and at the end the whole text is a body (`isBody_of_scan`).
-/

namespace RegularLanguage

namespace Dialect

variable {d : Dialect} {position : Nat} {g g' : OpenGroup} {outer : List (Nat × OpenGroup)}
  {cs cs' text : List Char} {r : Regex}

/-- The text up to the last bar of a group. -/
inductive IsAlternatives (d : Dialect) : List Char → Option (Regex × Nat) → Prop where
  | nothing : IsAlternatives d [] none
  | bar {cs : List Char} {r : Regex} (h : IsUnion d cs r) (position : Nat) :
      IsAlternatives d (cs ++ ['|']) (some (r, position))

/-- The text since the last bar of a group. -/
inductive IsFactors (d : Dialect) : List Char → Option (Option Regex × Regex) → Prop where
  | nothing : IsFactors d [] none
  | single {cs : List Char} {r : Regex} (h : IsFactor d cs r) : IsFactors d cs (some (none, r))
  | more {cs cs' : List Char} {r s : Regex} (before : IsTerm d cs r) (last : IsFactor d cs' s) :
      IsFactors d (cs ++ cs') (some (some r, s))

/-- The text of a group, as far as it has been read. -/
inductive IsPart (d : Dialect) : List Char → OpenGroup → Prop where
  | mk {cs cs' : List Char} {g : OpenGroup} (alternatives : IsAlternatives d cs g.alternatives)
      (factors : IsFactors d cs' g.factors) : IsPart d (cs ++ cs') g

/-- The text of a pattern, as far as it has been read, with the groups that are open. -/
inductive IsOpen (d : Dialect) : List Char → OpenGroup → List (Nat × OpenGroup) → Prop where
  | whole {cs : List Char} {g : OpenGroup} (h : IsPart d cs g) : IsOpen d cs g []
  | group {cs cs' : List Char} {g around : OpenGroup} {outer : List (Nat × OpenGroup)}
      (houter : IsOpen d cs around outer) (h : IsPart d cs' g) (opening : Nat) :
      IsOpen d (cs ++ '(' :: cs') g ((opening, around) :: outer)

/-! ## Each operation on a group reads its text -/

theorem IsAlternatives.isPart (h : IsAlternatives d cs g.alternatives) (hg : g.factors = none) :
    IsPart d cs g := by
  rw [← List.append_nil cs]
  exact .mk h (hg ▸ .nothing)

theorem isPart_nil : IsPart d [] {} := IsAlternatives.nothing.isPart rfl

/-- The factors since the last bar form a term, if there are any. -/
theorem IsFactors.isTerm (h : IsFactors d cs g.factors) (ht : g.term = some r) :
    IsTerm d cs r := by
  unfold OpenGroup.term at ht
  generalize g.factors = factors at h ht
  cases h with
  | nothing => cases ht
  | single h =>
    cases ht
    exact .factor h
  | more before last =>
    cases ht
    exact .concat before last

theorem IsFactors.eq_nil (h : IsFactors d cs g.factors) (ht : g.term = none) : cs = [] := by
  unfold OpenGroup.term at ht
  generalize g.factors = factors at h ht
  cases h with
  | nothing => rfl
  | single h => cases ht
  | more before last => cases ht

theorem IsFactors.push (h : IsFactors d cs g.factors) (hr : IsFactor d cs' r) :
    IsFactors d (cs ++ cs') (g.push r).factors := by
  cases ht : g.term with
  | none =>
    rw [h.eq_nil ht, OpenGroup.push, ht]
    exact .single hr
  | some t =>
    rw [OpenGroup.push, ht]
    exact .more (h.isTerm ht) hr

theorem IsPart.push (h : IsPart d cs g) (hr : IsFactor d cs' r) :
    IsPart d (cs ++ cs') (g.push r) := by
  obtain ⟨halternatives, hfactors⟩ := h
  rw [List.append_assoc]
  exact .mk halternatives (hfactors.push hr)

theorem IsPart.star (h : IsPart d cs g) (hg : g.star position = .ok g') :
    IsPart d (cs ++ ['*']) g' := by
  obtain ⟨halternatives, hfactors⟩ := h
  rw [List.append_assoc]
  unfold OpenGroup.star at hg
  generalize hf : g.factors = factors at hg hfactors
  cases hfactors with
  | nothing => cases hg
  | single h =>
    cases hg
    exact .mk halternatives (.single (.star h))
  | more before last =>
    cases hg
    rw [List.append_assoc]
    exact .mk halternatives (.more before (.star last))

/-- The text of a group whose last alternative has been read. -/
theorem IsPart.isUnion (h : IsPart d cs g) {t : Regex} (ht : g.term = some t)
    (hr : g.close = .ok r) : IsUnion d cs r := by
  obtain ⟨halternatives, hfactors⟩ := h
  have hterm := hfactors.isTerm ht
  unfold OpenGroup.close at hr
  rw [ht] at hr
  generalize g.alternatives = alternatives at halternatives hr
  cases halternatives with
  | nothing =>
    cases hr
    exact .term hterm
  | bar h position =>
    cases hr
    rw [List.append_assoc]
    exact .union h hterm

theorem IsPart.close (h : IsPart d cs g) (hr : g.close = .ok r) : IsBody d cs r := by
  cases ht : g.term with
  | some t => exact .union (h.isUnion ht hr)
  | none =>
    obtain ⟨halternatives, hfactors⟩ := h
    rw [hfactors.eq_nil ht]
    unfold OpenGroup.close at hr
    rw [ht] at hr
    generalize g.alternatives = alternatives at halternatives hr
    cases halternatives with
    | nothing =>
      cases hr
      exact .nothing
    | bar h position => cases hr

theorem IsPart.bar (h : IsPart d cs g) (hg : g.bar position = .ok g') :
    IsPart d (cs ++ ['|']) g' := by
  obtain ⟨hterm, r, hr, rfl⟩ := OpenGroup.bar_eq_ok_iff.1 hg
  obtain ⟨t, ht⟩ := Option.isSome_iff_exists.1 hterm
  exact (IsAlternatives.bar (h.isUnion ht hr) position).isPart rfl

/-! ## The whole scan -/

/-- What is read into the innermost group is read into the pattern. -/
theorem IsOpen.extend (h : IsOpen d cs g outer)
    (hpart : ∀ {part}, IsPart d part g → IsPart d (part ++ cs') g') :
    IsOpen d (cs ++ cs') g' outer := by
  cases h with
  | whole h => exact .whole (hpart h)
  | group houter h opening =>
    rw [List.append_assoc]
    exact .group houter (hpart h) opening

theorem IsOpen.push (h : IsOpen d cs g outer) (hr : IsAtom d cs' r) :
    IsOpen d (cs ++ cs') (g.push r) outer :=
  h.extend fun hpart => hpart.push (.atom hr)

theorem isBody_of_scan (h : d.scan position g outer text = .ok r) (hopen : IsOpen d cs g outer) :
    IsBody d (cs ++ text) r := by
  fun_induction scan d position g outer text generalizing cs with
  | case1 position g outer =>
    obtain ⟨t, ht, h⟩ := bind_eq_ok_iff.1 h
    cases hopen with
    | whole hpart =>
      cases h
      rw [List.append_nil]
      exact hpart.close ht
    | group houter hpart opening => cases h
  | case2 position g outer text ih =>
    rw [List.append_cons]
    exact ih h (.group hopen isPart_nil position)
  | case3 position g outer text _ ih =>
    obtain ⟨t, ht, h⟩ := bind_eq_ok_iff.1 h
    cases hopen with
    | whole hpart => cases h
    | group houter hpart opening =>
      have hread := ih t _ _ h (houter.push (.group (hpart.close ht)))
      simpa using hread
  | case4 position g outer text _ _ ih =>
    obtain ⟨g', hg, h⟩ := bind_eq_ok_iff.1 h
    rw [List.append_cons]
    exact ih g' h (hopen.extend fun hpart => hpart.bar hg)
  | case5 position g outer text _ _ _ ih =>
    obtain ⟨g', hg, h⟩ := bind_eq_ok_iff.1 h
    rw [List.append_cons]
    exact ih g' h (hopen.extend fun hpart => hpart.star hg)
  | case6 => cases h
  | case7 position g outer c text _ _ _ _ ih =>
    obtain ⟨t, ht, h⟩ := bind_eq_ok_iff.1 h
    obtain ⟨hallowed, rfl⟩ := literal_eq_ok_iff.1 ht
    rw [List.append_cons, List.append_cons, List.append_assoc cs]
    exact ih _ h (hopen.push (.escaped hallowed))
  | case8 position g outer text _ _ _ _ _ ih =>
    rw [List.append_cons]
    exact ih h (hopen.push .epsilon)
  | case9 position g outer text _ _ _ _ _ _ ih =>
    rw [List.append_cons]
    exact ih h (hopen.push .empty)
  | case10 position g outer c text hopening hclosing hbar hstar hescape hepsilon hempty ih =>
    obtain ⟨t, ht, h⟩ := bind_eq_ok_iff.1 h
    obtain ⟨hallowed, rfl⟩ := literal_eq_ok_iff.1 ht
    rw [List.append_cons]
    refine ih _ h (hopen.push (.symbol ?_ hallowed))
    simp [operators, hopening, hclosing, hbar, hstar, hescape, hepsilon, hempty]

end Dialect

end RegularLanguage
