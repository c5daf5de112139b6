import RegularLanguage.Proofs.Pattern.Soundness
/-!
# All that follows the grammar is read

Scanning the text of an atom pushes its expression on the innermost group, and scanning the text of
a body leaves a group that closes with its expression, whatever comes after. With what the scan
accepts being a body, reading and the grammar agree (`parse_iff_denotes`).
-/

namespace RegularLanguage

namespace Dialect

variable {d : Dialect} {cs : List Char} {r : Regex}

/-- Reading the text leads from one group to another, in whatever it stands. -/
def Reads (d : Dialect) (cs : List Char) (position : Nat) (outer : List (Nat × OpenGroup))
    (g g' : OpenGroup) : Prop :=
  ∀ rest, d.scan position g outer (cs ++ rest) = d.scan (position + cs.length) g' outer rest

variable {position : Nat} {outer : List (Nat × OpenGroup)} {g g' g'' : OpenGroup} {cs' : List Char}

theorem Reads.append (h : d.Reads cs position outer g g')
    (h' : d.Reads cs' (position + cs.length) outer g' g'') :
    d.Reads (cs ++ cs') position outer g g'' := by
  intro rest
  rw [List.append_assoc, h, h', List.length_append, Nat.add_assoc]

/-- After the text of an expression that has been pushed, a star applies to this expression. -/
theorem Reads.star (h : d.Reads cs position outer g (g.push r)) :
    d.Reads (cs ++ ['*']) position outer g (g.push (.star r)) :=
  h.append fun _ => d.scan_star

/-- A bar after a group that closes with an expression. -/
theorem Reads.bar (h : d.Reads cs position outer g g') (hterm : g'.term.isSome)
    (hr : g'.close = .ok r) : d.Reads (cs ++ ['|']) position outer g
      { alternatives := some (r, position + cs.length) } := by
  refine h.append fun rest => ?_
  rw [List.singleton_append, scan_bar,
    OpenGroup.bar_eq_ok_iff.2 ⟨hterm, r, hr, rfl⟩]
  rfl

/-- A body between parentheses is pushed on the group around it. -/
theorem Reads.group (h : d.Reads cs (position + 1) ((position, g) :: outer) {} g')
    (hr : g'.close = .ok r) : d.Reads ('(' :: cs ++ [')']) position outer g (g.push r) := by
  intro rest
  rw [List.append_assoc, List.cons_append, scan_opening, h, List.singleton_append,
    d.scan_closing position g hr]
  congr 1
  simp only [List.length_append, List.length_cons, List.length_nil]
  omega

/-- The group holds the expression after alternatives that came before. -/
structure HoldsTerm (g g' : OpenGroup) (r : Regex) : Prop where
  term_eq : g'.term = some r
  alternatives_eq : g'.alternatives = g.alternatives

theorem HoldsTerm.close_first (h : HoldsTerm {} g' r) : g'.close = .ok r := by
  rw [OpenGroup.close, h.term_eq, h.alternatives_eq]

theorem HoldsTerm.close_next {s : Regex}
    (h : HoldsTerm { alternatives := some (s, position) } g' r) : g'.close = .ok (.union s r) := by
  rw [OpenGroup.close, h.term_eq, h.alternatives_eq]

mutual

theorem IsAtom.reads : ∀ {cs : List Char} {r : Regex}, IsAtom d cs r → ∀ position g outer,
    d.Reads cs position outer g (g.push r)
  | _, _, .symbol plain allowed, position, g, outer => by
    intro rest
    rw [List.singleton_append, d.scan_plain plain, literal_of_allows allowed]
    rfl
  | _, _, .escaped allowed, position, g, outer => by
    intro rest
    rw [List.cons_append, List.singleton_append, scan_escape, literal_of_allows allowed]
    rfl
  | _, _, .epsilon, _, _, _ => fun _ => d.scan_epsilon
  | _, _, .empty, _, _, _ => fun _ => d.scan_empty
  | _, _, .group body, position, g, outer => by
    obtain ⟨g', hr, hreads⟩ := body.reads (position + 1) ((position, g) :: outer)
    exact hreads.group hr

theorem IsFactor.reads : ∀ {cs : List Char} {r : Regex}, IsFactor d cs r → ∀ position g outer,
    d.Reads cs position outer g (g.push r)
  | _, _, .atom h, position, g, outer => h.reads position g outer
  | _, _, .star h, position, g, outer => (h.reads position g outer).star

theorem IsTerm.reads : ∀ {cs : List Char} {r : Regex}, IsTerm d cs r → ∀ position g outer,
    g.factors = none → ∃ g', HoldsTerm g g' r ∧ d.Reads cs position outer g g'
  | _, _, .factor h, position, g, outer, hg => by
    refine ⟨g.push _, ⟨?_, rfl⟩, h.reads position g outer⟩
    simp [OpenGroup.push, OpenGroup.term, hg]
  | _, _, .concat left right, position, g, outer, hg => by
    obtain ⟨g', hleft, hreads⟩ := left.reads position g outer hg
    refine ⟨g'.push _, ⟨?_, hleft.alternatives_eq⟩, hreads.append (right.reads _ g' outer)⟩
    rw [OpenGroup.push, hleft.term_eq]
    rfl

theorem IsUnion.reads : ∀ {cs : List Char} {r : Regex}, IsUnion d cs r → ∀ position outer,
    ∃ g', g'.term.isSome ∧ g'.close = .ok r ∧ d.Reads cs position outer {} g'
  | _, _, .term h, position, outer => by
    obtain ⟨g', hterm, hreads⟩ := h.reads position {} outer rfl
    exact ⟨g', by rw [hterm.term_eq]; rfl, hterm.close_first, hreads⟩
  | _, _, .union left right, position, outer => by
    obtain ⟨g', hsome, hclose, hreads⟩ := left.reads position outer
    obtain ⟨g'', hterm, hreads'⟩ :=
      right.reads _ { alternatives := some (_, _) } outer rfl
    rw [List.append_cons]
    exact ⟨g'', by rw [hterm.term_eq]; rfl, hterm.close_next,
      (hreads.bar hsome hclose).append hreads'⟩

theorem IsBody.reads : ∀ {cs : List Char} {r : Regex}, IsBody d cs r → ∀ position outer,
    ∃ g', g'.close = .ok r ∧ d.Reads cs position outer {} g'
  | _, _, .nothing, _, _ => ⟨{}, rfl, fun _ => rfl⟩
  | _, _, .union h, position, outer => by
    obtain ⟨g', -, hclose, hreads⟩ := h.reads position outer
    exact ⟨g', hclose, hreads⟩

end

/-! ## Reading and the grammar agree -/

variable {pattern : String}

theorem denotes_of_parse (h : d.parse pattern = .ok r) : d.Denotes pattern r :=
  isBody_of_scan h (.whole isPart_nil)

theorem parse_of_denotes (h : d.Denotes pattern r) : d.parse pattern = .ok r := by
  obtain ⟨g, hclose, hreads⟩ := IsBody.reads h 0 []
  have hscan := hreads []
  rw [List.append_nil] at hscan
  rw [parse, hscan, scan.eq_def, hclose]
  rfl

/-- Reading yields an expression exactly when the pattern stands for it. So a pattern stands for one
expression at most, and reading fails on all texts that are no patterns. -/
theorem parse_iff_denotes (d : Dialect) (pattern : String) :
    (∀ r, d.parse pattern = .ok r ↔ d.Denotes pattern r) ∧
      (∀ r s, d.Denotes pattern r → d.Denotes pattern s → r = s) ∧
      ((∃ e, d.parse pattern = .error e) ↔ ∀ r, ¬ d.Denotes pattern r) := by
  refine ⟨fun r => ⟨denotes_of_parse, parse_of_denotes⟩, fun r s hr hs => ?_, ?_, fun h => ?_⟩
  · exact Except.ok.inj ((parse_of_denotes hr).symm.trans (parse_of_denotes hs))
  · rintro ⟨e, he⟩ r hr
    rw [parse_of_denotes hr] at he
    cases he
  · cases hp : d.parse pattern with
    | error e => exact ⟨e, rfl⟩
    | ok r => exact absurd (denotes_of_parse hp) (h r)

end Dialect

end RegularLanguage
