import RegularLanguage.NFA.OfRegex
import RegularLanguage.Proofs.Automaton.Basic
import RegularLanguage.Proofs.NFA.Simulation
/-!
# Automata of expressions accept what the expressions denote

The fragments of an expression share one growing list of edges. The edges that a fragment adds stay
within the numbers that it has used up, so a path through a fragment is a path along the edges of
its own: edges added before or after never count. From there the language of a fragment follows by
recursion on the expression (`fragment_realizes`), and with it that of the whole automaton
(`toNFA_accepts_iff_matches`).
-/

namespace RegularLanguage

variable {E F : List (Edge Label)} {lo mid hi j k : Nat} {p q x y : State} {w : Word} {r s : Regex}

/-! ## Ranges of numbers -/

def Between (lo hi : Nat) (q : Int) : Prop := lo ≤ q ∧ q < hi

@[simp]
theorem between_natCast : Between lo hi (k : State) ↔ lo ≤ k ∧ k < hi := by
  rw [Between, Int.ofNat_le, Int.ofNat_lt]

theorem natCast_ne (h : j ≠ k) : (j : State) ≠ (k : State) := fun e => h (Int.ofNat_inj.1 e)

namespace Between

theorem le (h : Between lo hi q) : lo ≤ hi := by
  unfold Between at h
  omega

theorem mono (h : Between lo hi q) (hlo : j ≤ lo) (hhi : hi ≤ k) : Between j k q := by
  unfold Between at *
  omega

/-- Ranges that follow each other share no state. -/
theorem not_later (h : Between lo mid q) : ¬ Between mid hi q := by
  unfold Between at *
  omega

theorem ne_later (hp : Between lo mid p) (hq : Between mid hi q) : p ≠ q :=
  fun h => hp.not_later (h ▸ hq)

theorem ne_natCast (h : Between lo hi q) (hk : hi ≤ k) : q ≠ k := by
  rintro rfl
  have := (between_natCast.1 h).2
  omega

end Between

/-! ## Paths along some of the edges -/

namespace NFA

@[simp]
theorem Builder.mem_states {b : Builder} : q ∈ b.states ↔ Between 0 b.size q := by
  rw [states, List.mem_map]
  constructor
  · rintro ⟨k, hk, rfl⟩
    exact between_natCast.2 ⟨Nat.zero_le k, List.mem_range.1 hk⟩
  · intro h
    obtain ⟨k, rfl⟩ := Int.eq_ofNat_of_zero_le h.1
    exact ⟨k, List.mem_range.2 (between_natCast.1 h).2, rfl⟩

/-- The bare automaton of some edges, of which only the paths matter. -/
def ofEdges (edges : List (Edge Label)) : NFA where
  states := []
  start := 0
  final := []
  edges := edges
  alphabet := []

/-- A path that leaves a region with a single way out takes it for the first time. -/
theorem Path.firstExit {A : State → Prop}
    (hA : ∀ e ∈ F, A e.source → (e ∈ E ∧ A e.target) ∨ e = ⟨x, none, y⟩)
    (hp : A p) (hq : ¬ A q) (h : (ofEdges F).Path p w q) :
    ∃ u v, w = u ++ v ∧ (ofEdges E).Path p u x ∧ (ofEdges F).Path y v q := by
  induction h with
  | nil => exact absurd hp hq
  | silent he rest ih =>
    rcases hA _ he hp with ⟨heE, ht⟩ | heq
    · obtain ⟨u, v, rfl, hu, hv⟩ := ih ht hq
      exact ⟨u, v, rfl, .silent heE hu, hv⟩
    · cases heq
      exact ⟨[], _, rfl, .nil _, rest⟩
  | symbol he rest ih =>
    rcases hA _ he hp with ⟨heE, ht⟩ | heq
    · obtain ⟨u, v, rfl, hu, hv⟩ := ih ht hq
      exact ⟨_ :: u, v, rfl, .symbol heE hu, hv⟩
    · cases heq

/-- A path that starts within a region without a way out stays there. -/
theorem Path.within {A : State → Prop} (hA : ∀ e ∈ F, A e.source → e ∈ E ∧ A e.target)
    (h : (ofEdges F).Path p w q) (hp : A p) : (ofEdges E).Path p w q := by
  induction h with
  | nil q => exact .nil q
  | silent he _ ih => exact .silent (hA _ he hp).1 (ih (hA _ he hp).2)
  | symbol he _ ih => exact .symbol (hA _ he hp).1 (ih (hA _ he hp).2)

/-- From a state that no edge leaves no path leads on. -/
theorem Path.of_sink (hp : ∀ e ∈ E, e.source ≠ p) (h : (ofEdges E).Path p w q) :
    w = [] ∧ q = p := by
  cases h with
  | nil => exact ⟨rfl, rfl⟩
  | silent he => exact absurd rfl (hp _ he)
  | symbol he => exact absurd rfl (hp _ he)

/-- A path from a region to a state behind its single way out, from which nothing leads on, is a
path to the way out. -/
theorem Path.upToExit {A : State → Prop}
    (hA : ∀ e ∈ F, A e.source → (e ∈ E ∧ A e.target) ∨ e = ⟨x, none, y⟩)
    (hy : ∀ e ∈ F, e.source ≠ y) (hp : A p) (hAy : ¬ A y) (h : (ofEdges F).Path p w y) :
    (ofEdges E).Path p w x := by
  obtain ⟨u, v, rfl, hu, hv⟩ := h.firstExit hA hp hAy
  rw [(hv.of_sink hy).1, List.append_nil]
  exact hu

/-- A path through a part that is entered from `x` and left to `y`. -/
theorem Path.through (hEF : ∀ e ∈ E, e ∈ F) (hx : ⟨x, none, p⟩ ∈ F) (hy : ⟨q, none, y⟩ ∈ F)
    (h : (ofEdges E).Path p w q) : (ofEdges F).Path x w y := by
  have hpq : (ofEdges F).Path p w q := h.mono hEF
  have hpy := hpq.append (.silent hy (.nil y))
  rw [List.append_nil] at hpy
  exact .silent hx hpy

end NFA

/-! ## Fragments and the expressions that they stand for -/

namespace Fragment

open RegularLanguage.NFA

variable {f g : Fragment} {n : Nat}

def EdgesBetween (lo hi : Nat) (E : List (Edge Label)) : Prop :=
  ∀ e ∈ E, Between lo hi e.source ∧ Between lo hi e.target

theorem EdgesBetween.mono (h : EdgesBetween lo hi E) (hlo : j ≤ lo) (hhi : hi ≤ k) :
    EdgesBetween j k E :=
  fun e he => ⟨(h e he).1.mono hlo hhi, (h e he).2.mono hlo hhi⟩

/-- The fragment with its edges uses up the numbers from `lo` on, below `hi`. No edge leads to its
start, and its paths from start to end spell the words of the expression. -/
structure Realizes (f : Fragment) (E : List (Edge Label)) (lo hi : Nat) (r : Regex) : Prop where
  start_between : Between lo hi f.start
  accept_between : Between lo hi f.accept
  edges_between : EdgesBetween lo hi E
  target_ne_start : ∀ e ∈ E, e.target ≠ f.start
  path_iff : ∀ w, (ofEdges E).Path f.start w f.accept ↔ r.Matches w

namespace Realizes

theorem empty (n : Nat) : Realizes ⟨n, (n + 1 : Nat)⟩ [] n (n + 2) .empty where
  start_between := between_natCast.2 (by omega)
  accept_between := between_natCast.2 (by omega)
  edges_between := by simp [EdgesBetween]
  target_ne_start := by simp
  path_iff w := by
    constructor
    · intro h
      exact absurd (h.of_sink (by simp)).2 (natCast_ne (by omega))
    · intro h
      cases h

/-- The only path from end to end of a single edge takes the edge. -/
theorem path_edge_iff {l : Label} (hpq : p ≠ q) :
    (ofEdges [⟨p, l, q⟩]).Path p w q ↔ w = l.toList := by
  have hsink : ∀ e ∈ [(⟨p, l, q⟩ : Edge Label)], e.source ≠ q := by
    simpa using hpq
  constructor
  · intro h
    cases h with
    | nil => exact absurd rfl hpq
    | silent he rest =>
      cases List.mem_singleton.1 he
      exact (rest.of_sink hsink).1
    | symbol he rest =>
      cases List.mem_singleton.1 he
      rw [(rest.of_sink hsink).1]
      rfl
  · rintro rfl
    cases l with
    | none => exact .silent (List.mem_singleton.2 rfl) (.nil q)
    | some a => exact .symbol (List.mem_singleton.2 rfl) (.nil q)

/-- A leaf with an edge realizes the expression that denotes the edge's label alone. -/
theorem leaf (n : Nat) {l : Label} (hr : ∀ w, r.Matches w ↔ w = l.toList) :
    Realizes ⟨n, (n + 1 : Nat)⟩ [⟨n, l, (n + 1 : Nat)⟩] n (n + 2) r where
  start_between := between_natCast.2 (by omega)
  accept_between := between_natCast.2 (by omega)
  edges_between := List.forall_mem_singleton.2
    ⟨between_natCast.2 (by omega), between_natCast.2 (by omega)⟩
  target_ne_start := List.forall_mem_singleton.2 (natCast_ne (by omega))
  path_iff w := by rw [hr, path_edge_iff (natCast_ne (by omega))]

theorem epsilon (n : Nat) :
    Realizes ⟨n, (n + 1 : Nat)⟩ [⟨n, none, (n + 1 : Nat)⟩] n (n + 2) .epsilon := by
  refine leaf n fun w => ⟨fun h => ?_, fun h => ?_⟩
  · cases h
    rfl
  · subst h
    exact .epsilon

theorem literal (n : Nat) (a : Symbol) :
    Realizes ⟨n, (n + 1 : Nat)⟩ [⟨n, some a, (n + 1 : Nat)⟩] n (n + 2) (.literal a) := by
  refine leaf n fun w => ⟨fun h => ?_, fun h => ?_⟩
  · cases h
    rfl
  · subst h
    exact .literal a

/-- Two fragments on ranges that follow each other, joined by a silent move. -/
theorem concat (hf : f.Realizes E lo mid r) (hg : g.Realizes F mid hi s) :
    Realizes ⟨f.start, g.accept⟩ (⟨f.accept, none, g.start⟩ :: (F ++ E)) lo hi (.concat r s) := by
  have hlo := hf.start_between.le
  have hhi := hg.start_between.le
  have hleft : ∀ e ∈ ⟨f.accept, none, g.start⟩ :: (F ++ E), Between lo mid e.source →
      (e ∈ E ∧ Between lo mid e.target) ∨ e = ⟨f.accept, none, g.start⟩ := by
    intro e he hlo
    rcases List.mem_cons.1 he with rfl | he
    · exact .inr rfl
    · rcases List.mem_append.1 he with he | he
      · exact absurd (hg.edges_between e he).1 hlo.not_later
      · exact .inl ⟨he, (hf.edges_between e he).2⟩
  have hright : ∀ e ∈ ⟨f.accept, none, g.start⟩ :: (F ++ E), Between mid hi e.source →
      e ∈ F ∧ Between mid hi e.target := by
    intro e he hmid
    rcases List.mem_cons.1 he with rfl | he
    · exact absurd hmid hf.accept_between.not_later
    · rcases List.mem_append.1 he with he | he
      · exact ⟨he, (hg.edges_between e he).2⟩
      · exact absurd hmid (hf.edges_between e he).1.not_later
  refine ⟨hf.start_between.mono (Nat.le_refl _) hhi, hg.accept_between.mono hlo (Nat.le_refl _),
    ?_, ?_, fun w => ⟨fun h => ?_, fun h => ?_⟩⟩
  · exact List.forall_mem_cons.2 ⟨⟨hf.accept_between.mono (Nat.le_refl _) hhi,
      hg.start_between.mono hlo (Nat.le_refl _)⟩, List.forall_mem_append.2
      ⟨hg.edges_between.mono hlo (Nat.le_refl _), hf.edges_between.mono (Nat.le_refl _) hhi⟩⟩
  · have hne : ∀ q, Between mid hi q → q ≠ f.start :=
      fun q hq heq => hf.start_between.not_later (heq ▸ hq)
    exact List.forall_mem_cons.2 ⟨hne _ hg.start_between, List.forall_mem_append.2
      ⟨fun e he => hne _ (hg.edges_between e he).2, hf.target_ne_start⟩⟩
  · obtain ⟨u, v, rfl, hu, hv⟩ := h.firstExit hleft hf.start_between
      fun hacc => hacc.not_later hg.accept_between
    exact .concat ((hf.path_iff u).1 hu) ((hg.path_iff v).1 (hv.within hright hg.start_between))
  · cases h with
    | @concat _ _ u v hu hv =>
      have hE := ((hf.path_iff u).2 hu).mono (m := ofEdges (⟨f.accept, none, g.start⟩ :: (F ++ E)))
        fun e he => List.mem_cons_of_mem _ (List.mem_append_right F he)
      have hF := ((hg.path_iff v).2 hv).mono (m := ofEdges (⟨f.accept, none, g.start⟩ :: (F ++ E)))
        fun e he => List.mem_cons_of_mem _ (List.mem_append_left E he)
      exact hE.append (.silent List.mem_cons_self hF)

/-! ### Choices -/

/-- The edges of a choice whose new ends are the next two numbers. -/
def unionEdges (f g : Fragment) (n : Nat) (E F : List (Edge Label)) : List (Edge Label) :=
  [⟨g.accept, none, (n + 1 : Nat)⟩, ⟨f.accept, none, (n + 1 : Nat)⟩, ⟨n, none, g.start⟩,
    ⟨n, none, f.start⟩] ++ (F ++ E)

@[simp]
theorem mem_unionEdges {e : Edge Label} : e ∈ unionEdges f g n E F ↔
    e = ⟨g.accept, none, (n + 1 : Nat)⟩ ∨ e = ⟨f.accept, none, (n + 1 : Nat)⟩ ∨
      e = ⟨n, none, g.start⟩ ∨ e = ⟨n, none, f.start⟩ ∨ e ∈ F ∨ e ∈ E := by
  simp only [unionEdges, List.cons_append, List.nil_append, List.mem_cons, List.mem_append]

section

variable (hf : f.Realizes E lo mid r) (hg : g.Realizes F mid hi s)

include hf hg

theorem unionEdges_between : EdgesBetween lo (hi + 2) (unionEdges f g hi E F) := by
  have hlo := hf.start_between.le
  have hhi := hg.start_between.le
  have hstart : Between lo (hi + 2) hi := between_natCast.2 (by omega)
  have haccept : Between lo (hi + 2) (hi + 1 : Nat) := between_natCast.2 (by omega)
  intro e he
  rcases mem_unionEdges.1 he with rfl | rfl | rfl | rfl | he | he
  · exact ⟨hg.accept_between.mono hlo (by omega), haccept⟩
  · exact ⟨hf.accept_between.mono (Nat.le_refl _) (by omega), haccept⟩
  · exact ⟨hstart, hg.start_between.mono hlo (by omega)⟩
  · exact ⟨hstart, hf.start_between.mono (Nat.le_refl _) (by omega)⟩
  · exact hg.edges_between.mono hlo (by omega) e he
  · exact hf.edges_between.mono (Nat.le_refl _) (by omega) e he

theorem unionEdges_target_ne : ∀ e ∈ unionEdges f g hi E F, e.target ≠ hi := by
  have hhi := hg.start_between.le
  intro e he
  rcases mem_unionEdges.1 he with rfl | rfl | rfl | rfl | he | he
  · exact natCast_ne (by omega)
  · exact natCast_ne (by omega)
  · exact hg.start_between.ne_natCast (Nat.le_refl _)
  · exact hf.start_between.ne_natCast hhi
  · exact (hg.edges_between e he).2.ne_natCast (Nat.le_refl _)
  · exact (hf.edges_between e he).2.ne_natCast hhi

theorem unionEdges_source_ne : ∀ e ∈ unionEdges f g hi E F, e.source ≠ (hi + 1 : Nat) := by
  have hhi := hg.start_between.le
  intro e he
  rcases mem_unionEdges.1 he with rfl | rfl | rfl | rfl | he | he
  · exact hg.accept_between.ne_natCast (by omega)
  · exact hf.accept_between.ne_natCast (by omega)
  · exact natCast_ne (by omega)
  · exact natCast_ne (by omega)
  · exact (hg.edges_between e he).1.ne_natCast (by omega)
  · exact (hf.edges_between e he).1.ne_natCast (by omega)

/-- The new start is left on a silent move to one of the two starts. -/
theorem unionEdges_from_start : ∀ e ∈ unionEdges f g hi E F, e.source = hi →
    e = ⟨hi, none, f.start⟩ ∨ e = ⟨hi, none, g.start⟩ := by
  have hhi := hg.start_between.le
  intro e he hs
  rcases mem_unionEdges.1 he with rfl | rfl | rfl | rfl | he | he
  · exact absurd hs (hg.accept_between.ne_natCast (Nat.le_refl _))
  · exact absurd hs (hf.accept_between.ne_natCast hhi)
  · exact .inr rfl
  · exact .inl rfl
  · exact absurd hs ((hg.edges_between e he).1.ne_natCast (Nat.le_refl _))
  · exact absurd hs ((hf.edges_between e he).1.ne_natCast hhi)

theorem unionEdges_from_left : ∀ e ∈ unionEdges f g hi E F, Between lo mid e.source →
    (e ∈ E ∧ Between lo mid e.target) ∨ e = ⟨f.accept, none, (hi + 1 : Nat)⟩ := by
  have hhi := hg.start_between.le
  intro e he hb
  rcases mem_unionEdges.1 he with rfl | rfl | rfl | rfl | he | he
  · exact absurd hg.accept_between hb.not_later
  · exact .inr rfl
  · exact absurd rfl (hb.ne_natCast hhi)
  · exact absurd rfl (hb.ne_natCast hhi)
  · exact absurd (hg.edges_between e he).1 hb.not_later
  · exact .inl ⟨he, (hf.edges_between e he).2⟩

theorem unionEdges_from_right : ∀ e ∈ unionEdges f g hi E F, Between mid hi e.source →
    (e ∈ F ∧ Between mid hi e.target) ∨ e = ⟨g.accept, none, (hi + 1 : Nat)⟩ := by
  intro e he hb
  rcases mem_unionEdges.1 he with rfl | rfl | rfl | rfl | he | he
  · exact .inr rfl
  · exact absurd hb hf.accept_between.not_later
  · exact absurd rfl (hb.ne_natCast (Nat.le_refl _))
  · exact absurd rfl (hb.ne_natCast (Nat.le_refl _))
  · exact .inl ⟨he, (hg.edges_between e he).2⟩
  · exact absurd hb (hf.edges_between e he).1.not_later

theorem path_unionEdges_iff :
    (ofEdges (unionEdges f g hi E F)).Path hi w (hi + 1 : Nat) ↔ (r.union s).Matches w := by
  have hsink := unionEdges_source_ne hf hg
  constructor
  · intro h
    have hleft : ∀ {q v}, Between lo mid q →
        (ofEdges (unionEdges f g hi E F)).Path q v (hi + 1 : Nat) →
        (ofEdges E).Path q v f.accept := fun hq hv =>
      hv.upToExit (unionEdges_from_left hf hg) hsink hq
        fun hb => hb.ne_natCast (Nat.le_succ_of_le hg.start_between.le) rfl
    have hright : ∀ {q v}, Between mid hi q →
        (ofEdges (unionEdges f g hi E F)).Path q v (hi + 1 : Nat) →
        (ofEdges F).Path q v g.accept := fun hq hv =>
      hv.upToExit (unionEdges_from_right hf hg) hsink hq fun hb => hb.ne_natCast (by omega) rfl
    rcases h.head (natCast_ne (by omega)) with ⟨q, he, hw⟩ | ⟨a, v, q, rfl, he, hv⟩
    · rcases unionEdges_from_start hf hg _ he rfl with heq | heq
      · cases heq
        exact .unionLeft s ((hf.path_iff w).1 (hleft hf.start_between hw))
      · cases heq
        exact .unionRight r ((hg.path_iff w).1 (hright hg.start_between hw))
    · rcases unionEdges_from_start hf hg _ he rfl with heq | heq <;> cases heq
  · intro h
    cases h with
    | unionLeft _ hw =>
      exact ((hf.path_iff w).2 hw).through
        (fun e he => mem_unionEdges.2 (.inr (.inr (.inr (.inr (.inr he))))))
        (mem_unionEdges.2 (.inr (.inr (.inr (.inl rfl))))) (mem_unionEdges.2 (.inr (.inl rfl)))
    | unionRight _ hw =>
      exact ((hg.path_iff w).2 hw).through
        (fun e he => mem_unionEdges.2 (.inr (.inr (.inr (.inr (.inl he))))))
        (mem_unionEdges.2 (.inr (.inr (.inl rfl)))) (mem_unionEdges.2 (.inl rfl))

/-- A choice of two fragments on ranges that follow each other. -/
theorem union : Realizes ⟨hi, (hi + 1 : Nat)⟩ (unionEdges f g hi E F) lo (hi + 2) (.union r s) := by
  have hlo := hf.start_between.le
  have hhi := hg.start_between.le
  exact {
    start_between := between_natCast.2 (by omega)
    accept_between := between_natCast.2 (by omega)
    edges_between := unionEdges_between hf hg
    target_ne_start := unionEdges_target_ne hf hg
    path_iff := fun w => path_unionEdges_iff hf hg }

end

/-! ### Repetition -/

/-- The edges of a repetition whose new ends are the next two numbers. -/
def starEdges (f : Fragment) (n : Nat) (E : List (Edge Label)) : List (Edge Label) :=
  [⟨f.accept, none, (n + 1 : Nat)⟩, ⟨f.accept, none, f.start⟩, ⟨n, none, (n + 1 : Nat)⟩,
    ⟨n, none, f.start⟩] ++ E

@[simp]
theorem mem_starEdges {e : Edge Label} : e ∈ starEdges f n E ↔
    e = ⟨f.accept, none, (n + 1 : Nat)⟩ ∨ e = ⟨f.accept, none, f.start⟩ ∨
      e = ⟨n, none, (n + 1 : Nat)⟩ ∨ e = ⟨n, none, f.start⟩ ∨ e ∈ E := by
  simp only [starEdges, List.cons_append, List.nil_append, List.mem_cons]

section

variable (hf : f.Realizes E lo hi r)

include hf

theorem starEdges_between : EdgesBetween lo (hi + 2) (starEdges f hi E) := by
  have hlo := hf.start_between.le
  have hstart : Between lo (hi + 2) hi := between_natCast.2 (by omega)
  have haccept : Between lo (hi + 2) (hi + 1 : Nat) := between_natCast.2 (by omega)
  have hfs := hf.start_between.mono (Nat.le_refl _) (Nat.le_add_right hi 2)
  have hfa := hf.accept_between.mono (Nat.le_refl _) (Nat.le_add_right hi 2)
  intro e he
  rcases mem_starEdges.1 he with rfl | rfl | rfl | rfl | he
  · exact ⟨hfa, haccept⟩
  · exact ⟨hfa, hfs⟩
  · exact ⟨hstart, haccept⟩
  · exact ⟨hstart, hfs⟩
  · exact hf.edges_between.mono (Nat.le_refl _) (Nat.le_add_right hi 2) e he

theorem starEdges_target_ne : ∀ e ∈ starEdges f hi E, e.target ≠ hi := by
  intro e he
  rcases mem_starEdges.1 he with rfl | rfl | rfl | rfl | he
  · exact natCast_ne (by omega)
  · exact hf.start_between.ne_natCast (Nat.le_refl _)
  · exact natCast_ne (by omega)
  · exact hf.start_between.ne_natCast (Nat.le_refl _)
  · exact (hf.edges_between e he).2.ne_natCast (Nat.le_refl _)

theorem starEdges_source_ne : ∀ e ∈ starEdges f hi E, e.source ≠ (hi + 1 : Nat) := by
  intro e he
  rcases mem_starEdges.1 he with rfl | rfl | rfl | rfl | he
  · exact hf.accept_between.ne_natCast (by omega)
  · exact hf.accept_between.ne_natCast (by omega)
  · exact natCast_ne (by omega)
  · exact natCast_ne (by omega)
  · exact (hf.edges_between e he).1.ne_natCast (by omega)

/-- The new start is left on a silent move to the new end or to the start of the body. -/
theorem starEdges_from_start : ∀ e ∈ starEdges f hi E, e.source = hi →
    e = ⟨hi, none, (hi + 1 : Nat)⟩ ∨ e = ⟨hi, none, f.start⟩ := by
  intro e he hs
  rcases mem_starEdges.1 he with rfl | rfl | rfl | rfl | he
  · exact absurd hs (hf.accept_between.ne_natCast (Nat.le_refl _))
  · exact absurd hs (hf.accept_between.ne_natCast (Nat.le_refl _))
  · exact .inl rfl
  · exact .inr rfl
  · exact absurd hs ((hf.edges_between e he).1.ne_natCast (Nat.le_refl _))

/-- The body is left from its end alone: back to its start or to the new end. -/
theorem starEdges_from_body : ∀ e ∈ starEdges f hi E, Between lo hi e.source →
    (e ∈ E ∧ Between lo hi e.target) ∨ e = ⟨f.accept, none, f.start⟩ ∨
      e = ⟨f.accept, none, (hi + 1 : Nat)⟩ := by
  intro e he hb
  rcases mem_starEdges.1 he with rfl | rfl | rfl | rfl | he
  · exact .inr (.inr rfl)
  · exact .inr (.inl rfl)
  · exact absurd rfl (hb.ne_natCast (Nat.le_refl _))
  · exact absurd rfl (hb.ne_natCast (Nat.le_refl _))
  · exact .inl ⟨he, (hf.edges_between e he).2⟩

/-- A path from within the body to the new end first finishes the round that it is in. -/
theorem starEdges_rounds (hp : Between lo hi p) (hq : q = (hi + 1 : Nat))
    (h : (ofEdges (starEdges f hi E)).Path p w q) :
    ∃ u v, w = u ++ v ∧ (ofEdges E).Path p u f.accept ∧ r.star.Matches v := by
  induction h with
  | nil => exact absurd hq (hp.ne_natCast (by omega))
  | silent he rest ih =>
    rcases starEdges_from_body hf _ he hp with ⟨heE, ht⟩ | heq | heq
    · obtain ⟨u, v, rfl, hu, hv⟩ := ih ht hq
      exact ⟨u, v, rfl, .silent heE hu, hv⟩
    · cases heq
      obtain ⟨u, v, rfl, hu, hv⟩ := ih hf.start_between hq
      exact ⟨[], u ++ v, rfl, .nil _, .starCons ((hf.path_iff u).1 hu) hv⟩
    · cases heq
      rw [(rest.of_sink (starEdges_source_ne hf)).1]
      exact ⟨[], [], rfl, .nil _, .starNil r⟩
  | symbol he rest ih =>
    rcases starEdges_from_body hf _ he hp with ⟨heE, ht⟩ | heq | heq
    · obtain ⟨u, v, rfl, hu, hv⟩ := ih ht hq
      exact ⟨_ :: u, v, rfl, .symbol heE hu, hv⟩
    · cases heq
    · cases heq

theorem path_starEdges_iff :
    (ofEdges (starEdges f hi E)).Path hi w (hi + 1 : Nat) ↔ r.star.Matches w := by
  have hexit : ⟨f.accept, none, (hi + 1 : Nat)⟩ ∈ starEdges f hi E := mem_starEdges.2 (.inl rfl)
  have hback : ⟨f.accept, none, f.start⟩ ∈ starEdges f hi E := mem_starEdges.2 (.inr (.inl rfl))
  have hskip : ⟨hi, none, (hi + 1 : Nat)⟩ ∈ starEdges f hi E :=
    mem_starEdges.2 (.inr (.inr (.inl rfl)))
  have henter : ⟨hi, none, f.start⟩ ∈ starEdges f hi E :=
    mem_starEdges.2 (.inr (.inr (.inr (.inl rfl))))
  have hbody : ∀ e ∈ E, e ∈ starEdges f hi E :=
    fun e he => mem_starEdges.2 (.inr (.inr (.inr (.inr he))))
  constructor
  · intro h
    rcases h.head (natCast_ne (by omega)) with ⟨q, he, hw⟩ | ⟨a, v, q, rfl, he, _⟩
    · rcases starEdges_from_start hf _ he rfl with heq | heq
      · cases heq
        rw [(hw.of_sink (starEdges_source_ne hf)).1]
        exact .starNil r
      · cases heq
        obtain ⟨u, v, rfl, hu, hv⟩ := starEdges_rounds hf hf.start_between rfl hw
        exact .starCons ((hf.path_iff u).1 hu) hv
    · rcases starEdges_from_start hf _ he rfl with heq | heq <;> cases heq
  · -- after one round, every further round goes back first
    have hrounds : ∀ {t v}, t = r.star → t.Matches v →
        (ofEdges (starEdges f hi E)).Path f.accept v (hi + 1 : Nat) := by
      intro t v ht h
      induction h with
      | starNil => exact .silent hexit (.nil _)
      | starCons hu _ _ ih =>
        cases ht
        exact .silent hback ((((hf.path_iff _).2 hu).mono hbody).append (ih rfl))
      | _ => cases ht
    intro h
    cases h with
    | starNil => exact .silent hskip (.nil _)
    | starCons hu hv =>
      exact .silent henter ((((hf.path_iff _).2 hu).mono hbody).append (hrounds rfl hv))

/-- A fragment that may be passed any number of times. -/
theorem star : Realizes ⟨hi, (hi + 1 : Nat)⟩ (starEdges f hi E) lo (hi + 2) r.star := by
  have hlo := hf.start_between.le
  exact {
    start_between := between_natCast.2 (by omega)
    accept_between := between_natCast.2 (by omega)
    edges_between := starEdges_between hf
    target_ne_start := starEdges_target_ne hf
    path_iff := fun w => path_starEdges_iff hf }

end

end Realizes

end Fragment

/-! ## Whole expressions -/

namespace Regex

open Fragment RegularLanguage.NFA

/-- What holds of the fragments of leaves and goes over from the operands to a node holds of every
fragment, along with the edges that it adds to those that are there. -/
theorem fragment_induction {P : Fragment → List (Edge Label) → Nat → Nat → Regex → Prop}
    (empty : ∀ n : Nat, P ⟨n, (n + 1 : Nat)⟩ [] n (n + 2) .empty)
    (epsilon : ∀ n : Nat,
      P ⟨n, (n + 1 : Nat)⟩ [⟨n, none, (n + 1 : Nat)⟩] n (n + 2) .epsilon)
    (literal : ∀ (n : Nat) (a : Symbol),
      P ⟨n, (n + 1 : Nat)⟩ [⟨n, some a, (n + 1 : Nat)⟩] n (n + 2) (.literal a))
    (concat : ∀ {f g E F lo mid hi r s}, P f E lo mid r → P g F mid hi s →
      P ⟨f.start, g.accept⟩ (⟨f.accept, none, g.start⟩ :: (F ++ E)) lo hi (.concat r s))
    (union : ∀ {f g E F lo mid hi r s}, P f E lo mid r → P g F mid hi s →
      P ⟨hi, (hi + 1 : Nat)⟩ (Realizes.unionEdges f g hi E F) lo (hi + 2) (.union r s))
    (star : ∀ {f E lo hi r}, P f E lo hi r →
      P ⟨hi, (hi + 1 : Nat)⟩ (Realizes.starEdges f hi E) lo (hi + 2) (.star r))
    (r : Regex) (b : Builder) : ∃ E, (r.fragment b).2.edges = E ++ b.edges ∧
      P (r.fragment b).1 E b.size (r.fragment b).2.size r := by
  induction r generalizing b with
  | empty => exact ⟨[], rfl, empty b.size⟩
  | epsilon => exact ⟨_, rfl, epsilon b.size⟩
  | literal a => exact ⟨_, rfl, literal b.size a⟩
  | concat r s ihr ihs =>
    obtain ⟨E, hE, hr⟩ := ihr b
    obtain ⟨F, hF, hs⟩ := ihs (r.fragment b).2
    refine ⟨_, ?_, concat hr hs⟩
    simp only [fragment, Fragment.concat, Builder.addSilent, Builder.addEdge, hF, hE,
      List.cons_append, List.append_assoc]
  | union r s ihr ihs =>
    obtain ⟨E, hE, hr⟩ := ihr b
    obtain ⟨F, hF, hs⟩ := ihs (r.fragment b).2
    refine ⟨_, ?_, union hr hs⟩
    simp only [fragment, Fragment.union, Builder.addState, Builder.addSilent, Builder.addEdge, hF,
      hE, Realizes.unionEdges, List.cons_append, List.nil_append, List.append_assoc]
  | star r ih =>
    obtain ⟨E, hE, hr⟩ := ih b
    refine ⟨_, ?_, star hr⟩
    simp only [fragment, Fragment.star, Builder.addState, Builder.addSilent, Builder.addEdge, hE,
      Realizes.starEdges, List.cons_append, List.nil_append]

/-- The fragment of an expression realizes the expression along the edges that it adds. -/
theorem fragment_realizes (r : Regex) (b : Builder) :
    ∃ E, (r.fragment b).2.edges = E ++ b.edges ∧
      (r.fragment b).1.Realizes E b.size (r.fragment b).2.size r :=
  fragment_induction .empty .epsilon .literal .concat .union .star r b

theorem toNFA_eq (r : Regex) (alphabet : List Symbol) : r.toNFA alphabet =
    .ofParts (r.fragment {}).2.states (r.fragment {}).1.start [(r.fragment {}).1.accept]
      (r.fragment {}).2.edges alphabet := by
  rw [toNFA, assemble_eq_fragment]

theorem toNFA_isValid (r : Regex) (alphabet : List Symbol) : (r.toNFA alphabet).IsValid := by
  obtain ⟨E, hE, hr⟩ := r.fragment_realizes {}
  rw [List.append_nil] at hE
  rw [toNFA_eq]
  refine NFA.ofParts_isValid (Builder.mem_states.2 hr.start_between) (fun q hq => ?_)
    fun e he => ?_
  · exact List.mem_singleton.1 hq ▸ Builder.mem_states.2 hr.accept_between
  · obtain ⟨hsource, htarget⟩ := hr.edges_between e (hE ▸ he)
    exact ⟨Builder.mem_states.2 hsource, Builder.mem_states.2 htarget⟩

/-- The builder of an expression's fragment gives the automaton of the expression: its parts fit
together. -/
theorem build_fragment (r : Regex) (alphabet : List Symbol) :
    (r.fragment {}).2.build (r.fragment {}).1.start [(r.fragment {}).1.accept] alphabet =
      .ok (r.toNFA alphabet) := by
  have hreverse : r.toNFA alphabet = .ofParts (r.fragment {}).2.states (r.fragment {}).1.start
      [(r.fragment {}).1.accept] (r.fragment {}).2.edges.reverse alphabet := by
    rw [r.toNFA_eq]
    exact NFA.ofParts_congr (fun _ => Iff.rfl) (fun _ => Iff.rfl) fun _ _ _ => List.mem_reverse.symm
  rw [hreverse]
  exact NFA.build_of_isValid (hreverse ▸ r.toNFA_isValid alphabet)

/-- The automaton of an expression is the fragment of the expression on its own. -/
theorem toNFA_realizes (r : Regex) (alphabet : List Symbol) :
    ∃ (f : Fragment) (E : List (Edge Label)) (size : Nat), f.Realizes E 0 size r ∧
      (r.toNFA alphabet).start = f.start ∧ (∀ q, q ∈ (r.toNFA alphabet).final ↔ q = f.accept) ∧
      (∀ q, q ∈ (r.toNFA alphabet).states ↔ Between 0 size q) ∧
      ∀ e, e ∈ (r.toNFA alphabet).edges ↔ e ∈ E := by
  obtain ⟨E, hE, hr⟩ := r.fragment_realizes {}
  rw [List.append_nil] at hE
  refine ⟨_, E, _, hr, ?_⟩
  simp [toNFA_eq, NFA.ofParts, Automaton.ofParts, Builder.mem_states, hE]

/-- The start is not entered again. -/
theorem toNFA_target_ne_start (r : Regex) (alphabet : List Symbol) :
    ∀ e ∈ (r.toNFA alphabet).edges, e.target ≠ (r.toNFA alphabet).start := by
  obtain ⟨f, E, size, hf, hstart, -, -, hedges⟩ := r.toNFA_realizes alphabet
  intro e he
  rw [hstart]
  exact hf.target_ne_start e ((hedges e).1 he)

/-- The automaton of an expression accepts the words that the expression denotes, whatever symbols
are declared with it. -/
theorem toNFA_accepts_iff_matches (r : Regex) (alphabet : List Symbol) (w : Word) :
    (r.toNFA alphabet).accepts w = true ↔ r.Matches w := by
  obtain ⟨f, E, size, hf, hstart, hfinal, -, hedges⟩ := r.toNFA_realizes alphabet
  have hpath : (ofEdges E).Path f.start w f.accept ↔
      (r.toNFA alphabet).Path (r.toNFA alphabet).start w f.accept := by
    rw [hstart]
    exact ⟨.mono fun e he => (hedges e).2 he, .mono fun e he => (hedges e).1 he⟩
  rw [← hf.path_iff w, hpath, accepts, acceptsLabels, Ascending.meets_eq_true_iff]
  simp only [mem_run_iff_path, hfinal]
  constructor
  · rintro ⟨q, hq, rfl⟩
    exact hq
  · exact fun h => ⟨f.accept, h, rfl⟩

end Regex

end RegularLanguage
