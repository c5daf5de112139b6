import Mathlib.Data.List.Count
import Mathlib.Data.Nat.Find
import RegularLanguage.Search.Reach
/-!
# Searching by rounds

A round goes on from what was new in the round before, and it leaves out what has been visited.
Nothing is lost by that: the visited nodes hold the successors of all but the front
(`mem_searched_of_not_mem_front`). A round that finds something leaves fewer nodes to be found, so
the front is empty after as many rounds as there are nodes (`exists_front_eq_nil`). What has been
visited by then are the nodes to which paths lead from the sources (`mem_reach`).

| here | `relang` |
| --- | --- |
| `searched` | `visited` and `front` of `AdjacencyMatrixFA.reachable` |
-/

namespace RegularLanguage

open Std

/-! ## Paths -/

inductive Leads {ν : Type} (successors : ν → List ν) : ν → ν → Prop where
  | refl (v : ν) : Leads successors v v
  | step {u v w : ν} (h : v ∈ successors u) (rest : Leads successors v w) : Leads successors u w

theorem Leads.trans {ν : Type} {successors : ν → List ν} {u v w : ν} (huv : Leads successors u v)
    (hvw : Leads successors v w) : Leads successors u w := by
  induction huv with
  | refl => exact hvw
  | step h _ ih => exact .step h (ih hvw)

theorem Leads.mono {ν : Type} {successors successors' : ν → List ν} {u v : ν}
    (h : ∀ u, ∀ v ∈ successors u, v ∈ successors' u) (huv : Leads successors u v) :
    Leads successors' u v := by
  induction huv with
  | refl => exact .refl _
  | step hw _ ih => exact .step (h _ _ hw) ih

/-- What leads on in a graph leads back where its arcs are turned round. -/
theorem Leads.reverse {ν : Type} {successors predecessors : ν → List ν} {u v : ν}
    (h : ∀ u v, v ∈ successors u → u ∈ predecessors v) (huv : Leads successors u v) :
    Leads predecessors v u := by
  induction huv with
  | refl => exact .refl _
  | step hw _ ih => exact ih.trans (.step (h _ _ hw) (.refl _))

/-! ## One round -/

section

variable {ν : Type} [Ord ν] [TransOrd ν] [LawfulEqOrd ν]

theorem mem_visit {s : Visit ν} {v a : ν} : a ∈ (visit s v).1 ↔ a ∈ s.1 ∨ a = v := by
  unfold visit
  split
  · rename_i h
    constructor
    · exact Or.inl
    · rintro (ha | rfl)
      · exact ha
      · exact h
  · rw [TreeSet.mem_insert, LawfulEqOrd.compare_eq_iff_eq]
    constructor
    · rintro (rfl | ha)
      · exact Or.inr rfl
      · exact Or.inl ha
    · rintro (ha | rfl)
      · exact Or.inr ha
      · exact Or.inl rfl

theorem mem_foldl_visit {vs : List ν} {s : Visit ν} {a : ν} :
    a ∈ (vs.foldl visit s).1 ↔ a ∈ s.1 ∨ a ∈ vs := by
  induction vs generalizing s with
  | nil => simp
  | cons v vs ih => rw [List.foldl_cons, ih, mem_visit, List.mem_cons, or_assoc]

omit [TransOrd ν] [LawfulEqOrd ν] in
theorem mem_new_visit {s : Visit ν} {v a : ν} : a ∈ (visit s v).2 ↔ a ∈ s.2 ∨ a = v ∧ v ∉ s.1 := by
  unfold visit
  split
  · rename_i h
    exact (or_iff_left fun hv => hv.2 h).symm
  · rename_i h
    rw [List.mem_cons, or_comm]
    exact or_congr_right (and_iff_left h).symm

/-- What is new is what had not been visited. -/
theorem mem_new_foldl_visit {vs : List ν} {s : Visit ν} {a : ν} :
    a ∈ (vs.foldl visit s).2 ↔ a ∈ s.2 ∨ a ∈ vs ∧ a ∉ s.1 := by
  induction vs generalizing s with
  | nil => simp
  | cons v vs ih =>
    rw [List.foldl_cons, ih, mem_new_visit, mem_visit, List.mem_cons, not_or, or_assoc]
    refine or_congr_right ?_
    by_cases hav : a = v
    · subst hav
      simp
    · simp [hav]

/-- What is new has been visited now and was not visited at first. -/
def FreshSince (visited : TreeSet ν compare) (s : Visit ν) : Prop :=
  ∀ a, a ∈ s.2 ↔ a ∈ s.1 ∧ a ∉ visited

theorem FreshSince.foldl {visited : TreeSet ν compare} {vs : List ν} {s : Visit ν}
    (h : FreshSince visited s) (hle : ∀ a ∈ visited, a ∈ s.1) :
    FreshSince visited (vs.foldl visit s) := by
  intro a
  rw [mem_new_foldl_visit, mem_foldl_visit, h a]
  by_cases ha : a ∈ s.1
  · simp [ha]
  · have hunseen : a ∉ visited := fun hv => ha (hle a hv)
    simp [ha, hunseen]

/-- A round visits the successors of the front. -/
theorem mem_visitFront {successors : ν → List ν} {front : List ν} {visited : TreeSet ν compare}
    {a : ν} : a ∈ (visitFront successors front visited).1 ↔
      a ∈ visited ∨ ∃ v ∈ front, a ∈ successors v := by
  have h : ∀ (front : List ν) (s : Visit ν),
      a ∈ (front.foldl (fun s v => (successors v).foldl visit s) s).1 ↔
        a ∈ s.1 ∨ ∃ v ∈ front, a ∈ successors v := by
    intro front
    induction front with
    | nil => simp
    | cons v front ih =>
      intro s
      rw [List.foldl_cons, ih, mem_foldl_visit]
      simp [or_assoc]
  exact h front (visited, [])

theorem freshSince_visitFront (successors : ν → List ν) (front : List ν)
    (visited : TreeSet ν compare) : FreshSince visited (visitFront successors front visited) := by
  have h : ∀ (front : List ν) (s : Visit ν), FreshSince visited s → (∀ a ∈ visited, a ∈ s.1) →
      FreshSince visited (front.foldl (fun s v => (successors v).foldl visit s) s) := by
    intro front
    induction front with
    | nil => exact fun _ hs _ => hs
    | cons v front ih =>
      intro s hs hle
      exact ih _ (hs.foldl hle) fun a ha => mem_foldl_visit.2 (Or.inl (hle a ha))
  exact h front (visited, []) (by intro a; simp) fun _ ha => ha

end

section

variable {ν : Type} [Ord ν] {successors : ν → List ν} {sources nodes : List ν}
  {bound fuel j k : Nat} {v w : ν}

/-! ## Nodes that are left -/

/-- A condition that holds for more members counts more of them. -/
theorem countP_lt_countP {α : Type} {p q : α → Bool} {xs : List α}
    (hpq : ∀ x ∈ xs, p x = true → q x = true) {b : α} (hb : b ∈ xs) (hq : q b = true)
    (hp : p b = false) : xs.countP p < xs.countP q := by
  induction xs with
  | nil => cases hb
  | cons x xs ih =>
    have hle : xs.countP p ≤ xs.countP q :=
      List.countP_mono_left fun y hy => hpq y (List.mem_cons_of_mem x hy)
    rw [List.countP_cons, List.countP_cons]
    rcases List.mem_cons.1 hb with rfl | hb
    · rw [hq, hp]
      simp only [Bool.false_eq_true, if_false, if_true]
      omega
    · have hlt := ih (fun y hy => hpq y (List.mem_cons_of_mem x hy)) hb
      have hx := hpq x List.mem_cons_self
      by_cases hpx : p x = true
      · rw [hpx, hx hpx]
        simp only [if_true]
        omega
      · rw [if_neg hpx]
        split <;> omega

/-- How many of some nodes have not been visited. -/
def unvisited (nodes : List ν) (visited : TreeSet ν compare) : Nat :=
  nodes.countP fun v => !visited.contains v

theorem not_contains_iff {visited : TreeSet ν compare} {v : ν} :
    (!visited.contains v) = true ↔ v ∉ visited := by
  rw [Bool.not_eq_true', ← Bool.not_eq_true]
  exact Iff.rfl

/-! ## Rounds -/

/-- What a search has visited after some rounds, and what was new in the last of them. -/
def searched (successors : ν → List ν) (sources : List ν) : Nat → Visit ν
  | 0 => (TreeSet.ofList sources compare, sources)
  | k + 1 =>
    let (visited, front) := searched successors sources k
    visitFront successors front visited

/-- Nothing is visited any more once there is nothing new. -/
theorem searched_add_of_front_eq_nil (h : (searched successors sources k).2 = []) :
    searched successors sources (k + j) = searched successors sources k := by
  induction j with
  | zero => rfl
  | succ j ih =>
    show visitFront successors (searched successors sources (k + j)).2
      (searched successors sources (k + j)).1 = _
    rw [ih, h]
    exact Prod.ext rfl h.symm

theorem front_ne_nil_of_le (h : (searched successors sources k).2 ≠ []) (hj : j ≤ k) :
    (searched successors sources j).2 ≠ [] := by
  intro hnil
  obtain ⟨l, rfl⟩ := Nat.exists_eq_add_of_le hj
  rw [searched_add_of_front_eq_nil hnil] at h
  exact h hnil

/-- The search may be taken up after any round. -/
theorem sweep_searched : sweep successors fuel (searched successors sources k).2
    (searched successors sources k).1 = (searched successors sources (k + fuel)).1 := by
  induction fuel generalizing k with
  | zero => rfl
  | succ fuel ih =>
    have hround : visitFront successors (searched successors sources k).2
        (searched successors sources k).1 = searched successors sources (k + 1) := rfl
    have hrest := ih (k := k + 1)
    rw [sweep, hround, Nat.add_comm fuel, ← Nat.add_assoc]
    rcases hs : searched successors sources (k + 1) with ⟨visited, _ | ⟨v, next⟩⟩
    · rw [searched_add_of_front_eq_nil (by rw [hs]), hs]
    · rw [← hrest, hs]

theorem reach_eq_searched :
    reach successors bound sources = (searched successors sources bound).1.toList := by
  rw [← Nat.zero_add bound, ← sweep_searched, Nat.zero_add]
  rfl

variable [TransOrd ν] [LawfulEqOrd ν]

@[simp]
theorem mem_searched_zero : v ∈ (searched successors sources 0).1 ↔ v ∈ sources := by
  classical
  simp [searched, TreeSet.mem_ofList]

/-- The front is what has been visited in the round and not before. -/
theorem mem_front_succ : v ∈ (searched successors sources (k + 1)).2 ↔
    v ∈ (searched successors sources (k + 1)).1 ∧ v ∉ (searched successors sources k).1 :=
  freshSince_visitFront successors _ _ v

theorem mem_searched_succ_iff_front : w ∈ (searched successors sources (k + 1)).1 ↔
    w ∈ (searched successors sources k).1 ∨
      ∃ v ∈ (searched successors sources k).2, w ∈ successors v :=
  mem_visitFront

theorem mem_searched_of_mem_front (hv : v ∈ (searched successors sources k).2) :
    v ∈ (searched successors sources k).1 := by
  cases k with
  | zero => exact mem_searched_zero.2 hv
  | succ k => exact (mem_front_succ.1 hv).1

/-- Nodes that are not in the front any more have had their successors visited. -/
theorem mem_searched_of_not_mem_front (hv : v ∈ (searched successors sources k).1)
    (hfront : v ∉ (searched successors sources k).2) (hw : w ∈ successors v) :
    w ∈ (searched successors sources k).1 := by
  induction k with
  | zero => exact absurd (mem_searched_zero.1 hv) hfront
  | succ k ih =>
    rw [mem_searched_succ_iff_front]
    -- the node was visited before the round, else it were in the front now
    have hold : v ∈ (searched successors sources k).1 := by
      by_contra hnew
      exact hfront (mem_front_succ.2 ⟨hv, hnew⟩)
    by_cases hlast : v ∈ (searched successors sources k).2
    · exact .inr ⟨v, hlast, hw⟩
    · exact .inl (ih hold hlast)

/-- A round visits the successors of all nodes, though it looks at the front only. -/
theorem mem_searched_succ : w ∈ (searched successors sources (k + 1)).1 ↔
    w ∈ (searched successors sources k).1 ∨
      ∃ v ∈ (searched successors sources k).1, w ∈ successors v := by
  rw [mem_searched_succ_iff_front]
  constructor
  · rintro (hw | ⟨v, hv, hw⟩)
    · exact .inl hw
    · exact .inr ⟨v, mem_searched_of_mem_front hv, hw⟩
  · rintro (hw | ⟨v, hv, hw⟩)
    · exact .inl hw
    · by_cases hfront : v ∈ (searched successors sources k).2
      · exact .inr ⟨v, hfront, hw⟩
      · exact .inl (mem_searched_of_not_mem_front hv hfront hw)

theorem mem_searched_of_mem_sources (hv : v ∈ sources) : v ∈ (searched successors sources k).1 := by
  induction k with
  | zero => exact mem_searched_zero.2 hv
  | succ k ih => exact mem_searched_succ.2 (.inl ih)

theorem leads_of_mem_searched (hw : w ∈ (searched successors sources k).1) :
    ∃ v ∈ sources, Leads successors v w := by
  induction k generalizing w with
  | zero => exact ⟨w, mem_searched_zero.1 hw, .refl w⟩
  | succ k ih =>
    rcases mem_searched_succ.1 hw with hw | ⟨u, hu, hw⟩
    · exact ih hw
    · obtain ⟨v, hv, hvu⟩ := ih hu
      exact ⟨v, hv, hvu.trans (.step hw (.refl w))⟩

/-! ## The number of rounds -/

/-- A source that is a node has been visited before the first round. -/
theorem unvisited_sources_lt (hsources : ∀ v ∈ sources, v ∈ nodes) (h : sources ≠ []) :
    unvisited nodes (TreeSet.ofList sources compare) < nodes.length := by
  classical
  obtain ⟨v, hv⟩ := List.exists_mem_of_ne_nil _ h
  refine List.countP_lt_length_iff.2 ⟨v, hsources v hv, ?_⟩
  simpa [TreeSet.contains_ofList] using hv

section

variable (hnodes : ∀ v, ∀ w ∈ successors v, w ∈ nodes)

include hnodes

/-- A round that finds something leaves fewer nodes to be found. -/
theorem unvisited_searched_succ_lt (h : (searched successors sources (k + 1)).2 ≠ []) :
    unvisited nodes (searched successors sources (k + 1)).1 <
      unvisited nodes (searched successors sources k).1 := by
  obtain ⟨w, hw⟩ := List.exists_mem_of_ne_nil _ h
  obtain ⟨hnow, hbefore⟩ := mem_front_succ.1 hw
  have hnode : w ∈ nodes := by
    rcases mem_searched_succ.1 hnow with hold | ⟨v, -, hvw⟩
    · exact absurd hold hbefore
    · exact hnodes v w hvw
  refine countP_lt_countP (fun u _ hu => ?_) hnode (not_contains_iff.2 hbefore) ?_
  · rw [not_contains_iff] at hu ⊢
    exact fun hold => hu (mem_searched_succ.2 (.inl hold))
  · rw [Bool.not_eq_false']
    exact hnow

theorem add_unvisited_le (h : (searched successors sources k).2 ≠ []) :
    k + unvisited nodes (searched successors sources k).1 ≤
      unvisited nodes (TreeSet.ofList sources compare) := by
  induction k with
  | zero => exact Nat.le_of_eq (Nat.zero_add _)
  | succ k ih =>
    have hle := ih (front_ne_nil_of_le h (Nat.le_succ k))
    have hlt := unvisited_searched_succ_lt hnodes h
    omega

/-- The front gets empty within as many rounds as there are nodes, and the result is what has been
visited by then. -/
theorem exists_front_eq_nil (hsources : ∀ v ∈ sources, v ∈ nodes) (hbound : nodes.length ≤ bound) :
    ∃ k ≤ nodes.length, (searched successors sources k).2 = [] ∧
      (∀ j < k, (searched successors sources j).2 ≠ []) ∧
      reach successors bound sources = (searched successors sources k).1.toList := by
  classical
  have hlast : (searched successors sources nodes.length).2 = [] := by
    by_contra hne
    have hle := add_unvisited_le hnodes hne
    have hlt := unvisited_sources_lt hsources (front_ne_nil_of_le hne (Nat.zero_le _))
    omega
  have hend : ∃ k, (searched successors sources k).2 = [] := ⟨_, hlast⟩
  have hfirst : Nat.find hend ≤ nodes.length := Nat.find_min' hend hlast
  refine ⟨Nat.find hend, hfirst, Nat.find_spec hend, fun j hj => Nat.find_min hend hj, ?_⟩
  obtain ⟨l, hl⟩ := Nat.exists_eq_add_of_le (Nat.le_trans hfirst hbound)
  rw [reach_eq_searched, hl, searched_add_of_front_eq_nil (Nat.find_spec hend)]

/-- The search finds the nodes to which paths lead from the sources. -/
theorem mem_reach (hbound : nodes.length ≤ bound) :
    w ∈ reach successors bound sources ↔ ∃ v ∈ sources, Leads successors v w := by
  have hclosed : ∀ {v w}, v ∈ (searched successors sources bound).1 → w ∈ successors v →
      w ∈ (searched successors sources bound).1 := by
    intro v w hv hw
    by_cases hfront : (searched successors sources bound).2 = []
    · exact mem_searched_of_not_mem_front hv (hfront ▸ List.not_mem_nil) hw
    · -- something was found in every round, so nothing is left to be found
      have hle := add_unvisited_le hnodes hfront
      have hcount : unvisited nodes (TreeSet.ofList sources compare) ≤ nodes.length :=
        List.countP_le_length
      have hnone : unvisited nodes (searched successors sources bound).1 = 0 := by omega
      by_contra hnew
      exact List.countP_eq_zero.1 hnone w (hnodes v w hw) (not_contains_iff.2 hnew)
  rw [reach_eq_searched, TreeSet.mem_toList]
  constructor
  · exact leads_of_mem_searched
  · rintro ⟨v, hv, hvw⟩
    have hstart : v ∈ (searched successors sources bound).1 := mem_searched_of_mem_sources hv
    clear hv
    induction hvw with
    | refl => exact hstart
    | step hw _ ih => exact ih (hclosed hstart hw)

end

/-- The nodes that are found are those to which arcs lead from the sources. -/
theorem Digraph.mem_reach {arcs : List (ν × ν)} : v ∈ (Digraph.ofArcs arcs).reach sources ↔
    ∃ u ∈ sources, Leads (Digraph.ofArcs arcs).successors.values u v := by
  have hnodes : ∀ v, ∀ w ∈ (ofArcs arcs).successors.values v, w ∈ arcs.map Prod.snd :=
    fun v w hw => List.mem_map.2 ⟨(v, w), mem_successors.1 hw, rfl⟩
  have hbound : (arcs.map Prod.snd).length ≤ (ofArcs arcs).arcs := by simp [ofArcs]
  exact RegularLanguage.mem_reach hnodes hbound

end

end RegularLanguage
