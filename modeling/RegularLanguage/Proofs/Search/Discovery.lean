import Mathlib.Data.List.Perm.Subperm
import RegularLanguage.Search.Discovery
import RegularLanguage.Proofs.Search.Numbering
/-!
# The order of discovery

Arcs are looked at by ascending sources, and by ascending labels where the source is the same. A
node gets its number when the first arc to it is looked at, so this arc comes before all arcs to
nodes of greater numbers (`IsFoundBy`). With room for all nodes, exploring ends with every node
found and every arc looked at (`ofStart_isBreadthFirst`).
-/

namespace RegularLanguage

open Std

def Earlier {α : Type} [Ord α] (i : Nat) (a : α) (i' : Nat) (a' : α) : Prop :=
  i < i' ∨ i = i' ∧ compare a a' = .lt

namespace Discovery

variable {κ α : Type} [Ord κ] {successors : κ → List (α × κ)} {start k k' : κ}
  {d d' : Discovery κ α} {arcs : List (Nat × α × Nat)} {i j p t : Nat} {a b : α}
  {moves : List (α × κ)} {nodes : List κ}

/-- Nothing that was found is lost. -/
structure Extends (d d' : Discovery κ α) : Prop where
  key : ∀ i k, d.found.key? i = some k → d'.found.key? i = some k
  arc : ∀ x ∈ d.arcs, x ∈ d'.arcs

theorem Extends.refl (d : Discovery κ α) : d.Extends d := ⟨fun _ _ h => h, fun _ h => h⟩

theorem Extends.trans {d'' : Discovery κ α} (h : d.Extends d') (h' : d'.Extends d'') :
    d.Extends d'' :=
  ⟨fun i k hk => h'.key i k (h.key i k hk), fun x hx => h'.arc x (h.arc x hx)⟩

theorem addArc_eq : addArc i d (a, k') =
    ⟨(d.found.intern k').2, (i, a, (d.found.intern k').1) :: d.arcs⟩ := rfl

variable [Ord α]

/-- Node `j` was found along an arc from `p`, and the other arcs to it and to nodes found later are
looked at later. -/
def IsFoundBy (arcs : List (Nat × α × Nat)) (p : Nat) (a : α) (j : Nat) : Prop :=
  p < j ∧ (p, a, j) ∈ arcs ∧
    ∀ i b t, (i, b, t) ∈ arcs → j ≤ t → (p, a, j) = (i, b, t) ∨ Earlier p a i b

/-- What holds at any time: arcs are those of the graph, and each node but the start was found along
one of them. -/
structure IsSound (successors : κ → List (α × κ)) (start : κ) (d : Discovery κ α) : Prop where
  proper : d.found.IsProper
  start_key : d.found.key? 0 = some start
  arc : ∀ i a j, (i, a, j) ∈ d.arcs → ∃ k k', d.found.key? i = some k ∧
    d.found.key? j = some k' ∧ (a, k') ∈ successors k
  foundBy : ∀ j < d.found.size, 0 < j → ∃ p a, IsFoundBy d.arcs p a j

def IsNext (arcs : List (Nat × α × Nat)) (i : Nat) (a : α) : Prop :=
  ∀ x ∈ arcs, Earlier x.1 x.2.1 i a

theorem IsFoundBy.cons (h : IsFoundBy arcs p a j) (hnext : IsNext arcs i b) (t : Nat) :
    IsFoundBy ((i, b, t) :: arcs) p a j := by
  obtain ⟨hp, hmem, hfirst⟩ := h
  refine ⟨hp, List.mem_cons_of_mem _ hmem, fun i' b' t' hx ht => ?_⟩
  rcases List.mem_cons.1 hx with heq | hx
  · cases heq
    exact .inr (hnext _ hmem)
  · exact hfirst i' b' t' hx ht

/-- The arc along which the next number is given away. -/
theorem isFoundBy_cons_of_lt (hi : i < j) (hold : ∀ x ∈ arcs, x.2.2 < j) :
    IsFoundBy ((i, a, j) :: arcs) i a j := by
  refine ⟨hi, List.mem_cons_self, fun i' b' t' hx ht => ?_⟩
  rcases List.mem_cons.1 hx with heq | hx
  · exact .inl heq.symm
  · have := hold _ hx
    simp only at this
    omega

/-- Only nodes of the graph are found. -/
theorem IsSound.mem_of_key? (h : d.IsSound successors start) (hstart : start ∈ nodes)
    (hnodes : ∀ k ∈ nodes, ∀ m ∈ successors k, m.2 ∈ nodes) (hj : d.found.key? j = some k) :
    k ∈ nodes := by
  induction j using Nat.strongRecOn generalizing k with
  | _ j ih =>
    by_cases hj0 : j = 0
    · rw [hj0, h.start_key] at hj
      exact Option.some.inj hj ▸ hstart
    · obtain ⟨p, a, hp, harc, -⟩ :=
        h.foundBy j (Numbering.lt_size_of_key? hj) (Nat.pos_of_ne_zero hj0)
      obtain ⟨l, l', hl, hl', hm⟩ := h.arc p a j harc
      obtain rfl := Option.some.inj (hl'.symm.trans hj)
      exact hnodes l (ih p hp hl) _ hm

theorem IsSound.size_le (h : d.IsSound successors start) (hstart : start ∈ nodes)
    (hnodes : ∀ k ∈ nodes, ∀ m ∈ successors k, m.2 ∈ nodes) : d.found.size ≤ nodes.length := by
  have hsub : d.found.keys.toList ⊆ nodes := by
    intro k hk
    obtain ⟨j, hj⟩ := List.mem_iff_getElem?.1 hk
    refine h.mem_of_key? hstart hnodes (j := j) ?_
    rw [Numbering.key?, ← Array.getElem?_toList, hj]
  exact (h.proper.nodup_keys.subperm hsub).length_le

/-- All nodes have been found, each along the first arc that leads to it, and all arcs are known. -/
structure IsBreadthFirst (successors : κ → List (α × κ)) (start : κ) (d : Discovery κ α) : Prop
    extends d.IsSound successors start where
  closed : ∀ i k, d.found.key? i = some k → ∀ m ∈ successors k,
    ∃ j, d.found.key? j = some m.2 ∧ (i, m.1, j) ∈ d.arcs

/-! ## Looking at an arc -/

/-- Looking at an arc to a node that is known. -/
theorem IsSound.addKnown (h : d.IsSound successors start) (hi : d.found.key? i = some k)
    (hj : d.found.key? j = some k') (hmove : (a, k') ∈ successors k) (hnext : IsNext d.arcs i a) :
    IsSound successors start ⟨d.found, (i, a, j) :: d.arcs⟩ := by
  refine ⟨h.proper, h.start_key, fun i' a' j' hx => ?_, fun t ht ht0 => ?_⟩
  · rcases List.mem_cons.1 hx with hx | hx
    · cases hx
      exact ⟨k, k', hi, hj, hmove⟩
    · exact h.arc i' a' j' hx
  · obtain ⟨p, b, hfound⟩ := h.foundBy t ht ht0
    exact ⟨p, b, hfound.cons hnext j⟩

variable [TransOrd κ] [LawfulEqOrd κ]

/-- Looking at an arc to a new node. -/
theorem IsSound.addNew (h : d.IsSound successors start) (hi : d.found.key? i = some k)
    (hnew : d.found.number? k' = none) (hmove : (a, k') ∈ successors k)
    (hnext : IsNext d.arcs i a) :
    IsSound successors start ⟨d.found.add k', (i, a, d.found.size) :: d.arcs⟩ := by
  have hkeep : ∀ {i k}, d.found.key? i = some k → (d.found.add k').key? i = some k :=
    Numbering.key?_add_of_some
  refine ⟨h.proper.add hnew, hkeep h.start_key, fun i' a' j' hx => ?_, fun t ht ht0 => ?_⟩
  · rcases List.mem_cons.1 hx with hx | hx
    · cases hx
      exact ⟨k, k', hkeep hi, Numbering.key?_add_size, hmove⟩
    · obtain ⟨l, l', hl, hl', hm⟩ := h.arc i' a' j' hx
      exact ⟨l, l', hkeep hl, hkeep hl', hm⟩
  · by_cases htn : t = d.found.size
    · subst htn
      refine ⟨i, a, isFoundBy_cons_of_lt (Numbering.lt_size_of_key? hi) fun x hx => ?_⟩
      obtain ⟨l, l', -, hl', -⟩ := h.arc x.1 x.2.1 x.2.2 hx
      exact Numbering.lt_size_of_key? hl'
    · have ht' : t < d.found.size := by
        simp only [Numbering.size_add] at ht
        omega
      obtain ⟨p, b, hfound⟩ := h.foundBy t ht' ht0
      exact ⟨p, b, hfound.cons hnext _⟩

theorem IsSound.addArc (h : d.IsSound successors start) (hi : d.found.key? i = some k)
    (hmove : (a, k') ∈ successors k) (hnext : IsNext d.arcs i a) :
    (addArc i d (a, k')).IsSound successors start ∧ d.Extends (addArc i d (a, k')) ∧
      ∃ j, (addArc i d (a, k')).arcs = (i, a, j) :: d.arcs ∧
        (addArc i d (a, k')).found.key? j = some k' := by
  rw [addArc_eq]
  rcases h.proper.intern_cases k' with ⟨j, hj, heq⟩ | ⟨hnew, heq⟩ <;> rw [heq]
  · exact ⟨h.addKnown hi hj hmove hnext,
      ⟨fun _ _ hk => hk, fun x hx => List.mem_cons_of_mem _ hx⟩, j, rfl, hj⟩
  · exact ⟨h.addNew hi hnew hmove hnext,
      ⟨fun _ _ => Numbering.key?_add_of_some, fun x hx => List.mem_cons_of_mem _ hx⟩, _, rfl,
      Numbering.key?_add_size⟩

/-! ## Looking at a node -/

/-- What has come of looking at some of the arcs that leave a node. -/
structure LooksAt (i : Nat) (moves : List (α × κ)) (d d' : Discovery κ α) : Prop
    extends d.Extends d' where
  found : ∀ m ∈ moves, ∃ j, d'.found.key? j = some m.2 ∧ (i, m.1, j) ∈ d'.arcs
  source : ∀ x ∈ d'.arcs, x ∈ d.arcs ∨ x.1 = i

theorem IsSound.foldl_addArc (h : d.IsSound successors start) (hi : d.found.key? i = some k)
    (hmoves : ∀ m ∈ moves, m ∈ successors k)
    (hasc : moves.Pairwise fun m m' => compare m.1 m'.1 = .lt)
    (hnext : ∀ m ∈ moves, IsNext d.arcs i m.1) :
    (moves.foldl (Discovery.addArc i) d).IsSound successors start ∧
      LooksAt i moves d (moves.foldl (Discovery.addArc i) d) := by
  induction moves generalizing d with
  | nil => exact ⟨h, .refl d, by simp, fun x hx => .inl hx⟩
  | cons m moves ih =>
    obtain ⟨hlabel, hasc⟩ := List.pairwise_cons.1 hasc
    obtain ⟨hsound, hext, j, harcs, hj⟩ :=
      h.addArc hi (hmoves m List.mem_cons_self) (hnext m List.mem_cons_self)
    have hnext' : ∀ m' ∈ moves, IsNext (Discovery.addArc i d m).arcs i m'.1 := by
      intro m' hm' x hx
      rw [harcs] at hx
      rcases List.mem_cons.1 hx with rfl | hx
      · exact .inr ⟨rfl, hlabel m' hm'⟩
      · exact hnext m' (List.mem_cons_of_mem _ hm') x hx
    obtain ⟨hsound', hlook⟩ := ih hsound (hext.key i k hi)
      (fun m' hm' => hmoves m' (List.mem_cons_of_mem _ hm')) hasc hnext'
    refine ⟨hsound', hext.trans hlook.toExtends, fun m' hm' => ?_, fun x hx => ?_⟩
    · rcases List.mem_cons.1 hm' with rfl | hm'
      · exact ⟨j, hlook.key j _ hj, hlook.arc _ (by rw [harcs]; exact List.mem_cons_self)⟩
      · exact hlook.found m' hm'
    · rcases hlook.source x hx with hx | hx
      · rw [harcs] at hx
        rcases List.mem_cons.1 hx with rfl | hx
        · exact .inr rfl
        · exact .inl hx
      · exact .inr hx

/-- All nodes below `i` have been looked at, and no others. -/
structure IsDone (successors : κ → List (α × κ)) (d : Discovery κ α) (i : Nat) : Prop where
  source_lt : ∀ x ∈ d.arcs, x.1 < i
  closed : ∀ p < i, ∀ k, d.found.key? p = some k → ∀ m ∈ successors k,
    ∃ j, d.found.key? j = some m.2 ∧ (p, m.1, j) ∈ d.arcs

theorem IsDone.step (hdone : d.IsDone successors i) (h : d.IsSound successors start)
    (hi : d.found.key? i = some k)
    (hasc : (successors k).Pairwise fun m m' => compare m.1 m'.1 = .lt) :
    ((successors k).foldl (Discovery.addArc i) d).IsDone successors (i + 1) ∧
      ((successors k).foldl (Discovery.addArc i) d).IsSound successors start := by
  obtain ⟨hsound, hlook⟩ := h.foldl_addArc hi (fun _ hm => hm) hasc
    fun m _ x hx => .inl (hdone.source_lt x hx)
  refine ⟨⟨fun x hx => ?_, fun p hp l hl m hm => ?_⟩, hsound⟩
  · rcases hlook.source x hx with hx | hx
    · exact Nat.lt_succ_of_lt (hdone.source_lt x hx)
    · exact hx ▸ Nat.lt_succ_self _
  · rcases Nat.lt_succ_iff_lt_or_eq.1 hp with hp | rfl
    · -- the key of a node that was looked at before is known since then
      obtain ⟨q, hq⟩ := Numbering.exists_key?_of_lt_size
        (Nat.lt_trans hp (Numbering.lt_size_of_key? hi))
      obtain rfl := Option.some.inj ((hlook.key p q hq).symm.trans hl)
      obtain ⟨j, hj, harc⟩ := hdone.closed p hp q hq m hm
      exact ⟨j, hlook.key j _ hj, hlook.arc _ harc⟩
    · obtain rfl := Option.some.inj ((hlook.key p k hi).symm.trans hl)
      exact hlook.found m hm

/-! ## The whole search -/

theorem explore_isBreadthFirst {fuel : Nat}
    (hasc : ∀ k, (successors k).Pairwise fun m m' => compare m.1 m'.1 = .lt)
    (hstart : start ∈ nodes) (hnodes : ∀ k ∈ nodes, ∀ m ∈ successors k, m.2 ∈ nodes)
    (hfuel : nodes.length ≤ i + fuel) (h : d.IsSound successors start)
    (hdone : d.IsDone successors i) :
    (explore successors fuel i d).IsBreadthFirst successors start := by
  induction fuel generalizing i d with
  | zero =>
    refine ⟨h, fun p k hk => hdone.closed p ?_ k hk⟩
    calc p < d.found.size := Numbering.lt_size_of_key? hk
      _ ≤ nodes.length := h.size_le hstart hnodes
      _ ≤ i := hfuel
  | succ fuel ih =>
    rw [explore]
    cases hi : d.found.key? i with
    | none =>
      refine ⟨h, fun p k hk => hdone.closed p ?_ k hk⟩
      have hp := Numbering.lt_size_of_key? hk
      refine Nat.lt_of_not_le fun hip => ?_
      obtain ⟨l, hl⟩ := Numbering.exists_key?_of_lt_size (Nat.lt_of_le_of_lt hip hp)
      rw [hi] at hl
      cases hl
    | some k =>
      obtain ⟨hdone', hsound'⟩ := hdone.step h hi (hasc k)
      exact ih (by omega) hsound' hdone'

/-- Before anything has been looked at, the start alone is found. -/
theorem isSound_start (successors : κ → List (α × κ)) (start : κ) :
    IsSound successors start ⟨(Numbering.intern {} start).2, []⟩ ∧
      IsDone successors ⟨(Numbering.intern {} start).2, []⟩ 0 := by
  have hnone : ({} : Numbering κ).number? start = none := by simp [Numbering.number?]
  rw [Numbering.intern_of_none hnone]
  refine ⟨⟨Numbering.isProper_empty.add hnone, Numbering.key?_add_size, by simp,
    fun j hj hj0 => ?_⟩, by simp, by simp⟩
  rw [Numbering.size_add] at hj
  simp only [Numbering.size, List.size_toArray, List.length_nil] at hj
  omega

/-- With room for all nodes, the search finds them all. -/
theorem ofStart_isBreadthFirst (nodes : List κ) {bound : Nat}
    (hasc : ∀ k, (successors k).Pairwise fun m m' => compare m.1 m'.1 = .lt)
    (hstart : start ∈ nodes) (hnodes : ∀ k ∈ nodes, ∀ m ∈ successors k, m.2 ∈ nodes)
    (hbound : nodes.length ≤ bound) :
    (ofStart bound successors start).IsBreadthFirst successors start := by
  obtain ⟨hsound, hdone⟩ := isSound_start successors start
  exact explore_isBreadthFirst hasc hstart hnodes (by omega) hsound hdone

end Discovery

end RegularLanguage
