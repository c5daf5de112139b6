import RegularLanguage.Proofs.NFA.Thompson
/-!
# The shape of an expression's automaton

A fragment is entered at its start and left at its end alone: no edge leads back to the start, none
leads on from the end. So a joint may be put at the end of a fragment, where nothing else begins,
and no state ever branches more than two ways (`Fragment.Shape`). For the same reason no edge is
added twice, so states and edges can be counted on the expression (`toNFA_shape`).
-/

namespace RegularLanguage

/-! ## Counting the nodes of an expression -/

namespace Regex

/-- The nodes of an expression, each after those of its operands. -/
def nodes : Regex → List Regex
  | empty => [empty]
  | epsilon => [epsilon]
  | literal a => [literal a]
  | concat r s => r.nodes ++ s.nodes ++ [concat r s]
  | union r s => r.nodes ++ s.nodes ++ [union r s]
  | star r => r.nodes ++ [star r]

def isLeaf : Regex → Bool
  | empty | epsilon | literal _ => true
  | _ => false

def isWordLeaf : Regex → Bool
  | epsilon | literal _ => true
  | _ => false

def isConcat : Regex → Bool
  | concat _ _ => true
  | _ => false

def isUnion : Regex → Bool
  | union _ _ => true
  | _ => false

def isStar : Regex → Bool
  | star _ => true
  | _ => false

def count (kind : Regex → Bool) (r : Regex) : Nat := r.nodes.countP kind

/-- Every leaf, union and star has two states of its own. -/
def stateCount (r : Regex) : Nat := 2 * (r.count isLeaf + r.count isUnion + r.count isStar)

/-- A leaf that denotes a word has an edge; a concatenation has one joint, unions and stars four. -/
def edgeCount (r : Regex) : Nat :=
  r.count isWordLeaf + r.count isConcat + 4 * r.count isUnion + 4 * r.count isStar

variable {kind : Regex → Bool} {r s : Regex}

@[simp]
theorem count_concat :
    (concat r s).count kind = r.count kind + s.count kind + (kind (concat r s)).toNat := by
  cases h : kind (concat r s) <;> simp [count, nodes, h, Nat.add_assoc]

@[simp]
theorem count_union :
    (union r s).count kind = r.count kind + s.count kind + (kind (union r s)).toNat := by
  cases h : kind (union r s) <;> simp [count, nodes, h, Nat.add_assoc]

@[simp]
theorem count_star : (star r).count kind = r.count kind + (kind (star r)).toNat := by
  cases h : kind (star r) <;> simp [count, nodes, h]

theorem counts_concat : (concat r s).stateCount = r.stateCount + s.stateCount ∧
    (concat r s).edgeCount = r.edgeCount + s.edgeCount + 1 := by
  simp only [stateCount, edgeCount, count_concat, isLeaf, isWordLeaf, isConcat, isUnion, isStar,
    Bool.toNat_true, Bool.toNat_false]
  omega

theorem counts_union : (union r s).stateCount = r.stateCount + s.stateCount + 2 ∧
    (union r s).edgeCount = r.edgeCount + s.edgeCount + 4 := by
  simp only [stateCount, edgeCount, count_union, isLeaf, isWordLeaf, isConcat, isUnion, isStar,
    Bool.toNat_true, Bool.toNat_false]
  omega

theorem counts_star : (star r).stateCount = r.stateCount + 2 ∧
    (star r).edgeCount = r.edgeCount + 4 := by
  simp only [stateCount, edgeCount, count_star, isLeaf, isWordLeaf, isConcat, isUnion, isStar,
    Bool.toNat_true, Bool.toNat_false]
  omega

end Regex

/-! ## Edges that branch at most two ways -/

namespace NFA

variable {E F : List (Edge Label)} {p q r : State} {l : Label}

def leaving (E : List (Edge Label)) (q : State) : List (Edge Label) :=
  E.filter fun e => e.source = q

/-- There is no edge, or one edge under a symbol, or there are one or two silent edges. -/
def IsBranch (out : List (Edge Label)) : Prop :=
  out = [] ∨ (∃ e a, out = [e] ∧ e.label = some a) ∨
    (out.length = 1 ∨ out.length = 2) ∧ ∀ e ∈ out, e.label = none

theorem IsBranch.perm {out out' : List (Edge Label)} (h : IsBranch out) (hperm : out.Perm out') :
    IsBranch out' := by
  rcases h with rfl | ⟨e, a, rfl, ha⟩ | ⟨hlength, hsilent⟩
  · exact .inl hperm.nil_eq.symm
  · exact .inr (.inl ⟨e, a, List.perm_singleton.1 hperm.symm, ha⟩)
  · rw [hperm.length_eq] at hlength
    exact .inr (.inr ⟨hlength, fun e he => hsilent e (hperm.mem_iff.2 he)⟩)

theorem leaving_append : leaving (E ++ F) q = leaving E q ++ leaving F q := List.filter_append E F

theorem leaving_eq_nil (h : ∀ e ∈ E, e.source ≠ q) : leaving E q = [] :=
  List.filter_eq_nil_iff.2 fun e he => by simpa using h e he

/-- No edge is there twice, and at every state the edges branch as they may. -/
structure IsSparse (E : List (Edge Label)) : Prop where
  nodup : E.Nodup
  branch : ∀ q, IsBranch (leaving E q)

namespace IsSparse

theorem nil : IsSparse [] := ⟨List.nodup_nil, fun _ => .inl rfl⟩

/-- Edges of one source are sparse as soon as they are a branch. -/
theorem of_source (hnodup : E.Nodup) (hbranch : IsBranch E) (hsource : ∀ e ∈ E, e.source = p) :
    IsSparse E := by
  refine ⟨hnodup, fun q => ?_⟩
  by_cases hpq : p = q
  · have hall : leaving E q = E :=
      List.filter_eq_self.2 fun e he => by simpa using (hsource e he).trans hpq
    rwa [hall]
  · exact .inl (leaving_eq_nil fun e he heq => hpq ((hsource e he).symm.trans heq))

theorem single (p : State) (l : Label) (q : State) : IsSparse [⟨p, l, q⟩] := by
  refine of_source (by simp) ?_ (List.forall_mem_singleton.2 rfl)
  cases l with
  | none => exact .inr (.inr ⟨.inl rfl, List.forall_mem_singleton.2 rfl⟩)
  | some a => exact .inr (.inl ⟨_, a, rfl, rfl⟩)

theorem fork (p : State) (hqr : q ≠ r) : IsSparse [⟨p, none, q⟩, ⟨p, none, r⟩] :=
  of_source (p := p) (by simp [hqr]) (.inr (.inr ⟨.inr rfl, by simp⟩)) (by simp)

/-- Edges whose sources differ do not meet. -/
theorem append (hE : IsSparse E) (hF : IsSparse F)
    (hEF : ∀ e ∈ E, ∀ f ∈ F, e.source ≠ f.source) : IsSparse (E ++ F) := by
  refine ⟨List.nodup_append.2 ⟨hE.nodup, hF.nodup, fun e he f hf heq =>
    hEF e he f hf (congrArg Edge.source heq)⟩, fun q => ?_⟩
  rw [leaving_append]
  by_cases hq : ∃ e ∈ E, e.source = q
  · obtain ⟨e, he, rfl⟩ := hq
    rw [leaving_eq_nil fun f hf heq => hEF e he f hf heq.symm, List.append_nil]
    exact hE.branch e.source
  · rw [leaving_eq_nil fun e he heq => hq ⟨e, he, heq⟩, List.nil_append]
    exact hF.branch q

/-- An edge from a state that no other edge leaves may be added. -/
theorem cons (hE : IsSparse E) (hp : ∀ e ∈ E, e.source ≠ p) : IsSparse (⟨p, l, q⟩ :: E) :=
  (single p l q).append hE (List.forall_mem_singleton.2 fun e he heq => hp e he heq.symm)

/-- So may a fork. -/
theorem fork_append (hE : IsSparse E) (hp : ∀ e ∈ E, e.source ≠ p) (hqr : q ≠ r) :
    IsSparse (⟨p, none, q⟩ :: ⟨p, none, r⟩ :: E) := by
  refine (fork p hqr).append hE ?_
  simpa using fun e he heq => hp e he heq.symm

end IsSparse

end NFA

/-! ## The shape of fragments -/

namespace Fragment

open RegularLanguage.NFA

variable {E F : List (Edge Label)} {lo mid hi n : Nat} {f g : Fragment} {r s : Regex} {l : Label}

/-- A fragment that realizes an expression, with all that joints rely on. -/
structure Shape (f : Fragment) (E : List (Edge Label)) (lo hi : Nat) (r : Regex) : Prop
    extends f.Realizes E lo hi r where
  start_ne_accept : f.start ≠ f.accept
  source_ne_accept : ∀ e ∈ E, e.source ≠ f.accept
  sparse : IsSparse E
  size_eq : hi = lo + r.stateCount
  length_eq : E.length = r.edgeCount

namespace Shape

/-- A leaf with its one edge. -/
theorem leaf (hr : Realizes ⟨n, (n + 1 : Nat)⟩ [⟨n, l, (n + 1 : Nat)⟩] n (n + 2) r)
    (hstates : r.stateCount = 2) (hedges : r.edgeCount = 1) :
    Shape ⟨n, (n + 1 : Nat)⟩ [⟨n, l, (n + 1 : Nat)⟩] n (n + 2) r where
  toRealizes := hr
  start_ne_accept := natCast_ne (by omega)
  source_ne_accept := List.forall_mem_singleton.2 (natCast_ne (by omega))
  sparse := .single n l _
  size_eq := by rw [hstates]
  length_eq := hedges.symm

theorem empty (n : Nat) : Shape ⟨n, (n + 1 : Nat)⟩ [] n (n + 2) .empty where
  toRealizes := .empty n
  start_ne_accept := natCast_ne (by omega)
  source_ne_accept := by simp
  sparse := .nil
  size_eq := rfl
  length_eq := rfl

section

variable (hf : f.Shape E lo mid r) (hg : g.Shape F mid hi s)

include hf hg

/-- Fragments on ranges that follow each other do not meet. -/
theorem append_sparse : IsSparse (F ++ E) :=
  hg.sparse.append hf.sparse fun e he e' he' =>
    ((hf.edges_between e' he').1.ne_later (hg.edges_between e he).1).symm

/-- Nothing leaves the end of the left one. -/
theorem append_source_ne_left : ∀ e ∈ F ++ E, e.source ≠ f.accept :=
  List.forall_mem_append.2 ⟨fun e he =>
    (hf.accept_between.ne_later (hg.edges_between e he).1).symm, hf.source_ne_accept⟩

/-- Nothing leaves the end of the right one. -/
theorem append_source_ne_right : ∀ e ∈ F ++ E, e.source ≠ g.accept :=
  List.forall_mem_append.2 ⟨hg.source_ne_accept, fun e he =>
    (hf.edges_between e he).1.ne_later hg.accept_between⟩

theorem concat : Shape ⟨f.start, g.accept⟩ (⟨f.accept, none, g.start⟩ :: (F ++ E)) lo hi
    (.concat r s) where
  toRealizes := hf.toRealizes.concat hg.toRealizes
  start_ne_accept := hf.start_between.ne_later hg.accept_between
  source_ne_accept := by
    have hright := append_source_ne_right hf hg
    exact List.forall_mem_cons.2 ⟨hf.accept_between.ne_later hg.accept_between, hright⟩
  sparse := (append_sparse hf hg).cons (append_source_ne_left hf hg)
  size_eq := by rw [Regex.counts_concat.1, hg.size_eq, hf.size_eq, Nat.add_assoc]
  length_eq := by
    rw [Regex.counts_concat.2, List.length_cons, List.length_append, hf.length_eq, hg.length_eq,
      Nat.add_comm s.edgeCount]

theorem union : Shape ⟨hi, (hi + 1 : Nat)⟩ (Realizes.unionEdges f g hi E F) lo (hi + 2)
    (.union r s) where
  toRealizes := hf.toRealizes.union hg.toRealizes
  start_ne_accept := natCast_ne (by omega)
  source_ne_accept := Realizes.unionEdges_source_ne hf.toRealizes hg.toRealizes
  sparse := by
    have hhi := hg.start_between.le
    have hleft : (hi : State) ≠ f.accept := (hf.accept_between.ne_natCast hhi).symm
    have hright : (hi : State) ≠ g.accept := (hg.accept_between.ne_natCast (Nat.le_refl _)).symm
    have hnew : ∀ e ∈ F ++ E, e.source ≠ hi := List.forall_mem_append.2
      ⟨fun e he => (hg.edges_between e he).1.ne_natCast (Nat.le_refl _),
        fun e he => (hf.edges_between e he).1.ne_natCast hhi⟩
    have hstart : g.start ≠ f.start := (hf.start_between.ne_later hg.start_between).symm
    have hfork := (append_sparse hf hg).fork_append hnew hstart
    refine (hfork.cons (l := none) (q := (hi + 1 : Nat)) ?_).cons ?_
    · exact List.forall_mem_cons.2
        ⟨hleft, List.forall_mem_cons.2 ⟨hleft, append_source_ne_left hf hg⟩⟩
    · have hends : f.accept ≠ g.accept := hf.accept_between.ne_later hg.accept_between
      exact List.forall_mem_cons.2 ⟨hends, List.forall_mem_cons.2
        ⟨hright, List.forall_mem_cons.2 ⟨hright, append_source_ne_right hf hg⟩⟩⟩
  size_eq := by
    rw [Regex.counts_union.1, hg.size_eq, hf.size_eq]
    omega
  length_eq := by
    simp only [Realizes.unionEdges, List.length_append, List.length_cons, List.length_nil,
      hf.length_eq, hg.length_eq, Regex.counts_union.2]
    omega

end

theorem star (hf : f.Shape E lo hi r) :
    Shape ⟨hi, (hi + 1 : Nat)⟩ (Realizes.starEdges f hi E) lo (hi + 2) (.star r) where
  toRealizes := hf.toRealizes.star
  start_ne_accept := natCast_ne (by omega)
  source_ne_accept := Realizes.starEdges_source_ne hf.toRealizes
  sparse := by
    have hstart : ((hi + 1 : Nat) : State) ≠ f.start :=
      (hf.start_between.ne_natCast (Nat.le_succ hi)).symm
    have haccept : (hi : State) ≠ f.accept :=
      (hf.accept_between.ne_natCast (Nat.le_refl _)).symm
    have hnew : ∀ e ∈ E, e.source ≠ hi :=
      fun e he => (hf.edges_between e he).1.ne_natCast (Nat.le_refl _)
    refine (hf.sparse.fork_append hnew hstart).fork_append ?_ hstart
    exact List.forall_mem_cons.2
      ⟨haccept, List.forall_mem_cons.2 ⟨haccept, hf.source_ne_accept⟩⟩
  size_eq := by
    rw [Regex.counts_star.1, hf.size_eq]
    omega
  length_eq := by
    simp only [Realizes.starEdges, List.length_append, List.length_cons, List.length_nil,
      hf.length_eq, Regex.counts_star.2]
    omega

end Shape

end Fragment

/-! ## Whole expressions -/

namespace Regex

open RegularLanguage.NFA

/-- The fragment of an expression has its shape along the edges that it adds. -/
theorem fragment_shape (r : Regex) (b : Builder) : ∃ E, (r.fragment b).2.edges = E ++ b.edges ∧
    (r.fragment b).1.Shape E b.size (r.fragment b).2.size r :=
  fragment_induction .empty (fun n => .leaf (.epsilon n) rfl rfl)
    (fun n a => .leaf (.literal n a) rfl rfl) .concat .union .star r b

/-- The automaton of an expression is the fragment of the expression on its own, states and edges
put in order. -/
theorem exists_toNFA_shape (r : Regex) (alphabet : List Symbol) :
    ∃ (f : Fragment) (E : List (Edge Label)), f.Shape E 0 r.stateCount r ∧
      (r.toNFA alphabet).start = f.start ∧ (r.toNFA alphabet).final = [f.accept] ∧
      (r.toNFA alphabet).states = (List.range r.stateCount).map Int.ofNat ∧
      (r.toNFA alphabet).edges.Perm E := by
  obtain ⟨E, hE, hr⟩ := r.fragment_shape {}
  rw [List.append_nil] at hE
  have hsize : (r.fragment {}).2.size = r.stateCount := hr.size_eq.trans (Nat.zero_add _)
  have hedges : ∀ e, e ∈ (r.toNFA alphabet).edges ↔ e ∈ E := fun e => by
    rw [toNFA_eq, hE]
    exact Ascending.mem_ofList
  refine ⟨_, E, hsize ▸ hr, ?_, ?_, ?_, ?_⟩
  · rw [toNFA_eq]
    rfl
  · rw [toNFA_eq]
    exact Ascending.ofList_eq_self (List.pairwise_singleton _ _)
  · rw [toNFA_eq, ← hsize]
    exact Ascending.ofList_eq_self (ascending_map_ofNat_range _)
  · have hnodup := (r.toNFA_isValid alphabet).edges_ascending.nodup
    exact (List.perm_ext_iff_of_nodup hnodup hr.sparse.nodup).2 hedges

/-- The states of an expression's automaton are numbered from nought, two for each leaf, union and
star. The start is not entered and the only final state is not left; a state is left by nothing, by
one edge under a symbol, or by one or two silent edges. Leaves that denote a word, concatenations,
unions and stars make up the number of edges. -/
theorem toNFA_shape (r : Regex) (alphabet : List Symbol) :
    let n := r.toNFA alphabet
    n.states = (List.range
        (2 * (r.count isLeaf + r.count isUnion + r.count isStar))).map Int.ofNat ∧
      (∃ accept, n.final = [accept] ∧ accept ≠ n.start ∧
        (∀ e ∈ n.edges, e.target ≠ n.start) ∧ ∀ e ∈ n.edges, e.source ≠ accept) ∧
      (∀ q ∈ n.states, IsBranch (leaving n.edges q)) ∧
      n.edges.length = r.count isWordLeaf + r.count isConcat + 4 * r.count isUnion +
        4 * r.count isStar := by
  intro n
  obtain ⟨f, E, hf, hstart, hfinal, hstates, hperm⟩ := r.exists_toNFA_shape alphabet
  have hedge : ∀ e ∈ n.edges, e ∈ E := fun e he => hperm.mem_iff.1 he
  refine ⟨hstates, ⟨f.accept, hfinal, ?_, fun e he => ?_, fun e he => ?_⟩, fun q _ => ?_, ?_⟩
  · exact hstart ▸ hf.start_ne_accept.symm
  · exact hstart ▸ hf.target_ne_start e (hedge e he)
  · exact hf.source_ne_accept e (hedge e he)
  · exact (hf.sparse.branch q).perm (hperm.symm.filter _)
  · exact hperm.length_eq.trans hf.length_eq

example : let n := (concat (star (literal "a")) (union empty epsilon)).toNFA []
    n.states.length = 10 ∧ n.edges.length = 11 := by decide +kernel

end Regex

end RegularLanguage
