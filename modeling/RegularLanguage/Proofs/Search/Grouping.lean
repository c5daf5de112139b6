import RegularLanguage.Search.Grouping
/-!
# Walking through lists of pairs

A key that is mentioned once has one value in a list of pairs. The keys of a grouping are those of
its pairs, and the groups come in the order of their keys.
-/

namespace RegularLanguage

open Std

/-- Where no key comes twice, looking a key up finds its pair. -/
theorem lookup_eq_some_iff_mem {κ ν : Type} [BEq κ] [LawfulBEq κ] {pairs : List (κ × ν)} {k : κ}
    {v : ν} (h : pairs.Pairwise fun x y => x.1 ≠ y.1) :
    pairs.lookup k = some v ↔ (k, v) ∈ pairs := by
  rw [List.lookup_eq_some_iff]
  constructor
  · rintro ⟨before, after, rfl, -⟩
    simp
  · intro hv
    obtain ⟨before, after, rfl⟩ := List.append_of_mem hv
    refine ⟨before, after, rfl, fun p hp => bne_iff_ne.2 fun he => ?_⟩
    exact (List.pairwise_append.1 h).2.2 p hp (k, v) List.mem_cons_self he.symm

theorem pairwise_toList {κ ν : Type} [Ord κ] [TransOrd κ] [LawfulEqOrd κ]
    (m : TreeMap κ ν compare) : m.toList.Pairwise fun x y => x.1 ≠ y.1 :=
  TreeMap.distinct_keys_toList.imp fun h he => h (LawfulEqOrd.compare_eq_iff_eq.2 he)

/-- A map made of pairs has them all, if no key comes twice. -/
theorem getElem?_ofList_eq_some_iff_mem {κ ν : Type} [Ord κ] [TransOrd κ] [LawfulEqOrd κ]
    [BEq κ] [LawfulBEq κ] {pairs : List (κ × ν)} {k : κ} {v : ν}
    (h : pairs.Pairwise fun x y => x.1 ≠ y.1) :
    (TreeMap.ofList pairs compare)[k]? = some v ↔ (k, v) ∈ pairs := by
  have hkeys : pairs.Pairwise fun x y => ¬ compare x.1 y.1 = .eq :=
    h.imp fun hne he => hne (LawfulEqOrd.compare_eq_iff_eq.1 he)
  constructor
  · intro hv
    have hcontains : (TreeMap.ofList pairs compare).contains k = true := by
      rw [TreeMap.contains_eq_isSome_getElem?, hv]
      rfl
    rw [TreeMap.contains_ofList] at hcontains
    obtain ⟨⟨k', v'⟩, hmem, rfl⟩ := List.mem_map.1 (List.contains_iff_mem.1 hcontains)
    rw [TreeMap.getElem?_ofList_of_mem ReflCmp.compare_self hkeys hmem] at hv
    exact Option.some.inj hv ▸ hmem
  · exact fun hv => TreeMap.getElem?_ofList_of_mem ReflCmp.compare_self hkeys hv

/-- The pairs of the members of a list with what a function makes of them. -/
theorem mem_map_mk {κ ν : Type} {xs : List κ} {f : κ → ν} {k : κ} {v : ν} :
    (k, v) ∈ xs.map (fun x => (x, f x)) ↔ k ∈ xs ∧ f k = v := by
  rw [List.mem_map]
  constructor
  · rintro ⟨x, hx, heq⟩
    cases heq
    exact ⟨hx, rfl⟩
  · rintro ⟨hk, rfl⟩
    exact ⟨k, hk, rfl⟩

/-- A map made of the members of a list asks the function for them. -/
theorem getElem?_ofList_map_mk {κ ν : Type} [Ord κ] [TransOrd κ] [LawfulEqOrd κ] [DecidableEq κ]
    {xs : List κ} {f : κ → ν} (h : xs.Nodup) (k : κ) :
    (TreeMap.ofList (xs.map fun x => (x, f x)) compare)[k]? =
      if k ∈ xs then some (f k) else none := by
  have hkeys : (xs.map fun x => (x, f x)).Pairwise fun x y => x.1 ≠ y.1 := List.pairwise_map.2 h
  refine Option.ext fun v => ?_
  rw [getElem?_ofList_eq_some_iff_mem hkeys, mem_map_mk]
  by_cases hk : k ∈ xs <;> simp [hk]

namespace Grouping

variable {κ ν : Type} [Ord κ] [TransOrd κ] [LawfulEqOrd κ] {k : κ} {pairs : List (κ × ν)}

theorem map_snd_toList (g : Grouping κ ν) : g.toList.map Prod.snd = g.keys.map g.values := by
  rw [← TreeMap.map_fst_toList_eq_keys, List.map_map]
  refine List.map_congr_left fun kv hkv => ?_
  have h : g[kv.1]? = some kv.2 := TreeMap.mem_toList_iff_getElem?_eq_some.1 hkv
  rw [Function.comp_apply, values, h]
  rfl

variable [DecidableEq κ]

@[simp]
theorem mem_ofPairs : k ∈ ofPairs pairs ↔ ∃ v, (k, v) ∈ pairs := by
  induction pairs with
  | nil => simp [ofPairs]
  | cons p pairs ih =>
    have h : ofPairs (p :: pairs) =
        (ofPairs pairs).alter p.1 fun vs => some (p.2 :: vs.getD []) := rfl
    rw [h, TreeMap.mem_alter]
    by_cases hk : p.1 = k
    · subst hk
      simp only [LawfulEqOrd.compare_eq_iff_eq, if_true, Option.isSome_some, true_iff]
      exact ⟨p.2, List.mem_cons_self⟩
    · rw [if_neg (by simpa using hk), ih]
      refine exists_congr fun v => ?_
      rw [List.mem_cons]
      exact (or_iff_right fun he => hk (congrArg Prod.fst he).symm).symm

/-- A key comes with its values if it is mentioned at all. -/
theorem mem_toList_ofPairs {vs : List ν} : (k, vs) ∈ (ofPairs pairs).toList ↔
    (ofPairs pairs).values k = vs ∧ ∃ v, (k, v) ∈ pairs := by
  rw [TreeMap.mem_toList_iff_getElem?_eq_some, ← mem_ofPairs, TreeMap.mem_iff_isSome_getElem?,
    values]
  cases (ofPairs pairs)[k]? <;> simp

end Grouping

end RegularLanguage
