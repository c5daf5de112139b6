import RegularLanguage.Proofs.Checked.DFA
import RegularLanguage.Proofs.DFA.Distinguish
import RegularLanguage.Proofs.DFA.MinimalComplete
/-!
# Guarded refinement, minimization and marking

A round of refinement looks up the class of every state, and the quotient asks for the least member
of each class and for the classes of the states that moves lead to. All states have classes and no
class is empty (`Partition.IsNumbered`), so no guard fails (`equivalenceClasses_eq_ok`,
`minimize_eq_ok`, `distinguishablePairs_eq_ok`).

| here | `relang` |
| --- | --- |
| `refine`, `equivalenceClasses` | `_refine`, `equivalence_classes` |
| `minimize`, `distinguishablePairs` | `minimize`, `distinguishable_pairs` |
-/

namespace RegularLanguage.Checked

open Std RegularLanguage.DFA

variable {d : DFA} {p : Partition} {states : List State} {q : State} {m : DFA.Moves}
  {symbols : List Symbol}

/-! ## Refinement -/

def signature (p : Partition) (m : DFA.Moves) (symbols : List Symbol) (q : State) :
    Except Fault Signature := do
  let i ← require .missingKey p.classOf[q]?
  return some i :: symbols.map fun a => (m.next q a).bind fun r => p.classOf[r]?

/-- The partition into states that agree under a key, which may be missing. -/
def byKey {κ : Type} [Ord κ] (states : List State) (key : State → Except Fault κ) :
    Except Fault Partition := do
  let (numbering, classOf) ← states.foldlM
    (fun (numbering, classOf) q => do
      let (i, numbering) := numbering.intern (← key q)
      return (numbering, classOf.insert q i))
    (({} : Numbering κ), (∅ : TreeMap State Nat compare))
  return ⟨numbering.size, classOf⟩

def refine (states : List State) (m : DFA.Moves) (symbols : List Symbol) :
    Nat → Partition → Except Fault Partition
  | 0, _ => throw .unfinished
  | fuel + 1, p => do
    let next ← byKey states (signature p m symbols)
    if next.count = p.count then return next else refine states m symbols fuel next

def stateClasses (d : DFA) : Except Fault (List (List State)) := do
  let p ← refine d.states d.outgoing d.alphabet (d.states.length + 1) d.initialPartition
  return p.classes

def equivalenceClasses (d : DFA) : Except Fault (List (List State)) := do stateClasses (← trim d)

theorem signature_eq_ok (hp : p.IsNumbered states) (hq : q ∈ states) :
    signature p m symbols q = .ok (p.signature m symbols q) := by
  obtain ⟨i, hi⟩ := (hp.mem_iff q).1 hq
  have hclass : p.classOf[q]? = some i := hi
  rw [signature, Partition.signature, hclass]
  rfl

theorem byKey_eq_ok {κ : Type} [Ord κ] {key : State → Except Fault κ} {k : State → κ}
    (h : ∀ q ∈ states, key q = .ok (k q)) : byKey states key = .ok (.byKey states k) := by
  rw [byKey, foldlM_eq_ok (g := Partition.place k)]
  · rfl
  · intro s q hq
    rw [h q hq]
    rfl

theorem refine_eq_require (hasc : Ascending states) (fuel : Nat) (hp : p.IsNumbered states) :
    refine states m symbols fuel p = require .unfinished (DFA.refine states m symbols fuel p) := by
  induction fuel generalizing p with
  | zero => rfl
  | succ fuel ih =>
    rw [refine, byKey_eq_ok fun q hq => signature_eq_ok hp hq, DFA.refine]
    by_cases hcount : (Partition.byKey states (p.signature m symbols)).count = p.count
    · rw [if_pos hcount]
      exact if_pos hcount
    · -- the next partition gives every state a class again
      rw [if_neg hcount, ← ih (Partition.byKey_isNumbered hasc)]
      exact if_neg hcount

theorem stateClasses_eq_ok (h : d.IsValid) : stateClasses d = .ok d.stateClasses := by
  obtain ⟨p, hp, -, -⟩ := refine_spec h (d.states.length + 1) (initialPartition_isCoarse h)
    (by omega)
  rw [stateClasses, refine_eq_require h.states_ascending _ (initialPartition_isCoarse h).numbered,
    DFA.stateClasses, hp]
  rfl

theorem equivalenceClasses_eq_ok (h : d.IsValid) :
    equivalenceClasses d = .ok d.equivalenceClasses := by
  rw [equivalenceClasses, trim_eq_ok h]
  exact stateClasses_eq_ok (trim_isValid h)

/-! ## Minimization -/

/-- The number and the least member of each class. -/
def representatives (classes : List (List State)) : Except Fault (List (State × State)) :=
  (classes.mapIdx fun i members => (Int.ofNat i, members)).mapM fun (i, members) => do
    return (i, ← require .emptyChoice members.min?)

/-- The moves of a class, where its least member goes. -/
def classMoves (m : DFA.Moves) (numbers : TreeMap State State compare) (symbols : List Symbol)
    (member : State × State) : Except Fault (List (Edge Symbol)) :=
  (symbols.filterMap fun a => (m.next member.2 a).map fun r => (a, r)).mapM fun (a, r) => do
    return ⟨member.1, a, ← require .missingKey numbers[r]?⟩

def quotient (d : DFA) (classes : List (List State)) (alphabet : List Symbol) :
    Except Fault DFA := do
  let numbers := classNumbers classes
  let members ← representatives classes
  let edges ← members.mapM (classMoves d.outgoing numbers d.alphabet)
  let start ← require .missingKey numbers[d.start]?
  let final := TreeSet.ofList d.final compare
  buildDFA ((List.range classes.length).map Int.ofNat) start
    ((members.filter fun (_, q) => final.contains q).map Prod.fst) edges.flatten alphabet []

def minimize (d : DFA) (complete : Bool) : Except Fault DFA := do
  let trimmed ← trim d
  let classes ← stateClasses trimmed
  let result ← quotient trimmed classes d.alphabet
  if complete then
    if result.final.isEmpty then
      buildDFA [0] 0 [] (d.alphabet.map fun a => ⟨0, a, 0⟩) d.alphabet []
    else Checked.complete result []
  else return result

section

variable (h : d.IsValid) (hp : p.IsNumbered d.states)

include h hp

/-- The least member of a class is its first one. -/
theorem min?_members {i : Nat} (hi : i < p.count) :
    (p.members d.states i).min? = some (p.first d.states i) := by
  obtain ⟨rest, hrest⟩ := Partition.members_eq_cons hp hi
  refine List.min?_eq_some_iff.2 ⟨hrest ▸ List.mem_cons_self, fun q hq => ?_⟩
  exact Partition.first_le hp h.states_ascending ((Partition.mem_members hp).1 hq)

theorem representatives_eq_ok :
    representatives p.classes = .ok (DFA.representatives p.classes) := by
  rw [representatives, Partition.mapIdx_classes hp h.states_ascending,
    Partition.representatives_classes hp h.states_ascending,
    mapM_eq_ok (g := fun x => (x.1, x.2.headD 0))]
  · rw [List.map_map]
    rfl
  · intro x hx
    obtain ⟨i, hi, rfl⟩ := List.mem_map.1 hx
    simp only [min?_members h hp (List.mem_range.1 hi), require_some]
    rfl

/-- A state that a move leads to has a class. -/
theorem exists_classNumber {a : Symbol} {r : State} (hr : DFA.Moves.next d.outgoing q a = some r) :
    ∃ j, (classNumbers p.classes)[r]? = some j := by
  obtain ⟨i, hi⟩ := (hp.mem_iff r).1 (h.mem_of_delta hr).2.2
  exact ⟨_, (Partition.getElem?_classNumbers hp h.states_ascending).trans
    (Partition.state?_of_index? hi)⟩

theorem classMoves_eq_ok (member : State × State) :
    classMoves d.outgoing (classNumbers p.classes) d.alphabet member =
      .ok (d.alphabet.filterMap fun a => (DFA.Moves.next d.outgoing member.2 a).bind fun r =>
        (classNumbers p.classes)[r]?.map fun j => ⟨member.1, a, j⟩) := by
  rw [classMoves, mapM_eq_ok (g := fun x => ⟨member.1, x.1, (classNumbers p.classes).getD x.2 0⟩)]
  · rw [List.map_filterMap]
    refine congrArg Except.ok (List.filterMap_congr fun a _ => ?_)
    cases hr : DFA.Moves.next d.outgoing member.2 a with
    | none => rfl
    | some r =>
      obtain ⟨j, hj⟩ := exists_classNumber h hp hr
      simp [TreeMap.getD_eq_getD_getElem?, hj]
  · intro x hx
    obtain ⟨a, -, ha⟩ := List.mem_filterMap.1 hx
    obtain ⟨r, hr, rfl⟩ := Option.map_eq_some_iff.1 ha
    obtain ⟨j, hj⟩ := exists_classNumber h hp hr
    simp only [TreeMap.getD_eq_getD_getElem?, hj, require_some]
    rfl

theorem quotient_eq_ok : quotient d p.classes d.alphabet = .ok (d.quotient p.classes) := by
  have hcount : p.classes.length = p.count := by
    rw [Partition.classes_eq hp h.states_ascending, List.length_map, List.length_range]
  have hstates : (List.range p.classes.length).map Int.ofNat =
      (DFA.representatives p.classes).map Prod.fst := by
    rw [hcount, Partition.representatives_classes hp h.states_ascending, List.map_map]
    rfl
  have hstart : (classNumbers p.classes)[d.start]? =
      some ((classNumbers p.classes).getD d.start 0) :=
    (Partition.getElem?_classNumbers hp h.states_ascending).trans (quotient_start h hp)
  have hmoves := mapM_eq_ok fun x (_ : x ∈ DFA.representatives p.classes) =>
    classMoves_eq_ok h hp x
  simp only [quotient, representatives_eq_ok h hp, hmoves, hstart, hstates, require_some, ok_bind]
  exact buildDFA_of_isValid (quotient_isValid h hp)

end

/-- The alphabet is kept when states are left out. -/
theorem trim_alphabet (h : d.IsValid) : d.trim.alphabet = d.alphabet :=
  Ascending.ext (trim_isValid h).alphabet_ascending h.alphabet_ascending fun _ =>
    mem_trim_alphabet h

theorem minimize_eq_ok (h : d.IsValid) (complete : Bool) : minimize d complete =
    .ok (if complete then d.minimizeComplete else d.minimize) := by
  have ht := trim_isValid h
  obtain ⟨p, hp, -, -, hclasses⟩ := exists_equivalenceClasses_eq h
  have hstate : stateClasses d.trim = .ok p.classes := by
    rw [stateClasses_eq_ok ht, ← hclasses]
    rfl
  have hquotient : quotient d.trim p.classes d.alphabet = .ok d.minimize := by
    rw [← trim_alphabet h, quotient_eq_ok ht hp, DFA.minimize, hclasses]
  have hempty := buildDFA_of_isValid (emptyLanguage_isValid d.alphabet)
  have hcomplete := complete_eq_ok (minimize_isMinimal h).toIsValid []
  simp only [minimize, trim_eq_ok h, hstate, hquotient, ok_bind]
  cases complete with
  | false => rfl
  | true =>
    by_cases hfinal : d.minimize.final.isEmpty = true
    · simp only [DFA.minimizeComplete, hfinal, if_true]
      exact hempty
    · simp only [DFA.minimizeComplete, hfinal, if_true, Bool.false_eq_true, if_false]
      exact hcomplete

/-! ## Marking -/

def distinguishablePairs (d : DFA) : Except Fault (List Pair) := do
  let c ← complete d []
  let all := pairs c.states
  let final := TreeSet.ofList c.final compare
  let base := all.filter fun x => final.contains x.first != final.contains x.second
  let marks ← require .unfinished
    (markAll c.outgoing c.alphabet all (all.length + 1) (TreeSet.ofList base compare))
  let own := TreeSet.ofList d.states compare
  return marks.toList.filter fun x => own.contains x.first && own.contains x.second

theorem distinguishablePairs_eq_ok (h : d.IsValid) :
    distinguishablePairs d = .ok d.distinguishablePairs := by
  obtain ⟨marks, heq, -⟩ := exists_markAll_eq h
  unfold distinguishablePairs DFA.distinguishablePairs
  simp only [complete_eq_ok h, ok_bind, ← basePairs.eq_def, heq, require_some]
  rfl

end RegularLanguage.Checked
