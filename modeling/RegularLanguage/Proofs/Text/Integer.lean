import Std.Data.String.ToInt
import Mathlib.Algebra.Group.Nat.Defs
import Mathlib.Algebra.Ring.Int.Defs
import RegularLanguage.Text.Integer
/-!
# Integers are read back from their decimal digits

The text of an integer has no white space, a sign only if the integer is negative, and then its
decimal digits, whose values add up to the integer again. It is read back if the digits are not more
than may be read, and refused otherwise (`readInteger_toString`).
-/

namespace RegularLanguage.Text

variable {c : Char} {cs : List Char} {read : List Nat} {text : String}

/-! ## Digits -/

theorem decimalValue?_of_isDigit (h : c.isDigit = true) :
    decimalValue? c = some (c.toNat - '0'.toNat) := by
  have hrange : 48 ≤ c.toNat ∧ c.toNat ≤ 57 := Char.isDigit_iff_toNat.1 h
  rw [decimalValue?, decimalZeros, List.find?_cons_of_pos (by simp; omega)]
  rfl

theorem not_isBlank_of_isDigit (h : c.isDigit = true) : isBlank c = false := by
  have hrange : 48 ≤ c.toNat ∧ c.toNat ≤ 57 := Char.isDigit_iff_toNat.1 h
  simp [isBlank, within, blankRanges]
  omega

theorem strip_eq_self (h : ∀ c ∈ cs, isBlank c = false) : strip cs = cs := by
  have hdrop : ∀ cs : List Char, (∀ c ∈ cs, isBlank c = false) → cs.dropWhile isBlank = cs := by
    intro cs h
    cases cs with
    | nil => rfl
    | cons c cs => exact List.dropWhile_cons_of_neg (by simp [h c List.mem_cons_self])
  rw [strip, hdrop cs h, hdrop cs.reverse fun c hc => h c (List.mem_reverse.1 hc),
    List.reverse_reverse]

theorem readDigits_of_isDigit (h : ∀ c ∈ cs, c.isDigit = true) :
    readDigits read cs = some (read.reverse ++ cs.map fun c => c.toNat - '0'.toNat, []) := by
  induction cs generalizing read with
  | nil => simp [readDigits]
  | cons c cs ih =>
    obtain ⟨hc, hcs⟩ := List.forall_mem_cons.1 h
    rw [readDigits.eq_def]
    simp only [decimalValue?_of_isDigit hc, ih hcs, List.reverse_cons, List.append_assoc,
      List.singleton_append, List.map_cons]

/-- Digits alone are read as the number that they spell, unless they are too many. -/
theorem readNatural_of_isDigit (hne : cs ≠ []) (h : ∀ c ∈ cs, c.isDigit = true) :
    readNatural cs = if digitLimit < cs.length then .error (.tooManyDigits cs.length)
      else .ok (Nat.ofDigitChars 10 cs 0) := by
  cases cs with
  | nil => exact absurd rfl hne
  | cons c cs =>
    obtain ⟨hc, hcs⟩ := List.forall_mem_cons.1 h
    have hvalue : ∀ cs : List Char,
        digitsValue (cs.map fun c => c.toNat - '0'.toNat) = Nat.ofDigitChars 10 cs 0 :=
      fun cs => List.foldl_map
    simp [readNatural, decimalValue?_of_isDigit hc, readDigits_of_isDigit hcs, ← hvalue]

/-! ## Integers -/

theorem digitCount_le_iff {k : Nat} (hk : 0 < k) {n : Int} :
    digitCount n ≤ k ↔ n.natAbs < 10 ^ k :=
  Nat.length_toDigits_le_iff (by decide) hk

theorem digitCount_pow {k : Nat} (hk : 0 < k) : digitCount (10 ^ k) = k + 1 := by
  have habs : ((10 : Int) ^ k).natAbs = 10 ^ k := Int.natAbs_pow 10 k
  refine Nat.le_antisymm ((digitCount_le_iff (Nat.succ_pos k)).2 ?_)
    (Nat.lt_of_not_le fun hle => ?_)
  · rw [habs]
    exact Nat.pow_lt_pow_right (by decide) (Nat.lt_succ_self k)
  · have hlt := (digitCount_le_iff hk).1 hle
    rw [habs] at hlt
    exact Nat.lt_irrefl _ hlt

theorem readNatural_toDigits (n : Nat) : readNatural (Nat.toDigits 10 n) =
    if digitLimit < digitCount n then .error (.tooManyDigits (digitCount n)) else .ok n := by
  rw [readNatural_of_isDigit Nat.toDigits_ne_nil
    fun c => Nat.isDigit_of_mem_toDigits (by decide) (by decide), Nat.ofDigitChars_ten_toDigits]
  rfl

/-- Digits without a sign are read as a natural number. -/
theorem readInteger_of_isDigit (h : ∀ c ∈ text.toList, c.isDigit = true) :
    readInteger text = (readNatural text.toList).map Int.ofNat := by
  rw [readInteger, strip_eq_self fun c hc => not_isBlank_of_isDigit (h c hc)]
  split
  · rename_i hsign
    exact absurd (h '-' (hsign ▸ List.mem_cons_self)) (by decide)
  · rename_i hsign
    exact absurd (h '+' (hsign ▸ List.mem_cons_self)) (by decide)
  · cases readNatural text.toList <;> rfl

/-- A minus in front of digits makes the number negative. -/
theorem readInteger_of_minus (htext : text.toList = '-' :: cs) (h : ∀ c ∈ cs, c.isDigit = true) :
    readInteger text = (readNatural cs).map Int.negOfNat := by
  have hblank : ∀ c ∈ '-' :: cs, isBlank c = false :=
    List.forall_mem_cons.2 ⟨by decide, fun c hc => not_isBlank_of_isDigit (h c hc)⟩
  rw [readInteger, htext, strip_eq_self hblank]
  split
  · rename_i hsign
    obtain rfl := (List.cons.inj hsign).2
    cases readNatural cs with
    | error e => rfl
    | ok n => exact congrArg Except.ok Int.negOfNat_eq.symm
  · rename_i hsign
    exact absurd (List.cons.inj hsign).1 (by decide)
  · rename_i hsign _
    exact absurd rfl (hsign _)

theorem toList_toString_ofNat (m : Nat) :
    (toString (Int.ofNat m)).toList = Nat.toDigits 10 m := Nat.toList_repr

theorem toList_toString_negSucc (m : Nat) :
    (toString (Int.negSucc m)).toList = '-' :: Nat.toDigits 10 (m + 1) := by
  have hminus : toString (Int.negSucc m) = "-" ++ Nat.repr (m + 1) := rfl
  rw [hminus, String.toList_append, Nat.toList_repr]
  rfl

theorem toList_toString_inj {m n : Int} : (toString m).toList = (toString n).toList ↔ m = n := by
  rw [String.toList_inj, Int.toString_eq_repr, Int.toString_eq_repr, Int.repr_inj]

/-- The text of an integer is made of digits, and of a minus. -/
theorem eq_minus_or_isDigit_of_mem_toString {n : Int} (h : c ∈ (toString n).toList) :
    c = '-' ∨ c.isDigit = true := by
  have hdigit : ∀ m, c ∈ Nat.toDigits 10 m → c.isDigit = true :=
    fun m => Nat.isDigit_of_mem_toDigits (by decide) (by decide)
  cases n with
  | ofNat m =>
    rw [toList_toString_ofNat] at h
    exact .inr (hdigit m h)
  | negSucc m =>
    rw [toList_toString_negSucc, List.mem_cons] at h
    exact h.imp_right (hdigit (m + 1))

/-- An integer is read back from its text if it has no more digits than may be read. -/
theorem readInteger_toString (n : Int) : readInteger (toString n) =
    if digitLimit < digitCount n then .error (.tooManyDigits (digitCount n)) else .ok n := by
  have hdigit : ∀ m, ∀ c ∈ Nat.toDigits 10 m, c.isDigit = true :=
    fun m c => Nat.isDigit_of_mem_toDigits (by decide) (by decide)
  cases n with
  | ofNat m =>
    have htext := toList_toString_ofNat m
    have hcount : digitCount (Int.ofNat m) = digitCount (m : Int) := rfl
    rw [readInteger_of_isDigit (htext ▸ hdigit m), htext, readNatural_toDigits, hcount]
    split <;> rfl
  | negSucc m =>
    have hcount : digitCount (Int.negSucc m) = digitCount ((m + 1 : Nat) : Int) := rfl
    rw [readInteger_of_minus (toList_toString_negSucc m) (hdigit (m + 1)), readNatural_toDigits,
      hcount]
    split <;> rfl

end RegularLanguage.Text
