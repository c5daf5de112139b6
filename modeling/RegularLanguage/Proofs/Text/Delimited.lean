import RegularLanguage.Proofs.Text.Integer
/-!
# Texts whose ends can be told

Values are written one behind the other, with nothing to escape what separates them. Such a text
still determines the values if each of them can be told together with the place where it ends. This
carries over to values that are joined by a separator (`Delimited.joined`) and to texts that follow
each other without one (`Delimited.flatMap_inj`).
-/

namespace RegularLanguage.Text

variable {α : Type} {p : α → Prop} {write : α → List Char} {follows : List Char → Prop}

/-- A value that is written, with a text that may follow behind it, is known, and so is what
follows. -/
def Delimited (p : α → Prop) (write : α → List Char) (follows : List Char → Prop) : Prop :=
  ∀ a b s t, p a → p b → follows s → follows t → write a ++ s = write b ++ t → a = b ∧ s = t

/-- A text whose characters have a property ends where a character does not have it. -/
theorem append_inj_of_forall {good : Char → Bool} {x y s t : List Char}
    (hx : ∀ c ∈ x, good c = true) (hy : ∀ c ∈ y, good c = true)
    (hs : ∀ c ∈ s.head?, good c = false) (ht : ∀ c ∈ t.head?, good c = false)
    (h : x ++ s = y ++ t) : x = y ∧ s = t := by
  have hstop : ∀ s : List Char, (∀ c ∈ s.head?, good c = false) → s.takeWhile good = [] := by
    intro s hs
    cases s with
    | nil => rfl
    | cons c s => simp [hs c rfl]
  have hxy : x = y := by
    have htake := congrArg (List.takeWhile good) h
    rwa [List.takeWhile_append_of_pos hx, List.takeWhile_append_of_pos hy, hstop s hs, hstop t ht,
      List.append_nil, List.append_nil] at htake
  subst hxy
  exact ⟨rfl, List.append_cancel_left h⟩

/-- The first of the joined texts, and the others with the separator in front of each. -/
theorem intercalate_cons_eq_flatMap (separator x : List Char) (xs : List (List Char)) :
    separator.intercalate (x :: xs) = x ++ xs.flatMap (separator ++ ·) := by
  induction xs generalizing x with
  | nil => simp
  | cons y ys ih =>
    rw [List.intercalate_cons_cons, ih, List.flatMap_cons]
    simp only [List.append_assoc]

/-- Texts that are joined and ended by the same text are lines. -/
theorem intercalate_append_eq_flatMap (separator : List Char) {xs : List (List Char)}
    (hne : xs ≠ []) : separator.intercalate xs ++ separator = xs.flatMap (· ++ separator) := by
  induction xs with
  | nil => exact absurd rfl hne
  | cons x xs ih =>
    cases xs with
    | nil => simp
    | cons y ys =>
      rw [List.intercalate_cons_cons, List.append_assoc, ih (List.cons_ne_nil _ _)]
      rfl

section

variable {separator stop : List Char} (h : Delimited p write follows)
  (hseparator : ∀ s, follows (separator ++ s)) (hstop : ∀ s, follows (stop ++ s))
  (hne : ∀ s t, separator ++ s ≠ stop ++ t)

include hseparator hstop

/-- Behind a value comes either a separator or the end. -/
theorem follows_separated (as : List α) (s : List Char) :
    follows (as.flatMap (fun a => separator ++ write a) ++ (stop ++ s)) := by
  cases as with
  | nil => exact hstop s
  | cons a as => simpa only [List.flatMap_cons, List.append_assoc] using hseparator _

include h hne

/-- Values with a separator in front of each are known up to the text that ends them. -/
theorem Delimited.separated {as bs : List α} {s t : List Char} (has : ∀ a ∈ as, p a)
    (hbs : ∀ b ∈ bs, p b) (heq : as.flatMap (fun a => separator ++ write a) ++ (stop ++ s) =
      bs.flatMap (fun b => separator ++ write b) ++ (stop ++ t)) : as = bs ∧ s = t := by
  induction as generalizing bs with
  | nil =>
    cases bs with
    | nil => exact ⟨rfl, List.append_cancel_left heq⟩
    | cons b bs =>
      simp only [List.flatMap_cons, List.flatMap_nil, List.nil_append, List.append_assoc] at heq
      exact absurd heq.symm (hne _ _)
  | cons a as ih =>
    cases bs with
    | nil =>
      simp only [List.flatMap_cons, List.flatMap_nil, List.nil_append, List.append_assoc] at heq
      exact absurd heq (hne _ _)
    | cons b bs =>
      obtain ⟨ha, has⟩ := List.forall_mem_cons.1 has
      obtain ⟨hb, hbs⟩ := List.forall_mem_cons.1 hbs
      simp only [List.flatMap_cons, List.append_assoc] at heq
      obtain ⟨hab, hrest⟩ :=
        h a b _ _ ha hb (follows_separated hseparator hstop as s)
          (follows_separated hseparator hstop bs t) (List.append_cancel_left heq)
      obtain ⟨hlater, hst⟩ := ih has hbs hrest
      exact ⟨by rw [hab, hlater], hst⟩

/-- Values that are joined by one text and ended by another are known if the two can be told apart
behind each value. -/
theorem Delimited.joined : Delimited (fun as => as ≠ [] ∧ ∀ a ∈ as, p a)
    (fun as => separator.intercalate (as.map write) ++ stop) fun _ => True := by
  rintro (_ | ⟨a, as⟩) (_ | ⟨b, bs⟩) s t ⟨has, hpas⟩ ⟨hbs, hpbs⟩ - - heq
  · exact absurd rfl has
  · exact absurd rfl has
  · exact absurd rfl hbs
  · obtain ⟨ha, hpas⟩ := List.forall_mem_cons.1 hpas
    obtain ⟨hb, hpbs⟩ := List.forall_mem_cons.1 hpbs
    simp only [List.map_cons, intercalate_cons_eq_flatMap, List.flatMap_map,
      List.append_assoc] at heq
    obtain ⟨hab, hrest⟩ := h a b _ _ ha hb (follows_separated hseparator hstop as s)
      (follows_separated hseparator hstop bs t) heq
    obtain ⟨hlater, hst⟩ := h.separated hseparator hstop hne hpas hpbs hrest
    exact ⟨by rw [hab, hlater], hst⟩

end

/-- Values whose texts follow each other are known, if no text is empty. -/
theorem Delimited.flatMap_inj (h : Delimited p write fun _ => True) (hne : ∀ a, write a ≠ [])
    {as bs : List α} (has : ∀ a ∈ as, p a) (hbs : ∀ b ∈ bs, p b)
    (heq : as.flatMap write = bs.flatMap write) : as = bs := by
  induction as generalizing bs with
  | nil =>
    cases bs with
    | nil => rfl
    | cons b bs => exact absurd (List.append_eq_nil_iff.1 heq.symm).1 (hne b)
  | cons a as ih =>
    cases bs with
    | nil => exact absurd (List.append_eq_nil_iff.1 heq).1 (hne a)
    | cons b bs =>
      obtain ⟨ha, has⟩ := List.forall_mem_cons.1 has
      obtain ⟨hb, hbs⟩ := List.forall_mem_cons.1 hbs
      obtain ⟨hab, hrest⟩ := h a b _ _ ha hb trivial trivial heq
      rw [hab, ih has hbs hrest]

end RegularLanguage.Text
