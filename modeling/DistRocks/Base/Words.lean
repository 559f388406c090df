import Mathlib.Data.List.TakeWhile

/-!
# Words between separators

* `readWord sep text` : skip separators and take what comes before the next one; what is left of the text;
* `Layout sep ws text` : the text is the words `ws`, with separators between them and around them;
* `Layout.readWord`, `Layout.of_readWord` : reading a word takes the first word of a layout.
-/

namespace Words

variable {α : Type*} (sep : α → Bool)

def readWord (text : List α) : List α × List α :=
  let text := text.dropWhile sep
  (text.takeWhile (!sep ·), text.dropWhile (!sep ·))

def IsWord (w : List α) : Prop := w ≠ [] ∧ ∀ a ∈ w, sep a = false

instance decidableIsWord [DecidableEq α] (w : List α) : Decidable (IsWord sep w) :=
  inferInstanceAs (Decidable (w ≠ [] ∧ ∀ a ∈ w, sep a = false))

inductive Layout : List (List α) → List α → Prop
  | gap {gap : List α} (hgap : ∀ a ∈ gap, sep a) : Layout [] gap
  | word {gap w rest : List α} {ws : List (List α)} (hgap : ∀ a ∈ gap, sep a) (hw : IsWord sep w)
      (hrest : ∀ a ∈ rest.head?, sep a) (h : Layout ws rest) : Layout (w :: ws) (gap ++ (w ++ rest))

variable {sep} {text w : List α} {ws : List (List α)}

theorem mem_of_mem_readWord {a : α} (h : a ∈ (readWord sep text).1 ∨ a ∈ (readWord sep text).2) : a ∈ text := by
  have hsuffix : text.dropWhile sep <:+ text := List.dropWhile_suffix sep
  rcases h with h | h
  · exact hsuffix.subset (List.takeWhile_subset _ h)
  · exact hsuffix.subset ((List.dropWhile_suffix _).subset h)

theorem length_readWord (text : List α) :
    (readWord sep text).1.length + (readWord sep text).2.length ≤ text.length := by
  rw [readWord, ← List.length_append, List.takeWhile_append_dropWhile]
  exact (List.dropWhile_suffix sep).length_le

theorem readWord_ne_nil (h : text.dropWhile sep ≠ []) : (readWord sep text).1 ≠ [] := by
  obtain ⟨a, rest, hrest⟩ := List.exists_cons_of_ne_nil h
  have hnot := List.head?_dropWhile_not sep text
  rw [hrest] at hnot
  simp only [List.head?_cons] at hnot
  simp [readWord, hrest, hnot]

/-- No word is left. -/
theorem readWord_eq_nil (h : (readWord sep text).1 = []) : (readWord sep text).2 = [] := by
  have hnil : text.dropWhile sep = [] := by
    by_contra hne
    exact readWord_ne_nil hne h
  rw [readWord, hnil]
  rfl

theorem readWord_append (h : IsWord sep w) {gap rest : List α} (hgap : ∀ a ∈ gap, sep a)
    (hrest : ∀ a ∈ rest.head?, sep a) : readWord sep (gap ++ (w ++ rest)) = (w, rest) := by
  have hword : ∀ a ∈ w, (!sep a) = true := fun a ha => by rw [h.2 a ha]; rfl
  have hstart : (w ++ rest).dropWhile sep = w ++ rest := by
    obtain ⟨a, w', rfl⟩ := List.exists_cons_of_ne_nil h.1
    rw [List.cons_append, List.dropWhile_cons, h.2 a List.mem_cons_self]
    rfl
  have hstop : rest.takeWhile (!sep ·) = [] ∧ rest.dropWhile (!sep ·) = rest := by
    cases rest with
    | nil => exact ⟨rfl, rfl⟩
    | cons a rest => simp [hrest a rfl]
  rw [readWord, List.dropWhile_append_of_pos hgap, hstart, List.takeWhile_append_of_pos hword,
    List.dropWhile_append_of_pos hword, hstop.1, hstop.2, List.append_nil]

namespace Layout

theorem readWord (h : Layout sep (w :: ws) text) :
    ∃ rest, readWord sep text = (w, rest) ∧ Layout sep ws rest ∧ rest.length < text.length := by
  cases h with
  | word hgap hw hrest h =>
      refine ⟨_, readWord_append hw hgap hrest, h, ?_⟩
      have := List.length_pos_iff.mpr hw.1
      simp only [List.length_append]
      omega

theorem dropWhile_ne_nil (h : Layout sep (w :: ws) text) : text.dropWhile sep ≠ [] := by
  obtain ⟨rest, hread, -⟩ := h.readWord
  intro hnil
  cases h with
  | word _ hw _ _ =>
      rw [Words.readWord, hnil] at hread
      exact hw.1 (congrArg Prod.fst hread).symm

theorem of_dropWhile_eq_nil (h : text.dropWhile sep = []) : Layout sep [] text :=
  .gap (List.dropWhile_eq_nil_iff.mp h)

theorem dropWhile_eq_nil (h : Layout sep [] text) : text.dropWhile sep = [] := by
  cases h with
  | gap hgap => exact List.dropWhile_eq_nil_iff.mpr hgap

theorem of_readWord (hw : (Words.readWord sep text).1 ≠ []) (h : Layout sep ws (Words.readWord sep text).2) :
    Layout sep ((Words.readWord sep text).1 :: ws) text := by
  have hsplit : text = text.takeWhile sep ++ ((Words.readWord sep text).1 ++ (Words.readWord sep text).2) := by
    rw [Words.readWord, List.takeWhile_append_dropWhile, List.takeWhile_append_dropWhile]
  have hword : IsWord sep (Words.readWord sep text).1 :=
    ⟨hw, fun a ha => by simpa using List.mem_takeWhile_imp ha⟩
  have hrest : ∀ a ∈ (Words.readWord sep text).2.head?, sep a := fun a ha => by
    have hnot := List.head?_dropWhile_not (!sep ·) (text.dropWhile sep)
    rw [show ((text.dropWhile sep).dropWhile (!sep ·)).head? = some a from ha] at hnot
    simpa using hnot
  have hgap : ∀ a ∈ text.takeWhile sep, sep a := fun a ha => List.mem_takeWhile_imp ha
  have hlayout := word hgap hword hrest h
  rwa [← hsplit] at hlayout

/-- Every text is a layout of its words. -/
theorem exists_layout (text : List α) : ∃ ws, Layout sep ws text := by
  induction hlen : text.length using Nat.strong_induction_on generalizing text with
  | _ len ih =>
      by_cases hend : text.dropWhile sep = []
      · exact ⟨[], of_dropWhile_eq_nil hend⟩
      · have hword := List.length_pos_iff.mpr (readWord_ne_nil hend)
        have htake := @length_readWord _ sep text
        obtain ⟨ws, h⟩ := ih _ (by omega) (Words.readWord sep text).2 rfl
        exact ⟨_, of_readWord (readWord_ne_nil hend) h⟩

end Layout

end Words
