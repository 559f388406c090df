import DistRocks.Base.Proc
import Mathlib.Order.Defs.Unbundled

/-!
# What a program leaves as it was

* `Within R p` : whatever comes of it, `p` goes from a state to one that is related to it;
* `within_*` : for a preorder, one rule for each way of building programs, loops included;
* `Within.ends` : beside any other specification, the state reached is related to the one at the start.
-/

namespace Proc

variable {σ φ α β ι : Type} {R : σ → σ → Prop} {p : Proc σ φ α} {f : α → Proc σ φ β}

/-- Whatever comes of it, `p` goes from a state to one that is related to it. -/
def Within (R : σ → σ → Prop) (p : Proc σ φ α) : Prop := ∀ s, R s (p s).2

/-- Beside any other specification. -/
theorem Within.ends (hp : Within R p) {s : σ} {Q : α → σ → Prop} {H : φ → σ → Prop} (h : Ends p s Q H) :
    Ends p s (fun a s' => Q a s' ∧ R s s') (fun e s' => H e s' ∧ R s s') := by
  have hs := hp s
  unfold Ends at h ⊢
  rcases hrun : p s with ⟨_ | _, _⟩ <;> rw [hrun] at h hs <;> exact ⟨h, hs⟩

theorem within_modify {g : σ → σ} (hg : ∀ s, R s (g s)) : Within R (modify g : Proc σ φ Unit) := hg

theorem within_ite {c : Prop} [Decidable c] {q : Proc σ φ α} (hp : Within R p) (hq : Within R q) :
    Within R (if c then p else q) := by
  by_cases hc : c
  · rwa [if_pos hc]
  · rwa [if_neg hc]

section Refl
variable [Std.Refl R]

theorem within_pure (a : α) : Within R (pure a : Proc σ φ α) := fun s => refl_of R s

theorem within_get : Within R (get : Proc σ φ σ) := fun s => refl_of R s

theorem within_fail (e : φ) : Within R (fail e : Proc σ φ α) := fun s => refl_of R s

theorem within_lift (x : Except φ α) : Within R (lift x) := fun s => refl_of R s

end Refl

theorem Within.bind [IsTrans σ R] (hp : Within R p) (hf : ∀ a, Within R (f a)) : Within R (p >>= f) := by
  intro s
  have hs := hp s
  rcases hrun : p s with ⟨e | a, s'⟩
  · rw [hrun] at hs
    rw [bind_run_error hrun]
    exact hs
  · rw [hrun] at hs
    rw [bind_run hrun]
    exact trans_of R hs (hf a s')

section Loops
variable [Std.Refl R] [IsTrans σ R]

theorem within_forEachWhile {f : ι → Proc σ φ Bool} (hf : ∀ i, Within R (f i)) (is : List ι) :
    Within R (forEachWhile f is) := by
  induction is with
  | nil => exact within_pure true
  | cons i is ih =>
      rw [forEachWhile]
      exact (hf i).bind fun _ => within_ite ih (within_pure _)

theorem within_foldlM {f : β → ι → Proc σ φ β} (hf : ∀ b i, Within R (f b i)) (is : List ι) (b : β) :
    Within R (is.foldlM f b) := by
  induction is generalizing b with
  | nil => exact within_pure b
  | cons i is ih =>
      rw [List.foldlM_cons]
      exact (hf b i).bind fun b' => ih b'

end Loops

end Proc
