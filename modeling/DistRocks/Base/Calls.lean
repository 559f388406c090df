import Mathlib.Data.List.Infix

/-!
# Sequences of calls

`after step s cs` : the state that the calls `cs` leave behind; a moment of `cs` is the state after a prefix of it.

* `moments_iff` : when a call keeps `Good` exactly if it is `Ok`, then `Good` holds at every moment exactly if every
  call is `Ok` at its moment.
-/

namespace DistRocks

variable {σ ι : Type*}

/-- The state after the calls `cs`. -/
def after (step : σ → ι → σ) (s : σ) (cs : List ι) : σ := cs.foldl step s

variable {step : σ → ι → σ} {s : σ} {c : ι} {cs : List ι}

@[simp] theorem after_nil : after step s [] = s := rfl

@[simp] theorem after_cons : after step s (c :: cs) = after step (step s c) cs := rfl

/-- What every call keeps, a sequence keeps. -/
theorem after_invariant {P : σ → Prop} (hstep : ∀ s, ∀ c ∈ cs, P s → P (step s c)) (hs : P s) : P (after step s cs) := by
  induction cs generalizing s with
  | nil => exact hs
  | cons c cs ih =>
      exact ih (fun s c' hc' => hstep s c' (List.mem_cons_of_mem c hc')) (hstep s c List.mem_cons_self hs)

/-- Two states side by side. -/
theorem after_prod {τ : Type*} (step : σ → ι → σ) (step' : τ → ι → τ) (s : σ) (t : τ) :
    after (fun p c => (step p.1 c, step' p.2 c)) (s, t) cs = (after step s cs, after step' t cs) := by
  induction cs generalizing s t with
  | nil => rfl
  | cons c cs ih => exact ih (step s c) (step' t c)

theorem forall_prefix_cons {P : List ι → Prop} :
    (∀ done, done <+: c :: cs → P done) ↔ P [] ∧ ∀ done, done <+: cs → P (c :: done) := by
  constructor
  · intro h
    exact ⟨h [] List.nil_prefix, fun done hdone => h _ (List.cons_prefix_cons.mpr ⟨rfl, hdone⟩)⟩
  · rintro ⟨hnil, hcons⟩ done hdone
    rcases List.prefix_cons_iff.mp hdone with rfl | ⟨done', rfl, hdone'⟩
    · exact hnil
    · exact hcons done' hdone'

theorem forall_snoc_prefix_cons {P : List ι → ι → Prop} :
    (∀ done c', done ++ [c'] <+: c :: cs → P done c') ↔ P [] c ∧ ∀ done c', done ++ [c'] <+: cs → P (c :: done) c' := by
  constructor
  · intro h
    exact ⟨h [] c ⟨cs, rfl⟩, fun done c' hdone => h _ c' (List.cons_prefix_cons.mpr ⟨rfl, hdone⟩)⟩
  · rintro ⟨hfirst, hrest⟩ done c' hdone
    cases done with
    | nil =>
        obtain ⟨rfl, -⟩ := List.cons_prefix_cons.mp hdone
        exact hfirst
    | cons d done =>
        obtain ⟨rfl, hdone'⟩ := List.cons_prefix_cons.mp hdone
        exact hrest done c' hdone'

/-- A property of all moments, as a property of the calls when they come. -/
theorem moments_iff (Fits Good : σ → Prop) (Ok : σ → ι → Prop)
    (hstep : ∀ s, ∀ c ∈ cs, Fits s → Fits (step s c) → Good s → (Good (step s c) ↔ Ok s c)) (hs : Good s)
    (hfit : ∀ done, done <+: cs → Fits (after step s done)) :
    (∀ done, done <+: cs → Good (after step s done)) ↔
      ∀ done c, done ++ [c] <+: cs → Ok (after step s done) c := by
  induction cs generalizing s with
  | nil => simpa using hs
  | cons c cs ih =>
      rw [forall_prefix_cons] at hfit ⊢
      rw [forall_snoc_prefix_cons]
      have hrest := fun s c' hc' => hstep s c' (List.mem_cons_of_mem c hc')
      have hc := hstep s c List.mem_cons_self hfit.1 (hfit.2 [] List.nil_prefix) hs
      constructor
      · rintro ⟨-, hgood⟩
        have hnext : Good (step s c) := hgood [] List.nil_prefix
        exact ⟨hc.mp hnext, (ih hrest hnext hfit.2).mp hgood⟩
      · rintro ⟨hok, hafter⟩
        exact ⟨hs, (ih hrest (hc.mpr hok) hfit.2).mpr hafter⟩

end DistRocks
