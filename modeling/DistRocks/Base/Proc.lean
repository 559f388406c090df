/-!
# Programs with faults

`Proc σ φ α` is a program over a state `σ` that ends with a value or with a fault of type `φ`; the state reached
survives a fault, so that what happened before it can still be spoken about.

* `Ends p s Q H` : from `s`, `p` ends with a value and a state in `Q`, or with a fault and a state in `H`
  (total correctness: there is no third outcome);
* `*_run` : what one step of a `do` block does to the state;
* `ends_*` : one rule for each way of building programs, as equivalences, so that `simp only` steps through a
  `do` block;
* `repeatWhile`, `forEachWhile` : a loop with a bound on its rounds and a traversal, either of which its body may
  leave; their rules take an invariant, and the loop's a variant below the bound.
-/

/-- A program over the state `σ` with faults `φ`. -/
def Proc (σ φ α : Type) : Type := σ → Except φ α × σ

namespace Proc

variable {σ φ α β ι : Type}

instance : Monad (Proc σ φ) where
  pure a := fun s => (.ok a, s)
  bind p f := fun s => match p s with
    | (.ok a, s') => f a s'
    | (.error e, s') => (.error e, s')

/-- End with a fault. -/
def fail (e : φ) : Proc σ φ α := fun s => (.error e, s)

def get : Proc σ φ σ := fun s => (.ok s, s)

def modify (f : σ → σ) : Proc σ φ Unit := fun s => (.ok (), f s)

/-- A computation that does not look at the state. -/
def lift (x : Except φ α) : Proc σ φ α := fun s => (x, s)

/-- `while (test) body`, at most `fuel` rounds. The answer is `true` when the test ends the loop and `false` when
the body leaves it. -/
def repeatWhile (exhausted : φ) (test body : Proc σ φ Bool) : Nat → Proc σ φ Bool
  | 0 => fail exhausted
  | fuel + 1 => do
    if ← test then
      if ← body then repeatWhile exhausted test body fuel else return false
    else return true

/-- Run `f` on the elements in order, until one of them answers `false`. -/
def forEachWhile (f : ι → Proc σ φ Bool) : List ι → Proc σ φ Bool
  | [] => return true
  | i :: is => do
    if ← f i then forEachWhile f is else return false

/-- `p` started in `s` ends in `Q` with a value or in `H` with a fault. -/
def Ends (p : Proc σ φ α) (s : σ) (Q : α → σ → Prop) (H : φ → σ → Prop) : Prop :=
  match p s with
  | (.ok a, s') => Q a s'
  | (.error e, s') => H e s'

/-! ## Laws -/

theorem id_map' (p : Proc σ φ α) : id <$> p = p := by
  funext s
  change (match p s with | (.ok a, s') => (.ok a, s') | (.error e, s') => (.error e, s')) = p s
  rcases p s with ⟨_ | _, _⟩ <;> rfl

theorem bind_assoc' {γ : Type} (p : Proc σ φ α) (f : α → Proc σ φ β) (g : β → Proc σ φ γ) :
    p >>= f >>= g = p >>= fun a => f a >>= g := by
  funext s
  change (match (match p s with | (.ok a, s') => f a s' | (.error e, s') => (.error e, s')) with
    | (.ok b, s') => g b s' | (.error e, s') => (.error e, s')) =
    (match p s with | (.ok a, s') => (f a >>= g) s' | (.error e, s') => (.error e, s'))
  rcases p s with ⟨_ | _, _⟩ <;> rfl

instance : LawfulMonad (Proc σ φ) := LawfulMonad.mk' _ id_map' (fun _ _ => rfl) bind_assoc'

theorem lift_pure (a : α) : (lift (pure a) : Proc σ φ α) = pure a := rfl

theorem lift_bind (x : Except φ α) (f : α → Except φ β) :
    (lift (x >>= f) : Proc σ φ β) = lift x >>= fun a => lift (f a) := by
  funext s
  cases x <;> rfl

section Eval
variable {s s' : σ} {p : Proc σ φ α} {f : α → Proc σ φ β}

theorem pure_run (a : α) (s : σ) : (pure a : Proc σ φ α) s = (.ok a, s) := (rfl)

theorem get_bind_run {f : σ → Proc σ φ β} (s : σ) : (get >>= f) s = f s s := (rfl)

theorem modify_bind_run {f : Unit → Proc σ φ β} (g : σ → σ) (s : σ) : (modify g >>= f) s = f () (g s) := (rfl)

theorem lift_ok_bind_run (a : α) (s : σ) : (lift (.ok a) >>= f) s = f a s := (rfl)

theorem lift_error_bind_run (e : φ) (s : σ) : ((lift (.error e) : Proc σ φ α) >>= f) s = (.error e, s) := (rfl)

/-- A step that is known to end well. -/
theorem bind_run {a : α} (h : p s = (.ok a, s')) : (p >>= f) s = f a s' := by
  change (match p s with | (.ok a, s') => f a s' | (.error e, s') => (.error e, s')) = _
  rw [h]

theorem bind_run_error {e : φ} (h : p s = (.error e, s')) : (p >>= f) s = (.error e, s') := by
  change (match p s with | (.ok a, s') => f a s' | (.error e, s') => (.error e, s')) = _
  rw [h]

end Eval

/-! ## Rules -/

variable {s : σ} {Q : α → σ → Prop} {R : β → σ → Prop} {H : φ → σ → Prop}

@[simp] theorem ends_pure (a : α) : Ends (pure a : Proc σ φ α) s Q H ↔ Q a s := Iff.rfl

@[simp] theorem ends_bind (p : Proc σ φ α) (f : α → Proc σ φ β) :
    Ends (p >>= f) s R H ↔ Ends p s (fun a s' => Ends (f a) s' R H) H := by
  simp only [Ends, bind]
  split <;> rename_i h <;> split at h <;> simp_all

@[simp] theorem ends_fail (e : φ) : Ends (fail e : Proc σ φ α) s Q H ↔ H e s := Iff.rfl

@[simp] theorem ends_get {Q : σ → σ → Prop} : Ends (get : Proc σ φ σ) s Q H ↔ Q s s := Iff.rfl

@[simp] theorem ends_modify {Q : Unit → σ → Prop} (f : σ → σ) :
    Ends (modify f : Proc σ φ Unit) s Q H ↔ Q () (f s) := Iff.rfl

@[simp] theorem ends_lift_ok (a : α) : Ends (lift (.ok a) : Proc σ φ α) s Q H ↔ Q a s := Iff.rfl

@[simp] theorem ends_lift_error (e : φ) : Ends (lift (.error e) : Proc σ φ α) s Q H ↔ H e s := Iff.rfl

theorem Ends.mono {p : Proc σ φ α} {Q' : α → σ → Prop} {H' : φ → σ → Prop} (h : Ends p s Q H)
    (hQ : ∀ a s', Q a s' → Q' a s') (hH : ∀ e s', H e s' → H' e s') : Ends p s Q' H' := by
  unfold Ends at h ⊢
  split at h
  · exact hQ _ _ h
  · exact hH _ _ h

theorem Ends.bind {p : Proc σ φ α} {f : α → Proc σ φ β} (h : Ends p s Q H)
    (hf : ∀ a s', Q a s' → Ends (f a) s' R H) : Ends (p >>= f) s R H :=
  (ends_bind p f).mpr (h.mono hf fun _ _ hH => hH)

/-- A step whose outcome is known. -/
theorem ends_run {p : Proc σ φ α} {f : α → Proc σ φ β} {a : α} {s' : σ} (h : p s = (.ok a, s')) :
    Ends (p >>= f) s R H ↔ Ends (f a) s' R H := by
  rw [Ends, bind_run h]
  rfl

theorem Ends.of_run {p : Proc σ φ α} {a : α} {s' : σ} (h : p s = (.ok a, s')) (hQ : Q a s') : Ends p s Q H := by
  rw [Ends, h]
  exact hQ

theorem Ends.and {p : Proc σ φ α} {Q' : α → σ → Prop} {H' : φ → σ → Prop} (h : Ends p s Q H)
    (h' : Ends p s Q' H') : Ends p s (fun a s' => Q a s' ∧ Q' a s') (fun e s' => H e s' ∧ H' e s') := by
  unfold Ends at h h' ⊢
  rcases hp : p s with ⟨_ | _, _⟩ <;> rw [hp] at h h' <;> exact ⟨h, h'⟩

/-- The outcome of a program, read off its specification. -/
theorem Ends.outcome {p : Proc σ φ α} (h : Ends p s Q H) :
    (∃ a, (p s).1 = .ok a ∧ Q a (p s).2) ∨ ∃ e, (p s).1 = .error e ∧ H e (p s).2 := by
  unfold Ends at h
  rcases hp : p s with ⟨r, s'⟩
  rw [hp] at h
  cases r with
  | ok a => exact Or.inl ⟨a, rfl, h⟩
  | error e => exact Or.inr ⟨e, rfl, h⟩

theorem Ends.of_eq {p : Proc σ φ α} (h : Ends p s Q H) {a : α} {s' : σ} (hp : p s = (.ok a, s')) : Q a s' := by
  unfold Ends at h
  rwa [hp] at h

/-- Loop rule: `I` holds before every test and `m` falls with every round. -/
theorem ends_repeatWhile {I : σ → Prop} {m : σ → Nat} {test body : Proc σ φ Bool} {exhausted : φ}
    {Q : Bool → σ → Prop}
    (hround : ∀ s, I s → Ends test s (fun go s₁ =>
      if go then Ends body s₁ (fun on s₂ => if on then I s₂ ∧ m s₂ < m s else Q false s₂) H else Q true s₁) H) :
    ∀ fuel s, I s → m s < fuel → Ends (repeatWhile exhausted test body fuel) s Q H := by
  intro fuel
  induction fuel with
  | zero => intro s _ hm; exact absurd hm (Nat.not_lt_zero _)
  | succ fuel ih =>
      intro s hI hm
      rw [repeatWhile, ends_bind]
      refine (hround s hI).mono (fun go s₁ h₁ => ?_) fun _ _ h => h
      cases go with
      | false => simpa using h₁
      | true =>
          simp only [if_true] at h₁ ⊢
          rw [ends_bind]
          refine h₁.mono (fun on s₂ h₂ => ?_) fun _ _ h => h
          cases on with
          | false => simpa using h₂
          | true =>
              simp only [if_true] at h₂ ⊢
              exact ih s₂ h₂.1 (by omega)

/-- Traversal rule: `I is` holds when the elements `is` are still to come. -/
theorem ends_forEachWhile {I : List ι → σ → Prop} {f : ι → Proc σ φ Bool} {Q : Bool → σ → Prop}
    (hstep : ∀ i is s, I (i :: is) s → Ends (f i) s (fun on s' => if on then I is s' else Q false s') H)
    (hdone : ∀ s, I [] s → Q true s) : ∀ is s, I is s → Ends (forEachWhile f is) s Q H := by
  intro is
  induction is with
  | nil => exact fun s h => hdone s h
  | cons i is ih =>
      intro s h
      rw [forEachWhile, ends_bind]
      refine (hstep i is s h).mono (fun on s' h' => ?_) fun _ _ h => h
      cases on with
      | false => simpa using h'
      | true => exact ih s' (by simpa using h')

/-- Fold rule: `I is b` holds when the elements `is` are still to come and `b` is the value so far. -/
theorem ends_foldlM {I : List ι → β → σ → Prop} {f : β → ι → Proc σ φ β}
    (hstep : ∀ i is b s, I (i :: is) b s → Ends (f b i) s (fun b' s' => I is b' s') H)
    (hdone : ∀ b s, I [] b s → R b s) : ∀ is b s, I is b s → Ends (is.foldlM f b) s R H := by
  intro is
  induction is with
  | nil => exact fun b s h => hdone b s h
  | cons i is ih =>
      intro b s h
      rw [List.foldlM_cons]
      exact (hstep i is b s h).bind fun b' s' h' => ih b' s' h'

end Proc
