import DistRocks.Cluster.Balance
import DistRocks.Cluster.Reading

/-!
# When `reBalance` does nothing

* `Rest.unwritten_reBalance` : if every node is calm, `reBalance` only asks;
* `reBalance_idle_iff` : it writes nothing exactly if `notTooMuch` answers for every node;
* `reBalance_again_iff` : called once more it writes nothing exactly if it does so for node 0.
-/

namespace DistRocks

open Proc

variable {n : ℕ} {O : Origin} {V V' : View} {answers : List Bytes} {w₀ w : World} {total : ℤ}
  {data : OrdMap Bytes Bytes} {pass : Pass} {i : ℕ}

section Calm
variable {F : Type} [Double F] {perfect : F}

/-- The loop for a calm node ends at its first test. -/
theorem Rest.unwritten_drain (h : Rest n O answers V w) (hO : O.marks (.iteration pass i)) (hi : i < n)
    (hcalm : Calm F total perfect (V.node i)) :
    Ends (DistRocks.drain F pass total perfect i) w (fun on w' => on = true ∧ Rest n O answers V w' ∧ Unwritten w w')
      (fun _ _ => False) := by
  obtain ⟨σ, hσ, hdone, rfl⟩ := h
  have htest : Within Unwritten (do
      mark (.iteration pass i)
      return !(← DistRocks.notTooMuch F i total perfect) : M Bool) :=
    (within_mark (.iteration pass i) trivial).bind fun _ => (within_notTooMuch F total perfect).bind fun _ => within_pure _
  have hends : Ends (do
      mark (.iteration pass i)
      return !(← DistRocks.notTooMuch F i total perfect) : M Bool) w
      (fun go w' => go = false ∧ Rest n O answers σ.view w') (fun _ _ => False) := by
    refine (hσ.mark hdone (show (Act.iteration pass i).IsMark from trivial) hO).bind fun _ w₁ h₁ => ?_
    refine (h₁.1.notTooMuch F hi total perfect).bind fun b w₂ h₂ => ?_
    obtain ⟨hb, h₂⟩ := h₂
    have htrue : b = true := hb.mpr hcalm
    exact ⟨by rw [htrue]; rfl, _, h₂, Or.inl rfl, rfl⟩
  rw [DistRocks.drain, ends_bind, ends_get, repeatWhile]
  refine ((htest.ends hends).mono (fun _ _ hq => hq) fun _ _ he => he.1).bind fun go w₁ h₁ => ?_
  obtain ⟨⟨rfl, h₁⟩, hsame⟩ := h₁
  exact ⟨rfl, h₁, hsame⟩

theorem Rest.unwritten_runPass (h : Rest n O answers V w) (hO : ∀ i, O.marks (.iteration pass i))
    (hcalm : ∀ i < n, Calm F total perfect (V.node i)) :
    Ends (DistRocks.runPass F pass total perfect) w
      (fun on w' => on = true ∧ Rest n O answers V w' ∧ Unwritten w w') (fun _ _ => False) := by
  have hstart : Rest n O answers V w ∧ Unwritten w w := ⟨h, refl_of Unwritten w⟩
  refine ends_runPass h.count (fun i w₁ hadj hI => ?_) hstart
  obtain ⟨h₁, hsame⟩ := hI
  refine (h₁.unwritten_drain (hO i) hadj.lt (hcalm i hadj.lt)).mono (fun on w₂ h₂ => ?_) fun _ _ he => he
  exact ⟨h₂.1, h₂.2.1, trans_of Unwritten hsame h₂.2.2⟩

end Calm

section Balance
variable (F : Type) [Double F]

/-- If every node is calm, `reBalance` only asks. -/
theorem Rest.unwritten_reBalance (h : Rest n O answers V w) (hO : ∀ pass i, O.marks (.iteration pass i))
    (hcalm : ∀ i < n, Calm F (totalOf n V) (perfectShare F n) (V.node i)) :
    Ends (DistRocks.reBalance F) w (fun _ w' => Unwritten w w') (fun _ _ => False) := by
  obtain ⟨σ, hσ, hdone, rfl⟩ := h
  rw [DistRocks.reBalance]
  refine (((within_totalSize).ends (hσ.totalSize (H := fun _ _ => False))).mono (fun _ _ hq => hq)
    fun _ _ he => he.1).bind fun a w₁ h₁ => ?_
  obtain ⟨⟨rfl, h₁⟩, hsame₁⟩ := h₁
  rw [ends_bind, ends_get, h₁.count]
  refine ((h₁.rest hdone).unwritten_runPass (hO .forward) hcalm).bind fun on w₂ h₂ => ?_
  obtain ⟨rfl, h₂, hsame₂⟩ := h₂
  refine (h₂.unwritten_runPass (hO .backward) hcalm).bind fun on w₃ h₃ => ?_
  obtain ⟨rfl, ⟨σ₃, h₃, hdone₃, hview⟩, hsame₃⟩ := h₃
  have hshow := within_showMeta.ends (h₃.showMeta (h₃.valid.placed_view hdone₃) (H := fun _ _ => False))
  refine hshow.mono (fun _ w₄ h₄ => ?_) fun _ _ he => he.1
  exact trans_of Unwritten (trans_of Unwritten (trans_of Unwritten hsame₁ hsame₂) hsame₃) h₄.2

/-- `reBalance` ends without a write exactly if every node is calm. -/
theorem Rest.idle_iff (h : Rest n O answers V w) (hn : 2 ≤ n) :
    ((DistRocks.reBalance F w).1 = .ok () ∧ Unwritten w (DistRocks.reBalance F w).2) ↔
      ∀ i < n, Calm F (totalOf n V) (perfectShare F n) (V.node i) := by
  constructor
  · rintro ⟨hok, hsame, new, hnew, hall⟩ i hi
    obtain ⟨O', V₁, V₂, new', hnew', hrest, -, -, hcalm⟩ := h.calm F hn hok
    obtain rfl : new' = new := List.append_cancel_right (hnew'.symm.trans hnew)
    have hput : NonePut new' := fun x hx r hr => absurd ⟨0, r, hr⟩ (hall x hx).1
    refine (hcalm i hi fun _ => hput).of_storeData ?_
    rw [← (hrest.shows.stores hi).data, ← (h.shows.stores hi).data, hsame.data]
  · intro hcalm
    have hends := (h.rebase fun _ => True).unwritten_reBalance F (fun pass i => ⟨pass, i, rfl, trivial⟩) hcalm
    rcases hends.outcome with ⟨a, hok, hsame⟩ | ⟨-, -, hfalse⟩
    · exact ⟨hok, hsame⟩
    · exact hfalse.elim

/-- `reBalance` ends without a write exactly if no node has too much. -/
theorem reBalance_idle_iff (hw : Fresh n w₀) (hn : 2 ≤ n) (hr : Reached F Command.Valid w₀ w) :
    ∃ total, (totalSize w).1 = .ok total ∧
      (((reBalance F w).1 = .ok () ∧ Unwritten w (reBalance F w).2) ↔
        ∀ i < n, (notTooMuch F i total (perfectShare F n) w).1 = .ok true) := by
  have hkept : Kept n Command.Valid fun _ => True := ⟨fun _ => trivial, fun _ _ _ _ _ => trivial, fun _ _ _ => trivial⟩
  obtain ⟨O, V, answers, data, hrest, -⟩ := hw.reached F hkept (fun _ hc => hc) hr
  refine ⟨totalOf n V, hrest.totalSize, (hrest.idle_iff F hn).trans ?_⟩
  exact forall_congr' fun i => forall_congr' fun hi => (hrest.notTooMuch_iff hi).symm

end Balance

/-- Nothing is moved between the two nodes of the second `put`. -/
theorem reBalance_idle_iff_sampleReached :
    ∃ total, (totalSize sampleReached).1 = .ok total ∧
      (((reBalance ℚ sampleReached).1 = .ok () ∧ Unwritten sampleReached (reBalance ℚ sampleReached).2) ↔
        ∀ i < 2, (notTooMuch ℚ i total (perfectShare ℚ 2) sampleReached).1 = .ok true) :=
  reBalance_idle_iff ℚ twoStores_fresh le_rfl (reached_sampleReached (by decide) (by decide))

/-! ## Called once more -/

/-- The total is the same before and after migrations, in `int` arithmetic too. -/
theorem Conserved.same_totalOf (h : Conserved n data total V) (h' : Conserved n data total V') :
    DistRocks.totalOf n V' = DistRocks.totalOf n V := by
  have hgo : ∀ {V}, Conserved n data total V → DistRocks.totalOf n V = wrapInt total := fun {V} h => by
    have hsize : sumTo (fun j => (V.node j).size) n = sumTo (fun j => wrapInt (V.node j).weight) n :=
      sumTo_congr fun j _ => (h.weighed j).size
    rw [totalOf_eq, hsize, wrapInt_sumTo, h.sum]
  rw [hgo h, hgo h']

/-- Called again when it has ended, `reBalance` ends without a write exactly if node 0 has not too much. -/
theorem reBalance_again_iff (F : Type) [Double F] (hw : Fresh n w₀) (hn : 2 ≤ n)
    (hr : Reached F (fun c => c.Valid ∧ c.Filled) w₀ w) (hok : (reBalance F w).1 = .ok ()) :
    ∃ total, (totalSize (reBalance F w).2).1 = .ok total ∧
      (((reBalance F (reBalance F w).2).1 = .ok () ∧ Unwritten (reBalance F w).2 (reBalance F (reBalance F w).2).2) ↔
        (notTooMuch F 0 total (perfectShare F n) (reBalance F w).2).1 = .ok true) := by
  obtain ⟨O, V, answers, data, hrest, hV⟩ := hw.conserved F hr
  obtain ⟨O', V₁, V₂, new, -, hrest', hright, hleft, hcalm⟩ := hrest.calm F hn hok
  obtain ⟨hplaced₁, hV₁⟩ := hright.keeps (fun hplaced hmove h => hmove.conserved hplaced h) hrest.placed hV
  obtain ⟨-, hV₂⟩ := hleft.keeps (fun hplaced hmove h => hmove.conserved hplaced h) hplaced₁ hV₁
  rw [← hV.same_totalOf hV₂] at hcalm
  refine ⟨totalOf n V₂, hrest'.totalSize, (hrest'.idle_iff F hn).trans ?_⟩
  rw [hrest'.notTooMuch_iff (by omega)]
  constructor
  · exact fun hall => hall 0 (by omega)
  · intro hzero j hj
    rcases Nat.eq_zero_or_pos j with rfl | hpos
    · exact hzero
    · exact hcalm j hj fun h0 => absurd h0 hpos.ne'

theorem reBalance_again_iff_sampleReached :
    ∃ total, (totalSize (reBalance ℚ sampleReached).2).1 = .ok total ∧
      (((reBalance ℚ (reBalance ℚ sampleReached).2).1 = .ok () ∧
          Unwritten (reBalance ℚ sampleReached).2 (reBalance ℚ (reBalance ℚ sampleReached).2).2) ↔
        (notTooMuch ℚ 0 total (perfectShare ℚ 2) (reBalance ℚ sampleReached).2).1 = .ok true) :=
  reBalance_again_iff ℚ twoStores_fresh le_rfl (reached_sampleReached (by decide) (by decide)) (by decide +kernel)

end DistRocks
