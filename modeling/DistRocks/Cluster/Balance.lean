import DistRocks.Cluster.Sizes
import Mathlib.Algebra.Order.Field.Basic
import Mathlib.Data.Rat.Cast.Order

/-!
# How balanced `reBalance` leaves the nodes

* `Step.node_eq`, `Traced.node_eq` : a node stays as it is while nothing is sent to its log;
* `Rest.calm` : after `reBalance` every node is calm but node 0, and node 0 too if no pair was moved to it;
  `reBalance_balanced` : so `notTooMuch` answers, and `reBalance_unbalanced` that node 0 may not be;
* `Double.Monotone` : what is asked of the arithmetic of the test; `reBalance_largest` : the same nodes are no larger than
  the largest node was, and `reBalance_enlarges` that node 0 may be.
-/

namespace DistRocks

open Proc

variable {n : ℕ} {O : Origin} {V V' : View} {σ₀ σ : Stage} {answers : List Bytes} {w₀ w : World} {marks : Act → Prop}
  {h : List Event} {c c' : Cluster} {data : OrdMap Bytes Bytes} {total : ℤ}

/-! ## The order of the turns -/

/-- After its turn nothing goes to a node. -/
theorem Pass.nodes_pairwise (pass : Pass) (n : ℕ) :
    (pass.nodes n).Pairwise fun i i' => i' ≠ i ∧ pass.peer i' ≠ i := by
  cases pass with
  | forward =>
      refine List.pairwise_lt_range.imp fun {i i'} hlt => ?_
      simp only [Pass.peer]
      omega
  | backward =>
      rw [Pass.nodes, List.pairwise_reverse]
      refine (List.pairwise_lt_range.sublist (List.drop_sublist 1 _)).imp fun {i i'} hlt => ?_
      simp only [Pass.peer]
      omega

theorem Pass.mem_backward {i : ℕ} (hpos : 0 < i) (hi : i < n) : i ∈ Pass.backward.nodes n := by
  obtain ⟨j, rfl⟩ := Nat.exists_eq_succ_of_ne_zero hpos.ne'
  obtain ⟨m, rfl⟩ := Nat.exists_eq_succ_of_ne_zero (Nat.ne_zero_of_lt hi)
  rw [Pass.nodes, List.mem_reverse, List.range_succ_eq_map, List.drop_one, List.tail_cons]
  exact List.mem_map_of_mem (List.mem_range.mpr (Nat.lt_of_succ_lt_succ hi))

/-! ## A node to which nothing is sent -/

theorem Step.node_eq {σ' : Stage} {a : Act} {j : ℕ} (hstep : Step n σ a σ') (hlog : a.logged j = none)
    (hquiet : (σ.view.node j).pending = none) : σ'.view.node j = σ.view.node j := by
  cases hstep with
  | read | mark => rfl
  | @change _ ch p _ _ _ hperf =>
      rw [Stage.view_make, View.after_cons, View.after_nil]
      cases ch with
      | log fd r =>
          have hne : j ≠ fd := by
            rintro rfl
            rw [hperf.logged] at hlog
            cases hlog
          rw [View.node_change_log, Function.update_of_ne hne]
      | commit fd =>
          rw [View.node_change_commit]
          by_cases hj : j = fd
          · subst hj
            rw [Function.update_self, Node.commit, hquiet]
          · rw [Function.update_of_ne hj]
      | unfile i | file i s => rfl

theorem Traced.node_eq {j : ℕ} (ht : Traced n marks σ₀ h σ) (hlog : ∀ x ∈ h, x.act.logged j = none)
    (hquiet : (σ₀.view.node j).pending = none) : σ.view.node j = σ₀.view.node j := by
  induction ht with
  | start => rfl
  | event _ hstep _ _ _ ih =>
      have hold := ih fun x hx => hlog x (List.mem_cons_of_mem _ hx)
      exact (hstep.node_eq (hlog _ List.mem_cons_self) (hold ▸ hquiet)).trans hold

/-- In the pass to the left only pairs go to node 0. -/
theorem Traced.put_of_backward {older : List Event} {x : Event} {r : Log}
    (ht : Traced n (Origin.rounds V older (· = .backward)).marks (Origin.rounds V older (· = .backward)).stage h σ)
    (hx : x ∈ h) (hr : x.act.logged 0 = some r) : r.kind = .put := by
  obtain ⟨newer, rest, rfl⟩ := List.append_of_mem hx
  obtain ⟨σ₁, σ₂, hold, hstep, -, -, -, -⟩ := ht.split
  obtain ⟨-, p, hp, hpre⟩ := hstep.of_logged hr
  obtain ⟨i, hi⟩ : ∃ i, σ₁.mark = .iteration .backward i := by
    rcases hold.latest with ⟨hmark, -⟩ | ⟨mid, e, older', -, -, -, ⟨pass, i, he, rfl⟩, hmark, -⟩
    · exact ⟨0, hmark⟩
    · exact ⟨i, hmark.trans he⟩
  rw [hi] at hp
  obtain ⟨k, v, hmove, rfl⟩ := Allowed.of_iteration hp
  have hmem : Change.log 0 r ∈ movePlan σ₁.base .backward i k v :=
    hpre.subset (List.mem_append_right _ (List.mem_singleton_self _))
  have hor : (0 = i ∧ r = ⟨.delete, k, []⟩) ∨ (0 = Pass.backward.peer i ∧ r = ⟨.put, k, v⟩) := by
    simpa [movePlan] using hmem
  rcases hor with ⟨rfl, -⟩ | ⟨-, rfl⟩
  · exact absurd hmove.adjacent.1 (lt_irrefl 0)
  · rfl

/-! ## Calm nodes -/

/-- No pair is sent to node 0. -/
def NonePut (h : List Event) : Prop := ∀ x ∈ h, ∀ r, x.act.logged 0 = some r → r.kind ≠ .put

/-- After `reBalance` every node is calm but node 0, and node 0 too if no pair was moved to it. -/
theorem Rest.calm (F : Type) [Double F] (h : Rest n O answers V w) (hn : 2 ≤ n) (hok : (DistRocks.reBalance F w).1 = .ok ()) :
    ∃ O' V₁ V₂ new, (DistRocks.reBalance F w).2.history = new ++ w.history ∧
      Rest n O' answers V₂ (DistRocks.reBalance F w).2 ∧
      Sweeps n .forward (Calm F (totalOf n V) (perfectShare F n)) (Pass.forward.nodes n) V V₁ ∧
      Sweeps n .backward (Calm F (totalOf n V) (perfectShare F n)) (Pass.backward.nodes n) V₁ V₂ ∧
      ∀ j < n, (j = 0 → NonePut new) → Calm F (totalOf n V) (perfectShare F n) (V₂.node j) := by
  have hends := (h.rebase fun _ => True).reBalance F fun pass i => ⟨pass, i, rfl, trivial⟩
  obtain ⟨V₁, older, ⟨new₁, rfl⟩, hright, -, V₂, hleft, hrest⟩ := hends.of_eq (Prod.ext hok rfl)
  obtain ⟨σ, hσ, hdone, rfl⟩ := hrest
  obtain ⟨new₂, hnew, ht⟩ := hσ.traced
  have hhist : (DistRocks.reBalance F w).2.history = (new₂ ++ new₁) ++ w.history := by
    rw [hnew, List.append_assoc]
    rfl
  refine ⟨_, V₁, σ.view, new₂ ++ new₁, hhist, ⟨σ, hσ, hdone, rfl⟩, hright, hleft, fun j hj hput => ?_⟩
  rcases Nat.eq_zero_or_pos j with rfl | hpos
  · have hV₁ : Placed n V₁ := (hright.keeps (P := fun _ => True) (fun _ _ _ => trivial) h.placed trivial).1
    have hnone : ∀ x ∈ new₂, x.act.logged 0 = none := fun x hx => by
      cases hr : x.act.logged 0 with
      | none => rfl
      | some r => exact absurd (ht.put_of_backward hx hr) (hput rfl x (List.mem_append_left _ hx) r hr)
    have hnode : σ.view.node 0 = V₁.node 0 := ht.node_eq hnone (hV₁.quiet hj)
    rw [hnode]
    exact hright.calm_of_mem (Pass.nodes_pairwise .forward n) 0 (List.mem_range.mpr (by omega))
  · exact hleft.calm_of_mem (Pass.nodes_pairwise .backward n) j (Pass.mem_backward hpos hj)

/-- When `reBalance` ends, no node but node 0 has too much, nor has node 0 if no pair was moved to it. -/
theorem reBalance_balanced (F : Type) [Double F] (hw : Fresh n w₀) (hn : 2 ≤ n) (hr : Reached F Command.Valid w₀ w)
    (hok : (reBalance F w).1 = .ok ()) :
    ∃ total new, (totalSize w).1 = .ok total ∧ (reBalance F w).2.history = new ++ w.history ∧
      ∀ i < n, (i = 0 → NonePut new) → (notTooMuch F i total (perfectShare F n) (reBalance F w).2).1 = .ok true := by
  have hkept : Kept n Command.Valid fun _ => True := ⟨fun _ => trivial, fun _ _ _ _ _ => trivial, fun _ _ _ => trivial⟩
  obtain ⟨O, V, answers, data, hrest, -⟩ := hw.reached F hkept (fun _ hc => hc) hr
  obtain ⟨O', V₁, V₂, new, hnew, ⟨σ, hσ, -, rfl⟩, -, -, hcalm⟩ := hrest.calm F hn hok
  refine ⟨totalOf n V, new, hrest.totalSize, hnew, fun i hi hput => ?_⟩
  have hask := hσ.notTooMuch F hi (totalOf n V) (perfectShare F n) (H := fun _ _ => False)
  rcases hask.outcome with ⟨b, hb, hiff, -⟩ | ⟨-, -, hfalse⟩
  · rw [hb, hiff.mpr (hcalm i hi hput)]
  · exact hfalse.elim

/-- A pair lies in node 0, and a larger one is the smaller key of node 1. -/
def unevenPuts : List Command := [.put (text "1") (text "vvvvv"), .put (text "2") (text "vvvvvvv")]

theorem run_unevenPuts : (DistRocks.run ℚ unevenPuts twoStores).1 = .ok () := by decide +kernel

theorem update_uneven :
    ((Command.put (text "3") (text "v")).update (DistRocks.run ℚ unevenPuts twoStores).2).1 = .ok () := by
  decide +kernel

def unevenReached : World :=
  ((Command.put (text "3") (text "v")).update (DistRocks.run ℚ unevenPuts twoStores).2).2

theorem reached_unevenReached {P : Command → Prop} (hP : ∀ c ∈ unevenPuts, P c) (hc : P (.put (text "3") (text "v"))) :
    Reached ℚ P twoStores unevenReached :=
  .update hP run_unevenPuts hc update_uneven

theorem reBalance_balanced_sampleReached :
    ∃ total new, (totalSize sampleReached).1 = .ok total ∧
      (reBalance ℚ sampleReached).2.history = new ++ sampleReached.history ∧
      ∀ i < 2, (i = 0 → NonePut new) →
        (notTooMuch ℚ i total (perfectShare ℚ 2) (reBalance ℚ sampleReached).2).1 = .ok true :=
  reBalance_balanced ℚ twoStores_fresh le_rfl (reached_sampleReached (by decide) (by decide)) (by decide +kernel)

/-- Node 1 gives its larger pair to node 0, which has too much then. -/
theorem reBalance_unbalanced :
    ∃ w, Reached ℚ (fun c => c.Valid ∧ c.Filled) twoStores w ∧ (reBalance ℚ w).1 = .ok () ∧
      ∃ total, (totalSize w).1 = .ok total ∧
        (notTooMuch ℚ 0 total (perfectShare ℚ 2) (reBalance ℚ w).2).1 = .ok false :=
  ⟨unevenReached, reached_unevenReached (by decide) (by decide), by decide +kernel, 22, by decide +kernel,
    by decide +kernel⟩

/-! ## The largest node -/

/-- On values of an `int` the quotient of the test grows with the size, the total being positive or 0. -/
def Double.Monotone (F : Type) [Double F] : Prop :=
  ∀ (s s' t : ℤ) (share : F), -2147483648 ≤ s → s ≤ s' → s' < 2147483648 → 0 ≤ t → t < 2147483648 →
    (Int.cast s' : F) / (Int.cast t + 0.000001) ≤ share → (Int.cast s : F) / (Int.cast t + 0.000001) ≤ share

theorem Double.monotone_rat : Double.Monotone ℚ := by
  intro s s' t share _ hs _ ht _ hle
  have hpos : (0 : ℚ) ≤ (t : ℚ) + 0.000001 := add_nonneg (Int.cast_nonneg ht) (by decide +kernel)
  exact (div_le_div_of_nonneg_right (Int.cast_le.mpr hs) hpos).trans hle

/-- A calm node that weighs more than some node that is not calm has one key at most. -/
theorem Calm.weight_le {F : Type} [Double F] (hF : Double.Monotone F) {perfect : F} {nd nd' : Node} (htotal : 0 ≤ total)
    (hint : total < 2147483648) (hcalm : Calm F total perfect nd) (hrough : ¬Calm F total perfect nd') :
    wrapInt nd.size ≤ wrapInt nd'.size ∨ nd.data.entries.length ≤ 1 := by
  rcases hcalm with hshare | hone
  · refine Or.inl (not_lt.mp fun hlt => hrough (Or.inl ?_))
    exact hF _ _ _ _ (wrapInt_bounds _).1 hlt.le (wrapInt_bounds _).2 htotal hint hshare
  · exact Or.inr hone

/-- A node with one key at most weighs no more than some node did before. -/
theorem Conserved.weight_of_one (hV : Conserved n data total V) (hV' : Conserved n data total V') {j : ℕ} (hj : j < n)
    (hone : (V'.node j).data.entries.length ≤ 1) : ∃ i < n, (V'.node j).weight ≤ (V.node i).weight := by
  rcases hentries : (V'.node j).data.entries with _ | ⟨⟨k, v⟩, _ | ⟨e, es⟩⟩
  · refine ⟨j, hj, ?_⟩
    rw [Node.weight, OrdMap.total, hentries]
    exact Int.natCast_nonneg _
  · have hmem : (k, v) ∈ (V'.node j).data.entries := by
      rw [hentries]
      exact List.mem_cons_self
    obtain ⟨i, hi, hget⟩ := (hV.holds k v).mp ((hV'.holds k v).mpr ⟨j, hj, OrdMap.get?_eq_some.mpr hmem⟩)
    refine ⟨i, hi, ?_⟩
    rw [Node.weight, OrdMap.total, hentries]
    exact Int.ofNat_le.mpr (OrdMap.le_total (f := pairSize) (OrdMap.get?_eq_some.mp hget))
  · rw [hentries] at hone
    simp at hone

/-- No node but node 0 is larger after `reBalance` than the largest node was, nor is node 0 if no pair was moved to it.
The total is an `int`: the sum that the test divides by is not defined beyond. -/
theorem reBalance_largest (F : Type) [Double F] (hF : Double.Monotone F) (hw : Fresh n w₀) (hn : 2 ≤ n)
    (hr : Reached F (fun c => c.Valid ∧ c.Filled) w₀ w) (hfit : sumTo w.cluster.weight n < 2147483648)
    (hok : (reBalance F w).1 = .ok ()) :
    ∃ new, (reBalance F w).2.history = new ++ w.history ∧ ∀ j < n, (j = 0 → NonePut new) →
      ∃ i < n, ((reBalance F w).2.cluster.stores j).storeData.getSize ≤ (w.cluster.stores i).storeData.getSize := by
  obtain ⟨O, V, answers, data, hrest, hV⟩ := hw.conserved F hr
  obtain ⟨O', V₁, V₂, new, hnew, hrest', hright, hleft, hcalm⟩ := hrest.calm F hn hok
  obtain ⟨hplaced₁, hV₁⟩ := hright.keeps (fun hplaced hmove h => hmove.conserved hplaced h) hrest.placed hV
  obtain ⟨-, hV₂⟩ := hleft.keeps (fun hplaced hmove h => hmove.conserved hplaced h) hplaced₁ hV₁
  have hbefore : ∀ {i}, i < n → (w.cluster.stores i).storeData.getSize = (V.node i).weight := fun hi =>
    hrest.shows.getSize hV hfit hi
  have hafter : ∀ {j}, j < n → ((reBalance F w).2.cluster.stores j).storeData.getSize = (V₂.node j).weight := fun hj =>
    hrest'.shows.getSize hV₂ hfit hj
  have htotal : 0 ≤ totalOf n V ∧ totalOf n V < 2147483648 := by
    rw [hV.totalOf hfit]
    exact ⟨hV.sum ▸ sumTo_nonneg fun j _ => Int.natCast_nonneg _, hfit⟩
  -- nothing has moved, or a node was not calm
  have hfirst : V₂ = V ∨ ∃ i < n, ¬Calm F (totalOf n V) (perfectShare F n) (V.node i) := by
    have hlt : ∀ {pass : Pass} {i}, i ∈ pass.nodes n → i < n := fun hi => (Pass.adjacent_of_mem hi).lt
    rcases hright.eq_or_not_calm with rfl | ⟨i, hi, hrough⟩
    · rcases hleft.eq_or_not_calm with rfl | ⟨i, hi, hrough⟩
      · exact Or.inl rfl
      · exact Or.inr ⟨i, hlt hi, hrough⟩
    · exact Or.inr ⟨i, hlt hi, hrough⟩
  refine ⟨new, hnew, fun j hj hput => ?_⟩
  rw [hafter hj]
  suffices h : ∃ i < n, (V₂.node j).weight ≤ (V.node i).weight by
    obtain ⟨i, hi, hle⟩ := h
    exact ⟨i, hi, hle.trans_eq (hbefore hi).symm⟩
  rcases hfirst with rfl | ⟨i, hi, hrough⟩
  · exact ⟨j, hj, le_rfl⟩
  · rcases (hcalm j hj hput).weight_le hF htotal.1 htotal.2 hrough with hle | hone
    · have hwrap : ∀ {V i}, Conserved n data (sumTo w.cluster.weight n) V → i < n →
          wrapInt (V.node i).size = (V.node i).weight := fun hV hi => by
        obtain ⟨hlo, hhi⟩ := hV.weight_bounds hi
        rw [hV.size_eq hfit hi, wrapInt_eq (by omega) (by omega)]
      rw [hwrap hV₂ hj, hwrap hV hi] at hle
      exact ⟨i, hi, hle⟩
    · exact hV.weight_of_one hV₂ hj hone

theorem reBalance_largest_sampleReached :
    ∃ new, (reBalance ℚ sampleReached).2.history = new ++ sampleReached.history ∧
      ∀ j < 2, (j = 0 → NonePut new) → ∃ i < 2, ((reBalance ℚ sampleReached).2.cluster.stores j).storeData.getSize ≤
        (sampleReached.cluster.stores i).storeData.getSize :=
  reBalance_largest ℚ Double.monotone_rat twoStores_fresh le_rfl (reached_sampleReached (by decide) (by decide))
    (by decide +kernel) (by decide +kernel)

/-- Node 0 becomes larger than either node was. -/
theorem reBalance_enlarges :
    ∃ w, Reached ℚ (fun c => c.Valid ∧ c.Filled) twoStores w ∧ (reBalance ℚ w).1 = .ok () ∧
      ∀ i < 2, (w.cluster.stores i).storeData.getSize < ((reBalance ℚ w).2.cluster.stores 0).storeData.getSize :=
  ⟨unevenReached, reached_unevenReached (by decide) (by decide), by decide +kernel, by decide +kernel⟩

end DistRocks
