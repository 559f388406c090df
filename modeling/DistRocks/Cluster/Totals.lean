import DistRocks.Cluster.Sizes
import Mathlib.Data.Rat.Cast.Order
import Mathlib.Tactic.NormNum

/-!
# The total of `reBalance` as an `int`

* `Counts n d w` : the data of the first `n` stores of the world, which requests that only ask leave alone
  (`Counts.ask`);
* `Exactly` : what the balance test decides on unbounded integers;
* `totalSize_exact_iff` : the total and the test are exact as long as the sum of the sizes is an `int`;
* `bulk` : data of any size, put together from pairs that fit a request; `totalSize_wraps` : the total of two such
  stores is negative, and neither has too much.
-/

namespace DistRocks

open ConstValues Proc

variable {n i : ℕ} {d : ℕ → StoreData} {w : World}

/-! ## Questions to any stores -/

theorem StoreImpl.serve_read {st : StoreImpl} {q : Request} {v : Value} (hq : q.Reads)
    (hlen : q.message.length ≤ MAXLINE) (hv : st.storeData.answer q.asRead = some v) (hfit : v.message.length ≤ MAXLINE) :
    ∃ st', st.serve q.message = .ok (q.asRead, st', some v.message) ∧ st'.storeData = st.storeData := by
  have hother : ∀ c, q ≠ .other c := by
    rintro c rfl
    exact hq
  have heffect : ∀ st : StoreImpl, st.effect q.asRead = .ok st := fun st => by
    cases q with
    | log _ | commitLog | delLog | quit | other _ => exact hq.elim
    | _ => rfl
  have hv' : (st.received q.message).storeData.answer q.asRead = some v := hv
  rw [serve_message st hlen hother, execute_eq _ hv', heffect, ok_bind]
  rcases sendReply_cases (st.received q.message) v.message with ⟨-, b, hb⟩ | ⟨hlong, -⟩
  · exact ⟨{ st.received q.message with sendBuff := b }, by rw [hb, ok_bind], rfl⟩
  · exact absurd hfit hlong.not_ge

/-- The first `n` stores have the data `d`, and none refuses. -/
structure Counts (n : ℕ) (d : ℕ → StoreData) (w : World) : Prop where
  count : w.storeNodeCount = n
  refusals : w.refusals = []
  data : ∀ j < n, (w.cluster.stores j).storeData = d j

namespace Counts

theorem ask (h : Counts n d w) {q : Request} {v : Value} {H : Fault → World → Prop} (hi : i < n) (hq : q.Reads)
    (hlen : q.message.length ≤ MAXLINE) (hv : (d i).answer q.asRead = some v) (hfit : v.message.length ≤ MAXLINE) :
    Ends (call i q.message) w (fun _ w' => Counts n d w' ∧ w'.Got v) H := by
  obtain ⟨st', hserve, hdata⟩ := StoreImpl.serve_read hq hlen ((h.data i hi).symm ▸ hv) hfit
  obtain ⟨b, hcall⟩ := call_eq (h.count.symm ▸ hi) h.refusals hlen hserve
  refine Ends.of_run hcall ⟨⟨h.count, ?_, fun j hj => ?_⟩, hfit, bytes_exchanged _ _ _ st' hfit⟩
  · simp [World.exchanged, h.refusals]
  · by_cases hji : j = i
    · subst hji
      simp [World.exchanged, hdata, h.data j hj]
    · simp [World.exchanged, hji, h.data j hj]

theorem getSize (h : Counts n d w) {H : Fault → World → Prop} (hi : i < n) :
    Ends (DistRocks.getSize i) w (fun a w' => a = wrapInt (d i).size ∧ Counts n d w') H := by
  rw [getSize_eq]
  refine (h.ask (q := .size) (v := .int (d i).size) hi trivial (by decide) rfl ?_).bind fun _ w₁ h₁ => ?_
  · rw [Value.message, length_intToBytes]
    decide
  · exact Ends.of_run h₁.2.int ⟨rfl, h₁.1⟩

theorem getStoreLessOrEqualOne (h : Counts n d w) {H : Fault → World → Prop} (hi : i < n) :
    Ends (DistRocks.getStoreLessOrEqualOne i) w
      (fun b w' => (b = true ↔ (d i).dbHandle.db.entries.length ≤ 1) ∧ Counts n d w') H := by
  have hfit : ∀ b, (Value.flag b).message.length ≤ MAXLINE := by decide
  rw [getStoreLessOrEqualOne_eq]
  refine (h.ask (q := .lessOrEqualOne) hi trivial (by decide) rfl (hfit _)).bind fun _ w₁ h₁ => ?_
  exact Ends.of_run h₁.2.flag ⟨DBHandle.storeLessOrEqualOne_iff _, h₁.1⟩

/-- The total is the sum of the counters in an `int`. -/
theorem totalSize (h : Counts n d w) {H : Fault → World → Prop} :
    Ends DistRocks.totalSize w (fun a w' => a = wrapInt (sumTo (fun j => (d j).size) n) ∧ Counts n d w') H := by
  rw [DistRocks.totalSize, ends_bind, ends_get, h.count]
  refine ends_foldlM (I := fun is a w => ∃ m, is = (List.range n).drop m ∧ m ≤ n ∧
      a = wrapInt (sumTo (fun j => (d j).size) m) ∧ Counts n d w)
    (fun i is a w₁ hI => ?_) (fun a w₁ hI => ?_) _ _ w ⟨0, rfl, Nat.zero_le n, (show wrapInt 0 = 0 by decide).symm, h⟩
  · obtain ⟨m, his, hm, rfl, h₁⟩ := hI
    have hlt : m < n := by
      by_contra hge
      rw [List.drop_of_length_le (by simpa using hge)] at his
      cases his
    rw [List.drop_eq_getElem_cons (by simpa using hlt), List.getElem_range] at his
    obtain ⟨rfl, rfl⟩ := List.cons.inj his
    refine (h₁.getSize hlt).bind fun s w₂ h₂ => ?_
    obtain ⟨rfl, h₂⟩ := h₂
    exact ⟨i + 1, rfl, hlt, by rw [sumTo, wrapInt_add_right, wrapInt_add_left], h₂⟩
  · obtain ⟨m, his, hm, rfl, h₁⟩ := hI
    have hle : n ≤ m := by simpa using List.drop_eq_nil_iff.mp his.symm
    obtain rfl : m = n := le_antisymm hm hle
    exact ⟨rfl, h₁⟩

theorem notTooMuch (F : Type) [Double F] (h : Counts n d w) {H : Fault → World → Prop} (hi : i < n) (total : ℤ)
    (perfect : F) :
    Ends (DistRocks.notTooMuch F i total perfect) w
      (fun b _ => b = true ↔ (Int.cast (wrapInt (d i).size) : F) / (Int.cast total + 0.000001) ≤ perfect + 0.01 ∨
        (d i).dbHandle.db.entries.length ≤ 1) H := by
  rw [DistRocks.notTooMuch]
  refine (h.getSize hi).bind fun a w₁ h₁ => ?_
  obtain ⟨rfl, h₁⟩ := h₁
  simp only
  split_ifs with hle
  · exact ⟨fun _ => Or.inl hle, fun _ => rfl⟩
  · refine (h₁.getStoreLessOrEqualOne hi).mono (fun b w₂ h₂ => h₂.1.trans ?_) fun _ _ he => he
    exact ⟨Or.inr, fun h => h.resolve_left hle⟩

end Counts

/-! ## The exact total -/

/-- The test of node `i` on unbounded integers, with the fraction read exactly. -/
def Exactly (n : ℕ) (c : Cluster) (i : ℕ) : Prop :=
  (c.weight i : ℚ) / (sumTo c.weight n + 0.000001) ≤ 1 / n + 0.01 ∨ (c.pairs i).length ≤ 1

instance decidableExactly (n : ℕ) (c : Cluster) (i : ℕ) : Decidable (Exactly n c i) := by
  unfold Exactly
  infer_instance

theorem Cluster.weight_nonneg (c : Cluster) (j : ℕ) : 0 ≤ c.weight j := Int.natCast_nonneg _

/-- The counters of the first `n` stores are exact. -/
structure Measured (n : ℕ) (w : World) : Prop where
  count : w.storeNodeCount = n
  refusals : w.refusals = []
  size : ∀ j < n, (w.cluster.stores j).storeData.size = w.cluster.weight j
  fit : ∀ j < n, w.cluster.weight j < 2147483648

namespace Measured

theorem of_scan (hcount : w.storeNodeCount = n) (href : w.refusals = [])
    (hsize : ∀ j < n, (w.cluster.stores j).storeData.size = (w.cluster.stores j).storeData.dbHandle.getSize)
    (hfit : ∀ j < n, w.cluster.weight j < 2147483648) : Measured n w := by
  refine ⟨hcount, href, fun j hj => ?_, hfit⟩
  have hnonneg := w.cluster.weight_nonneg j
  rw [hsize j hj, DBHandle.getSize_eq]
  exact wrapInt_eq (by unfold Cluster.weight at hnonneg; omega) (hfit j hj)

theorem counts (h : Measured n w) : Counts n (fun j => (w.cluster.stores j).storeData) w :=
  ⟨h.count, h.refusals, fun _ _ => rfl⟩

theorem totalSize (h : Measured n w) :
    (DistRocks.totalSize w).1 = .ok (wrapInt (sumTo w.cluster.weight n)) ∧
      Counts n (fun j => (w.cluster.stores j).storeData) (DistRocks.totalSize w).2 := by
  rcases (h.counts.totalSize (H := fun _ _ => False)).outcome with ⟨a, hok, rfl, h'⟩ | ⟨-, -, hfalse⟩
  · exact ⟨by rw [hok, sumTo_congr h.size], h'⟩
  · exact hfalse.elim

/-- The test of node `i` after a total. -/
theorem notTooMuch (h : Measured n w) (hi : i < n) (total : ℤ) :
    ∃ b, (DistRocks.notTooMuch ℚ i total (perfectShare ℚ n) (DistRocks.totalSize w).2).1 = .ok b ∧
      (b = true ↔ (w.cluster.weight i : ℚ) / (total + 0.000001) ≤ 1 / n + 0.01 ∨ (w.cluster.pairs i).length ≤ 1) := by
  have htest := h.totalSize.2.notTooMuch ℚ (H := fun _ _ => False) hi total (perfectShare ℚ n)
  rcases htest.outcome with ⟨b, hb, hiff⟩ | ⟨-, -, hfalse⟩
  · refine ⟨b, hb, ?_⟩
    have hnonneg := w.cluster.weight_nonneg i
    rw [hiff, h.size i hi, wrapInt_eq (by omega) (h.fit i hi)]
    rfl
  · exact hfalse.elim

end Measured

/-- If every size is an `int`, then the total is the sum of the sizes, and the test of every node decides what it would
on unbounded integers, exactly if that sum is an `int`. -/
theorem totalSize_exact_iff (hcount : w.storeNodeCount = n) (href : w.refusals = [])
    (hsize : ∀ j < n, (w.cluster.stores j).storeData.size = (w.cluster.stores j).storeData.dbHandle.getSize)
    (hfit : ∀ j < n, w.cluster.weight j < 2147483648) :
    ((totalSize w).1 = .ok (sumTo w.cluster.weight n) ∧
      ∀ i < n, ∀ total, (totalSize w).1 = .ok total →
        (notTooMuch ℚ i total (perfectShare ℚ n) (totalSize w).2).1 = .ok (decide (Exactly n w.cluster i))) ↔
      sumTo w.cluster.weight n < 2147483648 := by
  have h := Measured.of_scan hcount href hsize hfit
  constructor
  · rintro ⟨hexact, -⟩
    have heq := Except.ok.inj (h.totalSize.1.symm.trans hexact)
    exact heq ▸ (wrapInt_bounds _).2
  · intro hlt
    have hsum : 0 ≤ sumTo w.cluster.weight n := sumTo_nonneg fun j _ => w.cluster.weight_nonneg j
    have htotal := h.totalSize.1
    rw [wrapInt_eq (by omega) hlt] at htotal
    refine ⟨htotal, fun i hi total hok => ?_⟩
    obtain rfl := Except.ok.inj (htotal.symm.trans hok)
    obtain ⟨b, hb, hiff⟩ := h.notTooMuch hi (sumTo w.cluster.weight n)
    have hexact : b = true ↔ Exactly n w.cluster i := hiff
    rw [hb, Bool.eq_iff_iff.mpr (hexact.trans decide_eq_true_iff.symm)]

/-! ## A large cluster -/

/-- `m` pairs, each 40000 bytes long. -/
def bulk : ℕ → OrdMap Bytes Bytes
  | 0 => .empty
  | m + 1 => (bulk m).insert (List.replicate (m + 1) 97) (List.replicate (39999 - m) 97)

theorem length_key_bulk {m : ℕ} : ∀ e ∈ (bulk m).entries, e.1.length ≤ m := by
  induction m with
  | zero => simp [bulk]
  | succ m ih =>
      intro e he
      rcases OrdMap.mem_insert.mp he with rfl | ⟨-, he⟩
      · rw [List.length_replicate]
      · exact (ih e he).trans m.le_succ

theorem notMem_bulk (m : ℕ) : (bulk m).get? (List.replicate (m + 1) 97) = none := by
  refine OrdMap.get?_eq_none.mpr fun v hv => ?_
  have hlen := length_key_bulk _ hv
  rw [List.length_replicate] at hlen
  omega

theorem total_bulk {m : ℕ} (hm : m ≤ 40000) : (bulk m).total pairSize = 40002 * m := by
  induction m with
  | zero => rfl
  | succ m ih =>
      rw [bulk, OrdMap.total_insert, OrdMap.erase_of_notMem (notMem_bulk m), ih (by omega), pairSize_mk,
        List.length_replicate, List.length_replicate]
      omega

theorem length_bulk (m : ℕ) : (bulk m).entries.length = m := by
  induction m with
  | zero => rfl
  | succ m ih =>
      rw [bulk, (OrdMap.insert_perm _ _ _).length_eq, List.length_cons, OrdMap.erase_of_notMem (notMem_bulk m), ih]

/-- A control node with two stores, started over `m` and `m'` pairs. -/
def bulkStores (m m' : ℕ) : World :=
  { World.boot ⟨fun j => .start (.reliable (bulk (if j = 0 then m else m'))) (.reliable .empty), .reliable .empty⟩ with
    storeNodeCount := 2 }

theorem weight_bulkStores {m m' : ℕ} (hm : m ≤ 40000) (hm' : m' ≤ 40000) (j : ℕ) :
    (bulkStores m m').cluster.weight j = 40002 * if j = 0 then (m : ℤ) else m' := by
  have hle : (if j = 0 then m else m') ≤ 40000 := by split_ifs <;> assumption
  have htotal := congrArg (Nat.cast (R := ℤ)) (total_bulk hle)
  push_cast at htotal
  exact htotal

theorem measured_bulkStores {m m' : ℕ} (hm : m ≤ 40000) (hm' : m' ≤ 40000) : Measured 2 (bulkStores m m') := by
  refine .of_scan rfl rfl (fun j _ => rfl) fun j _ => ?_
  rw [weight_bulkStores hm hm']
  split_ifs <;> omega

theorem totalSize_exact_iff_bulkStores :
    (totalSize (bulkStores 20000 10000)).1 = .ok (sumTo (bulkStores 20000 10000).cluster.weight 2) ∧
      ∀ i < 2, ∀ total, (totalSize (bulkStores 20000 10000)).1 = .ok total →
        (notTooMuch ℚ i total (perfectShare ℚ 2) (totalSize (bulkStores 20000 10000)).2).1 =
          .ok (decide (Exactly 2 (bulkStores 20000 10000).cluster i)) := by
  have h := measured_bulkStores (show 20000 ≤ 40000 by decide) (show 10000 ≤ 40000 by decide)
  refine (totalSize_exact_iff h.count h.refusals (fun _ _ => rfl) h.fit).mpr ?_
  rw [sumTo, sumTo, sumTo, weight_bulkStores (by decide) (by decide), weight_bulkStores (by decide) (by decide)]
  decide

/-- 1.6 and 0.8 billion bytes: the total is negative, so the larger store has not too much. -/
theorem totalSize_wraps :
    (∀ j < 2, (bulkStores 40000 20000).cluster.weight j < 2147483648) ∧
      (totalSize (bulkStores 40000 20000)).1 = .ok (-1894847296) ∧
      sumTo (bulkStores 40000 20000).cluster.weight 2 = 2400120000 ∧
      (notTooMuch ℚ 0 (-1894847296) (perfectShare ℚ 2) (totalSize (bulkStores 40000 20000)).2).1 = .ok true ∧
      ¬Exactly 2 (bulkStores 40000 20000).cluster 0 := by
  have h := measured_bulkStores (show 40000 ≤ 40000 by decide) (show 20000 ≤ 40000 by decide)
  have hweight : ∀ j, (bulkStores 40000 20000).cluster.weight j = 40002 * if j = 0 then (40000 : ℤ) else 20000 :=
    weight_bulkStores (by decide) (by decide)
  have hsum : sumTo (bulkStores 40000 20000).cluster.weight 2 = 2400120000 := by
    rw [sumTo, sumTo, sumTo, hweight, hweight]
    decide
  refine ⟨h.fit, ?_, hsum, ?_, ?_⟩
  · rw [h.totalSize.1, hsum]
    decide
  · obtain ⟨b, hb, hiff⟩ := h.notTooMuch (show 0 < 2 by decide) (-1894847296)
    rw [hb, hiff.mpr (Or.inl ?_)]
    rw [hweight]
    norm_num
  · rw [Exactly, hweight, hsum, not_or, Cluster.pairs]
    refine ⟨by norm_num, ?_⟩
    rw [show (bulkStores 40000 20000).cluster.stores 0 = .start (.reliable (bulk 40000)) (.reliable .empty) from rfl]
    exact (length_bulk 40000).symm ▸ by decide

end DistRocks
