import DistRocks.Base.Calls
import DistRocks.Store.Data

/-!
# The running size of a store's data

`StoreData.size` is adjusted by every call, from a lookup that does not tell an absent key from an empty value.

* `pairSize` : what a pair counts; `getSize_eq` : the scan of a database sums it up;
* `drift` : what a call on a key adds to the running size and not to the sum; `size_call` : the size after any call;
* `sizes_agree_iff` : the running size is the scanned one at every moment exactly if no call finds its key with an
  empty value.
-/

namespace DistRocks

/-- Key, value and two bytes. -/
def pairSize (e : Bytes × Bytes) : ℕ := e.1.length + e.2.length + 2

@[simp] theorem pairSize_mk (k v : Bytes) : pairSize (k, v) = k.length + v.length + 2 := rfl

/-- The pair that is overwritten or deleted counts for nothing when its value is empty. -/
def drift (m : OrdMap Bytes Bytes) (key : Bytes) : ℕ := if m.get? key = some [] then key.length + 2 else 0

theorem DBHandle.getSize_eq (h : DBHandle) : h.getSize = wrapInt (h.db.total pairSize) := by
  have hgo : ∀ (l : List (Bytes × Bytes)) (x : ℤ), l.foldl (fun ret e =>
      wrapInt (wrapInt (ret + (wrapInt e.2.length + 1)) + (wrapInt e.1.length + 1))) (wrapInt x) =
      wrapInt (x + l.foldr (fun e sum => pairSize e + sum) 0) := by
    intro l
    induction l with
    | nil => intro x; simp
    | cons e l ih =>
        intro x
        rw [List.foldl_cons, List.foldr_cons]
        have hstep : wrapInt (wrapInt (wrapInt x + (wrapInt e.2.length + 1)) + (wrapInt e.1.length + 1)) =
            wrapInt (x + pairSize e) := by
          unfold wrapInt pairSize
          omega
        rw [hstep, ih]
        congr 1
        push_cast
        ring
  have h0 := hgo h.db.entries 0
  rw [zero_add, show wrapInt 0 = 0 by decide] at h0
  rw [getSize, OrdMap.total]
  exact h0

namespace StoreData

variable {m : OrdMap Bytes Bytes} {size : ℤ}

theorem sizeWithout_of_empty {d : StoreData} {key : Bytes} (h : d.get key = []) : d.sizeWithout key = d.size := by
  rw [get] at h
  simp [sizeWithout, h]

theorem sizeWithout_of_ne {d : StoreData} {key value : Bytes} (h : d.get key = value) (hne : value ≠ []) :
    d.sizeWithout key = wrapInt (d.size - pairSize (key, value)) := by
  have hlen : value.length ≠ 0 := mt List.length_eq_zero_iff.mp hne
  rw [get] at h
  simp only [sizeWithout, h, ne_eq, hlen, not_false_iff, if_true, wrapInt_sub_left]
  refine wrapInt_congr ?_
  have hk := dvd_wrapInt_sub key.length
  have hv := dvd_wrapInt_sub value.length
  rw [pairSize_mk]
  push_cast
  omega

theorem sizeWithout_eq (hsize : size = wrapInt (m.total pairSize)) (key : Bytes) :
    sizeWithout ⟨.reliable m, size⟩ key = wrapInt ((m.erase key).total pairSize + drift m key) := by
  have hget : get ⟨.reliable m, size⟩ key = (m.get? key).getD [] := rfl
  rw [drift]
  cases hv : m.get? key with
  | none =>
      rw [hv, Option.getD_none] at hget
      rw [sizeWithout_of_empty hget, hsize, OrdMap.erase_of_notMem hv]
      simp
  | some v =>
      rw [hv, Option.getD_some] at hget
      have htotal := OrdMap.total_erase (f := pairSize) (OrdMap.get?_eq_some.mp hv)
      by_cases hnil : v = []
      · subst hnil
        rw [sizeWithout_of_empty hget, hsize, htotal, if_pos rfl, pairSize_mk, List.length_nil]
        refine congrArg wrapInt ?_
        push_cast
        ring
      · rw [sizeWithout_of_ne hget hnil, hsize, htotal, if_neg (fun h => hnil (Option.some.inj h)), wrapInt_sub_left]
        refine congrArg wrapInt ?_
        push_cast
        ring

/-! ## Calls -/

inductive Call
  | put (data : Data)
  | delete1 (key : Bytes)

def Call.key : Call → Bytes
  | .put data => data.key
  | .delete1 key => key

def call (d : StoreData) : Call → StoreData
  | .put data => d.put data
  | .delete1 key => d.delete1 key

/-- The running size is the scanned one, the sum over the pairs, and the one after a restart. -/
def Agrees (d : StoreData) : Prop :=
  d.getSize = d.dbHandle.getSize ∧ d.dbHandle.getSize = d.dbHandle.db.total pairSize ∧
    (start d.dbHandle).getSize = d.getSize

/-- A database none of whose writes fails stays so. -/
theorem after_reliable (d : StoreData) (hd : ∃ m, d.dbHandle = .reliable m) (calls : List Call) :
    ∃ m, (after call d calls).dbHandle = .reliable m := by
  induction calls generalizing d with
  | nil => exact hd
  | cons c calls ih =>
      obtain ⟨m, hm⟩ := hd
      refine ih (d.call c) ?_
      cases c with
      | put data => exact ⟨m.insert data.key data.value, by rw [call, put, hm, DBHandle.put_reliable]⟩
      | delete1 key => exact ⟨m.erase key, by rw [call, delete1, hm, DBHandle.delete1_reliable]⟩

theorem size_put (d : StoreData) (data : Data) : (d.put data).size =
    wrapInt (d.sizeWithout data.key + (wrapInt data.key.length + wrapInt data.value.length + 2)) := rfl

theorem db_put (data : Data) :
    (put ⟨.reliable m, size⟩ data).dbHandle.db = m.insert data.key data.value := rfl

theorem size_delete1 (d : StoreData) (key : Bytes) : (d.delete1 key).size = d.sizeWithout key := rfl

theorem db_delete1 (key : Bytes) : (delete1 ⟨.reliable m, size⟩ key).dbHandle.db = m.erase key := rfl

/-- The running size after a call is the new sum and the drift. -/
theorem size_call (hsize : size = wrapInt (m.total pairSize)) (c : Call) :
    (call ⟨.reliable m, size⟩ c).size =
      wrapInt ((call ⟨.reliable m, size⟩ c).dbHandle.db.total pairSize + drift m c.key) := by
  cases c with
  | put data =>
      rw [call, Call.key, size_put, sizeWithout_eq hsize, db_put, OrdMap.total_insert, wrapInt_add_left, pairSize_mk]
      refine wrapInt_congr ?_
      have hk := dvd_wrapInt_sub data.key.length
      have hv := dvd_wrapInt_sub data.value.length
      convert Int.dvd_add hk hv using 1
      push_cast
      ring
  | delete1 key => rw [call, Call.key, size_delete1, db_delete1, sizeWithout_eq hsize]

@[simp] theorem getSize_start (db : DBHandle) : (start db).getSize = db.getSize := rfl

theorem agrees_iff {d : StoreData} (hm : d.dbHandle.db = m) (hfit : m.total pairSize < 2147483648) :
    d.Agrees ↔ d.size = m.total pairSize := by
  have hscan : d.dbHandle.getSize = m.total pairSize := by
    rw [DBHandle.getSize_eq, hm]
    exact wrapInt_eq (by omega) (by omega)
  rw [Agrees, getSize_start, hscan, hm, getSize]
  constructor
  · rintro ⟨h, -, -⟩
    exact h
  · intro h
    exact ⟨h, rfl, h.symm⟩

/-- After a call the sizes agree exactly if the call did not find its key with an empty value. -/
theorem agrees_call (hfit : m.total pairSize < 2147483648) (hgood : Agrees ⟨.reliable m, size⟩) {c : Call}
    (hfit' : (call ⟨.reliable m, size⟩ c).dbHandle.db.total pairSize < 2147483648) :
    (call ⟨.reliable m, size⟩ c).Agrees ↔ m.get? c.key ≠ some [] := by
  have hsize : size = wrapInt (m.total pairSize) :=
    ((agrees_iff (DBHandle.db_reliable m) hfit).mp hgood).trans (wrapInt_eq (by omega) (by omega)).symm
  rw [agrees_iff rfl hfit', size_call hsize, drift]
  generalize (call ⟨.reliable m, size⟩ c).dbHandle.db.total pairSize = total at hfit'
  by_cases hempty : m.get? c.key = some []
  · have hkey : c.key.length + 2 ≤ m.total pairSize := by
      simpa using OrdMap.le_total (f := pairSize) (OrdMap.get?_eq_some.mp hempty)
    rw [if_pos hempty]
    simp only [hempty, ne_eq, not_true_eq_false, iff_false]
    unfold wrapInt
    push_cast
    omega
  · rw [if_neg hempty, Nat.cast_zero, add_zero]
    simp only [hempty, ne_eq, not_false_iff, iff_true]
    exact wrapInt_eq (by omega) (by omega)

theorem agrees_start (hfit : m.total pairSize < 2147483648) : (start (.reliable m)).Agrees := by
  refine (agrees_iff (DBHandle.db_reliable m) hfit).mpr ?_
  rw [start, DBHandle.getSize_eq, DBHandle.db_reliable]
  exact wrapInt_eq (by omega) (by omega)

/-- The running size is the scanned one at every moment exactly if no call finds its key with an empty value. -/
theorem sizes_agree_iff (m : OrdMap Bytes Bytes) (calls : List Call)
    (hfit : ∀ done, done <+: calls → (after call (start (.reliable m)) done).dbHandle.db.total pairSize < 2147483648) :
    (∀ done, done <+: calls → (after call (start (.reliable m)) done).Agrees) ↔
      ∀ done c, done ++ [c] <+: calls →
        (after call (start (.reliable m)) done).dbHandle.db.get? c.key ≠ some [] := by
  -- along with the size goes the fact that no write fails
  have hstep : ∀ (d : StoreData), ∀ c ∈ calls,
      (∃ m', d.dbHandle = .reliable m') ∧ d.dbHandle.db.total pairSize < 2147483648 →
      (∃ m', (d.call c).dbHandle = .reliable m') ∧ (d.call c).dbHandle.db.total pairSize < 2147483648 → d.Agrees →
      ((d.call c).Agrees ↔ d.dbHandle.db.get? c.key ≠ some []) := by
    rintro ⟨db, size⟩ c - ⟨⟨m', rfl⟩, hd⟩ ⟨-, hc⟩ hgood
    exact agrees_call hd hgood hc
  exact moments_iff _ _ _ hstep (agrees_start (hfit [] List.nil_prefix)) fun done hdone =>
    ⟨after_reliable _ ⟨m, rfl⟩ done, hfit done hdone⟩

/-- `a` is stored with an empty value and deleted. -/
def storeAndDelete : List Call := [.put ⟨text "a", []⟩, .delete1 (text "a")]

theorem fits_storeAndDelete : ∀ done, done <+: storeAndDelete →
    (after call (start (.reliable .empty)) done).dbHandle.db.total pairSize < 2147483648 := by
  simp only [storeAndDelete, forall_prefix_cons, List.prefix_nil, forall_eq]
  decide

/-- The pair still counts three bytes when it is gone. -/
theorem sizes_disagree : ¬∀ (m : OrdMap Bytes Bytes) (calls : List Call),
    (∀ done, done <+: calls → (after call (start (.reliable m)) done).dbHandle.db.total pairSize < 2147483648) →
      ∀ done, done <+: calls → (after call (start (.reliable m)) done).Agrees := by
  intro hall
  obtain ⟨h, -, -⟩ := hall .empty storeAndDelete fits_storeAndDelete storeAndDelete List.prefix_rfl
  revert h
  decide

theorem sizes_agree_storeAndDelete :
    (∀ done, done <+: storeAndDelete → (after call (start (.reliable .empty)) done).Agrees) ↔
      ∀ done c, done ++ [c] <+: storeAndDelete →
        (after call (start (.reliable .empty)) done).dbHandle.db.get? c.key ≠ some [] :=
  sizes_agree_iff .empty storeAndDelete fits_storeAndDelete

end StoreData

end DistRocks
