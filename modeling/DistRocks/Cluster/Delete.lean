import DistRocks.Cluster.Rounds

/-!
# The record of a node after a `del`

* `Sim.delUpdate_record` : whatever bounds the store announces, the record of the node takes in the deleted key;
* `Cluster.largest` : the largest key of a store; `Cluster.announced` : the upper bound that a store announces with a
  `DELETE`;
* `delUpdate_narrows_iff` : the interval stays within the old one, and below the announced bound, exactly if the key is
  not above the old upper end and not the largest of several; `delUpdate_widens` : the two ways in which it does not.
-/

namespace DistRocks

open Proc

variable {n : ℕ} {O : Origin} {V : View} {answers : List Bytes} {w₀ w : World} {c : Cluster} {key : Bytes}

namespace ControlMeta

/-- The record after a `del`: the deleted key lies in its interval, as after a `put`. -/
def afterDel (record : ControlMeta) (key : Bytes) : ControlMeta := { record with max_str := max record.max_str key }

/-- The interval of `new` lies in that of `old`. -/
def Within (new old : ControlMeta) : Prop := old.min_str ≤ new.min_str ∧ new.max_str ≤ old.max_str

instance decidableWithin (new old : ControlMeta) : Decidable (new.Within old) := instDecidableAnd

theorem within_afterDel {record : ControlMeta} : (record.afterDel key).Within record ↔ key ≤ record.max_str := by
  rw [Within, afterDel, max_le_iff]
  exact ⟨fun h => h.2.2, fun h => ⟨le_rfl, le_rfl, h⟩⟩

end ControlMeta

/-- The largest key of store `i`. -/
def Cluster.largest (c : Cluster) (i : ℕ) : Option Bytes := (c.stores i).storeData.dbHandle.db.last?.map Prod.fst

/-- The records of the metadata, in the order of their keys. -/
def Cluster.records (c : Cluster) : List (Except Fault ControlMeta) :=
  c.metaDb.db.entries.map fun e => ControlMeta.ofSlice e.2

/-- The `new_max` with which store `i` answers the record of a `del`. -/
def Cluster.announced (c : Cluster) (i : ℕ) (key : Bytes) : Bytes :=
  (Log.bounds { kind := .delete, key } (c.stores i).storeData.dbHandle).2

/-! ## What is left of the keys -/

theorem Cluster.announced_lt {i : ℕ} (hkey : key ≠ []) (hlast : c.largest i = some key)
    (hleft : ((c.stores i).storeData.dbHandle.db.erase key).entries ≠ []) : c.announced i key < key := by
  obtain ⟨⟨k, v⟩, hmax, rfl⟩ := Option.map_eq_some_iff.mp hlast
  rw [announced, Log.bounds, if_pos rfl, StoreImpl.deleteBounds_eq hkey]
  obtain ⟨-, e, he, heq⟩ := exists_mem_keyEnds hleft
  obtain ⟨hne, he⟩ := OrdMap.mem_erase.mp he
  show (keyEnds _).2 < k
  rw [heq]
  exact ((OrdMap.last?_eq_some.mp hmax).2 e he).lt_of_ne hne

theorem OrdMap.erase_ne_nil_iff {m : OrdMap Bytes Bytes} (hlast : m.last?.map Prod.fst = some key) :
    (m.erase key).entries ≠ [] ↔ 2 ≤ m.entries.length := by
  obtain ⟨⟨k, v⟩, hmax, rfl⟩ := Option.map_eq_some_iff.mp hlast
  have hlen := OrdMap.length_erase (OrdMap.last?_eq_some.mp hmax).1
  simp only [ne_eq, ← List.length_eq_zero_iff]
  omega

/-! ## The record -/

/-- A `del` leaves the records of the nodes as they are, but for the node that the key is routed to. -/
theorem Sim.delUpdate_record (h : Sim n O ⟨.command, V, []⟩ answers w) (hn : 0 < n) (hkey : key ≠ [])
    (hnul : NulFree key) {H : Fault → World → Prop} (hstop : ∀ e w', e = .overrun → H e w') :
    Ends (DistRocks.delUpdate key) w (fun _ w' => ∃ records i, i < n ∧ Ordered n w.cluster records ∧
        (w.cluster.search key).current = some ((records i).min_str, encMeta (records i)) ∧
        Ordered n w'.cluster (Function.update records i ((records i).afterDel key)) ∧
        (w'.cluster.stores i).storeData.dbHandle.db = (w.cluster.stores i).storeData.dbHandle.db.erase key) H := by
  have hV : Placed n V := h.valid.placed
  refine (h.delUpdate hn hkey hnul).mono (fun _ w' hdone => ?_) fun e w' he => ?_
  · obtain ⟨i, s, hroute, hp, h'⟩ := hdone
    obtain ⟨f, hf⟩ := hV.exists_spans
    have hi := hV.lt_of_span hroute.span
    obtain rfl : s = f i := Option.some.inj (hroute.span.symm.trans (hf i hi))
    have hV' := h'.valid.placed_view (Or.inr hp)
    have hnode := congrFun (node_after_user (V := V) (i := i) (r := ⟨.delete, key, []⟩) (s := f i)) i
    refine ⟨_, i, hi, hV.ordered_of h.shows hf, ?_, ?_, ?_⟩
    · obtain ⟨it, j, t, hsearch, hat, hroute'⟩ := h.routed hV hn key
      obtain rfl := hroute.eq hroute'
      obtain rfl := Option.some.inj (hroute.span.symm.trans hroute'.span)
      obtain rfl : w.cluster.search key = it := Except.ok.inj (congrArg Prod.fst hsearch)
      exact hat
    · have hspans : ∀ j < n, Spans.span (V.after (userPlan i ⟨.delete, key, []⟩ (f i))).table j =
          some (Function.update f i ((Log.mk .delete key []).widen (f i)) j) := fun j hj => by
        rw [table_after_user hroute.fits]
        by_cases hji : j = i
        · subst hji
          simp
        · simp [hji, hf j hj]
      convert hV'.ordered_of h'.shows hspans using 1
      funext j
      by_cases hji : j = i
      · subst hji
        simp [ControlMeta.afterDel, Log.widen]
      · simp [hji]
    · rw [(h'.shows.stores hi).data, (h.shows.stores hi).data]
      simp only [Stage.view, hnode, Function.update_self]
      rfl
  · exact hstop e w' (ExecStopped.sim (c := .del key) (Or.inl he)).1

/-! ## Behind a run -/

/-- In every state at the prompt a `del` keeps the interval of its node within the old one, and its upper end at most
the announced one where the largest key goes, exactly if the key is not above the interval and not the largest of
several. -/
theorem delUpdate_narrows_iff (F : Type) [Double F] (hw : Fresh n w₀) {cs : List Command} (hcs : ∀ c ∈ cs, c.Valid)
    (hrun : (DistRocks.run F cs w₀).1 = .ok ()) (hkey : (Command.del key).Valid)
    (hw' : (DistRocks.run F cs w₀).2 = w) (hfit : (delUpdate key w).1 ≠ .error .overrun) :
    (delUpdate key w).1 = .ok () ∧ ∃ records new i, i < n ∧ Arranged n w.cluster records ∧
      (w.cluster.search key).current = some ((records i).min_str, encMeta (records i)) ∧
      Arranged n (delUpdate key w).2.cluster (Function.update records i new) ∧
      ((new.Within (records i) ∧ (w.cluster.largest i = some key → (delUpdate key w).2.cluster.pairs i ≠ [] →
          new.max_str ≤ w.cluster.announced i key)) ↔
        key ≤ (records i).max_str ∧ ¬(w.cluster.largest i = some key ∧ 2 ≤ (w.cluster.pairs i).length)) := by
  obtain ⟨V₀, V, answers, hsim⟩ := hw.prompt F hcs hrun
  rw [hw'] at hsim
  have hdel := hsim.delUpdate_record hw.pos hkey.1 hkey.2 (H := fun e _ => e = .overrun) fun _ _ he => he
  rcases hdel.outcome with ⟨a, hok, records, i, hi, hord, hsearch, hord', herase⟩ | ⟨e, herr, rfl⟩
  · refine ⟨hok, records, (records i).afterDel key, i, hi, hord.toArranged, hsearch, hord'.toArranged, ?_⟩
    rw [ControlMeta.within_afterDel, Cluster.pairs, herase]
    refine and_congr_right fun hle => ?_
    have hmax : ((records i).afterDel key).max_str = (records i).max_str := max_eq_left hle
    constructor
    · rintro hbelow ⟨hlast, htwo⟩
      have hleft := (OrdMap.erase_ne_nil_iff hlast).mpr htwo
      have hlt := Cluster.announced_lt hkey.1 hlast hleft
      exact absurd (hle.trans (hmax ▸ hbelow hlast hleft)) hlt.not_ge
    · intro hfew hlast hleft
      exact absurd ⟨hlast, (OrdMap.erase_ne_nil_iff hlast).mp hleft⟩ hfew
  · exact absurd herr hfit

/-- One empty store behind a control node at its console. -/
def oneNode : World :=
  { (construct gnuRoom 1 (World.boot ⟨fun _ => StoreImpl.emptyStore, .reliable .empty⟩)).2 with history := [] }

theorem oneNode_fresh : Fresh 1 oneNode :=
  (fresh_construct (by decide) (by decide) (by decide) (fun _ _ => rfl) fun _ _ => rfl).2

/-- The keys `a` and `b` in one node. -/
def twoStored : World := (DistRocks.run ℚ twoPuts oneNode).2

theorem run_twoPuts_oneNode : (DistRocks.run ℚ twoPuts oneNode).1 = .ok () := by decide +kernel

theorem delUpdate_narrows_iff_twoStored :
    (delUpdate (text "a") twoStored).1 = .ok () ∧ ∃ records new i, i < 1 ∧ Arranged 1 twoStored.cluster records ∧
      (twoStored.cluster.search (text "a")).current = some ((records i).min_str, encMeta (records i)) ∧
      Arranged 1 (delUpdate (text "a") twoStored).2.cluster (Function.update records i new) ∧
      ((new.Within (records i) ∧ (twoStored.cluster.largest i = some (text "a") →
          (delUpdate (text "a") twoStored).2.cluster.pairs i ≠ [] →
            new.max_str ≤ twoStored.cluster.announced i (text "a"))) ↔
        text "a" ≤ (records i).max_str ∧
          ¬(twoStored.cluster.largest i = some (text "a") ∧ 2 ≤ (twoStored.cluster.pairs i).length)) := by
  have hdel : (delUpdate (text "a") twoStored).1 ≠ .error .overrun := by decide +kernel
  exact delUpdate_narrows_iff ℚ oneNode_fresh (by decide) run_twoPuts_oneNode (by decide) rfl hdel

/-- A key above the interval, which is not stored, widens it. Behind the larger of two keys the interval keeps its upper
end, though the store announces the other key. -/
theorem delUpdate_widens :
    (twoStored.cluster.records = [.ok ⟨text "1", text "b", 0⟩] ∧
      (delUpdate (text "z") twoStored).2.cluster.records = [.ok ⟨text "1", text "z", 0⟩] ∧
      ¬(ControlMeta.mk (text "1") (text "z") 0).Within ⟨text "1", text "b", 0⟩) ∧
    (twoStored.cluster.largest 0 = some (text "b") ∧
      (delUpdate (text "b") twoStored).2.cluster.pairs 0 = [(text "a", text "x")] ∧
      (delUpdate (text "b") twoStored).2.cluster.records = [.ok ⟨text "1", text "b", 0⟩] ∧
      ¬text "b" ≤ twoStored.cluster.announced 0 (text "b")) := by
  decide +kernel

end DistRocks
