import DistRocks.Cluster.Rounds
import DistRocks.Store.Size

/-!
# What `reBalance` does to the sizes

* `sumTo` : the sum over the first nodes; `totalOf_eq` : so the total of `reBalance` is one;
* `Node.Weighed` : the size counter of a node is the sum over its pairs; `kept_weighed` : records with values and
  migrations keep it;
* `Conserved` : one map, right counters and one total, which every migration keeps (`Moves.conserved`);
* `reBalance_conserves` : so does every round of `reBalance`, and leaves the other nodes alone.
-/

namespace DistRocks

open Proc

variable {n : ℕ} {V V' : View} {σ : Stage} {answers : List Bytes} {w₀ w : World} {c c' : Cluster}
  {data : OrdMap Bytes Bytes} {total : ℤ}

/-! ## Sums over the nodes -/

def sumTo (f : ℕ → ℤ) : ℕ → ℤ
  | 0 => 0
  | n + 1 => sumTo f n + f n

section Sum
variable {f g : ℕ → ℤ} {i : ℕ}

theorem sumTo_congr (h : ∀ j < n, f j = g j) : sumTo f n = sumTo g n := by
  induction n with
  | zero => rfl
  | succ n ih => rw [sumTo, sumTo, ih fun j hj => h j (hj.trans (Nat.lt_succ_self n)), h n (Nat.lt_succ_self n)]

theorem sumTo_update (hi : i < n) (x : ℤ) : sumTo (Function.update f i x) n = sumTo f n - f i + x := by
  induction n with
  | zero => exact absurd hi (Nat.not_lt_zero i)
  | succ n ih =>
      rw [sumTo, sumTo]
      by_cases hn : i = n
      · subst hn
        rw [Function.update_self, sumTo_congr fun j hj => Function.update_of_ne hj.ne x f]
        omega
      · rw [Function.update_of_ne (Ne.symm hn), ih (by omega)]
        omega

theorem sumTo_nonneg (h : ∀ j < n, 0 ≤ f j) : 0 ≤ sumTo f n := by
  induction n with
  | zero => exact le_rfl
  | succ n ih => exact add_nonneg (ih fun j hj => h j (hj.trans (Nat.lt_succ_self n))) (h n (Nat.lt_succ_self n))

theorem le_sumTo (h : ∀ j < n, 0 ≤ f j) (hi : i < n) : f i ≤ sumTo f n := by
  have hrest : 0 ≤ sumTo (Function.update f i 0) n := sumTo_nonneg fun j hj => by
    by_cases hji : j = i
    · rw [hji, Function.update_self]
    · rw [Function.update_of_ne hji]
      exact h j hj
  rw [sumTo_update hi] at hrest
  omega

theorem wrapInt_sumTo (f : ℕ → ℤ) (n : ℕ) : wrapInt (sumTo (fun j => wrapInt (f j)) n) = wrapInt (sumTo f n) := by
  induction n with
  | zero => rfl
  | succ n ih => rw [sumTo, sumTo, wrapInt_add_right, ← wrapInt_add_left, ih, wrapInt_add_left]

end Sum

theorem totalOf_eq (n : ℕ) (V : View) : totalOf n V = wrapInt (sumTo (fun j => (V.node j).size) n) := by
  induction n with
  | zero => exact (show wrapInt 0 = 0 by decide).symm
  | succ n ih =>
      rw [totalOf, List.range_succ, List.foldl_append, ← totalOf, ih, sumTo, List.foldl_cons, List.foldl_nil,
        wrapInt_add_right, wrapInt_add_left]

/-! ## Right counters -/

/-- The size counter is the sum over the pairs, none of which has an empty value. -/
structure Node.Weighed (nd : Node) : Prop where
  size : nd.size = wrapInt (nd.data.total pairSize)
  values : ∀ e ∈ nd.data.entries, e.2 ≠ []

theorem Node.Weighed.apply {nd : Node} {r : Log} (h : nd.Weighed) (hkind : r.kind ≠ .error)
    (hvalue : r.kind = .put → r.value ≠ []) :
    (Node.mk (r.apply nd.data) (r.resize nd.data nd.size) none).Weighed where
  size := by
    have hdrift : drift nd.data r.key = 0 := if_neg fun hk => h.values _ (OrdMap.get?_eq_some.mp hk) rfl
    have hput := StoreData.size_call h.size (.put ⟨r.key, r.value⟩)
    have hdel := StoreData.size_call h.size (.delete1 r.key)
    simp only [StoreData.Call.key, hdrift, Nat.cast_zero, add_zero] at hput hdel
    show r.resize nd.data nd.size = wrapInt ((r.apply nd.data).total pairSize)
    rw [Log.resize, Log.apply]
    cases hk : r.kind with
    | error => exact absurd hk hkind
    | put => exact hput
    | delete => exact hdel
  values e he := by
    rcases Log.mem_apply he with ⟨hk, rfl⟩ | he
    · exact hvalue hk
    · exact h.values e he

def Weighed (V : View) : Prop := ∀ j, (V.node j).Weighed

theorem Moves.weighed {pass : Pass} {i : ℕ} (hmove : Moves n pass i V V') (h : Weighed V) : Weighed V' := by
  obtain ⟨k, v, hmove, -, rfl⟩ := hmove
  have hv : v ≠ [] := (h i).values _ hmove.mem
  intro j
  rw [node_after_move hmove]
  by_cases hp : j = pass.peer i
  · rw [hp, Function.update_self]
    exact (h (pass.peer i)).apply (r := ⟨.put, k, v⟩) (fun hk => by cases hk) fun _ => hv
  · rw [Function.update_of_ne hp]
    by_cases hi : j = i
    · rw [hi, Function.update_self]
      exact (h i).apply (r := ⟨.delete, k, []⟩) (fun hk => by cases hk) fun hk => by cases hk
    · rw [Function.update_of_ne hi]
      exact h j

/-- Commands whose values are not empty, and migrations, keep the counters right. -/
theorem kept_weighed (n : ℕ) : Kept n (fun c => c.Valid ∧ c.Filled) Weighed where
  start hempty j := by
    rw [hempty j]
    exact ⟨by decide, fun e he => absurd he List.not_mem_nil⟩
  user {c r V i s} hc hr _ _ h j := by
    rw [node_after_user]
    by_cases hj : j = i
    · rw [hj, Function.update_self]
      refine (h i).apply (Command.record_kind hr) fun hk => ?_
      cases c with
      | put key value =>
          cases hr
          exact hc.2
      | del key =>
          cases hr
          cases hk
      | _ => cases hr
    · rw [Function.update_of_ne hj]
      exact h j
  move _ hmove h := hmove.weighed h

/-! ## One map and one total -/

/-- What the pairs of a node weigh. -/
def Node.weight (nd : Node) : ℤ := nd.data.total pairSize

theorem Moves.sum_weight {pass : Pass} {i : ℕ} (hmove : Moves n pass i V V') (hV : Placed n V) :
    sumTo (fun j => (V'.node j).weight) n = sumTo (fun j => (V.node j).weight) n := by
  obtain ⟨k, v, hmove, -, rfl⟩ := hmove
  have hi := hmove.adjacent.lt
  have hp := hmove.adjacent.peer_lt
  have hne := hmove.adjacent.peer_ne
  -- the key is not in the neighbour yet
  have hnew : (V.node (pass.peer i)).data.erase k = (V.node (pass.peer i)).data :=
    OrdMap.erase_of_notMem (OrdMap.get?_eq_none.mpr fun v' hv' => hne (hV.node_unique hp hi hv' hmove.mem rfl))
  have hsrc := OrdMap.total_erase (f := pairSize) hmove.mem
  have hdst := OrdMap.total_insert pairSize (V.node (pass.peer i)).data k v
  rw [hnew] at hdst
  have hweight : (fun j => ((V.after (movePlan V pass i k v)).node j).weight) =
      Function.update (Function.update (fun j => (V.node j).weight) i (((V.node i).data.erase k).total pairSize))
        (pass.peer i) (((V.node (pass.peer i)).data.insert k v).total pairSize) := by
    rw [node_after_move hmove]
    funext j
    by_cases hj : j = pass.peer i
    · rw [hj, Function.update_self, Function.update_self]
      rfl
    · rw [Function.update_of_ne hj, Function.update_of_ne hj]
      by_cases hji : j = i
      · rw [hji, Function.update_self, Function.update_self]
        rfl
      · rw [Function.update_of_ne hji, Function.update_of_ne hji]
  rw [hweight, sumTo_update hp, sumTo_update hi, Function.update_of_ne hne]
  simp only [Node.weight]
  omega

/-- The nodes hold one map between them, their counters are right, and they weigh `total` together. -/
structure Conserved (n : ℕ) (data : OrdMap Bytes Bytes) (total : ℤ) (V : View) : Prop where
  holds : Holds n V data
  weighed : Weighed V
  sum : sumTo (fun j => (V.node j).weight) n = total

theorem Moves.conserved {pass : Pass} {i : ℕ} (hmove : Moves n pass i V V') (hV : Placed n V)
    (h : Conserved n data total V) : Conserved n data total V' :=
  ⟨hmove.holds hV h.holds, hmove.weighed h.weighed, (hmove.sum_weight hV).trans h.sum⟩

theorem Conserved.weight_bounds (h : Conserved n data total V) {j : ℕ} (hj : j < n) :
    0 ≤ (V.node j).weight ∧ (V.node j).weight ≤ total := by
  have hnonneg : ∀ j < n, 0 ≤ (V.node j).weight := fun j _ => Int.natCast_nonneg _
  exact ⟨hnonneg j hj, h.sum ▸ le_sumTo hnonneg hj⟩

/-- While the total is an `int`, so are the sizes. -/
theorem Conserved.size_eq (h : Conserved n data total V) (hfit : total < 2147483648) {j : ℕ} (hj : j < n) :
    (V.node j).size = (V.node j).weight := by
  obtain ⟨hlo, hhi⟩ := h.weight_bounds hj
  exact (h.weighed j).size.trans (wrapInt_eq (show _ ≤ (V.node j).weight by omega) (show (V.node j).weight < _ by omega))

/-! ## Nothing is lost -/

/-- What the pairs of store `j` weigh. -/
def Cluster.weight (c : Cluster) (j : ℕ) : ℤ := (c.stores j).storeData.dbHandle.db.total pairSize

/-- `e` is an entry of the metadata for node `j`. -/
def Cluster.Names (c : Cluster) (j : ℕ) (e : Bytes × Bytes) : Prop :=
  e ∈ c.metaDb.db.entries ∧ (ControlMeta.ofSlice e.2).map ControlMeta.virtual_fd = .ok (j : ℤ)

/-- `c'` has the pairs of `c`, every key in one store. -/
structure SamePairs (n : ℕ) (c c' : Cluster) : Prop where
  same : ∀ e, (∃ j < n, e ∈ c'.pairs j) ↔ ∃ j < n, e ∈ c.pairs j
  unique : ∀ {i j}, i < n → j < n → ∀ e ∈ c'.pairs i, ∀ e' ∈ c'.pairs j, e.1 = e'.1 → i = j

/-- The sizes that the stores report add up to `total`. -/
def Reports (n : ℕ) (total : ℤ) (c : Cluster) : Prop := sumTo (fun j => (c.stores j).storeData.getSize) n = total

/-- Store `j` and its entries in the metadata are the same in both. -/
structure Untouched (j : ℕ) (c c' : Cluster) : Prop where
  data : (c'.stores j).storeData = (c.stores j).storeData
  log : (c'.stores j).storeLog.dbHandle = (c.stores j).storeLog.dbHandle
  names : ∀ e, c'.Names j e ↔ c.Names j e

namespace Shows

theorem weight (h : Shows n c V) {j : ℕ} (hj : j < n) : c.weight j = (V.node j).weight := by
  rw [Cluster.weight, (h.stores hj).data]
  rfl

theorem names (h : Shows n c V) (hV : Placed n V) {j : ℕ} {e : Bytes × Bytes} :
    c.Names j e ↔ ∃ s, V.table.span j = some s ∧ (s.1, encSpan j s) = e := by
  obtain ⟨m, hm, hindex⟩ := h.index
  have hread : ∀ {i s}, V.table.span i = some s →
      (ControlMeta.ofSlice (encSpan i s)).map ControlMeta.virtual_fd = .ok (i : ℤ) := fun {i s} hs => by
    rw [encSpan, ControlMeta.ofSlice_encMeta (hV.sound hs)]
    rfl
  rw [Cluster.Names, hm]
  constructor
  · rintro ⟨he, hfd⟩
    obtain ⟨i, s, hs, rfl⟩ := (hindex e).mp he
    rw [hread hs] at hfd
    obtain rfl : i = j := Int.ofNat_inj.mp (Except.ok.inj hfd)
    exact ⟨s, hs, rfl⟩
  · rintro ⟨s, hs, rfl⟩
    exact ⟨(hindex _).mpr ⟨j, s, hs, rfl⟩, hread hs⟩

theorem samePairs (h : Shows n c V) (h' : Shows n c' V') (hdata : Holds n V data) (hdata' : Holds n V' data)
    (hV' : Placed n V') : SamePairs n c c' := by
  have hmem : ∀ {c V}, Shows n c V → Holds n V data → ∀ e : Bytes × Bytes,
      (∃ j < n, e ∈ c.pairs j) ↔ data.get? e.1 = some e.2 := fun {c V} h hdata e => by
    rw [hdata]
    refine exists_congr fun j => and_congr_right fun hj => ?_
    rw [h.pairs hj]
    exact OrdMap.get?_eq_some.symm
  refine ⟨fun e => (hmem h' hdata' e).trans (hmem h hdata e).symm, fun {i j} hi hj e he e' he' hk => ?_⟩
  rw [h'.pairs hi] at he
  rw [h'.pairs hj] at he'
  exact hV'.node_unique hi hj he he' hk

theorem getSize (h : Shows n c V) (hV : Conserved n data total V) (hfit : total < 2147483648) {j : ℕ} (hj : j < n) :
    (c.stores j).storeData.getSize = (V.node j).weight := by
  rw [(h.stores hj).data]
  exact hV.size_eq hfit hj

theorem reports (h : Shows n c V) (hV : Conserved n data total V) (hfit : total < 2147483648) : Reports n total c :=
  (sumTo_congr fun _ hj => h.getSize hV hfit hj).trans hV.sum

theorem untouched (h : Shows n c V) (h' : Shows n c' V') (hV : Placed n V) (hV' : Placed n V') {j : ℕ} (hj : j < n)
    (hnode : V'.node j = V.node j) (hspan : V'.table.span j = V.table.span j) : Untouched j c c' where
  data := by rw [(h.stores hj).data, (h'.stores hj).data, hnode]
  log := by rw [(h.stores hj).log, (h'.stores hj).log, hnode]
  names e := by rw [h.names hV, h'.names hV', hspan]

end Shows

theorem Moves.span_eq {pass : Pass} {i j : ℕ} (h : Moves n pass i V V') (hV : Placed n V) (hi : j ≠ i)
    (hpeer : j ≠ pass.peer i) : V'.table.span j = V.table.span j := by
  obtain ⟨k, v, hmove, -, rfl⟩ := h
  rw [table_after_move hV hmove, Spans.span_set_of_ne _ hpeer, Spans.span_set_of_ne _ hi]

theorem Conserved.totalOf (h : Conserved n data total V) (hfit : total < 2147483648) : totalOf n V = total := by
  have hnonneg : 0 ≤ total := h.sum ▸ sumTo_nonneg fun j _ => Int.natCast_nonneg _
  have hsize : sumTo (fun j => (V.node j).size) n = sumTo (fun j => wrapInt (V.node j).weight) n :=
    sumTo_congr fun j _ => (h.weighed j).size
  rw [totalOf_eq, hsize, wrapInt_sumTo, h.sum, wrapInt_eq (by omega) hfit]

/-- A world in which `reBalance` is called after commands whose values are not empty. -/
theorem Fresh.conserved (F : Type) [Double F] (hw : Fresh n w₀) (hr : Reached F (fun c => c.Valid ∧ c.Filled) w₀ w) :
    ∃ O V answers data, Rest n O answers V w ∧ Conserved n data (sumTo w.cluster.weight n) V := by
  obtain ⟨O, V, answers, data, hrest, hdata, hweighed⟩ := hw.reached F (kept_weighed n) (fun _ hc => hc.1) hr
  exact ⟨O, V, answers, data, hrest, hdata, hweighed, (sumTo_congr fun j hj => hrest.shows.weight hj).symm⟩

/-- `reBalance` loses and invents nothing: at every test of its loops the stores have the pairs they had before, and
their sizes add up to the total; a round leaves alone the stores that it does not move a pair between. -/
theorem reBalance_conserves (F : Type) [Double F] (hw : Fresh n w₀)
    (hr : Reached F (fun c => c.Valid ∧ c.Filled) w₀ w) (hfit : sumTo w.cluster.weight n < 2147483648) :
    ((reBalance F w).1 = .ok () ∨ (reBalance F w).1 = .error .overrun) ∧
      ∃ total new, (totalSize w).1 = .ok total ∧ (reBalance F w).2.history = new ++ w.history ∧
        (∀ e ∈ new, e.act.IsMark → SamePairs n w.cluster e.after ∧ Reports n total e.after) ∧
        ((reBalance F w).1 = .ok () →
          SamePairs n w.cluster (reBalance F w).2.cluster ∧ Reports n total (reBalance F w).2.cluster) ∧
        ∀ e mid e' pass i, Consecutive new e mid e' → e.act = .iteration pass i →
          ∀ j < n, j ≠ i → j ≠ pass.peer i → Untouched j e.after e'.after := by
  obtain ⟨O, V, answers, data, hrest, hV⟩ := hw.conserved F hr
  obtain ⟨σ, answers', hsim, hout⟩ := hrest.traced F
  obtain ⟨new, hnew, ht⟩ := hsim.traced
  have hkeeps : ∀ {h σ}, Traced n (Origin.rounds V w.history fun _ => True).marks ⟨.iteration .backward 0, V, []⟩ h σ →
      σ.Complete n → Conserved n data (sumTo w.cluster.weight n) σ.view := fun ht hdone =>
    (ht.keeps (fun _ ⟨pass, i, ha, _⟩ => ⟨pass, i, ha⟩) (fun hV hmove h => hmove.conserved hV h) ⟨_, _, rfl⟩ hV).2 hdone
  have hsame : ∀ {c V'}, Shows n c V' → Placed n V' → Conserved n data (sumTo w.cluster.weight n) V' →
      SamePairs n w.cluster c ∧ Reports n (sumTo w.cluster.weight n) c := fun h hplaced hV' =>
    ⟨hrest.shows.samePairs h hV.holds hV'.holds hplaced, h.reports hV' hfit⟩
  refine ⟨hout.imp_left And.left, _, new, hrest.totalSize.trans (congrArg _ (hV.totalOf hfit)), hnew,
    fun e he ha => ?_, fun hok => ?_, fun e mid e' pass i hc he j hj hi hpeer => ?_⟩
  · obtain ⟨newer, older, rfl⟩ := List.append_of_mem he
    obtain ⟨σ₁, σ₂, hold, hstep, -, -, hafter, -⟩ := ht.split
    obtain ⟨hdone, rfl⟩ := hstep.of_mark ha
    have hshows : Shows n e.after σ₁.view := hafter
    exact hsame hshows (hold.valid.placed_view hdone) (hkeeps hold hdone)
  · rcases hout with ⟨-, hdone⟩ | herr
    · exact hsame hsim.shows (hsim.valid.placed_view hdone) (hkeeps ht hdone)
    · rw [hok] at herr
      cases herr
  · obtain ⟨V₁, V₂, hplaced, hafter, hafter', hmoves, hidle⟩ := ht.round hc he
    by_cases hlog : ∃ x ∈ mid, x.act.Logs
    · have hmove := hmoves hlog
      exact hafter.untouched hafter' hplaced (hmove.placed hplaced) hj (hmove.node_eq hi hpeer)
        (hmove.span_eq hplaced hi hpeer)
    · obtain rfl := hidle fun x hx hlogs => hlog ⟨x, hx, hlogs⟩
      exact hafter.untouched hafter' hplaced hplaced hj rfl rfl

theorem reBalance_conserves_sampleReached :
    ((reBalance ℚ sampleReached).1 = .ok () ∨ (reBalance ℚ sampleReached).1 = .error .overrun) ∧
      ∃ total new, (totalSize sampleReached).1 = .ok total ∧
        (reBalance ℚ sampleReached).2.history = new ++ sampleReached.history ∧
        (∀ e ∈ new, e.act.IsMark → SamePairs 2 sampleReached.cluster e.after ∧ Reports 2 total e.after) ∧
        ((reBalance ℚ sampleReached).1 = .ok () → SamePairs 2 sampleReached.cluster (reBalance ℚ sampleReached).2.cluster ∧
          Reports 2 total (reBalance ℚ sampleReached).2.cluster) ∧
        ∀ e mid e' pass i, Consecutive new e mid e' → e.act = .iteration pass i →
          ∀ j < 2, j ≠ i → j ≠ pass.peer i → Untouched j e.after e'.after :=
  reBalance_conserves ℚ twoStores_fresh (reached_sampleReached (by decide) (by decide)) (by decide +kernel)

end DistRocks
