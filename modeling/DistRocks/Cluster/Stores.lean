import DistRocks.Cluster.Rounds

/-!
# What the stores of a run have done

* `requestsOf j h` : the requests that store `j` has received in a history, oldest first;
* `Step.node_foldl`, `Traced.node_foldl` : a node is what its requests make of it;
* `Traced.disciplined` : they end every record before the next one, if none waits at the end;
* `Placed.contents` : one node after the other, the nodes list the map that they hold between them;
* `run_stores` : after a run each store is the replay of the records it was told to commit, and all of them together list
  the one map.
-/

namespace DistRocks

open Request

variable {n : ℕ} {V : View} {σ₀ σ σ' : Stage} {w : World} {marks : Act → Prop} {h : List Event} {a : Act} {j : ℕ}
  {data : OrdMap Bytes Bytes}

/-- The request that an event brings to store `j`. -/
def Act.requests (j : ℕ) : Act → List Request
  | .exchange fd msg | .post fd msg => if fd = j then (decodeRequest msg).toOption.toList else []
  | _ => []

/-- The requests that store `j` has received, oldest first, in a history, newest first. -/
def requestsOf (j : ℕ) (h : List Event) : List Request := h.reverse.flatMap fun e => e.act.requests j

theorem requestsOf_cons (j : ℕ) (e : Event) (h : List Event) :
    requestsOf j (e :: h) = requestsOf j h ++ e.act.requests j := by
  simp [requestsOf]

theorem Act.requests_exchange {fd : ℕ} {msg : Bytes} {q : Request} (hq : decodeRequest msg = .ok q) :
    (Act.exchange fd msg).requests j = if fd = j then [q] else [] := by
  rw [Act.requests, hq]
  rfl

/-! ## A node and its requests -/

/-- What a step can bring to a node: nothing, a question, a record for an empty log, or a commit. -/
theorem Step.requests_cases (hvalid : Valid n σ) (hstep : Step n σ a σ') :
    (a.requests j = [] ∧ σ'.view.node j = σ.view.node j) ∨
    (∃ q, a.requests j = [q] ∧ q.Reads ∧ σ'.view.node j = σ.view.node j) ∨
    (∃ r, a.requests j = [.log r] ∧ r.kind ≠ .error ∧ (σ.view.node j).pending = none ∧
      σ'.view.node j = { σ.view.node j with pending := some r.recorded }) ∨
    (a.requests j = [.commitLog] ∧ σ'.view.node j = (σ.view.node j).commit) := by
  cases hstep with
  | @read fd msg q _ hq hr =>
      rw [Act.requests_exchange hq]
      by_cases hj : fd = j
      · rw [if_pos hj]
        exact Or.inr (Or.inl ⟨q, rfl, hr, rfl⟩)
      · rw [if_neg hj]
        exact Or.inl ⟨rfl, rfl⟩
  | mark ha =>
      cases a with
      | iteration _ _ | command => exact Or.inl ⟨rfl, rfl⟩
      | _ => exact ha.elim
  | @change _ c p hp hpre _ hperf =>
      obtain ⟨-, hlegal, -⟩ := hvalid.legal hp hpre
      rw [Stage.view_make, View.after_cons, View.after_nil]
      cases c with
      | log fd r =>
          cases a with
          | exchange fd' msg =>
              obtain ⟨rfl, r', hdec, rfl⟩ := hperf
              rw [Act.requests_exchange hdec, View.node_change_log]
              by_cases hj : fd' = j
              · subst hj
                rw [if_pos rfl, Function.update_self]
                have hkind : r'.kind ≠ .error := fun hk => hlegal.2.kind (by rw [Log.recorded]; split_ifs <;> exact hk)
                exact Or.inr (Or.inr (Or.inl ⟨r', rfl, hkind, hlegal.1, rfl⟩))
              · rw [if_neg hj, Function.update_of_ne (Ne.symm hj)]
                exact Or.inl ⟨rfl, rfl⟩
          | _ => exact False.elim hperf
      | commit fd =>
          cases a with
          | exchange fd' msg =>
              obtain ⟨rfl, hdec⟩ := hperf
              rw [Act.requests_exchange hdec, View.node_change_commit]
              by_cases hj : fd' = j
              · subst hj
                rw [if_pos rfl, Function.update_self]
                exact Or.inr (Or.inr (Or.inr ⟨rfl, rfl⟩))
              · rw [if_neg hj, Function.update_of_ne (Ne.symm hj)]
                exact Or.inl ⟨rfl, rfl⟩
          | _ => exact False.elim hperf
      | unfile i | file i s =>
          cases a with
          | metaDelete key | metaPut key => exact Or.inl ⟨rfl, rfl⟩
          | _ => exact False.elim hperf

theorem Step.node_foldl (hvalid : Valid n σ) (hstep : Step n σ a σ') :
    σ'.view.node j = (a.requests j).foldl Node.next (σ.view.node j) := by
  rcases hstep.requests_cases hvalid (j := j) with ⟨hreq, hnode⟩ | ⟨q, hreq, hq, hnode⟩ | ⟨r, hreq, hkind, -, hnode⟩ |
    ⟨hreq, hnode⟩
  · rw [hreq, hnode]
    rfl
  · rw [hreq, hnode, List.foldl_cons, List.foldl_nil, Node.next_of_reads hq]
  · rw [hreq, hnode, List.foldl_cons, List.foldl_nil, Node.next, if_neg hkind]
  · rw [hreq, hnode]
    rfl

/-- A node is what its requests make of it. -/
theorem Traced.node_foldl (ht : Traced n marks σ₀ h σ) :
    σ.view.node j = (requestsOf j h).foldl Node.next (σ₀.view.node j) := by
  induction ht with
  | start => rfl
  | event ht hstep _ _ _ ih => rw [requestsOf_cons, List.foldl_append, ← ih, hstep.node_foldl ht.valid]

/-- A record is waiting. -/
def Node.waits (nd : Node) : Bool := nd.pending.isSome

/-- The requests of a step go in front of a list that is disciplined behind it. -/
theorem Step.disciplined (hvalid : Valid n σ) (hstep : Step n σ a σ') {rest : List Request}
    (hrest : Disciplined (σ'.view.node j).waits rest) : Disciplined (σ.view.node j).waits (a.requests j ++ rest) := by
  rcases hstep.requests_cases hvalid (j := j) with ⟨hreq, hnode⟩ | ⟨q, hreq, hq, hnode⟩ |
    ⟨r, hreq, hkind, hnone, hnode⟩ | ⟨hreq, hnode⟩
  · rw [hreq]
    rwa [hnode] at hrest
  · rw [hreq]
    rw [hnode] at hrest
    cases q with
    | log _ | commitLog | delLog | quit | other _ => exact hq.elim
    | _ => exact ⟨trivial, hrest⟩
  · rw [hreq]
    rw [hnode] at hrest
    exact ⟨by rw [Node.waits, hnone]; rfl, hkind, hrest⟩
  · rw [hreq]
    rwa [hnode, Node.waits, Node.pending_commit] at hrest

theorem Traced.disciplined (ht : Traced n marks σ₀ h σ) {rest : List Request}
    (hrest : Disciplined (σ.view.node j).waits rest) : Disciplined (σ₀.view.node j).waits (requestsOf j h ++ rest) := by
  induction ht generalizing rest with
  | start => exact hrest
  | event ht hstep _ _ _ ih =>
      rw [requestsOf_cons, List.append_assoc]
      exact ih (hstep.disciplined ht.valid hrest)

/-- Where no record waits, a node is the replay of what its requests have committed. -/
theorem Traced.replays (ht : Traced n marks σ₀ h σ) (hfirst : (σ₀.view.node j).pending = none)
    (hlast : (σ.view.node j).pending = none) :
    Disciplined false (requestsOf j h) ∧
      (σ.view.node j).data = replay (committed none (requestsOf j h)) (σ₀.view.node j).data := by
  have hwaits : ∀ {nd : Node}, nd.pending = none → nd.waits = false := fun hnd => by
    rw [Node.waits, hnd]
    rfl
  have hdisc : Disciplined false (requestsOf j h ++ []) :=
    hwaits hfirst ▸ ht.disciplined (show Disciplined (σ.view.node j).waits [] from hwaits hlast)
  exact ⟨by rwa [List.append_nil] at hdisc, ht.node_foldl ▸ Node.data_foldl_next none hdisc hfirst⟩

/-! ## The contents -/

/-- One node after the other, the nodes list the map that they hold between them. -/
theorem Placed.contents (hV : Placed n V) (hdata : Holds n V data) :
    ((List.range n).flatMap fun j => (V.node j).data.entries) = data.entries := by
  have hsorted : ((List.range n).flatMap fun j => (V.node j).data.entries).Pairwise fun e e' => e.1 < e'.1 := by
    refine List.pairwise_flatMap.mpr ⟨fun j _ => (V.node j).data.sorted, ?_⟩
    refine List.pairwise_lt_range.imp_of_mem fun {i j} hi hj hij e he e' he' => ?_
    obtain ⟨s, hs⟩ := hV.exists_span (List.mem_range.mp hi)
    obtain ⟨t, ht⟩ := hV.exists_span (List.mem_range.mp hj)
    calc e.1 ≤ s.2 := (hV.within hs e he).2
      _ < t.1 := V.table.apart hij hs ht
      _ ≤ e'.1 := (hV.within ht e' he').1
  have hmap : (⟨_, hsorted⟩ : OrdMap Bytes Bytes) = data := OrdMap.ext_mem fun e => by
    have hmem : (∃ j < n, e ∈ (V.node j).data.entries) ↔ e ∈ data.entries := by
      simp only [← OrdMap.get?_eq_some (k := e.1)]
      exact (hdata e.1 e.2).symm
    simpa using hmem
  exact congrArg OrdMap.entries hmap

/-- After a run each store has received a disciplined list of requests and is the replay of the records that these
commit, nothing waits in its log, and one store after the other they list what one map would hold. -/
theorem run_stores (F : Type) [Double F] (hw : Fresh n w) {cs : List Command} (hcs : ∀ c ∈ cs, c.Valid)
    (hok : (DistRocks.run F cs w).1 = .ok ()) :
    (∀ j < n, Disciplined false (requestsOf j (DistRocks.run F cs w).2.history) ∧
      ((DistRocks.run F cs w).2.cluster.stores j).storeData.dbHandle =
        .reliable (replay (committed none (requestsOf j (DistRocks.run F cs w).2.history)) .empty) ∧
      ((DistRocks.run F cs w).2.cluster.stores j).storeLog.dbHandle = .reliable .empty) ∧
    (List.range n).flatMap (DistRocks.run F cs w).2.cluster.pairs =
      ((cs.map Command.asRead).foldl Command.next .empty).entries := by
  obtain ⟨V₀, hsim₀, hdata₀, hempty⟩ := hw.sim
  have hruns : ∀ c ∈ cs, c.Valid ∧ True := fun c hc => ⟨hcs c hc, trivial⟩
  have hends := (hsim₀.rest (Or.inl rfl)).run F (.trivial n) (fun _ ha => ha) hw.pos hdata₀ trivial hruns
  obtain ⟨-, V, hsim, hdata, -⟩ := hends.of_eq (Prod.ext hok rfl)
  obtain ⟨new, hnew, ht⟩ := hsim.traced
  obtain rfl : new = (DistRocks.run F cs w).2.history := by
    rw [hnew]
    exact (List.append_nil new).symm
  have hV : Placed n V := hsim.valid.placed
  refine ⟨fun j hj => ?_, ?_⟩
  · have hfirst : V₀.node j = ⟨.empty, 0, none⟩ := hempty j
    have hlast : (V.node j).pending = none := hV.quiet hj
    obtain ⟨hdisc, hreplay⟩ := ht.replays (j := j) (show (V₀.node j).pending = none by rw [hfirst]) hlast
    have hreplay : (V.node j).data = replay _ (V₀.node j).data := hreplay
    rw [hfirst] at hreplay
    have hst : ((DistRocks.run F cs w).2.cluster.stores j).Reflects (V.node j) := hsim.shows.stores hj
    refine ⟨hdisc, ?_, ?_⟩
    · rw [hst.data, ← hreplay]
      rfl
    · rw [hst.log, hlast]
      rfl
  · rw [← hV.contents hdata]
    exact List.flatMap_congr fun j hj => hsim.shows.pairs (List.mem_range.mp hj)

theorem run_stores_twoPuts :
    (∀ j < 2, Disciplined false (requestsOf j (DistRocks.run ℚ twoPuts twoStores).2.history) ∧
      ((DistRocks.run ℚ twoPuts twoStores).2.cluster.stores j).storeData.dbHandle =
        .reliable (replay (committed none (requestsOf j (DistRocks.run ℚ twoPuts twoStores).2.history)) .empty) ∧
      ((DistRocks.run ℚ twoPuts twoStores).2.cluster.stores j).storeLog.dbHandle = .reliable .empty) ∧
    (List.range 2).flatMap (DistRocks.run ℚ twoPuts twoStores).2.cluster.pairs =
      ((twoPuts.map Command.asRead).foldl Command.next .empty).entries :=
  run_stores ℚ twoStores_fresh (by decide) run_twoPuts

end DistRocks
