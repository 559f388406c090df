import DistRocks.Store.Node

/-!
# The requests of a store as a history of committed records

* `Disciplined` : every `LOG` is followed by a `COMMIT_LOG` or `DEL_LOG` before the next `LOG`;
* `committed` : the records that a list of requests commits; `replay` : a map with records applied in order;
* `Node.Manages` : the store gets through a request: it moves valid iterators only, and its reply fits;
* `run_reflects` : on whole messages, `StoreImpl.run` takes the node through the requests one by one, exactly if it
  manages each of them;
* `data_foldl_next` : under the discipline, the node after a list of requests is the replay of its committed records;
* `Replays` : what a store has done and answered after a disciplined list of requests; `run_disciplined_iff`.
-/

namespace DistRocks

namespace Request

/-- The requests that only ask. -/
def Reads : Request → Prop
  | get _ | size | lessOrEqualOne | maxKey | minKey | test _ => True
  | _ => False

/-- Every `LOG` request is followed by a `COMMIT_LOG` or `DEL_LOG` before the next one and before the end; `waiting`
says that a record has been logged. -/
def Disciplined : Bool → List Request → Prop
  | waiting, [] => waiting = false
  | waiting, log r :: qs => waiting = false ∧ r.kind ≠ .error ∧ Disciplined true qs
  | _, commitLog :: qs => Disciplined false qs
  | _, delLog :: qs => Disciplined false qs
  | waiting, q :: qs => q.Reads ∧ Disciplined waiting qs

/-- The request moves an iterator that is not valid. -/
def Strays (data : OrdMap Bytes Bytes) : Request → Prop
  | log r => r.Strays data
  | _ => False

instance decidableStrays (data : OrdMap Bytes Bytes) (q : Request) : Decidable (q.Strays data) :=
  match q with
  | log r => inferInstanceAs (Decidable (r.Strays data))
  | quit | get _ | commitLog | test _ | size | lessOrEqualOne | maxKey | minKey | delLog | other _ =>
    inferInstanceAs (Decidable False)

/-- The committed records in order, when `pending` is the record logged before. -/
def committed : Option Log → List Request → List Log
  | _, [] => []
  | _, log r :: qs => committed (some r) qs
  | pending, commitLog :: qs => pending.toList ++ committed none qs
  | _, delLog :: qs => committed none qs
  | pending, _ :: qs => committed pending qs

end Request

/-- The map with records applied in order. -/
def replay (records : List Log) (data : OrdMap Bytes Bytes) : OrdMap Bytes Bytes :=
  records.foldl (fun data r => r.apply data) data

@[simp] theorem Log.apply_recorded (r : Log) (data : OrdMap Bytes Bytes) : r.recorded.apply data = r.apply data := by
  rw [Log.recorded]
  split_ifs with h
  · simp [Log.apply, h]
  · rfl

namespace Node

open Request

/-- A `LOG` comes only when no record waits. -/
def Takes : Node → List Request → Prop
  | _, [] => True
  | nd, q :: qs => (∀ r, q = .log r → nd.pending = none) ∧ Takes (nd.next q) qs

/-- The store gets through the request: it moves valid iterators only, and its reply fits the send buffer. -/
def Manages (nd : Node) (q : Request) : Prop := ¬q.Strays nd.data ∧ ∀ v ∈ nd.answer q, v.message.length ≤ MAXLINE

instance decidableManages (nd : Node) (q : Request) : Decidable (nd.Manages q) := inferInstanceAs (Decidable (_ ∧ _))

/-- The store gets through the requests one after the other. -/
def ManagesAll : Node → List Request → Prop
  | _, [] => True
  | nd, q :: qs => nd.Manages q ∧ ManagesAll (nd.next q) qs

theorem managesAll_append {nd : Node} {qs qs' : List Request} :
    nd.ManagesAll (qs ++ qs') ↔ nd.ManagesAll qs ∧ (qs.foldl next nd).ManagesAll qs' := by
  induction qs generalizing nd with
  | nil => simp [ManagesAll]
  | cons q qs ih => simp only [List.cons_append, ManagesAll, ih, List.foldl_cons, and_assoc]

/-- What a node executes and answers. -/
def replies : Node → List Request → List (Request × Option Bytes)
  | _, [] => []
  | nd, q :: qs => (q, (nd.answer q).map Value.message) :: replies (nd.next q) qs

theorem replies_append (nd : Node) (qs qs' : List Request) :
    nd.replies (qs ++ qs') = nd.replies qs ++ (qs.foldl next nd).replies qs' := by
  induction qs generalizing nd with
  | nil => rfl
  | cons q qs ih => rw [List.cons_append, replies, ih]; rfl

theorem map_fst_replies (nd : Node) (qs : List Request) : (nd.replies qs).map Prod.fst = qs := by
  induction qs generalizing nd with
  | nil => rfl
  | cons q qs ih => rw [replies, List.map_cons, ih]

@[simp] theorem length_replies (nd : Node) (qs : List Request) : (nd.replies qs).length = qs.length := by
  induction qs generalizing nd with
  | nil => rfl
  | cons q qs ih => simp [replies, ih]

theorem next_of_reads {q : Request} (h : q.Reads) (nd : Node) : nd.next q = nd := by
  cases q with
  | log _ | commitLog | delLog => exact h.elim
  | _ => rfl

theorem foldl_next_of_reads {qs : List Request} (h : ∀ q ∈ qs, q.Reads) (nd : Node) : qs.foldl next nd = nd := by
  induction qs with
  | nil => rfl
  | cons q qs ih =>
      rw [List.foldl_cons, next_of_reads (h q List.mem_cons_self)]
      exact ih fun q' hq' => h q' (List.mem_cons_of_mem _ hq')

/-- A record taken back is gone. -/
theorem foldl_next_delLog {nd : Node} {reads : List Request} (r : Log) (hnd : nd.pending = none)
    (hreads : ∀ q ∈ reads, q.Reads) : (.log r :: (reads ++ [.delLog])).foldl next nd = nd := by
  rw [List.foldl_cons, List.foldl_append, foldl_next_of_reads hreads]
  obtain ⟨data, size, pending⟩ := nd
  obtain rfl : pending = none := hnd
  simp only [List.foldl_cons, List.foldl_nil, next]
  split_ifs <;> rfl

/-- A disciplined list never logs over a waiting record. -/
theorem takes_of_disciplined {qs : List Request} {nd : Node} {waiting : Bool} (h : Disciplined waiting qs)
    (hnd : waiting = false → nd.pending = none) : nd.Takes qs := by
  induction qs generalizing nd waiting with
  | nil => trivial
  | cons q qs ih =>
      have hcommit : nd.commit.pending = none := by
        rw [commit]
        cases hp : nd.pending <;> simp [hp]
      cases q with
      | log r =>
          obtain ⟨rfl, -, h⟩ := h
          exact ⟨fun _ _ => hnd rfl, ih h (fun hw => by cases hw)⟩
      | commitLog => exact ⟨fun _ hr => (by cases hr), ih h fun _ => hcommit⟩
      | delLog => exact ⟨fun _ hr => (by cases hr), ih h fun _ => rfl⟩
      | quit | other c => exact h.1.elim
      | get _ | size | lessOrEqualOne | maxKey | minKey | test _ => exact ⟨fun _ hr => (by cases hr), ih h.2 hnd⟩

theorem takes_append {nd : Node} {qs qs' : List Request} :
    nd.Takes (qs ++ qs') ↔ nd.Takes qs ∧ (qs.foldl next nd).Takes qs' := by
  induction qs generalizing nd with
  | nil => simp [Takes]
  | cons q qs ih => simp only [List.cons_append, Takes, ih, List.foldl_cons, and_assoc]

/-- The data after the first requests of a disciplined list is the replay of what these commit. -/
theorem data_foldl_next {qs rest : List Request} {nd : Node} {waiting : Bool} (pending : Option Log)
    (h : Disciplined waiting (qs ++ rest)) (hnd : nd.pending = pending.map Log.recorded) :
    (qs.foldl next nd).data = replay (committed pending qs) nd.data := by
  induction qs generalizing nd waiting pending with
  | nil => rfl
  | cons q qs ih =>
      rw [List.foldl_cons]
      cases q with
      | log r =>
          rw [ih (some r) h.2.2] <;> simp [next, h.2.1, committed]
      | commitLog =>
          cases pending with
          | none =>
              have hc : nd.next .commitLog = nd := by simp [next, commit, hnd]
              rw [hc, ih none (show Disciplined false (qs ++ rest) from h) hnd]
              rfl
          | some r =>
              have hc : nd.next .commitLog = ⟨r.apply nd.data, r.recorded.resize nd.data nd.size, none⟩ := by
                simp [next, commit, hnd]
              rw [hc, ih none (show Disciplined false (qs ++ rest) from h) rfl]
              rfl
      | delLog => exact ih none (show Disciplined false (qs ++ rest) from h) rfl
      | quit | other c => exact h.1.elim
      | get _ | size | lessOrEqualOne | maxKey | minKey | test _ => exact ih pending h.2 hnd

/-- A disciplined list ends without a waiting record. -/
theorem pending_foldl_next {qs : List Request} {nd : Node} {waiting : Bool} (h : Disciplined waiting qs)
    (hnd : waiting = false → nd.pending = none) : (qs.foldl next nd).pending = none := by
  induction qs generalizing nd waiting with
  | nil => exact hnd h
  | cons q qs ih =>
      cases q with
      | log r => exact ih h.2.2 (fun hw => by cases hw)
      | commitLog =>
          refine ih (show Disciplined false qs from h) fun _ => ?_
          rw [next, commit]
          cases hp : nd.pending <;> simp [hp]
      | delLog => exact ih (show Disciplined false qs from h) fun _ => rfl
      | quit | other c => exact h.1.elim
      | get _ | size | lessOrEqualOne | maxKey | minKey | test _ => exact ih h.2 hnd

end Node

namespace StoreImpl

open Request

/-- A request the store can read whole: its strings have no NUL and its message fits. -/
def Deliverable (q : Request) : Prop := q.Plain ∧ q ≠ .quit ∧ q.message.length ≤ MAXLINE

instance (q : Request) : Decidable (Deliverable q) :=
  inferInstanceAs (Decidable (q.Plain ∧ q ≠ .quit ∧ q.message.length ≤ MAXLINE))

variable {st : StoreImpl} {nd : Node}

theorem Reflects.serve_strays (h : st.Reflects nd) {r : Log} (hq : Deliverable (.log r)) (hs : r.Strays nd.data) :
    st.serve (Request.log r).message = .error .undefined := by
  have hkind : r.kind ≠ .error := fun hk => by rw [hs.1] at hk; cases hk
  obtain ⟨b, hb, -⟩ := Buff.put_eq_ok (b := st.storeLog.buff) (recorded_storable hkind hq.1 hq.2.2).fits
  have hdb : r.Strays (st.received (Request.log r).message).storeData.dbHandle.db := by
    rw [show (st.received (Request.log r).message).storeData = nd.storeData from h.data]
    exact hs
  have hother : ∀ c, Request.log r ≠ .other c := fun c hc => by cases hc
  rw [serve_message st hq.2.2 hother, hq.1.asRead_eq, execute_log _ hkind,
    show (st.received (Request.log r).message).storeLog.buff = st.storeLog.buff from rfl, hb, ok_bind, if_pos hdb, error_bind]

/-- A round on a request that can come, and the two ways it can go. -/
theorem Reflects.serve_plain (h : st.Reflects nd) {q : Request} (hq : Deliverable q)
    (hlog : ∀ r, q = .log r → nd.pending = none) :
    (nd.Manages q → ∃ st', st.serve q.message = .ok (q, st', (nd.answer q).map Value.message) ∧
      st'.Reflects (nd.next q)) ∧
    (¬nd.Manages q → ∃ e, st.serve q.message = .error e) := by
  obtain ⟨hplain, -, hlen⟩ := id hq
  have hread := hplain.asRead_eq
  have hother : ∀ c, q ≠ .other c := fun c hc => by rw [hc] at hplain; exact hplain
  by_cases hs : q.Strays nd.data
  · refine ⟨fun hm => absurd hs hm.1, fun _ => ?_⟩
    cases q with
    | log r => exact ⟨_, h.serve_strays hq hs⟩
    | _ => exact hs.elim
  cases hv : nd.answer q with
  | some v =>
      have hlog' : ∀ r, q = .log r → nd.pending = none ∧ ¬r.asRead.Strays nd.data := by
        rintro r rfl
        refine ⟨hlog r rfl, ?_⟩
        rw [Log.NulFree.asRead_eq hplain]
        exact hs
      have hserve := h.serve hother hlen hlog' (v := v) (by rw [hread]; exact hv)
      rw [hread] at hserve
      rcases hserve with ⟨hfit, hok⟩ | ⟨hlong, herr⟩
      · exact ⟨fun _ => hok, fun hm => absurd ⟨hs, fun v' hv' => Option.mem_unique hv hv' ▸ hfit⟩ hm⟩
      · exact ⟨fun hm => absurd (hm.2 v hv) hlong.not_ge, fun _ => ⟨_, herr⟩⟩
  | none =>
      refine ⟨fun _ => ?_, fun hm => absurd ⟨hs, fun v hv' => by rw [hv] at hv'; cases hv'⟩ hm⟩
      have hreceived : (st.received q.message).Reflects nd := h.of_eq rfl rfl
      have hnext : nd.next q = nd := by
        cases q with
        | log r =>
            simp only [Node.answer, StoreData.answer] at hv
            split_ifs at hv
        | commitLog | delLog => cases hv
        | _ => rfl
      refine ⟨st.received q.message, ?_, by rw [hnext]; exact hreceived⟩
      rw [serve_message st hlen hother, hread, execute_of_answer_none _ (hreceived.data ▸ hv : _ = none)]
      rfl

theorem run_cons {msg : Bytes} {q : Request} {st' : StoreImpl} {reply : Option Bytes} (rest : List Bytes)
    (h : st.serve msg = .ok (q, st', reply)) (hq : q ≠ .quit) :
    st.run (msg :: rest) = (st'.run rest >>= fun p => .ok (p.1, (q, reply) :: p.2)) := by
  rw [run, h]
  simp only [ok_bind, hq, if_false]
  rfl

/-- `run` on whole messages is the node taking the requests one by one, as long as it manages them. -/
theorem run_reflects {qs : List Request} (h : st.Reflects nd) (hqs : ∀ q ∈ qs, Deliverable q) (htakes : nd.Takes qs) :
    (nd.ManagesAll qs → ∃ st', st.run (qs.map message) = .ok (st', nd.replies qs) ∧
      st'.Reflects (qs.foldl Node.next nd)) ∧
    (¬nd.ManagesAll qs → ∃ e, st.run (qs.map message) = .error e) := by
  induction qs generalizing st nd with
  | nil => exact ⟨fun _ => ⟨st, rfl, h⟩, fun hm => absurd trivial hm⟩
  | cons q qs ih =>
      have hq := hqs q List.mem_cons_self
      obtain ⟨hserve, herr⟩ := h.serve_plain hq htakes.1
      by_cases hm : nd.Manages q
      · obtain ⟨st', hok, h'⟩ := hserve hm
        obtain ⟨hrest, hfail⟩ := ih h' (fun q' hq' => hqs q' (List.mem_cons_of_mem _ hq')) htakes.2
        rw [List.map_cons, run_cons _ hok hq.2.1]
        refine ⟨fun hall => ?_, fun hall => ?_⟩
        · obtain ⟨st'', hok', h''⟩ := hrest hall.2
          exact ⟨st'', by rw [hok', ok_bind]; rfl, h''⟩
        · obtain ⟨e, he⟩ := hfail fun hall' => hall ⟨hm, hall'⟩
          exact ⟨e, by rw [he, error_bind]⟩
      · obtain ⟨e, he⟩ := herr hm
        exact ⟨fun hall => absurd hall.1 hm, fun _ => ⟨e, by rw [List.map_cons, run, he, error_bind]⟩⟩

/-- After `qs` and after `qs'` the databases and the size are the same. -/
def SameAfter (st : StoreImpl) (qs qs' : List Request) : Prop :=
  ∃ st₁ done₁ st₂ done₂, st.run (qs.map message) = .ok (st₁, done₁) ∧ st.run (qs'.map message) = .ok (st₂, done₂) ∧
    st₁.storeData = st₂.storeData ∧ st₁.storeLog.dbHandle = st₂.storeLog.dbHandle

theorem Reflects.eq_databases {st₁ st₂ : StoreImpl} (h₁ : st₁.Reflects nd) (h₂ : st₂.Reflects nd) :
    st₁.storeData = st₂.storeData ∧ st₁.storeLog.dbHandle = st₂.storeLog.dbHandle :=
  ⟨h₁.data.trans h₂.data.symm, h₁.log.trans h₂.log.symm⟩

/-- Requests that leave the node as it was leave no trace. -/
theorem sameAfter_of {pre mid post : List Request} (h : st.Reflects nd) (hqs : ∀ q ∈ pre ++ (mid ++ post), Deliverable q)
    (htakes : nd.Takes (pre ++ (mid ++ post))) (hall : nd.ManagesAll (pre ++ (mid ++ post)))
    (hmid : mid.foldl Node.next (pre.foldl Node.next nd) = pre.foldl Node.next nd) : st.SameAfter pre (pre ++ mid) := by
  rw [← List.append_assoc] at hqs htakes hall
  have hqs' : ∀ q ∈ pre ++ mid, Deliverable q := fun q hq => hqs q (List.mem_append_left _ hq)
  have htakes' := (Node.takes_append.mp htakes).1
  have hall' := (Node.managesAll_append.mp hall).1
  obtain ⟨st₁, hok₁, h₁⟩ := (run_reflects h (fun q hq => hqs' q (List.mem_append_left _ hq))
    (Node.takes_append.mp htakes').1).1 (Node.managesAll_append.mp hall').1
  obtain ⟨st₂, hok₂, h₂⟩ := (run_reflects h hqs' htakes').1 hall'
  rw [List.foldl_append, hmid] at h₂
  exact ⟨st₁, _, st₂, _, hok₁, hok₂, h₁.eq_databases h₂⟩

/-- The store goes through the requests, and then its data is the replay of the committed records, its log is empty,
every `get` was answered from the records committed before it, and neither a read nor a record ended by `DEL_LOG` has
left a trace. -/
def Replays (st : StoreImpl) (data : OrdMap Bytes Bytes) (qs : List Request) : Prop :=
  ∃ st' done, st.run (qs.map message) = .ok (st', done) ∧
    st'.storeData.dbHandle = .reliable (replay (committed none qs) data) ∧
    st'.storeLog.dbHandle = .reliable .empty ∧
    done.map Prod.fst = qs ∧
    (∀ pre key post, qs = pre ++ .get key :: post → done[pre.length]? =
      some (.get key, some (encStr (((replay (committed none pre) data).get? key).getD [])))) ∧
    (∀ pre q post, qs = pre ++ q :: post → q.Reads → st.SameAfter pre (pre ++ [q])) ∧
    (∀ pre r reads post, qs = pre ++ .log r :: (reads ++ .delLog :: post) → (∀ q ∈ reads, q.Reads) →
      st.SameAfter pre (pre ++ .log r :: (reads ++ [.delLog])))

theorem Reflects.replays {data : OrdMap Bytes Bytes} {size : ℤ} {qs : List Request} (h : st.Reflects ⟨data, size, none⟩)
    (hqs : ∀ q ∈ qs, Deliverable q) (hdisc : Disciplined false qs) (hall : (Node.mk data size none).ManagesAll qs) :
    st.Replays data qs := by
  have htakes : (Node.mk data size none).Takes qs := Node.takes_of_disciplined hdisc fun _ => rfl
  obtain ⟨st', hok, h'⟩ := (run_reflects h hqs htakes).1 hall
  have hreplay : ∀ pre post, qs = pre ++ post →
      replay (committed none pre) data = (pre.foldl Node.next ⟨data, size, none⟩).data := by
    rintro pre post rfl
    have hnone : (Node.mk data size none).pending = Option.map Log.recorded none := rfl
    exact (Node.data_foldl_next none hdisc hnone).symm
  refine ⟨st', _, hok, ?_, ?_, ?_, ?_, ?_, ?_⟩
  · rw [h'.data, hreplay qs [] (List.append_nil qs).symm]
    rfl
  · rw [h'.log, Node.pending_foldl_next hdisc fun _ => rfl]
    rfl
  · exact Node.map_fst_replies _ _
  · intro pre key post hsplit
    rw [hreplay pre _ hsplit, hsplit, Node.replies_append, List.getElem?_append_right (by simp), Node.length_replies,
      Nat.sub_self]
    rfl
  · rintro pre q post rfl hq
    have hmid : [q].foldl Node.next (pre.foldl Node.next ⟨data, size, none⟩) = pre.foldl Node.next ⟨data, size, none⟩ :=
      Node.next_of_reads hq _
    exact sameAfter_of h hqs htakes hall hmid
  · rintro pre r reads post rfl hreads
    have hnone : (pre.foldl Node.next (Node.mk data size none)).pending = none := (Node.takes_append.mp htakes).2.1 r rfl
    have hmid : pre ++ .log r :: (reads ++ .delLog :: post) = pre ++ (.log r :: (reads ++ [.delLog]) ++ post) := by simp
    rw [hmid] at hqs htakes hall
    exact sameAfter_of h hqs htakes hall (Node.foldl_next_delLog r hnone hreads)

/-- A store with an empty log applies exactly the committed records of a disciplined list of requests if and only if it
gets through each of these in turn. -/
theorem run_disciplined_iff {data : OrdMap Bytes Bytes} {size : ℤ} {qs : List Request}
    (h : st.Reflects ⟨data, size, none⟩) (hqs : ∀ q ∈ qs, Deliverable q) (hdisc : Disciplined false qs) :
    st.Replays data qs ↔ (Node.mk data size none).ManagesAll qs := by
  refine ⟨fun hreplays => ?_, h.replays hqs hdisc⟩
  by_contra hall
  have htakes : (Node.mk data size none).Takes qs := Node.takes_of_disciplined hdisc fun _ => rfl
  obtain ⟨e, he⟩ := (run_reflects h hqs htakes).2 hall
  obtain ⟨st', done, hok, -⟩ := hreplays
  rw [hok] at he
  cases he

/-- A store with nothing in its databases. -/
def emptyStore : StoreImpl := start (.reliable .empty) (.reliable .empty)

theorem emptyStore_reflects : emptyStore.Reflects ⟨.empty, 0, none⟩ := ⟨rfl, rfl, fun _ h => by cases h⟩

/-- One record committed and one taken back. -/
def sampleRequests : List Request :=
  [.log { kind := .put, key := text "a", value := text "b" }, .get (text "a"), .commitLog,
    .log { kind := .delete, key := text "a" }, .delLog, .get (text "a")]

theorem run_disciplined_sampleRequests : emptyStore.Replays .empty sampleRequests := by
  have hdisc : Disciplined false sampleRequests := ⟨rfl, by decide, trivial, rfl, by decide, trivial, rfl⟩
  exact (run_disciplined_iff emptyStore_reflects (by decide) hdisc).mpr
    ⟨by decide, by decide, by decide, by decide, by decide, by decide, trivial⟩

/-- The record `DELETE` of the empty key, which is committed. -/
def deleteNothing : List Request := [.log { kind := .delete, key := [] }, .commitLog]

/-- The claim that a store applies its committed records is false: over no pairs, the `DELETE` of the empty key moves an
iterator that is not valid. -/
theorem run_deleteNothing :
    emptyStore.Reflects ⟨.empty, 0, none⟩ ∧ (∀ q ∈ deleteNothing, Deliverable q) ∧ Disciplined false deleteNothing ∧
      emptyStore.run (deleteNothing.map message) = .error .undefined ∧ ¬emptyStore.Replays .empty deleteNothing := by
  have hrun : emptyStore.run (deleteNothing.map message) = .error .undefined := rfl
  refine ⟨emptyStore_reflects, by decide, ⟨rfl, by decide, rfl⟩, hrun, ?_⟩
  rintro ⟨st', done, hok, -⟩
  rw [hrun] at hok
  cases hok

end StoreImpl

end DistRocks
