import DistRocks.Store.Requests

/-!
# A store node as a map and one pending record

`Node` says what a store is for: a map, the running size of it, and the record that waits for its commit.

* `Node.next`, `Node.answer` : what a request does and the bytes of its reply;
* `StoreImpl.Reflects` : a store whose databases do not fail and hold a `Node`;
* `Reflects.serve` : a round on the message of a request is `next` and `answer`, unless the reply does not fit the send
  buffer;
* `Log.bounds_eq` : the bounds announced for a record are the ends of the data with the record applied.
-/

namespace DistRocks

open ConstValues

/-- A record that can be written to a log and read back from it. -/
structure Log.Storable (r : Log) : Prop where
  kind : r.kind ≠ .error
  nulFree : r.NulFree
  fits : (encLog r).length ≤ MAXLINE

/-- A record that comes by a request that fits a buffer. -/
structure Log.Carried (r : Log) : Prop extends r.Storable where
  request : (Request.log r).message.length ≤ MAXLINE

theorem Log.Carried.delete {k v : Bytes} (h : (Log.mk .put k v).Carried) : (Log.mk .delete k []).Carried := by
  have hlen := h.request
  simp only [Request.message, List.length_append, Log.length_encLog] at hlen
  refine ⟨⟨fun hk => (by cases hk), ⟨h.nulFree.key, List.not_mem_nil⟩, ?_⟩, ?_⟩
  · simp only [Log.length_encLog, List.length_nil]
    omega
  · simp only [Request.message, List.length_append, Log.length_encLog, List.length_nil]
    omega

/-- A map with a record applied. -/
def Log.apply (r : Log) (data : OrdMap Bytes Bytes) : OrdMap Bytes Bytes :=
  match r.kind with
  | .put => data.insert r.key r.value
  | .delete => data.erase r.key
  | .error => data

/-- What is in a map after a record was there before, unless the record puts it there. -/
theorem Log.mem_apply {r : Log} {data : OrdMap Bytes Bytes} {e : Bytes × Bytes} (he : e ∈ (r.apply data).entries) :
    r.kind = .put ∧ e = (r.key, r.value) ∨ e ∈ data.entries := by
  unfold Log.apply at he
  cases hk : r.kind with
  | error => rw [hk] at he; exact Or.inr he
  | delete => rw [hk] at he; exact Or.inr (OrdMap.mem_erase.mp he).2
  | put =>
      rw [hk] at he
      rcases OrdMap.mem_insert.mp he with he | ⟨-, he⟩
      · exact Or.inl ⟨rfl, he⟩
      · exact Or.inr he

/-- A record that is carried leaves only pairs that can be. -/
theorem Log.Carried.apply {r : Log} (hr : r.Carried) (hkey : r.key ≠ []) {data : OrdMap Bytes Bytes}
    (hdata : ∀ e ∈ data.entries, e.1 ≠ [] ∧ (Log.mk .put e.1 e.2).Carried) :
    ∀ e ∈ (r.apply data).entries, e.1 ≠ [] ∧ (Log.mk .put e.1 e.2).Carried := by
  intro e he
  rcases Log.mem_apply he with ⟨hk, rfl⟩ | he
  · obtain ⟨kind, key, value⟩ := r
    obtain rfl : kind = .put := hk
    exact ⟨hkey, hr⟩
  · exact hdata e he

/-- The running size of `data` after a record is applied. -/
def Log.resize (r : Log) (data : OrdMap Bytes Bytes) (size : ℤ) : ℤ :=
  match r.kind with
  | .put => (StoreData.put ⟨.reliable data, size⟩ ⟨r.key, r.value⟩).size
  | .delete => (StoreData.delete1 ⟨.reliable data, size⟩ r.key).size
  | .error => size

/-- The log database with the pending record. -/
def logDb : Option Log → OrdMap Bytes Bytes
  | none => .empty
  | some r => OrdMap.empty.insert (encLog r) []

structure Node where
  data : OrdMap Bytes Bytes
  size : ℤ
  pending : Option Log

namespace Node

/-- The pending record applied and taken out of the log. -/
def commit (nd : Node) : Node :=
  match nd.pending with
  | some r => ⟨r.apply nd.data, r.resize nd.data nd.size, none⟩
  | none => nd

/-- The node after a request. -/
def next (nd : Node) : Request → Node
  | .log r => if r.kind = .error then nd else { nd with pending := some r.recorded }
  | .commitLog => nd.commit
  | .delLog => { nd with pending := none }
  | _ => nd

/-- The data of a store that holds the node. -/
def storeData (nd : Node) : StoreData := ⟨.reliable nd.data, nd.size⟩

/-- The reply to a request, if it has one. -/
def answer (nd : Node) (q : Request) : Option Value := nd.storeData.answer q

end Node

/-! ## The log database -/

@[simp] theorem logDb_some_entries (r : Log) : (logDb (some r)).entries = [(encLog r, [])] := rfl

theorem erase_logDb (r : Log) : (logDb (some r)).erase (encLog r) = .empty := by
  rw [logDb, OrdMap.erase_insert]
  rfl

namespace StoreImpl

/-- The store holds the node `nd`, and none of its writes fails. -/
structure Reflects (st : StoreImpl) (nd : Node) : Prop where
  data : st.storeData = nd.storeData
  log : st.storeLog.dbHandle = .reliable (logDb nd.pending)
  storable : ∀ r ∈ nd.pending, r.Storable

variable {st : StoreImpl} {nd : Node}

/-- The buffers do not matter. -/
theorem Reflects.of_eq {st' : StoreImpl} (h : st.Reflects nd) (hdata : st'.storeData = st.storeData)
    (hlog : st'.storeLog.dbHandle = st.storeLog.dbHandle) : st'.Reflects nd :=
  ⟨hdata.trans h.data, hlog.trans h.log, h.storable⟩

theorem sendReply_cases (st : StoreImpl) (msg : Bytes) :
    (msg.length ≤ MAXLINE ∧ ∃ b, st.sendReply msg = .ok ({ st with sendBuff := b }, some msg)) ∨
      (MAXLINE < msg.length ∧ st.sendReply msg = .error .overrun) := by
  rcases st.sendBuff.put_cases msg with ⟨h, c, hc, -⟩ | ⟨h, he⟩
  · exact Or.inl ⟨h, c, by rw [sendReply, hc]; rfl⟩
  · exact Or.inr ⟨h, by rw [sendReply, he]; rfl⟩

theorem Reflects.getLog_some (h : st.Reflects nd) {r : Log} (hr : nd.pending = some r) :
    st.storeLog.getLog = .ok r := by
  have hs := h.storable r hr
  have hlen := hs.fits
  rw [Log.length_encLog] at hlen
  have hread := Log.ofBuff_encLog (r := r) [] (by omega) (by omega)
  rw [List.append_nil, hs.nulFree.asRead_eq] at hread
  rw [StoreLog.getLog, h.log, hr]
  exact hread

theorem Reflects.getLog_none (h : st.Reflects nd) (hr : nd.pending = none) :
    st.storeLog.getLog = .ok { kind := .error } := by
  rw [StoreLog.getLog, h.log, hr]
  rfl

theorem Reflects.deleteLog (h : st.Reflects nd) : st.deleteLog.Reflects { nd with pending := none } := by
  refine ⟨h.data, ?_, fun r hr => by cases hr⟩
  have hlog := h.log
  cases hr : nd.pending with
  | none =>
      rw [hr] at hlog
      have hcur : (st.storeLog.dbHandle.newIterator.seekToFirst).current = none := by rw [hlog]; rfl
      simp only [StoreImpl.deleteLog, StoreLog.clearLog, hcur]
      exact hlog
  | some r =>
      rw [hr] at hlog
      have hcur : (st.storeLog.dbHandle.newIterator.seekToFirst).current = some (encLog r, []) := by rw [hlog]; rfl
      simp only [StoreImpl.deleteLog, StoreLog.clearLog, hcur]
      rw [hlog, DBHandle.delete1_reliable, erase_logDb]
      rfl

theorem Reflects.applied (h : st.Reflects nd) (r : Log) :
    (st.applied r).Reflects ⟨r.apply nd.data, r.resize nd.data nd.size, none⟩ := by
  rw [StoreImpl.applied, Log.apply, Log.resize]
  cases hk : r.kind with
  | error => exact h.deleteLog
  | put =>
      have hput : (st.put r.key r.value).Reflects ⟨nd.data.insert r.key r.value, r.resize nd.data nd.size, nd.pending⟩ :=
        ⟨by rw [StoreImpl.put, h.data, Log.resize, hk]; rfl, h.log, h.storable⟩
      rw [Log.resize, hk] at hput
      exact hput.deleteLog
  | delete =>
      have hdel : (st.delete1 r.key).Reflects ⟨nd.data.erase r.key, r.resize nd.data nd.size, nd.pending⟩ :=
        ⟨by rw [StoreImpl.delete1, h.data, Log.resize, hk]; rfl, h.log, h.storable⟩
      rw [Log.resize, hk] at hdel
      exact hdel.deleteLog

theorem Reflects.writeLog (h : st.Reflects nd) (hnone : nd.pending = none) {r : Log} (hr : r.Storable) (b : Buff) :
    (st.withLog r b).Reflects { nd with pending := some r } := by
  refine ⟨h.data, ?_, fun r' hr' => by cases hr'; exact hr⟩
  rw [withLog, h.log, hnone]
  rfl

theorem recorded_storable {r : Log} (hkind : r.kind ≠ .error) (hr : r.NulFree)
    (hlen : (Request.log r).message.length ≤ MAXLINE) : r.recorded.Storable := by
  simp only [Request.message, List.length_append, length_encStr, Log.length_encLog] at hlen
  rw [Log.recorded]
  split_ifs with hd
  · exact ⟨hkind, ⟨hr.key, List.not_mem_nil⟩, by rw [Log.length_encLog]; simp only [List.length_nil]; omega⟩
  · exact ⟨hkind, hr, by rw [Log.length_encLog]; omega⟩

theorem recorded_carried {r : Log} (hkind : r.kind ≠ .error) (hr : r.NulFree)
    (hlen : (Request.log r).message.length ≤ MAXLINE) : r.recorded.Carried := by
  refine ⟨recorded_storable hkind hr hlen, ?_⟩
  simp only [Request.message, List.length_append, Log.length_encLog] at hlen ⊢
  rw [Log.recorded]
  split_ifs
  · simp only [List.length_nil]
    omega
  · omega

/-- The effect of a request on a store that can take it. -/
theorem Reflects.effect (h : st.Reflects nd) {q : Request} (hq : q.Plain) (hlen : q.message.length ≤ MAXLINE)
    (hlog : ∀ r, q = .log r → nd.pending = none ∧ ¬r.Strays nd.data) :
    ∃ st', st.effect q = .ok st' ∧ st'.Reflects (nd.next q) := by
  cases q with
  | log r =>
      rw [StoreImpl.effect, Node.next]
      by_cases hkind : r.kind = .error
      · rw [if_pos hkind, if_pos hkind]
        exact ⟨st, rfl, h⟩
      · obtain ⟨hnone, hstay⟩ := hlog r rfl
        have hrec := recorded_storable hkind hq hlen
        obtain ⟨b, hb, -⟩ := Buff.put_eq_ok (b := st.storeLog.buff) hrec.fits
        have hdb : ¬r.Strays st.storeData.dbHandle.db := by rwa [h.data]
        rw [if_neg hkind, if_neg hkind, hb, ok_bind, if_neg hdb]
        exact ⟨st.withLog r.recorded b, rfl, h.writeLog hnone hrec b⟩
  | commitLog =>
      rw [StoreImpl.effect, Node.next, Node.commit]
      cases hr : nd.pending with
      | none =>
          refine ⟨st.deleteLog, by rw [h.getLog_none hr]; rfl, ?_⟩
          have hdel := h.deleteLog
          rwa [show ({ nd with pending := none } : Node) = nd by rw [← hr]] at hdel
      | some r => exact ⟨st.applied r, by rw [h.getLog_some hr]; rfl, h.applied r⟩
  | delLog => exact ⟨st.deleteLog, rfl, h.deleteLog⟩
  | _ => exact ⟨st, rfl, h⟩

/-- A round on the message of a request: the store does and answers what its node says, if the reply fits. -/
theorem Reflects.serve (h : st.Reflects nd) {q : Request} {v : Value} (hother : ∀ c, q ≠ .other c)
    (hlen : q.message.length ≤ MAXLINE) (hlog : ∀ r, q = .log r → nd.pending = none ∧ ¬r.asRead.Strays nd.data)
    (hv : nd.answer q.asRead = some v) :
    (v.message.length ≤ MAXLINE ∧ ∃ st', st.serve q.message = .ok (q.asRead, st', some v.message) ∧
      st'.Reflects (nd.next q.asRead)) ∨
    (MAXLINE < v.message.length ∧ st.serve q.message = .error .overrun) := by
  have hreceived : (st.received q.message).Reflects nd := h.of_eq rfl rfl
  have hlog' : ∀ r, q.asRead = .log r → nd.pending = none ∧ ¬r.Strays nd.data := by
    intro r hr
    cases q with
    | log r₀ =>
        cases hr
        exact hlog r₀ rfl
    | _ => cases hr
  obtain ⟨st', hst', hrefl⟩ := hreceived.effect (Request.asRead_plain hother)
    ((Request.length_message_asRead_le q).trans hlen) hlog'
  rw [serve_message st hlen hother, execute_eq _ (hreceived.data ▸ hv : _ = some v), hst', ok_bind]
  rcases sendReply_cases st' v.message with ⟨hfit, b, hb⟩ | ⟨hover, he⟩
  · exact Or.inl ⟨hfit, { st' with sendBuff := b }, by rw [hb, ok_bind], hrefl.of_eq rfl rfl⟩
  · exact Or.inr ⟨hover, by rw [he, error_bind]⟩

end StoreImpl

/-! ## Announced bounds -/

/-- The smallest and the largest key of a map, empty strings when it has none. -/
def keyEnds (m : OrdMap Bytes Bytes) : Bytes × Bytes :=
  ((m.first?.map Prod.fst).getD [], (m.last?.map Prod.fst).getD [])

theorem keyEnds_empty {m : OrdMap Bytes Bytes} (h : m.entries = []) : keyEnds m = ([], []) := by
  simp [keyEnds, OrdMap.first?_eq_none.mpr h, OrdMap.last?_eq_none.mpr h]

theorem keyEnds_eq {m : OrdMap Bytes Bytes} {e e' : Bytes × Bytes} (h : m.first? = some e)
    (h' : m.last? = some e') : keyEnds m = (e.1, e'.1) := by
  simp [keyEnds, h, h']

/-- A map that is not empty has a first and a last entry. -/
theorem exists_ends {m : OrdMap Bytes Bytes} (h : m.entries ≠ []) :
    ∃ e e', m.first? = some e ∧ m.last? = some e' := by
  obtain ⟨e, he⟩ := Option.ne_none_iff_exists'.mp (mt OrdMap.first?_eq_none.mp h)
  obtain ⟨e', he'⟩ := Option.ne_none_iff_exists'.mp (mt OrdMap.last?_eq_none.mp h)
  exact ⟨e, e', he, he'⟩

theorem keyEnds_bounds {m : OrdMap Bytes Bytes} {e : Bytes × Bytes} (he : e ∈ m.entries) :
    (keyEnds m).1 ≤ e.1 ∧ e.1 ≤ (keyEnds m).2 := by
  obtain ⟨a, b, ha, hb⟩ := exists_ends (List.ne_nil_of_mem he)
  rw [keyEnds_eq ha hb]
  exact ⟨(OrdMap.first?_eq_some.mp ha).2 e he, (OrdMap.last?_eq_some.mp hb).2 e he⟩

/-- The ends of a map that is not empty are keys of it. -/
theorem exists_mem_keyEnds {m : OrdMap Bytes Bytes} (h : m.entries ≠ []) :
    (∃ e ∈ m.entries, (keyEnds m).1 = e.1) ∧ ∃ e ∈ m.entries, (keyEnds m).2 = e.1 := by
  obtain ⟨a, b, ha, hb⟩ := exists_ends h
  rw [keyEnds_eq ha hb]
  exact ⟨⟨a, (OrdMap.first?_eq_some.mp ha).1, rfl⟩, ⟨b, (OrdMap.last?_eq_some.mp hb).1, rfl⟩⟩

theorem keyEnds_of_forall {m : OrdMap Bytes Bytes} {P : Bytes → Prop} (h : m.entries ≠ [])
    (hP : ∀ e ∈ m.entries, P e.1) : P (keyEnds m).1 ∧ P (keyEnds m).2 := by
  obtain ⟨⟨e, he, hlo⟩, ⟨e', he', hhi⟩⟩ := exists_mem_keyEnds h
  exact ⟨hlo ▸ hP e he, hhi ▸ hP e' he'⟩

theorem nulFree_keyEnds {m : OrdMap Bytes Bytes} (h : ∀ e ∈ m.entries, NulFree e.1) :
    NulFree (keyEnds m).1 ∧ NulFree (keyEnds m).2 := by
  by_cases hm : m.entries = []
  · rw [keyEnds_empty hm]
    exact ⟨List.not_mem_nil, List.not_mem_nil⟩
  · exact keyEnds_of_forall hm h

theorem keyEnds_le {m : OrdMap Bytes Bytes} (h : m.entries ≠ []) : (keyEnds m).1 ≤ (keyEnds m).2 := by
  obtain ⟨⟨e, he, heq⟩, -⟩ := exists_mem_keyEnds h
  exact (keyEnds_bounds he).1.trans (keyEnds_bounds he).2

namespace StoreImpl

variable {db : DBHandle}

theorem putBounds_eq (hkeys : ∀ e ∈ db.db.entries, e.1 ≠ []) (key value : Bytes) :
    putBounds db.newIterator key = keyEnds (db.db.insert key value) := by
  by_cases hempty : db.db.entries = []
  · obtain ⟨hlo, hhi⟩ := OrdMap.ends_insert_nil hempty key value
    rw [keyEnds_eq hlo hhi]
    simp [putBounds, DBHandle.newIterator, OrdMap.first?_eq_none.mpr hempty]
  · obtain ⟨e, e', he, he'⟩ := exists_ends hempty
    have hne : e.1 ≠ [] := hkeys e (OrdMap.first?_eq_some.mp he).1
    rw [keyEnds_eq (OrdMap.first?_insert he key value) (OrdMap.last?_insert he' key value), apply_ite Prod.fst,
      apply_ite Prod.fst, ← min_def_lt, ← max_def_lt]
    simp [putBounds, DBHandle.newIterator, he, he', hne]

theorem deleteBounds_eq {key : Bytes} (hkey : key ≠ []) :
    deleteBounds db.newIterator key = .ok (keyEnds (db.db.erase key)) := by
  by_cases hempty : db.db.entries = []
  · have hempty' : (db.db.erase key).entries = [] := by simp [OrdMap.erase, hempty]
    simp only [deleteBounds, keyOrEmpty_first, keyOrEmpty_last, DBHandle.newIterator, keyEnds_empty hempty',
      OrdMap.first?_eq_none.mpr hempty, OrdMap.last?_eq_none.mpr hempty, Option.map_none, Option.getD_none, if_neg hkey]
    rfl
  · obtain ⟨e, e', he, he'⟩ := exists_ends hempty
    have hnext : moveNext (Cursor.mk db.db (some e)) = .ok ⟨db.db, db.db.entryGT? e.1⟩ := rfl
    have hprev : movePrev (Cursor.mk db.db (some e')) = .ok ⟨db.db, db.db.entryLT? e'.1⟩ := rfl
    have hmin : (if key = e.1 then keyOrEmpty <$> moveNext (Cursor.mk db.db (some e)) else pure e.1 : Except Fault Bytes) =
        .ok (keyEnds (db.db.erase key)).1 := by
      by_cases hk : key = e.1
      · rw [if_pos hk, hnext, keyEnds, hk, OrdMap.first?_erase_self he]
        cases h : db.db.entryGT? e.1 <;> simp [keyOrEmpty]
      · rw [if_neg hk, keyEnds, OrdMap.first?_erase_of_ne he (Ne.symm hk)]
        rfl
    have hmax : (if key = e'.1 then keyOrEmpty <$> movePrev (Cursor.mk db.db (some e')) else pure e'.1 :
        Except Fault Bytes) = .ok (keyEnds (db.db.erase key)).2 := by
      by_cases hk : key = e'.1
      · rw [if_pos hk, hprev, keyEnds, hk, OrdMap.last?_erase_self he']
        cases h : db.db.entryLT? e'.1 <;> simp [keyOrEmpty]
      · rw [if_neg hk, keyEnds, OrdMap.last?_erase_of_ne he' (Ne.symm hk)]
        rfl
    have hfirst : db.newIterator.seekToFirst = ⟨db.db, some e⟩ := congrArg (Cursor.mk db.db) he
    have hlast : db.newIterator.seekToLast = ⟨db.db, some e'⟩ := congrArg (Cursor.mk db.db) he'
    have hat : ∀ e, keyOrEmpty (Cursor.mk db.db (some e)) = e.1 := fun _ => rfl
    simp only [deleteBounds, hfirst, hlast, hat, hmin, hmax, ok_bind]
    rfl

end StoreImpl

/-- The bounds announced for a record are the ends of the data with the record applied. -/
theorem Log.bounds_eq {r : Log} (hkind : r.kind ≠ .error) (hkey : r.key ≠ []) (db : DBHandle)
    (hkeys : ∀ e ∈ db.db.entries, e.1 ≠ []) : r.bounds db = keyEnds (r.apply db.db) := by
  rw [Log.bounds, Log.apply]
  cases h : r.kind with
  | error => exact absurd h hkind
  | put => exact StoreImpl.putBounds_eq hkeys r.key r.value
  | delete =>
      rw [if_pos rfl, StoreImpl.deleteBounds_eq hkey]
      rfl

end DistRocks
