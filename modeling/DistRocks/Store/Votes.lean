import DistRocks.Store.Node

/-!
# Votes when writes fail

Every write of a store may fail, and no method looks at the status. `execute_log_iff`, `execute_commitLog_iff` : exactly
when the answer `ok` to a `LOG` or `COMMIT_LOG` request tells the truth all the same; `vote_truthful_iff` : both;
`vote_not_truthful` : a failed write to the log and one to the data, each behind an `ok`.
-/

namespace DistRocks

open ConstValues

/-- The map shows the effect of a record. -/
def Log.Done (r : Log) (data : OrdMap Bytes Bytes) : Prop :=
  match r.kind with
  | .put => data.get? r.key = some r.value
  | .delete => data.get? r.key = none
  | .error => True

instance (r : Log) (data : OrdMap Bytes Bytes) : Decidable (r.Done data) :=
  match r with
  | ⟨.put, key, value⟩ => inferInstanceAs (Decidable (data.get? key = some value))
  | ⟨.delete, key, _⟩ => inferInstanceAs (Decidable (data.get? key = none))
  | ⟨.error, _, _⟩ => inferInstanceAs (Decidable True)

/-- The first string of the reply is `ok`. -/
def AnswersOk (reply : Option Bytes) : Prop :=
  ∃ bytes rest, reply = some bytes ∧ getStringFromBuff bytes = .ok (OK, rest)

theorem answersOk_append (rest : Bytes) : AnswersOk (some (encStr OK ++ rest)) :=
  ⟨_, rest, rfl, by rw [getString_encStr rest (by decide)]; rfl⟩

namespace StoreLog

/-- The record that the next commit will find, under its key in the log. -/
def Pending (l : StoreLog) (key : Bytes) (r : Log) : Prop :=
  (∃ value, l.dbHandle.db.first? = some (key, value)) ∧ Log.ofBuff key = .ok r ∧ r.kind ≠ .error

/-- The log holds a record under this key. -/
def Has (l : StoreLog) (key : Bytes) : Prop := l.dbHandle.db.get? key ≠ none

theorem Pending.getLog {l : StoreLog} {key : Bytes} {r : Log} (h : l.Pending key r) : l.getLog = .ok r := by
  obtain ⟨⟨value, hmin⟩, hr, -⟩ := h
  have hcur : l.dbHandle.newIterator.seekToFirst.current = some (key, value) := hmin
  rw [StoreLog.getLog, hcur]
  exact hr

theorem Pending.clearLog {l : StoreLog} {key : Bytes} {r : Log} (h : l.Pending key r) :
    l.clearLog.dbHandle = l.dbHandle.delete1 key := by
  obtain ⟨⟨value, hmin⟩, -, -⟩ := h
  have hcur : l.dbHandle.newIterator.seekToFirst.current = some (key, value) := hmin
  rw [StoreLog.clearLog, hcur]

end StoreLog

namespace DBHandle

theorem put_of_not_ok {h : DBHandle} (hok : h.writeOk = false) (k v : Bytes) : (h.put k v).db = h.db := by
  simp [put, hok]

theorem delete1_of_not_ok {h : DBHandle} (hok : h.writeOk = false) (k : Bytes) : (h.delete1 k).db = h.db := by
  simp [delete1, hok]

theorem getSize_bounds (h : DBHandle) : wrapInt h.getSize = h.getSize := by
  have hgo : ∀ (l : List (Bytes × Bytes)) (x : ℤ), wrapInt x = x → wrapInt (l.foldl (fun ret e =>
      wrapInt (wrapInt (ret + (wrapInt e.2.length + 1)) + (wrapInt e.1.length + 1))) x) = l.foldl (fun ret e =>
      wrapInt (wrapInt (ret + (wrapInt e.2.length + 1)) + (wrapInt e.1.length + 1))) x := by
    intro l
    induction l with
    | nil => exact fun x hx => hx
    | cons e l ih => exact fun x _ => ih _ (wrapInt_eq (wrapInt_bounds _).1 (wrapInt_bounds _).2)
  exact hgo _ 0 rfl

end DBHandle

namespace StoreImpl

variable {st st' : StoreImpl} {reply : Option Bytes}

theorem sendReply_eq_ok {msg : Bytes} (h : st.sendReply msg = .ok (st', reply)) :
    st'.storeData = st.storeData ∧ st'.storeLog = st.storeLog ∧ reply = some msg := by
  rcases sendReply_cases st msg with ⟨-, b, hb⟩ | ⟨-, he⟩
  · rw [hb] at h
    obtain ⟨rfl, rfl⟩ := Prod.mk.inj (Except.ok.inj h)
    exact ⟨rfl, rfl, rfl⟩
  · rw [he] at h
    cases h

/-! ## The answer to `LOG` -/

theorem execute_log_eq_ok {r : Log} (hkind : r.kind ≠ .error) (h : st.execute (.log r) = .ok (st', reply)) :
    st'.storeLog.dbHandle = st.storeLog.dbHandle.put (encLog r.recorded) [] ∧ AnswersOk reply := by
  rw [execute_log st hkind] at h
  cases hb : st.storeLog.buff.put (encLog r.recorded) with
  | error e => rw [hb, error_bind] at h; cases h
  | ok b =>
      rw [hb, ok_bind] at h
      rcases ite_eq_iff.mp h with ⟨-, h⟩ | ⟨-, h⟩
      · cases h
      obtain ⟨-, hlog, rfl⟩ := sendReply_eq_ok h
      exact ⟨by rw [hlog]; rfl, answersOk_append _⟩

/-- The answer to a `LOG` request is truthful exactly when the write succeeds or the record is there already. -/
theorem execute_log_iff {r : Log} (hkind : r.kind ≠ .error) (h : st.execute (.log r) = .ok (st', reply)) :
    (AnswersOk reply → st'.storeLog.Has (encLog r.recorded)) ↔
      st.storeLog.dbHandle.writeOk = true ∨ st.storeLog.Has (encLog r.recorded) := by
  obtain ⟨hlog, hans⟩ := execute_log_eq_ok hkind h
  simp only [hans, forall_const, StoreLog.Has, hlog]
  cases hok : st.storeLog.dbHandle.writeOk with
  | false => simp [DBHandle.put_of_not_ok hok]
  | true => simp [DBHandle.put, hok, OrdMap.get?_insert]

/-! ## The answer to `COMMIT_LOG` -/

/-- The size is what a count over the database gives, and no stored value is empty. -/
structure Counted (d : StoreData) : Prop where
  size : d.size = d.dbHandle.getSize
  values : ∀ e ∈ d.dbHandle.db.entries, e.2 ≠ []

/-- Behind an `ok` stands the effect of the pending record; after a failed write of the data the record is kept and the
size is right. -/
def TruthfulCommit (st st' : StoreImpl) (reply : Option Bytes) : Prop :=
  ∀ key r, st.storeLog.Pending key r →
    (AnswersOk reply → r.Done st'.storeData.dbHandle.db) ∧
    (st.storeData.dbHandle.writeOk = false →
      st'.storeLog.Has key ∧ st'.storeData.size = st'.storeData.dbHandle.getSize)

theorem execute_commitLog_eq_ok {key : Bytes} {r : Log} (hp : st.storeLog.Pending key r)
    (h : st.execute .commitLog = .ok (st', reply)) :
    st'.storeData = (st.applied r).storeData ∧ st'.storeLog.dbHandle = st.storeLog.dbHandle.delete1 key ∧
      AnswersOk reply := by
  rw [execute_commitLog, hp.getLog, ok_bind] at h
  obtain ⟨hdata, hlog, rfl⟩ := sendReply_eq_ok h
  refine ⟨hdata, ?_, by simpa using answersOk_append []⟩
  rw [hlog, ← hp.clearLog, applied]
  cases r.kind <;> rfl

theorem done_applied {r : Log} (hok : st.storeData.dbHandle.writeOk = true) :
    r.Done (st.applied r).storeData.dbHandle.db := by
  rw [Log.Done, applied]
  cases r.kind with
  | put => simp [deleteLog, put, StoreData.put, DBHandle.put, hok, OrdMap.get?_insert]
  | delete => simp [deleteLog, delete1, StoreData.delete1, DBHandle.delete1, hok, OrdMap.get?_erase]
  | error => trivial

theorem db_applied_of_not_ok {r : Log} (hok : st.storeData.dbHandle.writeOk = false) :
    (st.applied r).storeData.dbHandle.db = st.storeData.dbHandle.db := by
  rw [applied]
  cases r.kind with
  | put => exact DBHandle.put_of_not_ok hok r.key r.value
  | delete => exact DBHandle.delete1_of_not_ok hok r.key
  | error => rfl

/-- When the effect is there already, applying the record leaves the size as it was. -/
theorem size_applied_of_done {r : Log} (hcount : Counted st.storeData) (hdone : r.Done st.storeData.dbHandle.db) :
    (st.applied r).storeData.size = st.storeData.size := by
  have hrange : wrapInt st.storeData.size = st.storeData.size := hcount.size ▸ DBHandle.getSize_bounds _
  rw [Log.Done] at hdone
  rw [applied]
  cases hk : r.kind with
  | put =>
      simp only [hk] at hdone
      have hne : r.value.length ≠ 0 := fun h0 =>
        hcount.values _ (OrdMap.get?_eq_some.mp hdone) (List.length_eq_zero_iff.mp h0)
      have hget : st.storeData.dbHandle.get r.key = r.value := by rw [DBHandle.get, hdone]; rfl
      change wrapInt (st.storeData.sizeWithout r.key + (wrapInt r.key.length + wrapInt r.value.length + 2)) = _
      rw [StoreData.sizeWithout, hget, if_pos hne]
      conv => rhs; rw [← hrange]
      unfold wrapInt
      omega
  | delete =>
      simp only [hk] at hdone
      have hget : st.storeData.dbHandle.get r.key = [] := by rw [DBHandle.get, hdone]; rfl
      change st.storeData.sizeWithout r.key = _
      rw [StoreData.sizeWithout, hget, if_neg (by simp)]
  | error => rfl

/-- The answer to a `COMMIT_LOG` request is truthful exactly when the write of the data succeeds, or its effect was
there before and the write of the log fails. -/
theorem execute_commitLog_iff (hcount : Counted st.storeData) (h : st.execute .commitLog = .ok (st', reply)) :
    TruthfulCommit st st' reply ↔ ∀ key r, st.storeLog.Pending key r →
      st.storeData.dbHandle.writeOk = true ∨
        (r.Done st.storeData.dbHandle.db ∧ st.storeLog.dbHandle.writeOk = false) := by
  refine forall_congr' fun key => forall_congr' fun r => forall_congr' fun hp => ?_
  obtain ⟨hdata, hlog, hans⟩ := execute_commitLog_eq_ok hp h
  cases hok : st.storeData.dbHandle.writeOk with
  | true => simpa [hdata] using fun _ => done_applied hok
  | false =>
      have hdb := db_applied_of_not_ok (r := r) hok
      simp only [hans, forall_const, Bool.false_eq_true, false_or, hdata, hdb]
      constructor
      · rintro ⟨hdone, hhas, -⟩
        refine ⟨hdone, Bool.eq_false_iff.mpr fun hlogok => hhas ?_⟩
        rw [hlog, DBHandle.delete1, hlogok, if_pos rfl, OrdMap.get?_erase, if_pos rfl]
      · rintro ⟨hdone, hlogok⟩
        refine ⟨hdone, ?_, ?_⟩
        · obtain ⟨⟨value, hmin⟩, -, -⟩ := hp
          rw [StoreLog.Has, hlog, DBHandle.delete1_of_not_ok hlogok,
            OrdMap.get?_eq_some.mpr (OrdMap.first?_eq_some.mp hmin).1]
          exact Option.some_ne_none value
        · rw [size_applied_of_done hcount hdone, hcount.size, DBHandle.getSize, DBHandle.getSize, hdb]

/-- Both votes at once, on every store. -/
theorem vote_truthful_iff (st : StoreImpl) :
    (∀ r st' reply, r.kind ≠ .error → st.execute (.log r) = .ok (st', reply) →
      ((AnswersOk reply → st'.storeLog.Has (encLog r.recorded)) ↔
        st.storeLog.dbHandle.writeOk = true ∨ st.storeLog.Has (encLog r.recorded))) ∧
    (∀ st' reply, Counted st.storeData → st.execute .commitLog = .ok (st', reply) →
      (TruthfulCommit st st' reply ↔ ∀ key r, st.storeLog.Pending key r →
        st.storeData.dbHandle.writeOk = true ∨
          (r.Done st.storeData.dbHandle.db ∧ st.storeLog.dbHandle.writeOk = false))) :=
  ⟨fun _ _ _ hkind h => execute_log_iff hkind h, fun _ _ hcount h => execute_commitLog_iff hcount h⟩

/-- The record `PUT a b`. -/
def putAB : Log := { kind := .put, key := text "a", value := text "b" }

/-- Empty databases; the next write to the log fails. -/
def failingLog : StoreImpl := start ⟨.empty, []⟩ ⟨.empty, [false]⟩

/-- `PUT a b` waits; the next write to the data fails. -/
def failingData : StoreImpl := start ⟨.empty, [false]⟩ ⟨logDb (some putAB), []⟩

theorem pending_failingData : failingData.storeLog.Pending (encLog putAB) putAB := by
  refine ⟨⟨[], rfl⟩, ?_, by decide⟩
  have h := Log.ofBuff_encLog (r := putAB) [] (by decide) (by decide)
  rwa [List.append_nil, Log.NulFree.asRead_eq ⟨by decide, by decide⟩] at h

/-- Both answers are `ok`, and neither is true. -/
theorem vote_not_truthful :
    (∃ st' reply, failingLog.execute (.log putAB) = .ok (st', reply) ∧ AnswersOk reply ∧
      ¬ st'.storeLog.Has (encLog putAB)) ∧
    (∃ st' reply, failingData.execute .commitLog = .ok (st', reply) ∧ AnswersOk reply ∧
      ¬ putAB.Done st'.storeData.dbHandle.db ∧ ¬ st'.storeLog.Has (encLog putAB) ∧
      st'.storeData.size ≠ st'.storeData.dbHandle.getSize) := by
  constructor
  · obtain ⟨st', reply, h⟩ : ∃ st' reply, failingLog.execute (.log putAB) = .ok (st', reply) := ⟨_, _, rfl⟩
    obtain ⟨hlog, hans⟩ := execute_log_eq_ok (by decide) h
    exact ⟨st', reply, h, hans, by rw [StoreLog.Has, hlog]; decide⟩
  · obtain ⟨st', reply, h⟩ : ∃ st' reply, failingData.execute .commitLog = .ok (st', reply) := ⟨_, _, rfl⟩
    obtain ⟨hdata, hlog, hans⟩ := execute_commitLog_eq_ok pending_failingData h
    refine ⟨st', reply, h, hans, ?_, ?_, ?_⟩
    · rw [hdata]; decide
    · rw [StoreLog.Has, hlog]; decide
    · rw [hdata]; decide

theorem vote_truthful_failing :
    (∃ st' reply, failingLog.execute (.log putAB) = .ok (st', reply) ∧
      ((AnswersOk reply → st'.storeLog.Has (encLog putAB)) ↔
        failingLog.storeLog.dbHandle.writeOk = true ∨ failingLog.storeLog.Has (encLog putAB))) ∧
    (∃ st' reply, failingData.execute .commitLog = .ok (st', reply) ∧
      (TruthfulCommit failingData st' reply ↔ ∀ key r, failingData.storeLog.Pending key r →
        failingData.storeData.dbHandle.writeOk = true ∨
          (r.Done failingData.storeData.dbHandle.db ∧ failingData.storeLog.dbHandle.writeOk = false))) :=
  ⟨⟨_, _, rfl, (vote_truthful_iff failingLog).1 putAB _ _ (by decide) rfl⟩,
    ⟨_, _, rfl, (vote_truthful_iff failingData).2 _ _ ⟨rfl, fun _ he => (List.not_mem_nil he).elim⟩ rfl⟩⟩

end StoreImpl

end DistRocks
