import DistRocks.Store.OneRecord
import DistRocks.Store.Discipline

/-!
# A store under requests in any order

A record that is logged while another one waits does not replace it: a store keeps them all, and a `COMMIT_LOG` or
`DEL_LOG` takes the one whose bytes are least.

* `Backlog` : a map, its running size and the records that wait; `Backlog.next`, `Backlog.answer` : what a request does to
  them and how it is answered;
* `entered`, `applied`, `dropped` : the records that come to wait and those that are taken; `records_foldl_next` : none is
  lost or taken twice;
* `StoreImpl.Keeps` : a store whose databases do not fail and hold a `Backlog`; `run_backlog` : whatever the order of the
  requests, `StoreImpl.run` does and answers what the backlog says.
-/

namespace DistRocks

open ConstValues

/-- What a store is for any requests: a map, its running size, and the records that wait, each under its bytes. -/
structure Backlog where
  data : OrdMap Bytes Bytes
  size : ℤ
  waiting : OrdMap Bytes Log
  filed : ∀ e ∈ waiting.entries, e.1 = encLog e.2

namespace Backlog

/-- The record that is taken next. -/
def least (b : Backlog) : Option Log := b.waiting.first?.map Prod.snd

/-- One more record. -/
def enter (b : Backlog) (r : Log) : Backlog where
  data := b.data
  size := b.size
  waiting := b.waiting.insert (encLog r) r
  filed e he := by
    rcases OrdMap.mem_insert.mp he with rfl | ⟨-, he⟩
    · rfl
    · exact b.filed e he

/-- One record less. -/
def drop (b : Backlog) (r : Log) : Backlog where
  data := b.data
  size := b.size
  waiting := b.waiting.erase (encLog r)
  filed e he := b.filed e (OrdMap.mem_erase.mp he).2

/-- One record less, applied to the data. -/
def apply (b : Backlog) (r : Log) : Backlog :=
  { b.drop r with data := r.apply b.data, size := r.resize b.data b.size }

/-- The backlog after a request. -/
def next (b : Backlog) : Request → Backlog
  | .log r => if r.kind = .error then b else b.enter r.recorded
  | .commitLog => (b.least.map b.apply).getD b
  | .delLog => (b.least.map b.drop).getD b
  | _ => b

/-- The data of a store that holds the backlog. -/
def storeData (b : Backlog) : StoreData := ⟨.reliable b.data, b.size⟩

/-- The reply to a request, if it has one. -/
def answer (b : Backlog) (q : Request) : Option Value := b.storeData.answer q

/-- What is executed and answered. -/
def replies : Backlog → List Request → List (Request × Option Bytes)
  | _, [] => []
  | b, q :: qs => (q, (b.answer q).map Value.message) :: replies (b.next q) qs

/-- The records that wait, in the order in which they are taken. -/
def records (b : Backlog) : List Log := b.waiting.entries.map Prod.snd

theorem least_eq_none {b : Backlog} (h : b.least = none) : b.waiting.entries = [] := by
  rw [least, Option.map_eq_none_iff] at h
  exact OrdMap.first?_eq_none.mp h

theorem least_eq_some {b : Backlog} {r : Log} (h : b.least = some r) : b.waiting.first? = some (encLog r, r) := by
  obtain ⟨⟨key, r'⟩, hfirst, rfl⟩ := Option.map_eq_some_iff.mp h
  have hkey : key = encLog r' := b.filed _ (OrdMap.first?_eq_some.mp hfirst).1
  rw [hfirst, hkey]

/-! ## Records that come and go -/

/-- The record that a request brings, unless it waits already. -/
def entering (b : Backlog) : Request → Option Log
  | .log r => if r.kind = .error ∨ (b.waiting.get? (encLog r.recorded)).isSome then none else some r.recorded
  | _ => none

/-- The record that a request applies. -/
def applying (b : Backlog) : Request → Option Log
  | .commitLog => b.least
  | _ => none

/-- The record that a request drops. -/
def dropping (b : Backlog) : Request → Option Log
  | .delLog => b.least
  | _ => none

/-- What `f` finds for each request in turn. -/
def along (f : Backlog → Request → Option Log) : Backlog → List Request → List Log
  | _, [] => []
  | b, q :: qs => (f b q).toList ++ along f (b.next q) qs

def entered : Backlog → List Request → List Log := along entering

def applied : Backlog → List Request → List Log := along applying

def dropped : Backlog → List Request → List Log := along dropping

variable {b : Backlog} {q : Request} {qs : List Request} {r : Log}

theorem records_enter (hnew : b.waiting.get? (encLog r) = none) : (b.enter r).records.Perm (r :: b.records) := by
  have hperm := b.waiting.insert_perm (encLog r) r
  rw [OrdMap.erase_of_notMem hnew] at hperm
  exact hperm.map Prod.snd

theorem records_enter_of_waiting (hold : b.waiting.get? (encLog r) = some r) : (b.enter r).records = b.records := by
  have hsame := OrdMap.insert_of_mem (OrdMap.get?_eq_some.mp hold)
  exact congrArg (fun m : OrdMap Bytes Log => m.entries.map Prod.snd) hsame

theorem records_drop (hr : b.least = some r) : b.records.Perm (r :: (b.drop r).records) := by
  have hmem := (OrdMap.first?_eq_some.mp (least_eq_some hr)).1
  have hperm := b.waiting.insert_perm (encLog r) r
  rw [OrdMap.insert_of_mem hmem] at hperm
  exact hperm.map Prod.snd

/-- All records that wait can be read back. -/
def Readable (b : Backlog) : Prop := ∀ e ∈ b.waiting.entries, e.2.Storable

/-- The record of a `LOG` request can be read back. -/
def Recordable (q : Request) : Prop := ∀ r, q = .log r → r.kind ≠ .error → r.recorded.Storable

theorem Readable.next (hb : b.Readable) (hq : Recordable q) : (b.next q).Readable := by
  have hdrop : ∀ r, (b.drop r).Readable := fun r e he => hb e (OrdMap.mem_erase.mp he).2
  cases q with
  | log r =>
      rw [Backlog.next]
      split_ifs with hkind
      · exact hb
      · intro e he
        rcases OrdMap.mem_insert.mp he with rfl | ⟨-, he⟩
        · exact hq r rfl hkind
        · exact hb e he
  | commitLog | delLog =>
      rw [Backlog.next]
      cases b.least with
      | none => exact hb
      | some r => exact hdrop r
  | _ => exact hb

/-- A request moves the records that it enters, applies and drops, and no others. -/
theorem records_next (hb : b.Readable) (hq : Recordable q) :
    (b.records ++ (b.entering q).toList).Perm
      ((b.applying q).toList ++ ((b.dropping q).toList ++ (b.next q).records)) := by
  cases q with
  | log r =>
      simp only [entering, applying, dropping, Backlog.next]
      by_cases hkind : r.kind = .error
      · simp [hkind]
      cases hold : b.waiting.get? (encLog r.recorded) with
      | none => simpa [hkind] using List.perm_append_comm.trans (records_enter hold).symm
      | some r' =>
          have hmem := OrdMap.get?_eq_some.mp hold
          have hkey : encLog r.recorded = encLog r' := b.filed _ hmem
          have hread := StoreLog.ofBuff_encLog (hb _ hmem)
          rw [← hkey, StoreLog.ofBuff_encLog (hq r rfl hkind)] at hread
          obtain rfl : r.recorded = r' := Except.ok.inj hread
          simp [hkind, records_enter_of_waiting hold]
  | commitLog =>
      simp only [entering, applying, dropping, Backlog.next]
      cases hr : b.least with
      | none => simp
      | some r =>
          have hdrop : b.records.Perm (r :: (b.apply r).records) := records_drop hr
          simpa using hdrop
  | delLog =>
      simp only [entering, applying, dropping, Backlog.next]
      cases hr : b.least with
      | none => simp
      | some r => simpa using records_drop hr
  | _ => simp [entering, applying, dropping, Backlog.next]

/-- What waited or has come is applied, dropped or still waits, each record as often. -/
theorem records_foldl_next (hb : b.Readable) (hqs : ∀ q ∈ qs, Recordable q) :
    (b.records ++ b.entered qs).Perm (b.applied qs ++ (b.dropped qs ++ (qs.foldl Backlog.next b).records)) := by
  induction qs generalizing b with
  | nil => simp [entered, applied, dropped, along]
  | cons q qs ih =>
      have hq := hqs q List.mem_cons_self
      have hstep := records_next hb hq
      have hrest := ih (hb.next hq) fun q' hq' => hqs q' (List.mem_cons_of_mem _ hq')
      rw [List.perm_iff_count] at hstep hrest ⊢
      intro r
      have h₁ := hstep r
      have h₂ := hrest r
      simp only [entered, applied, dropped, along, List.foldl_cons, List.count_append] at h₁ h₂ ⊢
      omega

/-- The data is the replay of the applied records. -/
theorem data_foldl_next : (qs.foldl Backlog.next b).data = replay (b.applied qs) b.data := by
  induction qs generalizing b with
  | nil => rfl
  | cons q qs ih =>
      rw [List.foldl_cons, ih, applied, along, replay, replay, List.foldl_append]
      congr 1
      cases q with
      | log r =>
          simp only [Backlog.next, applying]
          split_ifs <;> rfl
      | commitLog =>
          simp only [Backlog.next, applying]
          cases b.least <;> rfl
      | delLog =>
          simp only [Backlog.next, applying]
          cases b.least <;> rfl
      | _ => rfl

end Backlog

namespace StoreImpl

/-- The store holds the backlog `b`, and none of its writes fails. -/
structure Keeps (st : StoreImpl) (b : Backlog) : Prop where
  data : st.storeData = b.storeData
  log : st.storeLog.dbHandle = .reliable (b.waiting.mapVal fun _ => [])
  storable : ∀ e ∈ b.waiting.entries, e.2.Storable

variable {st : StoreImpl} {b : Backlog} {q : Request} {qs : List Request}

/-- The buffers do not matter. -/
theorem Keeps.of_eq {st' : StoreImpl} (h : st.Keeps b) (hdata : st'.storeData = st.storeData)
    (hlog : st'.storeLog.dbHandle = st.storeLog.dbHandle) : st'.Keeps b :=
  ⟨hdata.trans h.data, hlog.trans h.log, h.storable⟩

theorem Keeps.first (h : st.Keeps b) {r : Log} (hr : b.least = some r) :
    (b.waiting.mapVal fun _ => ([] : Bytes)).first? = some (encLog r, []) ∧ r.Storable := by
  have hfirst := Backlog.least_eq_some hr
  exact ⟨by rw [OrdMap.first?_mapVal, hfirst]; rfl, h.storable _ (OrdMap.first?_eq_some.mp hfirst).1⟩

theorem Keeps.getLog (h : st.Keeps b) : st.storeLog.getLog = .ok (b.least.getD { kind := .error }) := by
  rw [StoreLog.getLog_eq h.log, StoreLog.found]
  cases hr : b.least with
  | none =>
      have hempty : b.waiting.first? = none := OrdMap.first?_eq_none.mpr (Backlog.least_eq_none hr)
      rw [OrdMap.first?_mapVal, hempty]
      rfl
  | some r =>
      obtain ⟨hfirst, hstore⟩ := h.first hr
      simp only [hfirst, StoreLog.ofBuff_encLog hstore, Option.getD_some]

theorem Keeps.deleteLog (h : st.Keeps b) : st.deleteLog.Keeps (b.next .delLog) := by
  have hlog := StoreLog.clearLog_eq h.log
  rw [StoreLog.records] at hlog
  cases hr : b.least with
  | none =>
      have hempty : b.waiting.first? = none := OrdMap.first?_eq_none.mpr (Backlog.least_eq_none hr)
      rw [OrdMap.first?_mapVal, hempty] at hlog
      rw [Backlog.next, hr]
      exact ⟨h.data, hlog, h.storable⟩
  | some r =>
      rw [(h.first hr).1] at hlog
      rw [Backlog.next, hr]
      exact ⟨h.data, hlog.trans (congrArg _ (OrdMap.mapVal_erase _ _ _).symm),
        fun e he => h.storable e (OrdMap.mem_erase.mp he).2⟩

/-- The record that is taken next, applied. -/
theorem Keeps.applied (h : st.Keeps b) {r : Log} (hr : b.least = some r) : (st.applied r).Keeps (b.apply r) := by
  have hdel : ∀ {st' : StoreImpl} {data size}, st'.storeData = ⟨.reliable data, size⟩ →
      st'.storeLog = st.storeLog → st'.deleteLog.Keeps { b.drop r with data, size } := by
    intro st' data size hdata hlog
    have hkeeps : st'.Keeps { b with data, size } := ⟨hdata, hlog ▸ h.log, h.storable⟩
    have hleast : Backlog.least { b with data, size } = some r := hr
    have hnext := hkeeps.deleteLog
    rw [Backlog.next, hleast] at hnext
    exact hnext
  rw [StoreImpl.applied, Backlog.apply, Log.apply, Log.resize]
  cases r.kind with
  | error => exact hdel h.data rfl
  | put => exact hdel (by rw [StoreImpl.put, h.data]; rfl) rfl
  | delete => exact hdel (by rw [StoreImpl.delete1, h.data]; rfl) rfl

theorem Keeps.withLog (h : st.Keeps b) {r : Log} (hr : r.Storable) (buff : Buff) : (st.withLog r buff).Keeps (b.enter r) := by
  refine ⟨h.data, ?_, fun e he => ?_⟩
  · have hwaiting := OrdMap.mapVal_insert (fun _ : Log => ([] : Bytes)) b.waiting (encLog r) r
    rw [StoreImpl.withLog, h.log, DBHandle.put_reliable]
    exact congrArg DBHandle.reliable hwaiting.symm
  · rcases OrdMap.mem_insert.mp he with rfl | ⟨-, he⟩
    · exact hr
    · exact h.storable e he

/-- The effect of a request. -/
theorem Keeps.effect (h : st.Keeps b) (hq : q.Plain) (hlen : q.message.length ≤ MAXLINE) :
    (q.Strays b.data ∧ st.effect q = .error .undefined) ∨ ∃ st', st.effect q = .ok st' ∧ st'.Keeps (b.next q) := by
  cases q with
  | log r =>
      rw [StoreImpl.effect, Backlog.next]
      by_cases hkind : r.kind = .error
      · rw [if_pos hkind, if_pos hkind]
        exact Or.inr ⟨st, rfl, h⟩
      · have hrec := recorded_storable hkind hq hlen
        obtain ⟨buff, hbuff, -⟩ := Buff.put_eq_ok (b := st.storeLog.buff) hrec.fits
        rw [if_neg hkind, if_neg hkind, hbuff, ok_bind, h.data]
        split_ifs with hs
        · exact Or.inl ⟨hs, rfl⟩
        · exact Or.inr ⟨st.withLog r.recorded buff, rfl, h.withLog hrec buff⟩
  | commitLog =>
      rw [StoreImpl.effect, Backlog.next, h.getLog]
      cases hr : b.least with
      | none =>
          have hdel := h.deleteLog
          rw [Backlog.next, hr] at hdel
          exact Or.inr ⟨st.deleteLog, rfl, hdel⟩
      | some r => exact Or.inr ⟨st.applied r, rfl, h.applied hr⟩
  | delLog => exact Or.inr ⟨st.deleteLog, rfl, h.deleteLog⟩
  | _ => exact Or.inr ⟨st, rfl, h⟩

/-- A round on the message of a request, unless it strays or its reply does not fit the send buffer. -/
theorem Keeps.serve (h : st.Keeps b) (hq : Deliverable q) :
    st.serve q.message = .error .overrun ∨ (q.Strays b.data ∧ st.serve q.message = .error .undefined) ∨
      ∃ st', st.serve q.message = .ok (q, st', (b.answer q).map Value.message) ∧ st'.Keeps (b.next q) := by
  obtain ⟨hplain, -, hlen⟩ := hq
  have hother : ∀ c, q ≠ .other c := fun c hc => by rw [hc] at hplain; exact hplain
  have hreceived : (st.received q.message).Keeps b := h.of_eq rfl rfl
  rw [serve_message st hlen hother, hplain.asRead_eq]
  cases hv : b.answer q with
  | some v =>
      rw [execute_eq _ (hreceived.data ▸ hv : _ = some v)]
      rcases hreceived.effect hplain hlen with ⟨hs, herr⟩ | ⟨st', hst', hkeeps⟩
      · exact Or.inr (Or.inl ⟨hs, by rw [herr, error_bind, error_bind]⟩)
      rw [hst', ok_bind]
      rcases sendReply_cases st' v.message with ⟨-, buff, hbuff⟩ | ⟨-, he⟩
      · exact Or.inr (Or.inr ⟨{ st' with sendBuff := buff }, by rw [hbuff]; rfl, hkeeps.of_eq rfl rfl⟩)
      · exact Or.inl (by rw [he, error_bind])
  | none =>
      have hnext : b.next q = b := by
        cases q with
        | log r =>
            simp only [Backlog.answer, StoreData.answer] at hv
            split_ifs at hv
        | commitLog | delLog => cases hv
        | _ => rfl
      rw [execute_of_answer_none _ (hreceived.data ▸ hv : _ = none), hnext]
      exact Or.inr (Or.inr ⟨_, rfl, hreceived⟩)

/-- One of the requests strays, over the data that it finds. -/
def SomeStrays (b : Backlog) (qs : List Request) : Prop :=
  ∃ pre q post, qs = pre ++ q :: post ∧ q.Strays (replay (b.applied pre) b.data)

theorem run_keeps (h : st.Keeps b) (hqs : ∀ q ∈ qs, Deliverable q) :
    st.run (qs.map Request.message) = .error .overrun ∨
      (SomeStrays b qs ∧ st.run (qs.map Request.message) = .error .undefined) ∨
      ∃ st', st.run (qs.map Request.message) = .ok (st', b.replies qs) ∧ st'.Keeps (qs.foldl Backlog.next b) := by
  induction qs generalizing st b with
  | nil => exact Or.inr (Or.inr ⟨st, rfl, h⟩)
  | cons q qs ih =>
      have hq := hqs q List.mem_cons_self
      rcases h.serve hq with herr | ⟨hs, herr⟩ | ⟨st', hok, h'⟩
      · exact Or.inl (by rw [List.map_cons, run, herr, error_bind])
      · exact Or.inr (Or.inl ⟨⟨[], q, qs, rfl, hs⟩, by rw [List.map_cons, run, herr, error_bind]⟩)
      rw [List.map_cons, run_cons _ hok hq.2.1]
      rcases ih h' fun q' hq' => hqs q' (List.mem_cons_of_mem _ hq') with
        herr | ⟨⟨pre, q', post, rfl, hs⟩, herr⟩ | ⟨st'', hok', h''⟩
      · exact Or.inl (by rw [herr, error_bind])
      · refine Or.inr (Or.inl ⟨⟨q :: pre, q', post, rfl, ?_⟩, by rw [herr, error_bind]⟩)
        rw [← Backlog.data_foldl_next] at hs ⊢
        exact hs
      · exact Or.inr (Or.inr ⟨st'', by rw [hok', ok_bind]; rfl, h''⟩)

theorem Deliverable.recordable (hq : Deliverable q) : Backlog.Recordable q := by
  rintro r rfl hkind
  exact recorded_storable hkind hq.1 hq.2.2

/-- Whatever the order of the requests, a store does and answers what its backlog says, as long as the replies fit and
no request strays; its data is the replay of the records applied, and every record that has come is applied, dropped or
waiting, as often as it came. -/
theorem run_backlog (h : st.Keeps b) (hqs : ∀ q ∈ qs, Deliverable q) :
    st.run (qs.map Request.message) = .error .overrun ∨
      (SomeStrays b qs ∧ st.run (qs.map Request.message) = .error .undefined) ∨
      ∃ st' b', st.run (qs.map Request.message) = .ok (st', b.replies qs) ∧ st'.Keeps b' ∧
        b'.data = replay (b.applied qs) b.data ∧
        (b.records ++ b.entered qs).Perm (b.applied qs ++ (b.dropped qs ++ b'.records)) := by
  refine (run_keeps h hqs).imp_right (Or.imp_right fun ⟨st', hok, h'⟩ => ⟨st', _, hok, h', Backlog.data_foldl_next, ?_⟩)
  exact Backlog.records_foldl_next h.storable fun q hq => Deliverable.recordable (hqs q hq)

/-- Nothing stored and nothing waiting. -/
def emptyBacklog : Backlog := ⟨.empty, 0, .empty, fun _ he => absurd he List.not_mem_nil⟩

theorem emptyStore_keeps : emptyStore.Keeps emptyBacklog := ⟨rfl, rfl, fun _ he => absurd he List.not_mem_nil⟩

/-- Three records logged before any of them is committed, the second one a `DELETE`. -/
def mixedRequests : List Request :=
  [.log { kind := .put, key := text "b", value := text "y" }, .log { kind := .delete, key := text "a" },
    .log { kind := .put, key := text "a", value := text "x" }, .commitLog, .delLog, .commitLog]

/-- The first commit takes the record that came last, and the last one the `DELETE`. -/
example : emptyBacklog.applied mixedRequests =
    [{ kind := .put, key := text "a", value := text "x" }, { kind := .delete, key := text "a" }] := by decide

theorem run_backlog_mixedRequests :
    ∃ st' b', emptyStore.run (mixedRequests.map Request.message) = .ok (st', emptyBacklog.replies mixedRequests) ∧
      st'.Keeps b' ∧ b'.data = replay (emptyBacklog.applied mixedRequests) .empty ∧
      (emptyBacklog.records ++ emptyBacklog.entered mixedRequests).Perm
        (emptyBacklog.applied mixedRequests ++ (emptyBacklog.dropped mixedRequests ++ b'.records)) := by
  have hok : ∀ e, emptyStore.run (mixedRequests.map Request.message) ≠ .error e := fun e h => by cases h
  exact ((run_backlog emptyStore_keeps (by decide)).resolve_left (hok _)).resolve_left fun h => hok _ h.2

end StoreImpl

end DistRocks
