import DistRocks.Store.Discipline

/-!
# Requests over a byte stream

`recv` returns the bytes in flight in pieces of any size, and `StoreImpl.run` takes each piece for one request.

* `StoreLog.Sound` : every key of the log database is a record, kept by every request (`Sound.execute`);
* `message_append_inj` : no request is the beginning of another one;
* `run_pieces` : when every piece is one whole request, exactly the requests in flight are executed, in order;
* `run_coalesced` : two requests in one piece, of which the second is lost.
-/

namespace DistRocks

open ConstValues

namespace StoreLog

/-- Every key of the log database is a record. -/
def Sound (l : StoreLog) : Prop := ∀ e ∈ l.dbHandle.db.entries, ∃ r : Log, r.Storable ∧ e.1 = encLog r

theorem ofBuff_encLog {r : Log} (hr : r.Storable) : Log.ofBuff (encLog r) = .ok r := by
  have hlen := hr.fits
  rw [Log.length_encLog] at hlen
  have h := Log.ofBuff_encLog (r := r) [] (by omega) (by omega)
  rwa [List.append_nil, hr.nulFree.asRead_eq] at h

theorem Sound.getLog {l : StoreLog} (h : l.Sound) : ∃ r, l.getLog = .ok r := by
  rw [StoreLog.getLog]
  cases hc : l.dbHandle.newIterator.seekToFirst.current with
  | none => exact ⟨_, rfl⟩
  | some e =>
      obtain ⟨r, hr, he⟩ := h e (OrdMap.first?_eq_some.mp hc).1
      exact ⟨r, by simp only [he, ofBuff_encLog hr]⟩

theorem Sound.put {l : StoreLog} (h : l.Sound) {r : Log} (hr : r.Storable) (b : Buff) :
    Sound { dbHandle := l.dbHandle.put (encLog r) [], buff := b } := by
  intro e he
  simp only [DBHandle.put] at he
  split_ifs at he
  · rcases OrdMap.mem_insert.mp he with rfl | ⟨-, he⟩
    · exact ⟨r, hr, rfl⟩
    · exact h e he
  · exact h e he

theorem Sound.clearLog {l : StoreLog} (h : l.Sound) : l.clearLog.Sound := by
  rw [StoreLog.clearLog]
  split
  · intro e he
    simp only [DBHandle.delete1] at he
    split_ifs at he
    · exact h e (OrdMap.mem_erase.mp he).2
    · exact h e he
  · exact h

end StoreLog

namespace StoreImpl

open Request

variable {st : StoreImpl}

theorem sound_applied (h : st.storeLog.Sound) (r : Log) : (st.applied r).storeLog.Sound := by
  rw [applied]
  cases r.kind <;> exact h.clearLog

theorem sound_effect (h : st.storeLog.Sound) {q : Request} (hq : Deliverable q)
    (hstay : ¬q.Strays st.storeData.dbHandle.db) : ∃ st', st.effect q = .ok st' ∧ st'.storeLog.Sound := by
  obtain ⟨hplain, -, hlen⟩ := hq
  cases q with
  | log r =>
      rw [effect]
      by_cases hkind : r.kind = .error
      · rw [if_pos hkind]
        exact ⟨st, rfl, h⟩
      · have hrec := recorded_storable hkind hplain hlen
        obtain ⟨b, hb, -⟩ := Buff.put_eq_ok (b := st.storeLog.buff) hrec.fits
        have hdb : ¬r.Strays st.storeData.dbHandle.db := hstay
        rw [if_neg hkind, hb, ok_bind, if_neg hdb]
        exact ⟨st.withLog r.recorded b, rfl, h.put hrec b⟩
  | commitLog =>
      obtain ⟨r, hr⟩ := h.getLog
      exact ⟨st.applied r, by rw [effect, hr]; rfl, sound_applied h r⟩
  | delLog => exact ⟨st.deleteLog, rfl, h.clearLog⟩
  | _ => exact ⟨st, rfl, h⟩

/-- A round on one whole request: its branch runs and its reply goes out, unless it does not fit the send buffer. -/
theorem serve_sound (h : st.storeLog.Sound) {q : Request} (hq : Deliverable q)
    (hstay : ¬q.Strays st.storeData.dbHandle.db) :
    (∃ v, st.storeData.answer q = some v ∧ MAXLINE < v.message.length ∧ st.serve q.message = .error .overrun) ∨
      ∃ st', st.serve q.message = .ok (q, st', (st.storeData.answer q).map Value.message) ∧ st'.storeLog.Sound := by
  have hother : ∀ c, q ≠ .other c := fun c hc => by rw [hc] at hq; exact hq.1
  rw [serve_message st hq.2.2 hother, hq.1.asRead_eq]
  cases hv : st.storeData.answer q with
  | none => exact Or.inr ⟨st.received q.message, by rw [execute_of_answer_none (st.received q.message) hv]; rfl, h⟩
  | some v =>
      have hrec : (st.received q.message).storeLog.Sound := h
      obtain ⟨st', hst', h'⟩ := sound_effect hrec hq hstay
      rw [execute_eq (st.received q.message) hv, hst', ok_bind]
      rcases sendReply_cases st' v.message with ⟨-, b, hb⟩ | ⟨hlen, he⟩
      · exact Or.inr ⟨{ st' with sendBuff := b }, by rw [hb, ok_bind]; rfl, h'⟩
      · exact Or.inl ⟨v, rfl, hlen, by rw [he, error_bind]⟩

/-- No request is the beginning of another one. -/
theorem message_append_inj {q q' : Request} (hq : Deliverable q) (hq' : Deliverable q') {rest rest' : Bytes}
    (h : q.message ++ rest = q'.message ++ rest') : q = q' := by
  have other : ∀ {q}, Deliverable q → ∀ c, q ≠ .other c := fun hq c hc => by
    rw [hc] at hq
    exact hq.1
  have hd := decodeRequest_message rest hq.2.2 (other hq)
  rw [h, decodeRequest_message rest' hq'.2.2 (other hq'), hq.1.asRead_eq, hq'.1.asRead_eq] at hd
  exact (Except.ok.inj hd).symm

/-- The request is no `DELETE` of the empty key. -/
def Keyed (q : Request) : Prop := ∀ r, q = .log r → r.kind = .delete → r.key ≠ []

theorem Keyed.not_strays {q : Request} (h : Keyed q) (data : OrdMap Bytes Bytes) : ¬q.Strays data := by
  cases q with
  | log r => exact fun hs => h r rfl hs.1 hs.2.1
  | _ => exact id

/-- When each piece is one whole request, the requests executed are those sent, up to the ones still in flight. -/
theorem run_pieces {sent : List Request} {pieces : List Bytes} {flight : Bytes} (hlog : st.storeLog.Sound)
    (hsent : ∀ q ∈ sent, Deliverable q) (hkeyed : ∀ q ∈ sent, Keyed q)
    (hpieces : ∀ p ∈ pieces, ∃ q, Deliverable q ∧ p = q.message)
    (hstream : (sent.map message).flatten = pieces.flatten ++ flight) :
    st.run pieces = .error .overrun ∨
      ∃ st' done rest, st.run pieces = .ok (st', done) ∧ sent = done.map Prod.fst ++ rest ∧
        flight = (rest.map message).flatten := by
  induction pieces generalizing st sent with
  | nil => exact Or.inr ⟨st, [], sent, rfl, rfl, by simpa using hstream.symm⟩
  | cons p pieces ih =>
      obtain ⟨q, hq, rfl⟩ := hpieces p List.mem_cons_self
      -- the first request sent is the first one received
      obtain ⟨sent', rfl⟩ : ∃ sent', sent = q :: sent' := by
        cases sent with
        | nil =>
            have hlen : 4 ≤ q.message.length := by cases q <;> simp [message, encStr]
            have := congrArg List.length hstream
            simp only [List.map_nil, List.flatten_nil, List.length_nil, List.flatten_cons, List.length_append] at this
            omega
        | cons q₀ sent' =>
            rw [List.map_cons, List.flatten_cons, List.flatten_cons, List.append_assoc] at hstream
            exact ⟨sent', by rw [message_append_inj (hsent q₀ List.mem_cons_self) hq hstream]⟩
      have hstream' : (sent'.map message).flatten = pieces.flatten ++ flight := by
        rw [List.map_cons, List.flatten_cons, List.flatten_cons, List.append_assoc] at hstream
        exact List.append_cancel_left hstream
      rcases serve_sound hlog hq ((hkeyed q List.mem_cons_self).not_strays _) with ⟨-, -, -, herr⟩ | ⟨st', hok, hlog'⟩
      · exact Or.inl (by rw [run, herr, error_bind])
      rw [run_cons _ hok hq.2.1]
      rcases ih hlog' (fun q' hq' => hsent q' (List.mem_cons_of_mem _ hq'))
        (fun q' hq' => hkeyed q' (List.mem_cons_of_mem _ hq')) (fun p' hp' => hpieces p' (List.mem_cons_of_mem _ hp'))
        hstream' with herr | ⟨st'', done, rest, hok', hdone, hfl⟩
      · exact Or.inl (by rw [herr, error_bind])
      · exact Or.inr ⟨st'', (q, _) :: done, rest, by rw [hok', ok_bind], by rw [hdone]; rfl, hfl⟩

/-- `test a` and `get k`, sent one after the other. -/
def testThenGet : List Request := [.test (text "a"), .get (text "k")]

/-- Both arrive in one piece, which fits the buffer: only the first is executed. -/
theorem run_coalesced :
    (∀ q ∈ testThenGet, Deliverable q) ∧ (testThenGet.map message).flatten.length ≤ MAXLINE ∧
      ∃ st' done, emptyStore.run [(testThenGet.map message).flatten] = .ok (st', done) ∧
        done.map Prod.fst = [.test (text "a")] ∧ done.map Prod.fst ≠ testThenGet :=
  ⟨by decide, by decide, _, _, rfl, rfl, by decide⟩

theorem run_pieces_testThenGet :
    ∃ st' done rest, emptyStore.run (testThenGet.map message) = .ok (st', done) ∧
      testThenGet = done.map Prod.fst ++ rest ∧ [] = (rest.map message).flatten := by
  have hfit : emptyStore.run (testThenGet.map message) ≠ .error .overrun := fun h => by cases h
  have hkeyed : ∀ q ∈ testThenGet, Keyed q := by
    intro q hq r hr
    rw [hr] at hq
    simp [testThenGet] at hq
  refine (run_pieces (fun _ he => (List.not_mem_nil he).elim) (by decide) hkeyed (fun p hp => ?_)
    (List.append_nil _).symm).resolve_left hfit
  obtain ⟨q, hq, rfl⟩ := List.mem_map.mp hp
  exact ⟨q, (by decide : ∀ q ∈ testThenGet, Deliverable q) q hq, rfl⟩

end StoreImpl

end DistRocks
