import DistRocks.Store.Impl

/-!
# The requests of a store node as bytes

* `Request.message` : the bytes of a request; `Request.asRead` : the request a store makes of them, its strings cut at
  their first NUL; `decodeRequest_message` : whatever follows the message in the buffer;
* `serve_message` : a round on a message that fits is the branch of that request;
* `Value` : what a reply carries; `StoreData.answer` : what the store computes for a request, from its data alone;
* `StoreImpl.effect` : what a request does to the databases;
* `execute_eq` : every branch is its effect and then one `sendReply` of its answer.
-/

namespace DistRocks

open ConstValues

namespace Request

/-- The bytes that stand for a request. -/
def message : Request → Bytes
  | quit => encStr QUIT
  | get key => encStr GET ++ encStr key
  | log r => encStr LOG ++ encLog r
  | commitLog => encStr COMMIT_LOG
  | test rec => encStr TEST ++ encStr rec
  | size => encStr SIZE
  | lessOrEqualOne => encStr LESS_OR_EQUAL_ONE
  | maxKey => encStr MAX_KEY
  | minKey => encStr MIN_KEY
  | delLog => encStr DEL_LOG
  | other command => encStr command

/-- The request as it is read: its strings end at their first NUL. -/
def asRead : Request → Request
  | get key => get (cstr key)
  | log r => log r.asRead
  | test rec => test (cstr rec)
  | r => r

/-- A request with a branch of its own, whose strings have no NUL. -/
def Plain : Request → Prop
  | get key => DistRocks.NulFree key
  | log r => r.NulFree
  | test rec => DistRocks.NulFree rec
  | other _ => False
  | _ => True

instance (r : Request) : Decidable r.Plain :=
  match r with
  | get key => inferInstanceAs (Decidable (DistRocks.NulFree key))
  | log r => decidable_of_iff (DistRocks.NulFree r.key ∧ DistRocks.NulFree r.value)
      ⟨fun h => ⟨h.1, h.2⟩, fun h => ⟨h.key, h.value⟩⟩
  | test rec => inferInstanceAs (Decidable (DistRocks.NulFree rec))
  | other _ => inferInstanceAs (Decidable False)
  | quit | commitLog | size | lessOrEqualOne | maxKey | minKey | delLog => inferInstanceAs (Decidable True)

theorem Plain.asRead_eq {r : Request} (h : r.Plain) : r.asRead = r := by
  cases r with
  | get key => exact congrArg get (NulFree.cstr_eq h)
  | log r => exact congrArg log (Log.NulFree.asRead_eq h)
  | test rec => exact congrArg test (NulFree.cstr_eq h)
  | _ => rfl

theorem asRead_plain {r : Request} (h : ∀ c, r ≠ other c) : r.asRead.Plain := by
  cases r with
  | get key => exact nulFree_cstr key
  | log r => exact r.asRead_nulFree
  | test rec => exact nulFree_cstr rec
  | other c => exact (h c rfl).elim
  | _ => trivial

theorem length_message_asRead_le (r : Request) : r.asRead.message.length ≤ r.message.length := by
  cases r with
  | get key => simpa [asRead, message] using length_cstr_le key
  | log r =>
      have hk := length_cstr_le r.key
      have hv := length_cstr_le r.value
      simp only [asRead, message, List.length_append, Log.length_encLog, Log.asRead]
      omega
  | test rec => simpa [asRead, message] using length_cstr_le rec
  | _ => exact le_rfl

end Request

/-- Reading the command word of a message, and then the rest of it. -/
theorem decodeRequest_word {word : Bytes} (rest : Bytes) (hlen : word.length < MAXLINE) (hnul : NulFree word) :
    decodeRequest (encStr word ++ rest) =
      if word = QUIT then .ok .quit
      else if word = GET then (getStringFromBuff rest >>= fun p => .ok (.get p.1))
      else if word = LOG then (Log.ofBuff rest >>= fun r => .ok (.log r))
      else if word = COMMIT_LOG then .ok .commitLog
      else if word = TEST then (getStringFromBuff rest >>= fun p => .ok (.test p.1))
      else if word = SIZE then .ok .size
      else if word = LESS_OR_EQUAL_ONE then .ok .lessOrEqualOne
      else if word = MAX_KEY then .ok .maxKey
      else if word = MIN_KEY then .ok .minKey
      else if word = DEL_LOG then .ok .delLog
      else .ok (.other word) := by
  rw [decodeRequest, getString_encStr rest hlen, hnul.cstr_eq]
  rfl

theorem decodeRequest_message {r : Request} (rest : Bytes) (hlen : r.message.length ≤ MAXLINE)
    (hother : ∀ c, r ≠ .other c) : decodeRequest (r.message ++ rest) = .ok r.asRead := by
  cases r with
  | get key =>
      have hkey : key.length < MAXLINE := by
        simp only [Request.message, List.length_append, length_encStr] at hlen
        omega
      rw [Request.message, List.append_assoc, decodeRequest_word _ (by decide) (by decide), if_neg (by decide),
        if_pos rfl, getString_encStr _ hkey]
      rfl
  | log r =>
      simp only [Request.message, List.length_append, length_encStr, Log.length_encLog] at hlen
      rw [Request.message, List.append_assoc, decodeRequest_word _ (by decide) (by decide), if_neg (by decide),
        if_neg (by decide), if_pos rfl, Log.ofBuff_encLog _ (by omega) (by omega)]
      rfl
  | test rec =>
      have hrec : rec.length < MAXLINE := by
        simp only [Request.message, List.length_append, length_encStr] at hlen
        omega
      rw [Request.message, List.append_assoc, decodeRequest_word _ (by decide) (by decide), if_neg (by decide),
        if_neg (by decide), if_neg (by decide), if_neg (by decide), if_pos rfl, getString_encStr _ hrec]
      rfl
  | other c => exact (hother c rfl).elim
  | _ =>
      rw [Request.message, decodeRequest_word _ (by decide) (by decide)]
      rfl

namespace StoreImpl

variable (st : StoreImpl)

/-- The store with a message in its receive buffer. -/
def received (msg : Bytes) : StoreImpl := { st with receiveBuff := st.receiveBuff.receive msg }

theorem serve_message {r : Request} (hlen : r.message.length ≤ MAXLINE) (hother : ∀ c, r ≠ .other c) :
    st.serve r.message = ((st.received r.message).execute r.asRead >>= fun p => .ok (r.asRead, p)) := by
  rw [serve]
  simp only [Buff.bytes_receive hlen, decodeRequest_message _ hlen hother, ok_bind]
  rfl

/-! ## Replies -/

end StoreImpl

/-- The contents of a reply. -/
inductive Value
  | str (s : Bytes)
  | int (a : ℤ)
  | flag (b : Bool)
  | pair (key value : Bytes)
  | vote (ans new_min new_max : Bytes)
  deriving DecidableEq, Repr

namespace Value

/-- The bytes of a reply. -/
def message : Value → Bytes
  | str s => encStr s
  | int a => intToBytes a
  | flag b => intToBytes (if b then 1 else 0)
  | pair key value => encStr key ++ encStr value
  | vote ans new_min new_max => encStr ans ++ (encStr new_min ++ encStr new_max)

end Value

/-- The record that `logLog` writes: a `DELETE` is logged without its value. -/
def Log.recorded (r : Log) : Log := if r.kind = .delete then { r with value := [] } else r

/-- The record moves an iterator that is not valid: a `DELETE` of the empty key, and no pairs. -/
def Log.Strays (r : Log) (data : OrdMap Bytes Bytes) : Prop := r.kind = .delete ∧ r.key = [] ∧ data.entries = []

instance Log.decidableStrays (r : Log) (data : OrdMap Bytes Bytes) : Decidable (r.Strays data) :=
  inferInstanceAs (Decidable (r.kind = .delete ∧ r.key = [] ∧ data.entries = []))

theorem Log.not_strays {r : Log} (hkey : r.key ≠ []) (data : OrdMap Bytes Bytes) : ¬r.Strays data :=
  fun h => hkey h.2.1

/-- The bounds that a `LOG` request is answered with. -/
def Log.bounds (r : Log) (data : DBHandle) : Bytes × Bytes :=
  if r.kind = .delete then (StoreImpl.deleteBounds data.newIterator r.key).toOption.getD ([], [])
  else StoreImpl.putBounds data.newIterator r.key

@[simp] theorem StoreImpl.keyOrEmpty_first (it : Iterator) :
    keyOrEmpty it.seekToFirst = (it.snapshot.first?.map Prod.fst).getD [] := by
  simp only [keyOrEmpty, Cursor.seekToFirst]
  cases it.snapshot.first? <;> rfl

@[simp] theorem StoreImpl.keyOrEmpty_last (it : Iterator) :
    keyOrEmpty it.seekToLast = (it.snapshot.last?.map Prod.fst).getD [] := by
  simp only [keyOrEmpty, Cursor.seekToLast]
  cases it.snapshot.last? <;> rfl

/-- A `DELETE` is announced, unless it strays. -/
theorem Log.deleteBounds_eq {r : Log} (hkind : r.kind = .delete) (data : DBHandle) :
    StoreImpl.deleteBounds data.newIterator r.key =
      if r.Strays data.db then .error .undefined else .ok (r.bounds data) := by
  have hbounds : ∀ b, StoreImpl.deleteBounds data.newIterator r.key = .ok b → r.bounds data = b := fun b hb => by
    rw [Log.bounds, if_pos hkind, hb]
    rfl
  by_cases hempty : data.db.entries = []
  · have hfirst := OrdMap.first?_eq_none.mpr hempty
    have hlast := OrdMap.last?_eq_none.mpr hempty
    by_cases hkey : r.key = []
    · have hmove : StoreImpl.moveNext data.newIterator.seekToFirst = .error .undefined := by
        simp [StoreImpl.moveNext, DBHandle.newIterator, Cursor.valid, Cursor.seekToFirst, hfirst]
      rw [if_pos ⟨hkind, hkey, hempty⟩, StoreImpl.deleteBounds, StoreImpl.keyOrEmpty_first, hkey, hmove]
      simp [DBHandle.newIterator, hfirst]
    · rw [if_neg (Log.not_strays hkey _)]
      have hok : StoreImpl.deleteBounds data.newIterator r.key = .ok ([], []) := by
        simp [StoreImpl.deleteBounds, DBHandle.newIterator, hfirst, hlast, hkey]
        rfl
      rw [hbounds _ hok, hok]
  · rw [if_neg fun h => hempty h.2.2]
    obtain ⟨e, he⟩ := Option.ne_none_iff_exists'.mp (mt OrdMap.first?_eq_none.mp hempty)
    obtain ⟨e', he'⟩ := Option.ne_none_iff_exists'.mp (mt OrdMap.last?_eq_none.mp hempty)
    have hnext : StoreImpl.moveNext data.newIterator.seekToFirst = .ok data.newIterator.seekToFirst.next := by
      simp [StoreImpl.moveNext, DBHandle.newIterator, Cursor.valid, Cursor.seekToFirst, he]
    have hprev : StoreImpl.movePrev data.newIterator.seekToLast = .ok data.newIterator.seekToLast.prev := by
      simp [StoreImpl.movePrev, DBHandle.newIterator, Cursor.valid, Cursor.seekToLast, he']
    obtain ⟨b, hb⟩ : ∃ b, StoreImpl.deleteBounds data.newIterator r.key = .ok b := by
      rw [StoreImpl.deleteBounds, hnext, hprev]
      split_ifs <;> exact ⟨_, rfl⟩
    rw [hbounds _ hb, hb]

/-- What the store computes for a request that it answers. -/
def StoreData.answer (d : StoreData) : Request → Option Value
  | .get key => some (.str (d.get key))
  | .log r =>
    if r.kind = .error then some (.str OK)
    else some (.vote OK (r.bounds d.dbHandle).1 (r.bounds d.dbHandle).2)
  | .commitLog | .delLog => some (.str OK)
  | .size => some (.int d.getSize)
  | .lessOrEqualOne => some (.flag d.dbHandle.storeLessOrEqualOne)
  | .maxKey => some (.pair d.getMaxKey.1 d.getMaxKey.2)
  | .minKey => some (.pair d.getMinKey.1 d.getMinKey.2)
  | .quit | .test _ | .other _ => none

namespace StoreImpl

variable (st : StoreImpl)

/-- `replyX` with the reply `msg`: put it at the front of the send buffer and send it. -/
def sendReply (msg : Bytes) : Except Fault (StoreImpl × Option Bytes) := do
  let b ← st.sendBuff.put msg
  return ({ st with sendBuff := b }, some msg)

theorem put_then_reply (msg : Bytes) (f : Buff → StoreImpl) (hf : ∀ b, (f b).sendBuff = b) (b : Buff) :
    (b.put msg >>= fun c => pure (reply (f c) msg.length)) =
      (b.put msg >>= fun c => (pure (f c, some msg) : Except Fault (StoreImpl × Option Bytes))) := by
  cases h : b.put msg with
  | error e => rfl
  | ok c => simp only [ok_bind, reply, hf, Buff.take_put h]

theorem replyStr_eq (s : Bytes) : st.replyStr s = st.sendReply (encStr s) := by
  rw [replyStr, Buff.insertStr_zero, bind_assoc]
  simp only [pure_bind, Nat.zero_add]
  exact put_then_reply (encStr s) (fun b => { st with sendBuff := b }) (fun _ => rfl) st.sendBuff

theorem replyInt_eq (a : ℤ) : st.replyInt a = st.sendReply (intToBytes a) := by
  rw [replyInt, Buff.insertInt_zero, bind_assoc]
  simp only [pure_bind, Nat.zero_add]
  exact put_then_reply (intToBytes a) (fun b => { st with sendBuff := b }) (fun _ => rfl) st.sendBuff

theorem replyPair_eq (e : Bytes × Bytes) : st.replyPair e = st.sendReply (encStr e.1 ++ encStr e.2) := by
  have h := Buff.put_insertStr (b := st.sendBuff) (encStr e.1) e.2 (0 + (encStr e.1).length)
  rw [replyPair, Buff.insertStr_zero, bind_assoc]
  simp only [pure_bind]
  rw [← bind_assoc, h, bind_assoc]
  simp only [pure_bind, Nat.zero_add, ← List.length_append]
  exact put_then_reply (encStr e.1 ++ encStr e.2) (fun b => { st with sendBuff := b }) (fun _ => rfl) st.sendBuff

/-- `announce` behind what was put into the send buffer. -/
theorem announce_after (b : Buff) (pre : Bytes) (f : Buff → StoreImpl) (hf : ∀ b, (f b).sendBuff = b)
    (hf' : ∀ b c, { f b with sendBuff := c } = f c) (bounds : Bytes × Bytes) :
    (b.put pre >>= fun c => (f c).announce bounds pre.length pre.length) =
      (b.put (pre ++ (encStr bounds.1 ++ encStr bounds.2)) >>= fun c =>
        pure (f c, (pre ++ (encStr bounds.1 ++ encStr bounds.2)).length)) := by
  have h₁ := Buff.put_insertStr (b := b) pre bounds.1 pre.length
  have h₂ := Buff.put_insertStr (b := b) (pre ++ encStr bounds.1) bounds.2 (pre ++ encStr bounds.1).length
  simp only [announce, hf, hf']
  rw [← bind_assoc, h₁, bind_assoc]
  simp only [pure_bind, ← List.length_append]
  rw [← bind_assoc, h₂, bind_assoc]
  simp only [pure_bind, ← List.length_append, List.append_assoc]

theorem writeLog_eq (l : StoreLog) (r : Log) :
    l.writeLog r.kind r.key r.value =
      (l.buff.put (encLog r) >>= fun b => pure { dbHandle := l.dbHandle.put (encLog r) [], buff := b }) := by
  rw [StoreLog.writeLog, Log.toSlice_zero, bind_assoc]
  cases h : l.buff.put (encLog r) with
  | error e => rfl
  | ok c => simp only [ok_bind, pure_bind, Buff.take_put h]

/-! ## Branches -/

/-- The store with a record written to its log. -/
def withLog (r : Log) (buff : Buff) : StoreImpl :=
  { st with storeLog := { dbHandle := st.storeLog.dbHandle.put (encLog r) [], buff } }

theorem execute_log {r : Log} (hkind : r.kind ≠ .error) :
    st.execute (.log r) = (st.storeLog.buff.put (encLog r.recorded) >>= fun b =>
      if r.Strays st.storeData.dbHandle.db then .error .undefined
      else (st.withLog r.recorded b).sendReply
        (encStr OK ++ (encStr (r.bounds st.storeData.dbHandle).1 ++ encStr (r.bounds st.storeData.dbHandle).2))) := by
  obtain ⟨c, hc, -⟩ := Buff.put_eq_ok (b := st.sendBuff) (show (encStr OK).length ≤ MAXLINE by decide)
  have hann := fun b => announce_after st.sendBuff (encStr OK)
    (fun c => { st.withLog r.recorded b with sendBuff := c }) (fun _ => rfl) (fun _ _ => rfl)
    (r.bounds st.storeData.dbHandle)
  simp only [hc, ok_bind] at hann
  have hwrite := writeLog_eq st.storeLog r.recorded
  have hbounds : ∀ b, { st.withLog r.recorded b with sendBuff := c }.announce (r.bounds st.storeData.dbHandle)
      (encStr OK).length (0 + (encStr OK).length) >>= (fun p => pure (reply p.1 p.2)) =
      (st.withLog r.recorded b).sendReply
        (encStr OK ++ (encStr (r.bounds st.storeData.dbHandle).1 ++ encStr (r.bounds st.storeData.dbHandle).2)) := by
    intro b
    rw [Nat.zero_add, hann b, bind_assoc]
    simp only [pure_bind]
    exact put_then_reply _ (fun c => { st.withLog r.recorded b with sendBuff := c }) (fun _ => rfl) st.sendBuff
  rw [execute, Buff.insertStr_zero, hc]
  simp only [ok_bind, pure_bind, logLog]
  cases h : r.kind with
  | error => exact absurd h hkind
  | put =>
      have hstay : ¬r.Strays st.storeData.dbHandle.db := fun hs => by rw [hs.1] at h; cases h
      simp only [hstay, if_false]
      simp only [Log.recorded, Log.bounds, h, reduceCtorEq, if_false, logPut] at hwrite hbounds ⊢
      rw [hwrite, bind_assoc, bind_assoc, bind_assoc]
      simp only [pure_bind]
      exact congrArg _ (funext hbounds)
  | delete =>
      have hdelete := Log.deleteBounds_eq h st.storeData.dbHandle
      by_cases hs : r.Strays st.storeData.dbHandle.db
      · rw [if_pos hs] at hdelete
        simp only [hdelete, hs, if_true]
        simp only [Log.recorded, h, if_true, logDelete] at hwrite ⊢
        rw [hwrite]
        cases st.storeLog.buff.put (encLog { r with kind := .delete, value := [] }) <;> rfl
      · rw [if_neg hs] at hdelete
        simp only [hdelete, hs, if_false, ok_bind]
        simp only [Log.recorded, h, if_true, logDelete] at hwrite hbounds ⊢
        rw [hwrite, bind_assoc, bind_assoc, bind_assoc]
        simp only [pure_bind]
        exact congrArg _ (funext hbounds)

theorem execute_log_error {r : Log} (hkind : r.kind = .error) :
    st.execute (.log r) = st.sendReply (encStr OK) := by
  rw [execute, Buff.insertStr_zero, bind_assoc]
  simp only [pure_bind, logLog, hkind, Nat.zero_add]
  exact put_then_reply (encStr OK) (fun c => { st with sendBuff := c }) (fun _ => rfl) st.sendBuff

/-- The store with a record applied to its data and taken out of its log. -/
def applied (r : Log) : StoreImpl :=
  match r.kind with
  | .put => (st.put r.key r.value).deleteLog
  | .delete => (st.delete1 r.key).deleteLog
  | .error => st.deleteLog

theorem commitLog_eq : st.commitLog = (st.storeLog.getLog >>= fun r => pure (st.applied r)) := by
  rw [commitLog]
  congr 1
  funext r
  rw [applied]
  cases r.kind <;> rfl

@[simp] theorem sendBuff_applied (r : Log) : (st.applied r).sendBuff = st.sendBuff := by
  rw [applied]
  cases r.kind <;> rfl

@[simp] theorem applied_sendBuff (r : Log) (b : Buff) :
    { st with sendBuff := b }.applied r = { st.applied r with sendBuff := b } := by
  simp only [applied]
  cases r.kind <;> rfl

theorem execute_commitLog :
    st.execute .commitLog = (st.storeLog.getLog >>= fun r => (st.applied r).sendReply (encStr OK)) := by
  obtain ⟨c, hc, -⟩ := Buff.put_eq_ok (b := st.sendBuff) (show (encStr OK).length ≤ MAXLINE by decide)
  rw [execute, Buff.insertStr_zero, hc]
  simp only [ok_bind, pure_bind, commitLog_eq, bind_assoc, Nat.zero_add]
  congr 1
  funext r
  simp only [sendReply, sendBuff_applied, hc, ok_bind, applied_sendBuff, reply, Buff.take_put hc]

/-- What a request does to the databases. -/
def effect : Request → Except Fault StoreImpl
  | .log r =>
    if r.kind = .error then return st
    else do
      let b ← st.storeLog.buff.put (encLog r.recorded)
      if r.Strays st.storeData.dbHandle.db then .error .undefined else return st.withLog r.recorded b
  | .commitLog => do
    let r ← st.storeLog.getLog
    return st.applied r
  | .delLog => return st.deleteLog
  | _ => return st

/-- A branch is its effect and the reply with what the store computed before it. -/
theorem execute_eq {q : Request} {v : Value} (hv : st.storeData.answer q = some v) :
    st.execute q = (st.effect q >>= fun st => st.sendReply v.message) := by
  cases q with
  | get key =>
      obtain rfl := Option.some.inj hv
      exact st.replyStr_eq _
  | log r =>
      rw [StoreData.answer] at hv
      rw [effect]
      by_cases hkind : r.kind = .error
      · rw [if_pos hkind] at hv ⊢
        obtain rfl := Option.some.inj hv
        exact st.execute_log_error hkind
      · rw [if_neg hkind] at hv ⊢
        obtain rfl := Option.some.inj hv
        rw [execute_log st hkind, bind_assoc]
        congr 1
        funext b
        split_ifs <;> rfl
  | commitLog =>
      obtain rfl := Option.some.inj hv
      rw [execute_commitLog, effect, bind_assoc]
      rfl
  | delLog =>
      obtain rfl := Option.some.inj hv
      exact st.deleteLog.replyStr_eq _
  | size =>
      obtain rfl := Option.some.inj hv
      exact st.replyInt_eq _
  | lessOrEqualOne =>
      obtain rfl := Option.some.inj hv
      exact st.replyInt_eq _
  | maxKey =>
      obtain rfl := Option.some.inj hv
      exact st.replyPair_eq _
  | minKey =>
      obtain rfl := Option.some.inj hv
      exact st.replyPair_eq _
  | quit | test _ | other _ => cases hv

/-- A request without a reply does nothing. -/
theorem execute_of_answer_none {q : Request} (hv : st.storeData.answer q = none) : st.execute q = .ok (st, none) := by
  cases q with
  | log r =>
      rw [StoreData.answer] at hv
      split_ifs at hv
  | quit | test _ | other _ => rfl
  | _ => cases hv

end StoreImpl

end DistRocks
