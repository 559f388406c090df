import DistRocks.Control.Impl
import DistRocks.Store.Stream

/-!
# Messages of the control node

* `assemble` : a whole message at the front of the send buffer; `assembleStrs_eq`, `assembleLog_eq` : the two ways in
  which the control node assembles a request;
* `World.exchanged` : the world after a store has answered; `exchange_eq`, `exchange_error`, `exchange_refused` : the
  outcomes of an exchange;
* `receivedStr_eq`, `receivedInt_eq`, ... : a field at the front of the receive buffer, whatever follows it;
* `ask` : a request to a store with what the control node reads of the reply; `ask_eq` : the store takes the branch of
  that request, and the control node reads what the store computed.
-/

namespace DistRocks

open ConstValues Proc

/-! ## Assembling a request -/

/-- Assemble a whole message from the front of the send buffer. -/
def assemble (msg : Bytes) : M ℕ := do
  let b ← lift ((← get).sendBuff.put msg)
  modify fun w => { w with sendBuff := b }
  return msg.length

theorem put_insertStrS (b : Buff) (pre : Bytes) (strs : List Bytes) (n : ℕ) :
    (b.put pre >>= fun c => insertStrSToBuff c pre.length strs n) =
      (b.put (pre ++ strs.flatMap encStr) >>= fun c =>
        pure (c, (pre ++ strs.flatMap encStr).length, n + (strs.flatMap encStr).length)) := by
  induction strs generalizing pre n with
  | nil => simp [insertStrSToBuff]
  | cons s strs ih =>
      have h := Buff.put_insertStr (b := b) pre s n
      simp only [insertStrSToBuff]
      rw [← bind_assoc, h, bind_assoc]
      simp only [pure_bind]
      rw [ih]
      simp only [List.flatMap_cons, List.length_append, List.append_assoc, Nat.add_assoc]

theorem assembleStrs_eq (strs : List Bytes) : assembleStrs strs = assemble (strs.flatMap encStr) := by
  refine congrArg (Proc.get >>= ·) (funext fun w => ?_)
  have h := put_insertStrS w.sendBuff [] strs 0
  rw [Buff.put_nil, ok_bind, List.nil_append, Nat.zero_add] at h
  rw [List.length_nil] at h
  simp only [h, lift_bind, lift_pure, bind_assoc, pure_bind]

theorem assembleLog_eq (r : Log) : assembleLog r = assemble (Request.log r).message := by
  refine congrArg (Proc.get >>= ·) (funext fun w => ?_)
  have h := r.toSlice_after w.sendBuff (encStr LOG)
  have hstr := Buff.insertStr_zero w.sendBuff LOG 0
  obtain ⟨c, hc, -⟩ := Buff.put_eq_ok (b := w.sendBuff) (show (encStr LOG).length ≤ MAXLINE by decide)
  rw [hc, ok_bind] at h hstr
  simp only [hstr, h, lift_bind, lift_pure, bind_assoc, pure_bind, Request.message, List.length_append, Nat.zero_add]

section
variable {w : World} {α : Type} {Q : ℕ → World → Prop} {H : Fault → World → Prop}

theorem ends_assemble (msg : Bytes)
    (hok : ∀ b : Buff, msg.length ≤ MAXLINE → b.bytes.take msg.length = msg → Q msg.length { w with sendBuff := b })
    (herr : MAXLINE < msg.length → H .overrun w) : Ends (assemble msg) w Q H := by
  simp only [assemble, ends_bind, ends_get]
  rcases w.sendBuff.put_cases msg with ⟨hlen, b, hb, -⟩ | ⟨hlen, he⟩
  · rw [hb]
    simpa using hok b hlen (Buff.take_put hb)
  · rw [he]
    simpa using herr hlen

/-- The one outcome of assembling a message that fits. -/
theorem assemble_eq {msg : Bytes} (hlen : msg.length ≤ MAXLINE) :
    ∃ b : Buff, assemble msg w = (.ok msg.length, { w with sendBuff := b }) ∧ b.bytes.take msg.length = msg := by
  obtain ⟨b, hb, -⟩ := Buff.put_eq_ok (b := w.sendBuff) hlen
  refine ⟨b, ?_, Buff.take_put hb⟩
  rw [assemble, get_bind_run, hb, lift_ok_bind_run, modify_bind_run, pure_run]

end

/-! ## Exchanges -/

namespace World

/-- The world after the store `fd` has served `msg`, is `st` now, and has answered `reply`. -/
def exchanged (w : World) (fd : ℕ) (msg : Bytes) (st : StoreImpl) (reply : Bytes) : World :=
  let c : Cluster := { w.cluster with stores := Function.update w.cluster.stores fd st }
  { w with cluster := c
           history := ⟨.exchange fd msg, w.cluster, c⟩ :: w.history
           receiveBuff := w.receiveBuff.receive reply
           refusals := w.refusals.tail }

end World

section
variable {w : World} {fd len : ℕ} {msg reply : Bytes} {q : Request} {st : StoreImpl}

theorem exchange_eq (hfd : fd < w.storeNodeCount) (href : ∀ r, w.refusals.head? ≠ some (some r))
    (hmsg : w.sendBuff.bytes.take len = msg) (hserve : (w.cluster.stores fd).serve msg = .ok (q, st, some reply)) :
    exchange fd len w = (.ok (), w.exchanged fd msg st reply) := by
  subst hmsg
  rw [exchange, get_bind_run, if_pos hfd, hserve, lift_ok_bind_run]
  simp only
  rfl

/-- An answer that the store's code does not give. -/
theorem exchange_refused {r : Refusal} (hfd : fd < w.storeNodeCount) (href : w.refusals.head? = some (some r))
    (hmsg : w.sendBuff.bytes.take len = msg) {answer : Option Bytes}
    (hserve : (w.cluster.stores fd).serve msg = .ok (q, st, answer)) :
    exchange fd len w =
      (.ok (), w.exchanged fd msg (if r.recorded then st else w.cluster.stores fd) r.reply) := by
  subst hmsg
  rw [exchange, get_bind_run, if_pos hfd, hserve, lift_ok_bind_run]
  simp only [href]
  rfl

theorem exchange_error {e : Fault} (hfd : fd < w.storeNodeCount) (hmsg : w.sendBuff.bytes.take len = msg)
    (hserve : (w.cluster.stores fd).serve msg = .error e) : exchange fd len w = (.error e, w) := by
  subst hmsg
  rw [exchange, get_bind_run, if_pos hfd, hserve, lift_error_bind_run]

/-- Whatever comes of it, an exchange that ends is an event. -/
theorem exchange_event (fd len : ℕ) (w : World) :
    Ends (exchange fd len) w
      (fun _ w' => ∃ c, w'.history = ⟨.exchange fd (w.sendBuff.bytes.take len), w.cluster, c⟩ :: w.history)
      (fun _ _ => True) := by
  rw [exchange, ends_bind, ends_get]
  split_ifs
  · simp only [ends_bind]
    generalize (w.cluster.stores fd).serve (w.sendBuff.bytes.take len) = served
    generalize w.refusals.head? = refusal
    cases served with
    | error e => trivial
    | ok a =>
        obtain ⟨q, st, reply⟩ := a
        rcases refusal with _ | _ | r
        · cases reply <;> first | trivial | exact ⟨_, rfl⟩
        · cases reply <;> first | trivial | exact ⟨_, rfl⟩
        · exact ⟨_, rfl⟩
  · trivial

theorem bytes_exchanged (w : World) (fd : ℕ) (msg : Bytes) (st : StoreImpl) (hfit : reply.length ≤ MAXLINE) :
    ∃ rest, (w.exchanged fd msg st reply).receiveBuff.bytes = reply ++ rest :=
  ⟨_, Buff.bytes_receive hfit⟩

end

/-! ## Reading a reply -/

section
variable {w : World} {rest : Bytes}

theorem receivedStr_eq {s : Bytes} (hs : w.receiveBuff.bytes = encStr s ++ rest) (hlen : s.length < MAXLINE) :
    receivedStr w = (.ok (cstr s, rest), w) := by
  rw [receivedStr, get_bind_run, hs, getString_encStr rest hlen]
  rfl

theorem receivedInt_eq {a : ℤ} (ha : w.receiveBuff.bytes = intToBytes a ++ rest) :
    receivedInt w = (.ok (wrapInt a), w) := by
  rw [receivedInt, get_bind_run, ha, getInt_intToBytes, lift_ok_bind_run]
  rfl

theorem receivedPair_of {tail k v : Bytes} (hstr : receivedStr w = (.ok (k, tail), w))
    (hval : getStringFromBuff tail = .ok (v, rest)) : receivedPair w = (.ok (k, v), w) := by
  rw [receivedPair, bind_run hstr]
  simp only [hval, lift_ok_bind_run, pure_run]

theorem receivedPair_eq {k v : Bytes} (hs : w.receiveBuff.bytes = encStr k ++ (encStr v ++ rest))
    (hk : k.length < MAXLINE) (hv : v.length < MAXLINE) : receivedPair w = (.ok (cstr k, cstr v), w) :=
  receivedPair_of (receivedStr_eq hs hk) (getString_encStr rest hv)

/-- The three strings of an answer to `LOG`, as `requestLog` reads them. -/
def receivedVote : M (Bytes × Bytes × Bytes) := do
  let (ans, rec) ← receivedStr
  let (new_min, rec) ← lift (getStringFromBuff rec)
  let (new_max, _) ← lift (getStringFromBuff rec)
  return (ans, new_min, new_max)

theorem receivedVote_of {ans lo hi tail tail' : Bytes} (hstr : receivedStr w = (.ok (ans, tail), w))
    (hlo : getStringFromBuff tail = .ok (lo, tail')) (hhi : getStringFromBuff tail' = .ok (hi, rest)) :
    receivedVote w = (.ok (ans, lo, hi), w) := by
  rw [receivedVote, bind_run hstr]
  simp only [hlo, hhi, lift_ok_bind_run, pure_run]

theorem receivedVote_eq {ans lo hi : Bytes} (hs : w.receiveBuff.bytes = encStr ans ++ (encStr lo ++ (encStr hi ++ rest)))
    (hans : ans.length < MAXLINE) (hlo : lo.length < MAXLINE) (hhi : hi.length < MAXLINE) :
    receivedVote w = (.ok (cstr ans, cstr lo, cstr hi), w) :=
  receivedVote_of (receivedStr_eq hs hans) (getString_encStr _ hlo) (getString_encStr rest hhi)

end

/-! ## Requests and what is read of the reply -/

/-- Assemble a message and exchange it. -/
def call (fd : ℕ) (msg : Bytes) : M Unit := do
  let len ← assemble msg
  exchange fd len

theorem request_eq (command : Bytes) (fd : ℕ) : request command fd = call fd (encStr command) := by
  rw [request, assembleStrs_eq, List.flatMap_singleton]
  rfl

theorem getSize_eq (fd : ℕ) : getSize fd = (call fd Request.size.message >>= fun _ => receivedInt) := by
  rw [getSize, request_eq]
  rfl

theorem getStoreLessOrEqualOne_eq (fd : ℕ) : getStoreLessOrEqualOne fd =
    (call fd Request.lessOrEqualOne.message >>= fun _ => receivedInt >>= fun a => pure (decide (a ≠ 0))) := by
  rw [getStoreLessOrEqualOne, request_eq]
  rfl

theorem getMaxStore_eq (fd : ℕ) : getMaxStore fd = (call fd Request.maxKey.message >>= fun _ => receivedPair) := by
  rw [getMaxStore, request_eq]
  rfl

theorem getMinStore_eq (fd : ℕ) : getMinStore fd = (call fd Request.minKey.message >>= fun _ => receivedPair) := by
  rw [getMinStore, request_eq]
  rfl

theorem requestLog_eq (fd : ℕ) (r : Log) :
    requestLog fd r = (call fd (Request.log r).message >>= fun _ => receivedVote) := by
  rw [requestLog, assembleLog_eq, call, bind_assoc]
  rfl

/-- A request of the control node to the store `fd`, and what it reads of the reply: nothing after `DEL_LOG` and
`TEST`. -/
def ask (fd : ℕ) : Request → M (Option Value)
  | .get key => do
    let len ← assembleStrs [GET, key]
    exchange fd len
    let (ans, _) ← receivedStr
    return some (.str ans)
  | .log r => do
    let (ans, new_min, new_max) ← requestLog fd r
    return some (.vote ans new_min new_max)
  | .commitLog => do
    request COMMIT_LOG fd
    let (ans, _) ← receivedStr
    return some (.str ans)
  | .delLog => do
    request DEL_LOG fd
    return none
  | .size => return some (.int (← getSize fd))
  | .lessOrEqualOne => return some (.flag (← getStoreLessOrEqualOne fd))
  | .maxKey => do
    let (key, value) ← getMaxStore fd
    return some (.pair key value)
  | .minKey => do
    let (key, value) ← getMinStore fd
    return some (.pair key value)
  | .test rec => do
    let len ← assembleStrs [TEST, rec]
    post fd len
    return none
  | .quit | .other _ => return none

namespace Value

/-- The strings have no NUL and the integer is an `int`. -/
def Sendable : Value → Prop
  | str s => NulFree s
  | int a => wrapInt a = a
  | flag _ => True
  | pair key value => NulFree key ∧ NulFree value
  | vote ans new_min new_max => NulFree ans ∧ NulFree new_min ∧ NulFree new_max

/-- How the control node reads a reply of this shape. -/
def reader : Value → M Value
  | str _ => do
    let (s, _) ← receivedStr
    return str s
  | int _ => return int (← receivedInt)
  | flag _ => return flag ((← receivedInt) ≠ 0)
  | pair _ _ => do
    let (key, value) ← receivedPair
    return pair key value
  | vote _ _ _ => do
    let (ans, new_min, new_max) ← receivedVote
    return vote ans new_min new_max

theorem reader_eq {v : Value} {w : World} {rest : Bytes} (hv : v.Sendable) (hfit : v.message.length ≤ MAXLINE)
    (h : w.receiveBuff.bytes = v.message ++ rest) : v.reader w = (.ok v, w) := by
  cases v with
  | str s =>
      simp only [message, length_encStr] at hfit
      rw [reader, bind_run (receivedStr_eq h (by omega)), NulFree.cstr_eq hv]
      rfl
  | int a =>
      rw [reader, bind_run (receivedInt_eq h), show wrapInt a = a from hv]
      rfl
  | flag b =>
      rw [reader, bind_run (receivedInt_eq h)]
      cases b <;> rfl
  | pair key value =>
      simp only [message, List.length_append, length_encStr] at hfit
      rw [message, List.append_assoc] at h
      rw [reader, bind_run (receivedPair_eq h (by omega) (by omega)), hv.1.cstr_eq, hv.2.cstr_eq]
      rfl
  | vote ans new_min new_max =>
      simp only [message, List.length_append, length_encStr] at hfit
      rw [message, List.append_assoc, List.append_assoc] at h
      rw [reader, bind_run (receivedVote_eq h (by omega) (by omega) (by omega)), hv.1.cstr_eq, hv.2.1.cstr_eq,
        hv.2.2.cstr_eq]
      rfl

end Value

section
variable {w : World} {fd : ℕ} {q : Request} {v : Value} {st : StoreImpl}

/-- A call that the store answers. -/
theorem call_eq {msg reply : Bytes} (hfd : fd < w.storeNodeCount) (href : w.refusals = []) (hlen : msg.length ≤ MAXLINE)
    (hserve : (w.cluster.stores fd).serve msg = .ok (q, st, some reply)) :
    ∃ b : Buff, call fd msg w = (.ok (), { w with sendBuff := b }.exchanged fd msg st reply) := by
  obtain ⟨b, hb, htake⟩ := assemble_eq (w := w) hlen
  exact ⟨b, by rw [call, bind_run hb, exchange_eq (w := { w with sendBuff := b }) hfd (by simp [href]) htake hserve]⟩

theorem call_event {msg : Bytes} (hlen : msg.length ≤ MAXLINE) :
    Ends (call fd msg) w (fun _ w' => ∃ c, w'.history = ⟨.exchange fd msg, w.cluster, c⟩ :: w.history)
      (fun _ _ => True) := by
  obtain ⟨b, hb, htake⟩ := assemble_eq (w := w) hlen
  rw [call, ends_run hb]
  have h := exchange_event fd msg.length { w with sendBuff := b }
  rwa [htake] at h

/-- A message without a reply. -/
theorem post_eq {len : ℕ} {msg : Bytes} {answer : Option Bytes} (hfd : fd < w.storeNodeCount)
    (hmsg : w.sendBuff.bytes.take len = msg) (hserve : (w.cluster.stores fd).serve msg = .ok (q, st, answer)) :
    ∃ w', post fd len w = (.ok (), w') ∧
      w'.cluster = { w.cluster with stores := Function.update w.cluster.stores fd st } := by
  subst hmsg
  rw [post, get_bind_run, if_pos hfd, hserve, lift_ok_bind_run]
  exact ⟨_, rfl, rfl⟩

/-- A request whose reply is read is a call and the reader of what the store answers. -/
theorem ask_of_answer {d : StoreData} (hkind : ∀ r, q = .log r → r.kind ≠ .error) (hv : d.answer q = some v)
    (hdel : q ≠ .delLog) : ask fd q = (call fd q.message >>= fun _ => v.reader >>= fun v => pure (some v)) := by
  cases q with
  | log r =>
      rw [StoreData.answer, if_neg (hkind r rfl)] at hv
      obtain rfl := Option.some.inj hv
      rw [ask, requestLog_eq, bind_assoc]
      simp only [Value.reader, bind_assoc, pure_bind]
  | delLog => exact absurd rfl hdel
  | quit | test _ | other _ => cases hv
  | get key =>
      obtain rfl := Option.some.inj hv
      rw [ask, assembleStrs_eq, call, bind_assoc]
      simp only [Value.reader, bind_assoc, pure_bind, List.flatMap_cons, List.flatMap_nil, List.append_nil]
      rfl
  | commitLog =>
      obtain rfl := Option.some.inj hv
      rw [ask, request_eq]
      simp only [Value.reader, bind_assoc, pure_bind]
      rfl
  | size =>
      obtain rfl := Option.some.inj hv
      rw [ask, getSize_eq, bind_assoc]
      simp only [Value.reader, bind_assoc, pure_bind]
  | lessOrEqualOne =>
      obtain rfl := Option.some.inj hv
      rw [ask, getStoreLessOrEqualOne_eq, bind_assoc]
      simp only [Value.reader, bind_assoc, pure_bind]
  | maxKey =>
      obtain rfl := Option.some.inj hv
      rw [ask, getMaxStore_eq, bind_assoc]
      simp only [Value.reader, bind_assoc, pure_bind]
  | minKey =>
      obtain rfl := Option.some.inj hv
      rw [ask, getMinStore_eq, bind_assoc]
      simp only [Value.reader, bind_assoc, pure_bind]

/-- Every request arrives as it was sent and every reply is read as the store computed it, whatever the buffers held
before. -/
theorem ask_eq (hfd : fd < w.storeNodeCount) (href : w.refusals = []) (hq : StoreImpl.Deliverable q)
    (hkind : ∀ r, q = .log r → r.kind ≠ .error) (hstay : ¬q.Strays (w.cluster.stores fd).storeData.dbHandle.db)
    (hlog : (w.cluster.stores fd).storeLog.Sound)
    (hv : ∀ v, (w.cluster.stores fd).storeData.answer q = some v → v.Sendable ∧ v.message.length ≤ MAXLINE) :
    decodeRequest ((w.cluster.stores fd).receiveBuff.receive q.message).bytes = .ok q ∧
      ∃ st' w', (w.cluster.stores fd).serve q.message =
          .ok (q, st', ((w.cluster.stores fd).storeData.answer q).map Value.message) ∧
        ask fd q w = (.ok (if q = .delLog then none else (w.cluster.stores fd).storeData.answer q), w') ∧
        w'.cluster = { w.cluster with stores := Function.update w.cluster.stores fd st' } := by
  have hother : ∀ c, q ≠ .other c := fun c hc => by rw [hc] at hq; exact hq.1
  refine ⟨by rw [Buff.bytes_receive hq.2.2, decodeRequest_message _ hq.2.2 hother, hq.1.asRead_eq], ?_⟩
  rcases StoreImpl.serve_sound hlog hq hstay with ⟨v, hans, hover, -⟩ | ⟨st', hserve, -⟩
  · exact absurd (hv v hans).2 hover.not_ge
  cases hans : (w.cluster.stores fd).storeData.answer q with
  | none =>
      -- only `TEST` is sent without an answer
      obtain ⟨rec, rfl⟩ : ∃ rec, q = .test rec := by
        cases q with
        | test rec => exact ⟨rec, rfl⟩
        | quit => exact absurd rfl hq.2.1
        | other c => exact absurd rfl (hother c)
        | log r =>
            rw [StoreData.answer] at hans
            split_ifs at hans
        | _ => cases hans
      obtain ⟨b, hb, htake⟩ := assemble_eq (w := w) hq.2.2
      obtain ⟨w', hw', hc⟩ := post_eq (w := { w with sendBuff := b }) hfd htake hserve
      have hmsg : [TEST, rec].flatMap encStr = (Request.test rec).message := by simp [Request.message]
      exact ⟨st', w', hans ▸ hserve, by rw [ask, assembleStrs_eq, hmsg, bind_run hb, bind_run hw']; rfl, hc⟩
  | some v =>
      obtain ⟨hsend, hfit⟩ := hv v hans
      rw [hans] at hserve
      obtain ⟨b, hcall⟩ := call_eq hfd href hq.2.2 hserve
      refine ⟨st', { w with sendBuff := b }.exchanged fd q.message st' v.message, hserve, ?_, rfl⟩
      by_cases hdel : q = .delLog
      · subst hdel
        rw [if_pos rfl, ask, request_eq]
        exact bind_run hcall
      · obtain ⟨rest, hrest⟩ := bytes_exchanged { w with sendBuff := b } fd q.message st' hfit
        rw [if_neg hdel, ask_of_answer hkind hans hdel, bind_run hcall, bind_run (Value.reader_eq hsend hfit hrest)]
        rfl

/-- One store with the pair `a`, `b`. -/
def oneStore : World :=
  let st := StoreImpl.start (.reliable (OrdMap.empty.insert (text "a") (text "b"))) (.reliable .empty)
  { World.boot ⟨fun _ => st, .reliable .empty⟩ with storeNodeCount := 1 }

theorem ask_oneStore : ∃ w', ask 0 (.get (text "a")) oneStore = (.ok (some (.str (text "b"))), w') := by
  have hans : (oneStore.cluster.stores 0).storeData.answer (.get (text "a")) = some (.str (text "b")) := rfl
  obtain ⟨-, st', w', -, hask, -⟩ := ask_eq (w := oneStore) (q := .get (text "a")) (show 0 < 1 by decide) rfl (by decide)
    (fun r h => by cases h) id (fun _ he => absurd he List.not_mem_nil) fun v hv => by
      obtain rfl := Option.some.inj (hans.symm.trans hv)
      exact ⟨show NulFree (text "b") by decide, by decide⟩
  rw [if_neg (by decide), hans] at hask
  exact ⟨w', hask⟩

end

end DistRocks
