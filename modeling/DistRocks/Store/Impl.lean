import DistRocks.Store.Data
import DistRocks.Store.Log

/-!
# A store node (`store_impl.cpp`)

One process with a data database, a log database and one connection. A round of `StoreImpl.run` receives into
`receiveBuff`, finds the branch of the command there (`decodeRequest`) and runs it (`execute`), which leaves a reply
in `sendBuff` unless the branch sends none.

* `put`, `logPut`, `logDelete`, `deleteLog`, `delete1`, `commitLog`, `get`, `logLog` : the private methods;
* `serve` : one round on one received message; `run` : the loop on a sequence of `recv` results, with what it
  executed and answered.
-/

namespace DistRocks

open ConstValues

structure StoreImpl where
  storeData : StoreData
  storeLog : StoreLog
  receiveBuff : Buff
  sendBuff : Buff

/-- The branch that `run` takes for a received message, with the arguments it reads there. -/
inductive Request
  | quit
  | get (key : Bytes)
  | log (log : Log)
  | commitLog
  | test (rec : Bytes)
  | size
  | lessOrEqualOne
  | maxKey
  | minKey
  | delLog
  /-- no branch -/
  | other (command : Bytes)
  deriving DecidableEq, Repr

def decodeRequest (receive_buff : Bytes) : Except Fault Request := do
  let (command, tmp) ← getStringFromBuff receive_buff
  if command = QUIT then return .quit
  else if command = GET then
    let (key, _) ← getStringFromBuff tmp
    return .get key
  else if command = LOG then return .log (← Log.ofBuff tmp)
  else if command = COMMIT_LOG then return .commitLog
  else if command = TEST then
    let (rec, _) ← getStringFromBuff tmp
    return .test rec
  else if command = SIZE then return .size
  else if command = LESS_OR_EQUAL_ONE then return .lessOrEqualOne
  else if command = MAX_KEY then return .maxKey
  else if command = MIN_KEY then return .minKey
  else if command = DEL_LOG then return .delLog
  else return .other command

namespace StoreImpl

/-- The constructor, over the databases as they stand. -/
def start (data log : DBHandle) : StoreImpl where
  storeData := StoreData.start data
  storeLog := StoreLog.start log
  receiveBuff := Buff.malloc
  sendBuff := Buff.malloc

def put (st : StoreImpl) (key value : Bytes) : StoreImpl := { st with storeData := st.storeData.put ⟨key, value⟩ }

def delete1 (st : StoreImpl) (key : Bytes) : StoreImpl := { st with storeData := st.storeData.delete1 key }

def logPut (st : StoreImpl) (key value : Bytes) : Except Fault StoreImpl := do
  return { st with storeLog := ← st.storeLog.writeLog .put key value }

def logDelete (st : StoreImpl) (key : Bytes) : Except Fault StoreImpl := do
  return { st with storeLog := ← st.storeLog.writeLog .delete key }

def deleteLog (st : StoreImpl) : StoreImpl := { st with storeLog := st.storeLog.clearLog }

def commitLog (st : StoreImpl) : Except Fault StoreImpl := do
  let log ← st.storeLog.getLog
  match log.kind with
  | .put => return (st.put log.key log.value).deleteLog
  | .delete => return (st.delete1 log.key).deleteLog
  | .error => return st.deleteLog

def get (st : StoreImpl) (key : Bytes) : Bytes := st.storeData.get key

/-- The key under an iterator, empty when it is not valid. -/
def keyOrEmpty (it : Iterator) : Bytes :=
  match it.current with
  | some e => e.1
  | none => []

/-- The bounds that `logLog` announces for a `PUT` of `key`, from an iterator on the data. -/
def putBounds (it : Iterator) (key : Bytes) : Bytes × Bytes :=
  let new_min := keyOrEmpty it.seekToFirst
  let new_max := keyOrEmpty it.seekToLast
  let (new_min, new_max) := if new_min = [] then (key, key) else (new_min, new_max)
  (min new_min key, max key new_max)

/-- `it->Next()`, which asks for a valid iterator. -/
def moveNext (it : Iterator) : Except Fault Iterator := if it.valid then .ok it.next else .error .undefined

/-- `it->Prev()`, which asks for a valid iterator. -/
def movePrev (it : Iterator) : Except Fault Iterator := if it.valid then .ok it.prev else .error .undefined

/-- The bounds that `logLog` announces for a `DELETE` of `key`. Without pairs both bounds are empty strings, so that the
empty key equals them and the iterator is moved although it is not valid. -/
def deleteBounds (it : Iterator) (key : Bytes) : Except Fault (Bytes × Bytes) := do
  let new_min := keyOrEmpty it.seekToFirst
  let new_max := keyOrEmpty it.seekToLast
  let new_min ← (if key = new_min then keyOrEmpty <$> moveNext it.seekToFirst else pure new_min)
  let new_max ← (if key = new_max then keyOrEmpty <$> movePrev it.seekToLast else pure new_max)
  return (new_min, new_max)

/-- Insert announced bounds into the send buffer at `buff`. -/
def announce (st : StoreImpl) (bounds : Bytes × Bytes) (buff send_len : ℕ) : Except Fault (StoreImpl × ℕ) := do
  let (b, buff, send_len) ← insertStrToBuff st.sendBuff buff bounds.1 send_len
  let (b, _, send_len) ← insertStrToBuff b buff bounds.2 send_len
  return ({ st with sendBuff := b }, send_len)

/-- Write the record and announce the bounds that the data will have, behind `buff` in the send buffer. -/
def logLog (st : StoreImpl) (log : Log) (buff send_len : ℕ) : Except Fault (StoreImpl × ℕ) := do
  let it := st.storeData.dbHandle.newIterator
  match log.kind with
  | .put =>
    let st ← st.logPut log.key log.value
    st.announce (putBounds it log.key) buff send_len
  | .delete =>
    let st ← st.logDelete log.key
    let bounds ← deleteBounds it log.key
    st.announce bounds buff send_len
  | .error => return (st, send_len)

def storeLessOrEqualOne (st : StoreImpl) : Bool := st.storeData.dbHandle.storeLessOrEqualOne

/-- `send_to(send_buff, len)`: the bytes that go out. -/
def reply (st : StoreImpl) (len : ℕ) : StoreImpl × Option Bytes := (st, some (st.sendBuff.bytes.take len))

/-- Assemble one string from the front of the send buffer and send it. -/
def replyStr (st : StoreImpl) (str : Bytes) : Except Fault (StoreImpl × Option Bytes) := do
  let (b, _, total_size) ← insertStrToBuff st.sendBuff 0 str 0
  return reply { st with sendBuff := b } total_size

def replyInt (st : StoreImpl) (a : ℤ) : Except Fault (StoreImpl × Option Bytes) := do
  let (b, _, total_len) ← insertIntToBuff st.sendBuff 0 a 0
  return reply { st with sendBuff := b } total_len

def replyPair (st : StoreImpl) (e : Bytes × Bytes) : Except Fault (StoreImpl × Option Bytes) := do
  let (b, send, total_len) ← insertStrToBuff st.sendBuff 0 e.1 0
  let (b, _, total_len) ← insertStrToBuff b send e.2 total_len
  return reply { st with sendBuff := b } total_len

/-- The body of a branch and the reply it sends. -/
def execute (st : StoreImpl) : Request → Except Fault (StoreImpl × Option Bytes)
  | .quit => return (st, none)
  | .get key => st.replyStr (st.get key)
  | .log log => do
    let (b, send, send_len) ← insertStrToBuff st.sendBuff 0 OK 0
    let (st, send_len) ← { st with sendBuff := b }.logLog log send send_len
    return reply st send_len
  | .commitLog => do
    let (b, _, send_len) ← insertStrToBuff st.sendBuff 0 OK 0
    let st ← { st with sendBuff := b }.commitLog
    return reply st send_len
  | .test _ => return (st, none)
  | .size => st.replyInt st.storeData.getSize
  | .lessOrEqualOne => st.replyInt (if st.storeLessOrEqualOne then 1 else 0)
  | .maxKey => st.replyPair st.storeData.getMaxKey
  | .minKey => st.replyPair st.storeData.getMinKey
  | .delLog => st.deleteLog.replyStr OK
  | .other _ => return (st, none)

/-- One round of the loop: what `recv` returned lies over the front of the receive buffer, the rest of which still
holds older bytes. -/
def serve (st : StoreImpl) (msg : Bytes) : Except Fault (Request × StoreImpl × Option Bytes) := do
  let st := { st with receiveBuff := st.receiveBuff.receive msg }
  let request ← decodeRequest st.receiveBuff.bytes
  let (st, reply) ← st.execute request
  return (request, st, reply)

/-- The loop on the results of its `recv` calls: the branches it took with the replies it sent, and the state in which
it waits for more. -/
def run (st : StoreImpl) : List Bytes → Except Fault (StoreImpl × List (Request × Option Bytes))
  | [] => return (st, [])
  | msg :: rest => do
    let (request, st, reply) ← st.serve msg
    if request = .quit then return (st, [(request, reply)])
    else
      let (st, done) ← st.run rest
      return (st, (request, reply) :: done)

end StoreImpl

end DistRocks
