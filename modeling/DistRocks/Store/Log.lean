import DistRocks.Db.Handle
import DistRocks.Wire.HandleBuff

/-!
# The log of a store node (`store_log.cpp`)

A record of the log is a key of the log database: its kind, key and value as three fields, with an empty value.

* `Log.toSlice`, `Log.ofBuff`, `StoreLog.writeLog`, `StoreLog.getLog`, `StoreLog.clearLog` : the source's functions;
* `encLog` : the bytes of a record; `toSlice_after` : `toSlice` behind what was put into a buffer;
* `ofBuff_encLog` : a record reads back up to the first NUL of its strings, whatever follows it.
-/

namespace DistRocks

inductive LogKind
  | put
  | delete
  | error
  deriving DecidableEq, Repr

namespace LogKind

def toInt : LogKind → ℤ
  | put => 0
  | delete => 1
  | error => 2

/-- The cast from `int`; a number that is no enumerator is not a value of the type. -/
def ofInt (a : ℤ) : Except Fault LogKind :=
  if a = 0 then .ok put else if a = 1 then .ok delete else if a = 2 then .ok error else .error .undefined

@[simp] theorem ofInt_toInt (kind : LogKind) : ofInt kind.toInt = .ok kind := by cases kind <;> rfl

end LogKind

structure Log where
  kind : LogKind
  key : Bytes := []
  value : Bytes := []
  deriving DecidableEq, Repr

namespace Log

/-- Write the record at `start`; the answer is the size of the slice that begins there. -/
def toSlice (log : Log) (buff : Buff) (start : ℕ) : Except Fault (Buff × ℕ) := do
  let (buff, tmp, total_len) ← insertIntToBuff buff start log.kind.toInt 0
  let (buff, tmp, total_len) ← insertStrToBuff buff tmp log.key total_len
  let (buff, _, total_len) ← insertStrToBuff buff tmp log.value total_len
  return (buff, total_len)

def ofBuff (buff : Bytes) : Except Fault Log := do
  let (log_kind, tmp) ← getIntFromBuff buff
  let kind ← LogKind.ofInt log_kind
  let (key, tmp) ← getStringFromBuff tmp
  let (value, _) ← getStringFromBuff tmp
  return { kind, key, value }

end Log

structure StoreLog where
  dbHandle : DBHandle
  buff : Buff

namespace StoreLog

def start (db : DBHandle) : StoreLog := ⟨db, Buff.malloc⟩

def writeLog (l : StoreLog) (kind : LogKind) (key : Bytes) (value : Bytes := []) : Except Fault StoreLog := do
  let (buff, size) ← Log.toSlice { kind, key, value } l.buff 0
  return { dbHandle := l.dbHandle.put (buff.bytes.take size) [], buff }

def getLog (l : StoreLog) : Except Fault Log :=
  match l.dbHandle.newIterator.seekToFirst.current with
  | some e => Log.ofBuff e.1
  | none => .ok { kind := .error }

def clearLog (l : StoreLog) : StoreLog :=
  match l.dbHandle.newIterator.seekToFirst.current with
  | some e => { l with dbHandle := l.dbHandle.delete1 e.1 }
  | none => l

end StoreLog

/-! ## Encoding of a record -/

/-- The bytes of a record. -/
def encLog (r : Log) : Bytes := intToBytes r.kind.toInt ++ (encStr r.key ++ encStr r.value)

namespace Log

/-- Both strings come back from the C strings they are sent as. -/
structure NulFree (r : Log) : Prop where
  key : DistRocks.NulFree r.key
  value : DistRocks.NulFree r.value

/-- The record as it reads back: both strings end at their first NUL. -/
def asRead (r : Log) : Log := { r with key := cstr r.key, value := cstr r.value }

theorem NulFree.asRead_eq {r : Log} (h : r.NulFree) : r.asRead = r := by
  cases r
  simp only [asRead, h.key.cstr_eq, h.value.cstr_eq]

theorem asRead_nulFree (r : Log) : r.asRead.NulFree := ⟨nulFree_cstr _, nulFree_cstr _⟩

@[simp] theorem length_encLog (r : Log) : (encLog r).length = r.key.length + r.value.length + 14 := by
  simp only [encLog, List.length_append, length_intToBytes, length_encStr]
  omega

/-- `toSlice` at the end of what was put into a buffer. -/
theorem toSlice_after (r : Log) (b : Buff) (pre : Bytes) :
    (b.put pre >>= fun c => r.toSlice c pre.length) =
      (b.put (pre ++ encLog r) >>= fun c => pure (c, (encLog r).length)) := by
  -- each of the three insertions stands at the end of the ones before
  have h₁ := Buff.put_insertInt (b := b) pre r.kind.toInt 0
  have h₂ := Buff.put_insertStr (b := b) (pre ++ intToBytes r.kind.toInt) r.key (0 + 4)
  have h₃ := Buff.put_insertStr (b := b) (pre ++ intToBytes r.kind.toInt ++ encStr r.key) r.value
    (0 + 4 + (encStr r.key).length)
  have hlen : 0 + 4 + (encStr r.key).length + (encStr r.value).length = (encLog r).length := by
    rw [length_encLog, length_encStr, length_encStr]
    omega
  simp only [toSlice]
  rw [← bind_assoc, h₁, bind_assoc]
  simp only [pure_bind]
  rw [← bind_assoc, h₂, bind_assoc]
  simp only [pure_bind]
  rw [← bind_assoc, h₃, bind_assoc]
  simp only [pure_bind, hlen, encLog, List.append_assoc]

theorem toSlice_zero (r : Log) (b : Buff) :
    r.toSlice b 0 = (b.put (encLog r) >>= fun c => pure (c, (encLog r).length)) := by
  have h := toSlice_after r b []
  rw [Buff.put_nil] at h
  exact h

theorem ofBuff_encLog {r : Log} (rest : Bytes) (hk : r.key.length < MAXLINE) (hv : r.value.length < MAXLINE) :
    ofBuff (encLog r ++ rest) = .ok r.asRead := by
  have hint : wrapInt r.kind.toInt = r.kind.toInt := by
    cases r.kind <;> exact wrapInt_eq (by decide) (by decide)
  rw [encLog, List.append_assoc, List.append_assoc, ofBuff, getInt_intToBytes, hint]
  simp only [ok_bind, LogKind.ofInt_toInt, getString_encStr _ hk, getString_encStr _ hv]
  rfl

end Log

end DistRocks
