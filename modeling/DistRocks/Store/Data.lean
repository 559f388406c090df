import DistRocks.Db.Handle

/-!
# The data of a store node (`store_data.cpp`)

A database of pairs with a running total of their sizes: key, value and two bytes for each pair.
-/

namespace DistRocks

structure Data where
  key : Bytes
  value : Bytes

structure StoreData where
  dbHandle : DBHandle
  size : ℤ

namespace StoreData

/-- The constructor: the size is counted once, over the database as it stands. -/
def start (db : DBHandle) : StoreData := ⟨db, db.getSize⟩

def get (d : StoreData) (key : Bytes) : Bytes := d.dbHandle.get key

/-- The size without the pair stored under `key`, when its value is not empty. -/
def sizeWithout (d : StoreData) (key : Bytes) : ℤ :=
  let value := d.dbHandle.get key
  if value.length ≠ 0 then
    wrapInt (wrapInt (d.size - (wrapInt value.length + 1)) - (wrapInt key.length + 1))
  else d.size

def delete1 (d : StoreData) (key : Bytes) : StoreData where
  dbHandle := d.dbHandle.delete1 key
  size := d.sizeWithout key

def put (d : StoreData) (data : Data) : StoreData where
  dbHandle := d.dbHandle.put data.key data.value
  size := wrapInt (d.sizeWithout data.key + (wrapInt data.key.length + wrapInt data.value.length + 2))

def getSize (d : StoreData) : ℤ := d.size

/-- The largest key and its value; the caller's strings stay empty when there is none. -/
def getMaxKey (d : StoreData) : Bytes × Bytes :=
  match d.dbHandle.newIterator.seekToLast.current with
  | some e => e
  | none => ([], [])

def getMinKey (d : StoreData) : Bytes × Bytes :=
  match d.dbHandle.newIterator.seekToFirst.current with
  | some e => e
  | none => ([], [])

end StoreData

end DistRocks
