import DistRocks.Base.Proc
import DistRocks.Control.Meta
import DistRocks.Store.Impl
import Mathlib.Data.Rat.Defs

/-!
# The control node (`control_impl.cpp`)

`M` is a program of the control node: it acts on a `World`, which holds the cluster (every store node and the metadata
database), the node's two buffers and what `get` printed. A request and its reply are one `exchange`.

* the history of a world is a ghost: one event for each message served, each metadata write, each test of a loop of
  `reBalance` and each return to the console, with the cluster before and after;
* `refusals` are answers to the next exchanges that the store's own code does not give; a run without failures has
  none;
* `Double` is the arithmetic of the balance test, so that nothing but the test itself depends on rounding;
* `getSize`, `getStoreLessOrEqualOne`, `notTooMuch`, `getMaxStore`, `getMinStore`, `showMeta`, `reBalance`, `construct`
  and `run` : the functions of `control_impl`; the two mirrored halves of `reBalance` are `migrate` and `drain` at a
  `Pass`.
-/

namespace DistRocks

open ConstValues Proc

/-- The operations of `double` that the balance test uses. -/
class Double (F : Type) extends Add F, Div F, LE F, IntCast F, OfScientific F where
  decLe : DecidableLE F

instance Double.decidableLE (F : Type) [d : Double F] : DecidableLE F := d.decLe

/-- The test read in exact arithmetic. -/
instance Double.rat : Double ℚ where
  decLe := inferInstance

/-! ## The world of the control node -/

/-- The two loops of `reBalance`: surplus goes to the next node, then to the previous one. -/
inductive Pass
  | forward
  | backward
  deriving DecidableEq, Repr

/-- The databases and processes that outlive the control node. -/
structure Cluster where
  stores : ℕ → StoreImpl
  metaDb : DBHandle

inductive Act
  /-- a request that the store `fd` served and answered -/
  | exchange (fd : ℕ) (msg : Bytes)
  /-- a message without an answer -/
  | post (fd : ℕ) (msg : Bytes)
  | metaDelete (key : Bytes)
  | metaPut (key : Bytes)
  /-- the test of a loop of `reBalance` -/
  | iteration (pass : Pass) (i : ℕ)
  /-- back at the console -/
  | command
  deriving DecidableEq, Repr

structure Event where
  act : Act
  before : Cluster
  after : Cluster

/-- An answer that the store's code does not give, and whether the request had its effect all the same. -/
structure Refusal where
  recorded : Bool
  reply : Bytes

structure World where
  cluster : Cluster
  storeNodeCount : ℕ
  sendBuff : Buff
  receiveBuff : Buff
  refusals : List (Option Refusal)
  answers : List Bytes
  history : List Event

abbrev M : Type → Type := Proc World Fault

/-- One event, after which the cluster is `c`. -/
def record (act : Act) (c : Cluster) : M Unit :=
  modify fun w => { w with cluster := c, history := ⟨act, w.cluster, c⟩ :: w.history }

/-- An event that changes nothing. -/
def mark (act : Act) : M Unit := do record act (← get).cluster

/-! ## Messages -/

/-- `send_to(send_buff, len)` to the store `fd`, which serves the message, and `receive_from(receive_buff)`. -/
def exchange (fd len : ℕ) : M Unit := do
  let w ← get
  if fd < w.storeNodeCount then
    let msg := w.sendBuff.bytes.take len
    let old := w.cluster.stores fd
    let (_, st, reply) ← lift (old.serve msg)
    let (st, reply) := match w.refusals.head? with
      | some (some r) => (if r.recorded then st else old, some r.reply)
      | _ => (st, reply)
    match reply with
    | none => fail .blocked
    | some reply =>
      record (.exchange fd msg) { w.cluster with stores := Function.update w.cluster.stores fd st }
      modify fun w => { w with receiveBuff := w.receiveBuff.receive reply, refusals := w.refusals.tail }
  else fail .undefined

/-- `send_to(send_buff, len)` alone. -/
def post (fd len : ℕ) : M Unit := do
  let w ← get
  if fd < w.storeNodeCount then
    let msg := w.sendBuff.bytes.take len
    let (_, st, _) ← lift ((w.cluster.stores fd).serve msg)
    record (.post fd msg) { w.cluster with stores := Function.update w.cluster.stores fd st }
  else fail .undefined

/-- Strings from the front of the send buffer; the answer is their total length. -/
def assembleStrs (strs : List Bytes) : M ℕ := do
  let (b, _, total_size) ← lift (insertStrSToBuff (← get).sendBuff 0 strs 0)
  modify fun w => { w with sendBuff := b }
  return total_size

/-- The word `log` and a record behind it. -/
def assembleLog (log : Log) : M ℕ := do
  let (b, tmp, total_size) ← lift (insertStrToBuff (← get).sendBuff 0 LOG 0)
  let (b, size) ← lift (log.toSlice b tmp)
  modify fun w => { w with sendBuff := b }
  return total_size + size

/-- A request of one word, and its reply in the receive buffer. -/
def request (command : Bytes) (fd : ℕ) : M Unit := do
  let len ← assembleStrs [command]
  exchange fd len

/-- The string at the front of the receive buffer, and what follows it. -/
def receivedStr : M (Bytes × Bytes) := do lift (getStringFromBuff (← get).receiveBuff.bytes)

def receivedInt : M ℤ := do
  let (ret, _) ← lift (getIntFromBuff (← get).receiveBuff.bytes)
  return ret

def getSize (virtual_fd : ℕ) : M ℤ := do
  request SIZE virtual_fd
  receivedInt

def getStoreLessOrEqualOne (virtual_fd : ℕ) : M Bool := do
  request LESS_OR_EQUAL_ONE virtual_fd
  return (← receivedInt) ≠ 0

def receivedPair : M (Bytes × Bytes) := do
  let (key, rec) ← receivedStr
  let (value, _) ← lift (getStringFromBuff rec)
  return (key, value)

def getMaxStore (virtual_fd : ℕ) : M (Bytes × Bytes) := do
  request MAX_KEY virtual_fd
  receivedPair

def getMinStore (virtual_fd : ℕ) : M (Bytes × Bytes) := do
  request MIN_KEY virtual_fd
  receivedPair

section Balance
variable (F : Type) [Double F]

def notTooMuch (virtual_fd : ℕ) (total_size : ℤ) (perfect : F) : M Bool := do
  let s : F := Int.cast (← getSize virtual_fd)
  if s / (Int.cast total_size + 0.000001) ≤ perfect + 0.01 then return true
  else getStoreLessOrEqualOne virtual_fd

end Balance

/-! ## Metadata -/

/-- A new iterator on the metadata, moved to the entry that routes `key`. -/
def searchMeta (key : Bytes) : M Iterator := do
  let it := (← get).cluster.metaDb.newIterator
  return (DBHandle.getSmallerOrEqualButAsLargeAsPossible key it).1

/-- `it->key()` and `it->value()`. -/
def entryOf (it : Iterator) : M (Bytes × Bytes) :=
  match it.current with
  | some e => return e
  | none => fail .undefined

def metaOf (it : Iterator) : M ControlMeta := do lift (ControlMeta.ofSlice (← entryOf it).2)

/-- A `virtual_fd` as an index into the array of connections. -/
def fdOf (c : ControlMeta) : M ℕ :=
  if 0 ≤ c.virtual_fd then return c.virtual_fd.toNat else fail .undefined

def metaDelete (key : Bytes) : M Unit := do
  let w ← get
  record (.metaDelete key) { w.cluster with metaDb := w.cluster.metaDb.delete1 key }

def metaPut (key value : Bytes) : M Unit := do
  let w ← get
  record (.metaPut key) { w.cluster with metaDb := w.cluster.metaDb.put key value }

/-- Delete the entry under the iterator and put the record `c`, assembled in the receive buffer, under its own
`min_str`. -/
def rewriteMeta (it : Iterator) (c : ControlMeta) : M Unit := do
  let (key, _) ← entryOf it
  metaDelete key
  let (b, size) ← lift (c.toSlice (← get).receiveBuff)
  modify fun w => { w with receiveBuff := b }
  metaPut c.min_str (b.bytes.take size)

def showMeta : M Unit := do
  let it := (← get).cluster.metaDb.newIterator
  let _ ← forEachWhile (fun e => do
    let c ← lift (ControlMeta.ofSlice e.2)
    let _ ← getSize (← fdOf c)
    return true) it.snapshot.entries

/-! ## Balancing -/

namespace Pass

/-- The neighbour that takes the surplus of node `i`. -/
def peer : Pass → ℕ → ℕ
  | forward, i => i + 1
  | backward, i => i - 1

/-- The pair to move: the largest key goes up, the smallest goes down. -/
def pick : Pass → ℕ → M (Bytes × Bytes)
  | forward => getMaxStore
  | backward => getMinStore

/-- `it->Next()` or `it->Prev()`. -/
def advance : Pass → Iterator → Iterator
  | forward => Cursor.next
  | backward => Cursor.prev

end Pass

/-- Send a record; the answer to it and the bounds announced with it. -/
def requestLog (fd : ℕ) (log : Log) : M (Bytes × Bytes × Bytes) := do
  let len ← assembleLog log
  exchange fd len
  let (ans, rec) ← receivedStr
  let (new_min, rec) ← lift (getStringFromBuff rec)
  let (new_max, _) ← lift (getStringFromBuff rec)
  return (ans, new_min, new_max)

/-- `DEL_LOG` to both nodes. -/
def rollback (i peer : ℕ) : M Unit := do
  let len ← assembleStrs [DEL_LOG]
  exchange i len
  exchange peer len

/-- The record with the announced bounds, where these are not empty. -/
def ControlMeta.withBounds (c : ControlMeta) (new_min new_max : Bytes) : ControlMeta :=
  let c := if new_min ≠ [] then { c with min_str := new_min } else c
  if new_max ≠ [] then { c with max_str := new_max } else c

/-- The entry that routes `key` takes the bounds `b₁`, the entry beside it the bounds `b₂`. -/
def moveMeta (pass : Pass) (key : Bytes) (b₁ b₂ : Bytes × Bytes) : M Unit := do
  let it ← searchMeta key
  let controlMeta1 ← metaOf it
  rewriteMeta it (controlMeta1.withBounds b₁.1 b₁.2)
  let it := pass.advance it
  let controlMeta1 ← metaOf it
  rewriteMeta it (controlMeta1.withBounds b₂.1 b₂.2)

/-- `COMMIT_LOG` to both nodes; `false` is the `return` out of `reBalance`. -/
def commitBoth (i peer : ℕ) : M Bool := do
  let len ← assembleStrs [COMMIT_LOG]
  exchange i len
  let (ans, _) ← receivedStr
  if ans ≠ OK then return false
  else
    exchange peer len
    let (ans, _) ← receivedStr
    return ans = OK

/-- One round of either loop: one pair from node `i` to its neighbour. -/
def migrate (pass : Pass) (i : ℕ) : M Bool := do
  let (key, value) ← pass.pick i
  let (ans₁, b₁) ← requestLog i { kind := .delete, key }
  let (ans₂, b₂) ← requestLog (pass.peer i) { kind := .put, key, value }
  let can_commit := ans₁ = OK ∧ ans₂ = OK
  if ¬can_commit then rollback i (pass.peer i)
  moveMeta pass key b₁ b₂
  commitBoth i (pass.peer i)

section Balance
variable (F : Type) [Double F]

def totalSize : M ℤ := do
  (List.range (← get).storeNodeCount).foldlM (fun total_size_x i => do
    return wrapInt (total_size_x + (← getSize i))) 0

/-- The `while` loop for node `i`. Its rounds each take a key out of node `i`, so the number of keys there bounds
them. -/
def drain (pass : Pass) (total_size_x : ℤ) (perfect : F) (i : ℕ) : M Bool := do
  let keys := ((← get).cluster.stores i).storeData.dbHandle.db.entries.length
  repeatWhile .exhausted (do
    mark (.iteration pass i)
    return !(← notTooMuch F i total_size_x perfect)) (migrate pass i) (keys + 1)

/-- The nodes of a pass, in its order. -/
def Pass.nodes (n : ℕ) : Pass → List ℕ
  | forward => List.range (n - 1)
  | backward => ((List.range n).drop 1).reverse

def runPass (pass : Pass) (total_size_x : ℤ) (perfect : F) : M Bool := do
  forEachWhile (drain F pass total_size_x perfect) (pass.nodes (← get).storeNodeCount)

def perfectShare (n : ℕ) : F := Int.cast 1 / Int.cast n

def reBalance : M Unit := do
  let total_size_x ← totalSize
  let perfect := perfectShare F (← get).storeNodeCount
  if ← runPass F .forward total_size_x perfect then
    if ← runPass F .backward total_size_x perfect then
      showMeta

/-! ## The console -/

/-- What the loop of `run` reads. -/
inductive Command
  | quit
  | test (test_string : Bytes)
  | put (key value : Bytes)
  | get (key : Bytes)
  | del (key : Bytes)
  | other (command : Bytes)
  deriving DecidableEq, Repr

/-- The `put` branch before `reBalance`. -/
def putUpdate (key value : Bytes) : M Unit := do
  let len ← assembleLog { kind := .put, key, value }
  let it ← searchMeta key
  let controlMeta ← metaOf it
  let virtual_fd ← fdOf controlMeta
  exchange virtual_fd len
  let (ans, _) ← receivedStr
  if ans = OK then
    rewriteMeta it { controlMeta with min_str := min controlMeta.min_str key, max_str := max controlMeta.max_str key }
    request COMMIT_LOG virtual_fd
    let _ ← receivedStr

/-- The `del` branch before `reBalance`. -/
def delUpdate (key : Bytes) : M Unit := do
  let len ← assembleLog { kind := .delete, key }
  let it ← searchMeta key
  let controlMeta ← metaOf it
  let virtual_fd ← fdOf controlMeta
  exchange virtual_fd len
  let (ans, rec) ← receivedStr
  if ans = OK then
    let (new_min, rec) ← lift (getStringFromBuff rec)
    let _ ← lift (getStringFromBuff rec)
    let new_min := if new_min = [] then controlMeta.min_str else new_min
    rewriteMeta it
      { controlMeta with min_str := min controlMeta.min_str new_min, max_str := max controlMeta.max_str key }
    request COMMIT_LOG virtual_fd
    let _ ← receivedStr

def getCommand (key : Bytes) : M Unit := do
  let it ← searchMeta key
  let controlMeta ← metaOf it
  let virtual_fd ← fdOf controlMeta
  let len ← assembleStrs [GET, key]
  exchange virtual_fd len
  let (ans, _) ← receivedStr
  modify fun w => { w with answers := w.answers ++ [ans] }

def testCommand (test_string : Bytes) : M Unit := do
  let len ← assembleStrs [TEST, test_string]
  post 0 len

/-- The body of the loop for one command. -/
def Command.exec : Command → M Unit
  | quit => return
  | test test_string => testCommand test_string
  | put key value => do
    putUpdate key value
    reBalance F
  | get key => getCommand key
  | del key => do
    if key = [] then return
    else
      delUpdate key
      reBalance F
  | other _ => return

/-- The loop on the commands typed so far; at their end the node waits for more. -/
def run : List Command → M Unit
  | [] => mark .command
  | .quit :: _ => mark .command
  | c :: rest => do
    mark .command
    c.exec F
    run rest

end Balance

/-! ## The constructor -/

/-- `to_string` of a number. -/
def decimal (i : ℕ) : Bytes := (Nat.toDigits 10 i).map fun c => Fin.ofNat 256 c.toNat

/-- `sizeof(net_file)`, which is one `int`. -/
def sizeofNetFile : ℕ := 4

/-- `virtual_fd_2_net_file[i] = netFile`, where the block has room for `room` bytes. -/
def storeNetFile (room i : ℕ) : M Unit := if room < sizeofNetFile * (i + 1) then fail .overrun else return

/-- The body of the constructor's loop: one more node, its connection, and its record when the metadata was empty at the
start. -/
def constructNode (room size i : ℕ) : M Unit := do
  modify fun w => { w with storeNodeCount := w.storeNodeCount + 1 }
  storeNetFile room i
  if size = 0 then
    let (b, len) ← lift (ControlMeta.toSlice ⟨decimal (i + 1), decimal (i + 1), i⟩ (← get).sendBuff)
    modify fun w => { w with sendBuff := b }
    metaPut (decimal (i + 1)) (b.bytes.take len)

/-- The constructor over `n` connected stores, with an allocator whose block for `malloc(size)` has room for
`room size` bytes. It asks for one byte for each node. -/
def construct (room : ℕ → ℕ) (n : ℕ) : M Unit := do
  let size := (← get).cluster.metaDb.getNum
  let _ ← forEachWhile (fun i => do constructNode (room n) size i; return true) (List.range n)
  modify fun w => { w with sendBuff := Buff.malloc, receiveBuff := Buff.malloc }

/-- A control node before its constructor. -/
def World.boot (c : Cluster) : World where
  cluster := c
  storeNodeCount := 0
  sendBuff := Buff.malloc
  receiveBuff := Buff.malloc
  refusals := []
  answers := []
  history := []

/-- Every store started again over its databases as they stand. -/
def Cluster.reopen (c : Cluster) : Cluster where
  stores j := StoreImpl.start (c.stores j).storeData.dbHandle (c.stores j).storeLog.dbHandle
  metaDb := c.metaDb

end DistRocks
