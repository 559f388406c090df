import DistRocks.Base.Network
import DistRocks.Control.Messages

/-!
# The control node as a process

In `Control.Impl` a request, its service and its reply are one step. Here the same functions stop at `send_to` and
`receive_from`, so that the control node is a client of the stores, which are processes of their own.

* `Own` : what the control node holds itself; `Local` : programs that look at nothing else and record what they change;
* `Script` : a program of the control node as a process, with its `while` loops; `next` : its next step; `metas` : the
  metadata that a stop can find;
* `Script.run` and its parts : the functions of `control_impl` that send messages.
-/

namespace DistRocks

open ConstValues Proc Network

/-! ## The memory of the control node -/

/-- The members of `control_impl` and its output. -/
structure Own where
  metaDb : DBHandle
  storeNodeCount : ℕ
  sendBuff : Buff
  receiveBuff : Buff
  answers : List Bytes

def World.own (w : World) : Own := ⟨w.cluster.metaDb, w.storeNodeCount, w.sendBuff, w.receiveBuff, w.answers⟩

/-- A world with nothing but the control node in it. -/
def Own.world (o : Own) : World where
  cluster := ⟨fun _ => .start (.reliable .empty) (.reliable .empty), o.metaDb⟩
  storeNodeCount := o.storeNodeCount
  sendBuff := o.sendBuff
  receiveBuff := o.receiveBuff
  refusals := []
  answers := o.answers
  history := []

@[simp] theorem Own.own_world (o : Own) : o.world.own = o := rfl

/-- The event, with other stores. -/
def Event.withStores (S : ℕ → StoreImpl) (e : Event) : Event :=
  ⟨e.act, { e.before with stores := S }, { e.after with stores := S }⟩

@[simp] theorem Event.withStores_withStores (S S' : ℕ → StoreImpl) (e : Event) :
    (e.withStores S).withStores S' = e.withStores S' := rfl

/-- From the world `w` to `w'` the cluster is `c` at some time: at first or behind an event. -/
def Visited (w w' : World) (c : Cluster) : Prop :=
  ∃ new, w'.history = new ++ w.history ∧ (c = w.cluster ∨ ∃ e ∈ new, e.after = c)

/-- A program that neither looks at the stores nor changes them, and whose changes are events. -/
structure LocalAt {α : Type} (p : M α) (w : World) : Prop where
  value : (p w).1 = (p w.own.world).1
  own : (p w).2.own = (p w.own.world).2.own
  stores : (p w).2.cluster.stores = w.cluster.stores
  refusals : (p w).2.refusals = w.refusals
  history : (p w).2.history = (p w.own.world).2.history.map (.withStores w.cluster.stores) ++ w.history
  visited : Visited w (p w).2 (p w).2.cluster

def Local {α : Type} (p : M α) : Prop := ∀ w, LocalAt p w

section
variable {α β : Type} {p : M α} {f : α → M β} {w w₁ w' : World} {c : Cluster}

/-! ## Clusters on the way -/

theorem visited_start (w : World) : Visited w w w.cluster := ⟨[], rfl, Or.inl rfl⟩

/-- Behind the event that came last. -/
theorem visited_event {e : Event} (hhist : w'.history = e :: w.history) (hafter : e.after = w'.cluster) :
    Visited w w' w'.cluster := ⟨[e], hhist, Or.inr ⟨e, List.mem_singleton_self e, hafter⟩⟩

theorem Visited.of_eq (hhist : w'.history = w.history) (hcluster : w'.cluster = w.cluster) :
    Visited w w' w'.cluster := ⟨[], hhist, Or.inl hcluster⟩

theorem Visited.left (h : Visited w w₁ c) (h' : Visited w₁ w' w'.cluster) : Visited w w' c := by
  obtain ⟨new, hnew, hc⟩ := h
  obtain ⟨new', hnew', -⟩ := h'
  refine ⟨new' ++ new, by rw [hnew', hnew, List.append_assoc], hc.imp_right fun ⟨e, he, hafter⟩ => ?_⟩
  exact ⟨e, List.mem_append_right _ he, hafter⟩

theorem Visited.right (h : Visited w w₁ w₁.cluster) (h' : Visited w₁ w' c) : Visited w w' c := by
  obtain ⟨new, hnew, hc₁⟩ := h
  obtain ⟨new', hnew', hc⟩ := h'
  refine ⟨new' ++ new, by rw [hnew', hnew, List.append_assoc], ?_⟩
  rcases hc with rfl | ⟨e, he, hafter⟩
  · exact hc₁.imp_right fun ⟨e, he, hafter⟩ => ⟨e, List.mem_append_right _ he, hafter⟩
  · exact Or.inr ⟨e, List.mem_append_left _ he, hafter⟩

/-! ## Programs without messages -/

theorem local_pure (a : α) : Local (pure a : M α) := fun _ => ⟨rfl, rfl, rfl, rfl, rfl, .of_eq rfl rfl⟩

theorem local_lift (x : Except Fault α) : Local (lift x : M α) := fun _ => ⟨rfl, rfl, rfl, rfl, rfl, .of_eq rfl rfl⟩

theorem local_fail (e : Fault) : Local (fail e : M α) := fun _ => ⟨rfl, rfl, rfl, rfl, rfl, .of_eq rfl rfl⟩

theorem local_bind (hp : Local p) (hf : ∀ a, Local (f a)) : Local (p >>= f) := by
  intro w
  obtain ⟨hvalue, hown, hstores, href, hhist, hvisited⟩ := hp w
  rcases h₁ : p w with ⟨_ | a, w₁⟩ <;> rcases h₂ : p w.own.world with ⟨_ | b, w₂⟩ <;>
    rw [h₁, h₂] at hvalue hown hhist <;> cases hvalue <;> rw [h₁] at hstores href hvisited
  · have hrun : (p >>= f) w = (.error _, w₁) := bind_run_error h₁
    have hrun' : (p >>= f) w.own.world = (.error _, w₂) := bind_run_error h₂
    exact ⟨by rw [hrun, hrun'], by rw [hrun, hrun']; exact hown, by rw [hrun]; exact hstores, by rw [hrun]; exact href,
      by rw [hrun, hrun']; exact hhist, by rw [hrun]; exact hvisited⟩
  · have hrun : (p >>= f) w = f a w₁ := bind_run h₁
    have hrun' : (p >>= f) w.own.world = f a w₂ := bind_run h₂
    have hsame : w₁.own = w₂.own := hown
    have hstores : w₁.cluster.stores = w.cluster.stores := hstores
    obtain ⟨hvalue₁, hown₁, hstores₁, href₁, hhist₁, hvisited₁⟩ := hf a w₁
    obtain ⟨hvalue₂, hown₂, -, -, hhist₂, -⟩ := hf a w₂
    refine ⟨?_, ?_, ?_, ?_, ?_, ?_⟩
    · rw [hrun, hrun', hvalue₁, hvalue₂, hsame]
    · rw [hrun, hrun', hown₁, hown₂, hsame]
    · rw [hrun, hstores₁, hstores]
    · rw [hrun, href₁]
      exact href
    · have hhist : w₁.history = w₂.history.map (.withStores w.cluster.stores) ++ w.history := hhist
      rw [hrun, hrun', hhist₁, hhist₂, hsame, hstores, hhist]
      simp
    · rw [hrun]
      exact hvisited.right hvisited₁

/-- Reading the memory of the control node. -/
theorem local_get {g : Own → M β} (hg : ∀ o, Local (g o)) : Local (get >>= fun w => g w.own) :=
  fun w => ⟨(hg w.own w).value, (hg w.own w).own, (hg w.own w).stores, (hg w.own w).refusals, (hg w.own w).history,
    (hg w.own w).visited⟩

theorem local_sendBuff (b : Buff) : Local (modify fun w => { w with sendBuff := b } : M Unit) :=
  fun _ => ⟨rfl, rfl, rfl, rfl, rfl, .of_eq rfl rfl⟩

theorem local_receiveBuff (b : Buff) : Local (modify fun w => { w with receiveBuff := b } : M Unit) :=
  fun _ => ⟨rfl, rfl, rfl, rfl, rfl, .of_eq rfl rfl⟩

end

theorem local_answer (s : Bytes) : Local (modify fun w => { w with answers := w.answers ++ [s] } : M Unit) :=
  fun _ => ⟨rfl, rfl, rfl, rfl, rfl, .of_eq rfl rfl⟩

theorem local_assembleStrs (strs : List Bytes) : Local (assembleStrs strs) :=
  local_get (g := fun o => lift (insertStrSToBuff o.sendBuff 0 strs 0) >>= _) fun _ =>
    local_bind (local_lift _) fun _ => local_bind (local_sendBuff _) fun _ => local_pure _

theorem local_assembleLog (log : Log) : Local (assembleLog log) :=
  local_get (g := fun o => lift (insertStrToBuff o.sendBuff 0 LOG 0) >>= _) fun _ =>
    local_bind (local_lift _) fun _ => local_bind (local_lift _) fun _ =>
      local_bind (local_sendBuff _) fun _ => local_pure _

theorem local_receivedStr : Local receivedStr :=
  local_get (g := fun o => lift (getStringFromBuff o.receiveBuff.bytes)) fun _ => local_lift _

theorem local_receivedInt : Local receivedInt :=
  local_get (g := fun o => lift (getIntFromBuff o.receiveBuff.bytes) >>= _) fun _ =>
    local_bind (local_lift _) fun _ => local_pure _

theorem local_receivedPair : Local receivedPair :=
  local_bind local_receivedStr fun _ => local_bind (local_lift _) fun _ => local_pure _

theorem local_searchMeta (key : Bytes) : Local (searchMeta key) :=
  local_get (g := fun o => pure (DBHandle.getSmallerOrEqualButAsLargeAsPossible key o.metaDb.newIterator).1)
    fun _ => local_pure _

theorem local_entryOf (it : Iterator) : Local (entryOf it) := by
  unfold entryOf
  cases it.current with
  | some e => exact local_pure e
  | none => exact local_fail _

theorem local_metaOf (it : Iterator) : Local (metaOf it) := local_bind (local_entryOf it) fun _ => local_lift _

theorem local_fdOf (c : ControlMeta) : Local (fdOf c) := by
  unfold fdOf
  split_ifs
  · exact local_pure _
  · exact local_fail _

theorem local_metaDelete (key : Bytes) : Local (metaDelete key) :=
  fun _ => ⟨rfl, rfl, rfl, rfl, rfl, visited_event rfl rfl⟩

theorem local_metaPut (key value : Bytes) : Local (metaPut key value) :=
  fun _ => ⟨rfl, rfl, rfl, rfl, rfl, visited_event rfl rfl⟩

theorem local_rewriteMeta (it : Iterator) (c : ControlMeta) : Local (rewriteMeta it c) :=
  local_bind (local_entryOf it) fun _ => local_bind (local_metaDelete _) fun _ =>
    local_get (g := fun o => lift (c.toSlice o.receiveBuff) >>= _) fun _ =>
      local_bind (local_lift _) fun _ => local_bind (local_receiveBuff _) fun _ => local_metaPut _ _

theorem local_moveMeta (pass : Pass) (key : Bytes) (b₁ b₂ : Bytes × Bytes) : Local (moveMeta pass key b₁ b₂) :=
  local_bind (local_searchMeta key) fun _ => local_bind (local_metaOf _) fun _ =>
    local_bind (local_rewriteMeta _ _) fun _ => local_bind (local_metaOf _) fun _ => local_rewriteMeta _ _

/-! ## Programs with messages -/

/-- A program of the control node, up to what the stores answer. -/
inductive Script : Type → Type 1
  | pure {α : Type} (a : α) : Script α
  /-- a part that sends nothing -/
  | act {α : Type} (p : M α) (h : Local p) : Script α
  /-- `send_to(send_buff, len)` and `receive_from(receive_buff)` -/
  | exchange (fd len : ℕ) : Script Unit
  /-- `send_to(send_buff, len)` -/
  | post (fd len : ℕ) : Script Unit
  | bind {α β : Type} (p : Script α) (f : α → Script β) : Script β
  /-- `while (test) body`, which the body leaves by answering `false` -/
  | loop (test body : Script Bool) : Script Bool

namespace Script

instance monad : Monad Script where
  pure := .pure
  bind := .bind

/-- The next step of a program: its value if it has ended, and else a move; a fault halts it. -/
def next : {α : Type} → Script α → Own → α ⊕ Move ℕ Bytes (Script α × Own)
  | _, pure a, _ => .inl a
  | _, act p _, o => match p o.world with
    | (.ok a, w) => .inr (.tick (.pure a, w.own))
    | (.error _, _) => .inr .halt
  | _, exchange fd len, o =>
    if fd < o.storeNodeCount then .inr (.call fd (o.sendBuff.bytes.take len) fun reply =>
      (.pure (), { o with receiveBuff := o.receiveBuff.receive reply }))
    else .inr .halt
  | _, post fd len, o =>
    if fd < o.storeNodeCount then .inr (.post fd (o.sendBuff.bytes.take len) (.pure (), o)) else .inr .halt
  | _, bind p f, o => match p.next o with
    | .inl a => .inr (.tick (f a, o))
    | .inr m => .inr (m.map fun c => (.bind c.1 f, c.2))
  | _, loop test body, o =>
    .inr (.tick (.bind test fun go =>
      if go then .bind body fun on => if on then .loop test body else .pure false else .pure true, o))

def move {α : Type} (c : Script α × Own) : Move ℕ Bytes (Script α × Own) :=
  match c.1.next c.2 with
  | .inl _ => .halt
  | .inr m => m

/-- The metadata where a stop can find it: before the next step of a program, or inside of it. -/
def metas : {α : Type} → Script α → Own → List DBHandle
  | _, act p _, o => o.metaDb :: (p o.world).2.history.map fun e => e.after.metaDb
  | _, bind p _, o => p.metas o
  | _, pure _, o | _, exchange _ _, o | _, post _ _, o | _, loop _ _, o => [o.metaDb]

theorem metaDb_mem_metas {α : Type} (p : Script α) (o : Own) : o.metaDb ∈ p.metas o := by
  induction p with
  | bind p f ihp _ => exact ihp
  | _ => exact List.mem_cons_self

/-- The answer to a request does not touch the metadata. -/
theorem metaDb_of_call {α : Type} {p : Script α} {o : Own} {i : ℕ} {m : Bytes} {k : Bytes → Script α × Own}
    (h : p.next o = .inr (.call i m k)) (r : Bytes) : (k r).2.metaDb = o.metaDb := by
  induction p with
  | pure a => cases h
  | act p _ =>
      rcases hp : p o.world with ⟨_ | a, w⟩ <;> simp only [next, hp] at h <;> cases h
  | exchange fd len =>
      rw [next] at h
      split_ifs at h
      · cases h
        rfl
      · cases h
  | post fd len =>
      rw [next] at h
      split_ifs at h <;> cases h
  | bind p f ihp _ =>
      rw [next] at h
      cases hp : p.next o with
      | inl a => rw [hp] at h; cases h
      | inr move =>
          rw [hp] at h
          cases move with
          | call j m' k' =>
              cases h
              exact ihp hp
          | _ => cases h
  | loop test body _ _ => cases h

/-- Run `f` on the elements in order, until one of them answers `false`. -/
def forEachWhile {ι : Type} (f : ι → Script Bool) : List ι → Script Bool
  | [] => return true
  | i :: is => do
    if ← f i then forEachWhile f is else return false

def getCount : Script ℕ := act (do return (← Proc.get).storeNodeCount)
  (local_get (g := fun o => Pure.pure o.storeNodeCount) fun _ => local_pure _)

/-! ## The functions of the control node -/

def assembleStrs (strs : List Bytes) : Script ℕ := act (DistRocks.assembleStrs strs) (local_assembleStrs strs)

def assembleLog (log : Log) : Script ℕ := act (DistRocks.assembleLog log) (local_assembleLog log)

def receivedStr : Script (Bytes × Bytes) := act DistRocks.receivedStr local_receivedStr

def lift {α : Type} (x : Except Fault α) : Script α := act (Proc.lift x) (local_lift x)

def request (command : Bytes) (fd : ℕ) : Script Unit := do
  let len ← assembleStrs [command]
  exchange fd len

def getSize (virtual_fd : ℕ) : Script ℤ := do
  request SIZE virtual_fd
  act receivedInt local_receivedInt

def getStoreLessOrEqualOne (virtual_fd : ℕ) : Script Bool := do
  request LESS_OR_EQUAL_ONE virtual_fd
  return (← act receivedInt local_receivedInt) ≠ 0

def getMaxStore (virtual_fd : ℕ) : Script (Bytes × Bytes) := do
  request MAX_KEY virtual_fd
  act receivedPair local_receivedPair

def getMinStore (virtual_fd : ℕ) : Script (Bytes × Bytes) := do
  request MIN_KEY virtual_fd
  act receivedPair local_receivedPair

section Balance
variable (F : Type) [Double F]

def notTooMuch (virtual_fd : ℕ) (total_size : ℤ) (perfect : F) : Script Bool := do
  let s : F := Int.cast (← getSize virtual_fd)
  if s / (Int.cast total_size + 0.000001) ≤ perfect + 0.01 then return true
  else getStoreLessOrEqualOne virtual_fd

def showMeta : Script Unit := do
  let it ← act (do return (← Proc.get).cluster.metaDb.newIterator)
    (local_get (g := fun o => Pure.pure o.metaDb.newIterator) fun _ => local_pure _)
  let _ ← forEachWhile (fun e => do
    let c ← lift (ControlMeta.ofSlice e.2)
    let fd ← act (fdOf c) (local_fdOf c)
    let _ ← getSize fd
    return true) it.snapshot.entries

def pick : Pass → ℕ → Script (Bytes × Bytes)
  | .forward => getMaxStore
  | .backward => getMinStore

def requestLog (fd : ℕ) (log : Log) : Script (Bytes × Bytes × Bytes) := do
  let len ← assembleLog log
  exchange fd len
  let (ans, rec) ← receivedStr
  let (new_min, rec) ← lift (getStringFromBuff rec)
  let (new_max, _) ← lift (getStringFromBuff rec)
  return (ans, new_min, new_max)

def rollback (i peer : ℕ) : Script Unit := do
  let len ← assembleStrs [DEL_LOG]
  exchange i len
  exchange peer len

def commitBoth (i peer : ℕ) : Script Bool := do
  let len ← assembleStrs [COMMIT_LOG]
  exchange i len
  let (ans, _) ← receivedStr
  if ans ≠ OK then return false
  else
    exchange peer len
    let (ans, _) ← receivedStr
    return ans = OK

def migrate (pass : Pass) (i : ℕ) : Script Bool := do
  let (key, value) ← pick pass i
  let (ans₁, b₁) ← requestLog i { kind := .delete, key }
  let (ans₂, b₂) ← requestLog (pass.peer i) { kind := .put, key, value }
  let can_commit := ans₁ = OK ∧ ans₂ = OK
  if ¬can_commit then rollback i (pass.peer i)
  act (moveMeta pass key b₁ b₂) (local_moveMeta pass key b₁ b₂)
  commitBoth i (pass.peer i)

def totalSize : Script ℤ := do
  (List.range (← getCount)).foldlM (fun total_size_x i => do
    return wrapInt (total_size_x + (← getSize i))) 0

def drain (pass : Pass) (total_size_x : ℤ) (perfect : F) (i : ℕ) : Script Bool :=
  loop (do return !(← notTooMuch F i total_size_x perfect)) (migrate pass i)

def runPass (pass : Pass) (total_size_x : ℤ) (perfect : F) : Script Bool := do
  forEachWhile (drain F pass total_size_x perfect) (pass.nodes (← getCount))

def reBalance : Script Unit := do
  let total_size_x ← totalSize
  let perfect := perfectShare F (← getCount)
  if ← runPass F .forward total_size_x perfect then
    if ← runPass F .backward total_size_x perfect then
      showMeta

end Balance

def searchMeta (key : Bytes) : Script Iterator := act (DistRocks.searchMeta key) (local_searchMeta key)

def metaOf (it : Iterator) : Script ControlMeta := act (DistRocks.metaOf it) (local_metaOf it)

def fdOf (c : ControlMeta) : Script ℕ := act (DistRocks.fdOf c) (local_fdOf c)

def rewriteMeta (it : Iterator) (c : ControlMeta) : Script Unit := act (DistRocks.rewriteMeta it c) (local_rewriteMeta it c)

def putUpdate (key value : Bytes) : Script Unit := do
  let len ← assembleLog { kind := .put, key, value }
  let it ← searchMeta key
  let controlMeta ← metaOf it
  let virtual_fd ← fdOf controlMeta
  exchange virtual_fd len
  let (ans, _) ← receivedStr
  if ans = OK then
    rewriteMeta it { controlMeta with min_str := min controlMeta.min_str key, max_str := max controlMeta.max_str key }
    request COMMIT_LOG virtual_fd
    let _ ← receivedStr

def delUpdate (key : Bytes) : Script Unit := do
  let len ← assembleLog { kind := .delete, key }
  let it ← searchMeta key
  let controlMeta ← metaOf it
  let virtual_fd ← fdOf controlMeta
  exchange virtual_fd len
  let (ans, rec) ← receivedStr
  if ans = OK then
    let (new_min, rec) ← lift (getStringFromBuff rec)
    let _ ← lift (getStringFromBuff rec)
    let new_min := if new_min = [] then controlMeta.min_str else new_min
    rewriteMeta it
      { controlMeta with min_str := min controlMeta.min_str new_min, max_str := max controlMeta.max_str key }
    request COMMIT_LOG virtual_fd
    let _ ← receivedStr

def getCommand (key : Bytes) : Script Unit := do
  let it ← searchMeta key
  let controlMeta ← metaOf it
  let virtual_fd ← fdOf controlMeta
  let len ← assembleStrs [GET, key]
  exchange virtual_fd len
  let (ans, _) ← receivedStr
  act (modify fun w => { w with answers := w.answers ++ [ans] }) (local_answer ans)

def testCommand (test_string : Bytes) : Script Unit := do
  let len ← assembleStrs [TEST, test_string]
  post 0 len

section Console
variable (F : Type) [Double F]

def exec : Command → Script Unit
  | .quit => return
  | .test test_string => testCommand test_string
  | .put key value => do
    putUpdate key value
    reBalance F
  | .get key => getCommand key
  | .del key => do
    if key = [] then return
    else
      delUpdate key
      reBalance F
  | .other _ => return

def run : List Command → Script Unit
  | [] => return
  | .quit :: _ => return
  | c :: rest => do
    exec F c
    run rest

end Console

end Script

end DistRocks
