import DistRocks.Cluster.Runs
import DistRocks.Control.Process

/-!
# The cluster in any order of steps

* `StoreImpl.take` : a store as a server; `Script.Implements` : a process does what a program of `Control.Impl` does,
  stopping at every `send_to` and `receive_from`, and on its way is where an event of the program is;
  `implements_run` : so does the console;
* `World.net` : the control node and the stores as processes, with messages in flight between them;
* `run_interleaved` : every order of their steps ends as the run with one exchange at a time.
-/

namespace DistRocks

open ConstValues Proc Network

variable {α β ι : Type} {S S' : ℕ → StoreImpl} {o o' : Own} {w w' : World}

/-- The loop of a store process on one message; a store that has faulted or ended takes no more. -/
def StoreImpl.take (st : StoreImpl) (msg : Bytes) : Option (StoreImpl × Option Bytes) :=
  match st.serve msg with
  | .ok (request, st', reply) => if request = .quit then none else some (st', reply)
  | .error _ => none

theorem StoreImpl.serve_quit {st st' : StoreImpl} {msg : Bytes} {reply : Option Bytes}
    (h : st.serve msg = .ok (.quit, st', reply)) : reply = none := by
  obtain ⟨q, -, h⟩ := bind_eq_ok h
  obtain ⟨p, hp, h⟩ := bind_eq_ok h
  cases h
  cases hp
  rfl

/-- The store reads a `TEST` and does not answer it. -/
theorem StoreImpl.serve_test (st : StoreImpl) {s : Bytes} (hlen : (Request.test s).message.length ≤ MAXLINE) :
    st.serve (Request.test s).message = .ok (.test (cstr s), st.received (Request.test s).message, none) := by
  rw [st.serve_message hlen fun c hc => by cases hc]
  rfl

theorem StoreImpl.take_test (st : StoreImpl) {s : Bytes} (hlen : (Request.test s).message.length ≤ MAXLINE) :
    st.take (Request.test s).message = some (st.received (Request.test s).message, none) := by
  rw [StoreImpl.take, st.serve_test hlen]
  rfl

/-- A step of the control node with the stores at hand. -/
abbrev Script.Step : (Script α × Own) × (ℕ → StoreImpl) → (Script α × Own) × (ℕ → StoreImpl) → Prop :=
  Direct.Step Script.move StoreImpl.take

/-- What the control node and the stores are like where a stop can find them. -/
def Script.clusters (d : (Script α × Own) × (ℕ → StoreImpl)) : List Cluster :=
  (d.1.1.metas d.1.2).map fun m => ⟨d.2, m⟩

/-- A step before and inside of which the cluster is in `X`. -/
def Script.StepIn (X : Cluster → Prop) (d d' : (Script α × Own) × (ℕ → StoreImpl)) : Prop :=
  Script.Step d d' ∧ ∀ c ∈ Script.clusters d, X c

/-- The process `p` does what the program `m` does, as far as that ends without a fault, and on its way it is where an
event of `m` is. -/
def Script.Implements (p : Script α) (m : M α) : Prop :=
  ∀ w a w', w.refusals = [] → m w = (.ok a, w') → w'.refusals = [] ∧ Visited w w' w'.cluster ∧
    Relation.ReflTransGen (Script.StepIn (Visited w w')) ((p, w.own), w.cluster.stores)
      ((.pure a, w'.own), w'.cluster.stores)

namespace Script

/-! ## Rules -/

theorem Step.bind {p p' : Script α} (f : α → Script β) (h : Step ((p, o), S) ((p', o'), S')) :
    Step ((.bind p f, o), S) ((.bind p' f, o'), S') := by
  have hmove : ∀ c : Script α × Own, (∀ a, c.1.next c.2 ≠ .inl a) →
      move (.bind c.1 f, c.2) = (move c).map fun c => (.bind c.1 f, c.2) := fun c hc => by
    simp only [move, next]
    cases h : c.1.next c.2 with
    | inl a => exact absurd h (hc a)
    | inr m => rfl
  have hrun : ∀ c : Script α × Own, move c ≠ .halt → ∀ a, c.1.next c.2 ≠ .inl a := fun c hc a ha => by
    rw [move, ha] at hc
    exact hc rfl
  generalize hd : ((p', o'), S') = d at h
  cases h with
  | tick h =>
      cases hd
      refine .tick ?_
      rw [hmove (p, o) (hrun _ (by simp [h])), h]
      rfl
  | post h hs =>
      cases hd
      refine .post ?_ hs
      rw [hmove (p, o) (hrun _ (by simp [h])), h]
      rfl
  | @call _ k _ i m r s h hs =>
      obtain ⟨hk, rfl⟩ := Prod.mk.inj hd
      have h' : move (Script.bind p f, o) = .call i m fun r => (.bind (k r).1 f, (k r).2) := by
        rw [hmove (p, o) (hrun _ (by simp [h])), h]
        rfl
      have hstep := Direct.Step.call (S := S) h' hs
      rwa [← hk] at hstep

theorem Steps.bind {X : Cluster → Prop} {p : Script α} {a : α} (f : α → Script β)
    (h : Relation.ReflTransGen (StepIn X) ((p, o), S) ((.pure a, o'), S')) (hlast : X ⟨S', o'.metaDb⟩) :
    Relation.ReflTransGen (StepIn X) ((.bind p f, o), S) ((f a, o'), S') := by
  have hlift : Relation.ReflTransGen (StepIn X) ((Script.bind p f, o), S) ((Script.bind (.pure a) f, o'), S') :=
    h.lift (fun c : (Script α × Own) × (ℕ → StoreImpl) => ((Script.bind c.1.1 f, c.1.2), c.2))
      fun _ _ hstep => ⟨Step.bind f hstep.1, hstep.2⟩
  exact hlift.tail ⟨.tick rfl, fun c hc => List.mem_singleton.mp hc ▸ hlast⟩

theorem Steps.mono {X X' : Cluster → Prop} {d d' : (Script α × Own) × (ℕ → StoreImpl)}
    (h : Relation.ReflTransGen (StepIn X) d d') (hX : ∀ c, X c → X' c) : Relation.ReflTransGen (StepIn X') d d' :=
  Relation.ReflTransGen.mono (fun _ _ hstep => ⟨hstep.1, fun c hc => hX c (hstep.2 c hc)⟩) _ _ h

theorem Steps.direct {X : Cluster → Prop} {d d' : (Script α × Own) × (ℕ → StoreImpl)}
    (h : Relation.ReflTransGen (StepIn X) d d') : Relation.ReflTransGen Step d d' :=
  Relation.ReflTransGen.mono (fun _ _ hstep => hstep.1) _ _ h

theorem implements_pure (a : α) : Implements (Pure.pure a) (Pure.pure a) := by
  intro w b w' href h
  cases h
  exact ⟨href, visited_start w, .refl⟩

theorem implements_act {p : M α} (hp : Local p) : Implements (.act p hp) p := by
  intro w a w' href h
  obtain ⟨hvalue, hown, hstores, href', hhist, hvisited⟩ := hp w
  rw [h] at hvalue hown hstores href' hhist hvisited
  refine ⟨href'.trans href, hvisited, .single ⟨?_, fun c hc => ?_⟩⟩
  · rw [show w'.cluster.stores = w.cluster.stores from hstores]
    refine .tick ?_
    rcases h₁ : p w.own.world with ⟨b, w₁⟩
    rw [h₁] at hvalue hown
    obtain rfl : b = .ok a := hvalue.symm
    have hsame : w₁.own = w'.own := hown.symm
    simp only [move, next, h₁, hsame]
  · -- the events are those that the process has by itself, with the stores that it does not see
    obtain ⟨m, hm, rfl⟩ := List.mem_map.mp hc
    rcases List.mem_cons.mp hm with rfl | hm
    · exact (visited_start w).left hvisited
    · obtain ⟨e, he, rfl⟩ := List.mem_map.mp hm
      exact ⟨_, hhist, Or.inr ⟨_, List.mem_map_of_mem he, rfl⟩⟩

theorem implements_bind {p : Script α} {m : M α} {f : α → Script β} {g : α → M β} (hp : Implements p m)
    (hf : ∀ a, Implements (f a) (g a)) : Implements (p >>= f) (m >>= g) := by
  intro w b w' href h
  rcases hm : m w with ⟨_ | a, w₁⟩
  · rw [bind_run_error hm] at h
    cases h
  · rw [bind_run hm] at h
    obtain ⟨href₁, hvisited₁, h₁⟩ := hp w a w₁ href hm
    obtain ⟨href₂, hvisited₂, h₂⟩ := hf a w₁ b w' href₁ h
    have hfirst := Steps.mono h₁ fun c hc => hc.left hvisited₂
    have hrest := Steps.mono h₂ fun c hc => hvisited₁.right hc
    exact ⟨href₂, hvisited₁.right hvisited₂, (Steps.bind f hfirst (hvisited₁.left hvisited₂)).trans hrest⟩

theorem implements_ite {c : Prop} [Decidable c] {p q : Script α} {m m' : M α} (hp : c → Implements p m)
    (hq : ¬c → Implements q m') : Implements (if c then p else q) (if c then m else m') := by
  split_ifs with hc
  · exact hp hc
  · exact hq hc

theorem implements_exchange (fd len : ℕ) : Implements (.exchange fd len) (DistRocks.exchange fd len) := by
  intro w a w' href h
  by_cases hfd : fd < w.storeNodeCount
  · cases hserve : (w.cluster.stores fd).serve (w.sendBuff.bytes.take len) with
    | error e =>
        rw [exchange_error hfd rfl hserve] at h
        cases h
    | ok p =>
        obtain ⟨q, st, reply⟩ := p
        cases reply with
        | none =>
            rw [DistRocks.exchange, get_bind_run, if_pos hfd, hserve, lift_ok_bind_run] at h
            simp only [href] at h
            cases h
        | some reply =>
            rw [exchange_eq hfd (by simp [href]) rfl hserve] at h
            cases h
            let w₁ := w.exchanged fd (w.sendBuff.bytes.take len) st reply
            have hvisited : Visited w w₁ w₁.cluster := visited_event rfl rfl
            have hfirst : Visited w w₁ w.cluster := (visited_start w).left hvisited
            refine ⟨by simp [World.exchanged, href], hvisited,
              .single ⟨?_, fun c hc => List.mem_singleton.mp hc ▸ hfirst⟩⟩
            have hmove : move (Script.exchange fd len, w.own) = .call fd (w.sendBuff.bytes.take len) fun reply =>
                (.pure (), { w.own with receiveBuff := w.receiveBuff.receive reply }) := by
              simp only [move, next]
              rw [if_pos (show fd < w.own.storeNodeCount from hfd)]
              rfl
            have htake : (w.cluster.stores fd).take (w.sendBuff.bytes.take len) = some (st, some reply) := by
              have hq : q ≠ .quit := by
                rintro rfl
                cases StoreImpl.serve_quit hserve
              rw [StoreImpl.take, hserve]
              simp only [hq, if_false]
            exact .call hmove htake
  · rw [DistRocks.exchange, get_bind_run, if_neg hfd] at h
    cases h

theorem implements_loop {test body : Script Bool} {test' body' : M Bool} (htest : Implements test test')
    (hbody : Implements body body') (fuel : ℕ) :
    Implements (.loop test body) (repeatWhile .exhausted test' body' fuel) := by
  induction fuel with
  | zero =>
      intro w a w' _ h
      cases h
  | succ fuel ih =>
      have hround : Implements (do if ← test then (do if ← body then .loop test body else return false) else return true)
          (repeatWhile .exhausted test' body' (fuel + 1)) := by
        rw [repeatWhile]
        refine implements_bind htest fun go => ?_
        cases go with
        | false => exact implements_pure true
        | true =>
            refine implements_bind hbody fun on => ?_
            cases on with
            | false => exact implements_pure false
            | true => exact ih
      intro w a w' href h
      obtain ⟨href', hvisited, h'⟩ := hround w a w' href h
      refine ⟨href', hvisited, .head ⟨.tick rfl, fun c hc => ?_⟩ h'⟩
      exact List.mem_singleton.mp hc ▸ (visited_start w).left hvisited

theorem implements_forEachWhile {f : ι → Script Bool} {g : ι → M Bool} (hf : ∀ i, Implements (f i) (g i)) (is : List ι) :
    Implements (forEachWhile f is) (Proc.forEachWhile g is) := by
  induction is with
  | nil => exact implements_pure true
  | cons i is ih =>
      refine implements_bind (hf i) fun on => ?_
      cases on with
      | false => exact implements_pure false
      | true => exact ih

theorem implements_foldlM {f : β → ι → Script β} {g : β → ι → M β} (hf : ∀ b i, Implements (f b i) (g b i))
    (is : List ι) (b : β) : Implements (is.foldlM f b) (is.foldlM g b) := by
  induction is generalizing b with
  | nil => exact implements_pure b
  | cons i is ih => exact implements_bind (hf b i) fun b' => ih b'

/-- A mark is not a step of the process. -/
theorem implements_mark {p : Script α} {m : M α} (a : Act) (h : Implements p m) :
    Implements p (do mark a; m) := fun w b w' href hm => by
  let w₁ : World := ⟨w.cluster, w.storeNodeCount, w.sendBuff, w.receiveBuff, w.refusals, w.answers,
    ⟨a, w.cluster, w.cluster⟩ :: w.history⟩
  have hmark : Visited w w₁ w₁.cluster := visited_event rfl rfl
  obtain ⟨href', hvisited, h'⟩ := h w₁ b w' href hm
  exact ⟨href', hmark.right hvisited, Steps.mono h' fun c hc => hmark.right hc⟩

theorem implements_count {f : ℕ → Script α} {g : ℕ → M α} (h : ∀ n, Implements (f n) (g n)) :
    Implements (getCount >>= f) (Proc.get >>= fun w => g w.storeNodeCount) :=
  implements_bind (m := Proc.get >>= fun w => Pure.pure w.storeNodeCount) (implements_act _) h

/-! ## The functions -/

theorem implements_request (command : Bytes) (fd : ℕ) : Implements (request command fd) (DistRocks.request command fd) :=
  implements_bind (implements_act _) fun _ => implements_exchange fd _

theorem implements_getSize (fd : ℕ) : Implements (getSize fd) (DistRocks.getSize fd) :=
  implements_bind (implements_request _ fd) fun _ => implements_act _

theorem implements_getStoreLessOrEqualOne (fd : ℕ) :
    Implements (getStoreLessOrEqualOne fd) (DistRocks.getStoreLessOrEqualOne fd) :=
  implements_bind (implements_request _ fd) fun _ => implements_bind (implements_act _) fun _ => implements_pure _

theorem implements_pick (pass : Pass) (fd : ℕ) : Implements (pick pass fd) (pass.pick fd) := by
  cases pass <;> exact implements_bind (implements_request _ fd) fun _ => implements_act _

theorem implements_requestLog (fd : ℕ) (log : Log) : Implements (requestLog fd log) (DistRocks.requestLog fd log) :=
  implements_bind (implements_act _) fun _ => implements_bind (implements_exchange fd _) fun _ =>
    implements_bind (implements_act _) fun _ => implements_bind (implements_act _) fun _ =>
      implements_bind (implements_act _) fun _ => implements_pure _

theorem implements_rollback (i peer : ℕ) : Implements (rollback i peer) (DistRocks.rollback i peer) :=
  implements_bind (implements_act _) fun _ => implements_bind (implements_exchange i _) fun _ =>
    implements_exchange peer _

theorem implements_commitBoth (i peer : ℕ) : Implements (commitBoth i peer) (DistRocks.commitBoth i peer) :=
  implements_bind (implements_act _) fun _ => implements_bind (implements_exchange i _) fun _ =>
    implements_bind (implements_act _) fun _ => implements_ite (fun _ => implements_pure false) fun _ =>
      implements_bind (implements_exchange peer _) fun _ => implements_bind (implements_act _) fun _ => implements_pure _

theorem implements_migrate (pass : Pass) (i : ℕ) : Implements (migrate pass i) (DistRocks.migrate pass i) := by
  refine implements_bind (implements_pick pass i) fun e => ?_
  refine implements_bind (implements_requestLog i _) fun vote₁ => ?_
  refine implements_bind (implements_requestLog (pass.peer i) _) fun vote₂ => ?_
  have hrest : Implements (do
      act (moveMeta pass e.1 vote₁.2 vote₂.2) (local_moveMeta pass e.1 vote₁.2 vote₂.2)
      commitBoth i (pass.peer i)) (do
      moveMeta pass e.1 vote₁.2 vote₂.2
      DistRocks.commitBoth i (pass.peer i)) :=
    implements_bind (implements_act _) fun _ => implements_commitBoth i (pass.peer i)
  exact implements_ite (fun _ => implements_bind (implements_rollback i (pass.peer i)) fun _ => hrest) fun _ => hrest

theorem implements_totalSize : Implements totalSize DistRocks.totalSize :=
  implements_count fun _ => implements_foldlM (fun _ i => implements_bind (implements_getSize i) fun _ => implements_pure _) _ 0

section Balance
variable (F : Type) [Double F]

theorem implements_notTooMuch (fd : ℕ) (total_size : ℤ) (perfect : F) :
    Implements (notTooMuch F fd total_size perfect) (DistRocks.notTooMuch F fd total_size perfect) :=
  implements_bind (implements_getSize fd) fun _ => implements_ite (fun _ => implements_pure true)
    fun _ => implements_getStoreLessOrEqualOne fd

theorem implements_drain (pass : Pass) (total_size_x : ℤ) (perfect : F) (i : ℕ) :
    Implements (drain F pass total_size_x perfect i) (DistRocks.drain F pass total_size_x perfect i) := by
  intro w a w' href h
  -- the bound on the rounds is read off the store, which the process does not see
  exact implements_loop (implements_mark (.iteration pass i)
    (implements_bind (implements_notTooMuch F i total_size_x perfect) fun _ => implements_pure _))
    (implements_migrate pass i) _ w a w' href h

theorem implements_runPass (pass : Pass) (total_size_x : ℤ) (perfect : F) :
    Implements (runPass F pass total_size_x perfect) (DistRocks.runPass F pass total_size_x perfect) :=
  implements_count fun _ => implements_forEachWhile (fun i => implements_drain F pass total_size_x perfect i) _

theorem implements_showMeta : Implements showMeta DistRocks.showMeta := by
  have hshow : ∀ e : Bytes × Bytes, Implements (do
      let c ← lift (ControlMeta.ofSlice e.2)
      let fd ← act (DistRocks.fdOf c) (local_fdOf c)
      let _ ← getSize fd
      return true) (do
      let c ← Proc.lift (ControlMeta.ofSlice e.2)
      let _ ← DistRocks.getSize (← DistRocks.fdOf c)
      return true) := fun e =>
    implements_bind (implements_act _) fun c => implements_bind (implements_act _) fun fd =>
      implements_bind (implements_getSize fd) fun _ => implements_pure true
  exact implements_bind (m := Proc.get >>= fun w => Pure.pure w.cluster.metaDb.newIterator)
    (g := fun it => Proc.forEachWhile _ it.snapshot.entries >>= fun _ => Pure.pure ()) (implements_act _)
    fun it => implements_bind (implements_forEachWhile hshow _) fun _ => implements_pure ()

theorem implements_reBalance : Implements (reBalance F) (DistRocks.reBalance F) := by
  refine implements_bind implements_totalSize fun total => ?_
  have hpasses : ∀ n, Implements (do
      if ← runPass F .forward total (perfectShare F n) then
        if ← runPass F .backward total (perfectShare F n) then
          showMeta) (do
      if ← DistRocks.runPass F .forward total (perfectShare F n) then
        if ← DistRocks.runPass F .backward total (perfectShare F n) then
          DistRocks.showMeta) := fun n => by
    refine implements_bind (implements_runPass F .forward total _) fun on => ?_
    refine implements_ite (fun _ => ?_) fun _ => implements_pure ()
    exact implements_bind (implements_runPass F .backward total _) fun on =>
      implements_ite (fun _ => implements_showMeta) fun _ => implements_pure ()
  exact implements_count hpasses

end Balance

theorem implements_putUpdate (key value : Bytes) : Implements (putUpdate key value) (DistRocks.putUpdate key value) := by
  refine implements_bind (implements_act _) fun len => implements_bind (implements_act _) fun it => ?_
  refine implements_bind (implements_act _) fun c => implements_bind (implements_act _) fun fd => ?_
  refine implements_bind (implements_exchange fd len) fun _ => implements_bind (implements_act _) fun ans => ?_
  refine implements_ite (fun _ => ?_) fun _ => implements_pure ()
  exact implements_bind (implements_act _) fun _ => implements_bind (implements_request _ fd) fun _ =>
    implements_bind (implements_act _) fun _ => implements_pure ()

theorem implements_delUpdate (key : Bytes) : Implements (delUpdate key) (DistRocks.delUpdate key) := by
  refine implements_bind (implements_act _) fun len => implements_bind (implements_act _) fun it => ?_
  refine implements_bind (implements_act _) fun c => implements_bind (implements_act _) fun fd => ?_
  refine implements_bind (implements_exchange fd len) fun _ => implements_bind (implements_act _) fun ans => ?_
  refine implements_ite (fun _ => ?_) fun _ => implements_pure ()
  refine implements_bind (implements_act _) fun _ => implements_bind (implements_act _) fun _ => ?_
  exact implements_bind (implements_act _) fun _ => implements_bind (implements_request _ fd) fun _ =>
    implements_bind (implements_act _) fun _ => implements_pure ()

theorem implements_getCommand (key : Bytes) : Implements (getCommand key) (DistRocks.getCommand key) := by
  refine implements_bind (implements_act _) fun it => implements_bind (implements_act _) fun c => ?_
  refine implements_bind (implements_act _) fun fd => implements_bind (implements_act _) fun len => ?_
  exact implements_bind (implements_exchange fd len) fun _ => implements_bind (implements_act _) fun _ =>
    implements_act _

/-- What lies in the send buffer after a message is assembled. -/
theorem assembled {p : M ℕ} {msg : Bytes} {len : ℕ} (hp : p = assemble msg) (h : p w = (.ok len, w')) :
    msg.length ≤ MAXLINE ∧ w'.sendBuff.bytes.take len = msg ∧ w'.storeNodeCount = w.storeNodeCount := by
  subst hp
  have hends := ends_assemble (w := w) (Q := fun len w₁ => msg.length ≤ MAXLINE ∧ w₁.sendBuff.bytes.take len = msg ∧
    w₁.storeNodeCount = w.storeNodeCount) (H := fun _ _ => True) msg (fun _ hlen htake => ⟨hlen, htake, rfl⟩) fun _ => trivial
  exact hends.of_eq h

theorem assembleStrs_test (s : Bytes) : DistRocks.assembleStrs [TEST, s] = assemble (Request.test s).message := by
  rw [assembleStrs_eq]
  simp [Request.message]

theorem implements_testCommand (s : Bytes) : Implements (testCommand s) (DistRocks.testCommand s) := by
  intro w a w' href h
  rcases hasm : DistRocks.assembleStrs [TEST, s] w with ⟨_ | len, w₁⟩
  · rw [DistRocks.testCommand, bind_run_error hasm] at h
    cases h
  obtain ⟨href₁, hvisited₁, h₁⟩ := implements_act (local_assembleStrs [TEST, s]) w len w₁ href hasm
  obtain ⟨hlen, hmsg, -⟩ := assembled (assembleStrs_test s) hasm
  have htake := (w₁.cluster.stores 0).take_test hlen
  rw [DistRocks.testCommand, bind_run hasm, DistRocks.post, get_bind_run] at h
  by_cases hcount : 0 < w₁.storeNodeCount
  · rw [if_pos hcount, hmsg, StoreImpl.serve_test _ hlen, lift_ok_bind_run] at h
    have hpost : Visited w₁ w' w'.cluster := by
      cases h
      exact visited_event rfl rfl
    cases h
    have hmove : move (Script.post 0 len, w₁.own) = .post 0 (Request.test s).message (.pure (), w₁.own) := by
      simp only [move, next]
      rw [if_pos (show 0 < w₁.own.storeNodeCount from hcount), show w₁.own.sendBuff.bytes.take len = _ from hmsg]
    have hfirst := Steps.mono h₁ fun c hc => hc.left hpost
    have hlast := hvisited₁.left hpost
    exact ⟨href₁, hvisited₁.right hpost, (Steps.bind (fun len => Script.post 0 len) hfirst hlast).tail
      ⟨.post hmove htake, fun c hc => List.mem_singleton.mp hc ▸ hlast⟩⟩
  · rw [if_neg hcount] at h
    cases h

theorem implements_exec (F : Type) [Double F] (c : Command) : Implements (exec F c) (c.exec F) := by
  cases c with
  | quit | other _ => exact implements_pure ()
  | test s => exact implements_testCommand s
  | put key value => exact implements_bind (implements_putUpdate key value) fun _ => implements_reBalance F
  | get key => exact implements_getCommand key
  | del key =>
      exact implements_ite (fun _ => implements_pure ()) fun _ =>
        implements_bind (implements_delUpdate key) fun _ => implements_reBalance F

/-- The console as a process does what it does with the stores at hand. -/
theorem implements_run (F : Type) [Double F] (cs : List Command) : Implements (run F cs) (DistRocks.run F cs) := by
  induction cs with
  | nil => exact implements_mark .command (m := Pure.pure ()) (implements_pure ())
  | cons c cs ih =>
      cases c with
      | quit => exact implements_mark .command (m := Pure.pure ()) (implements_pure ())
      | _ => exact implements_mark .command (implements_bind (implements_exec F _) fun _ => ih)

end Script

/-! ## Every order of steps -/

/-- The control node at its first prompt and the stores, with nothing in flight. -/
def World.net (F : Type) [Double F] (cs : List Command) (w : World) : Net ℕ Bytes StoreImpl (Script Unit × Own) :=
  .start ((Script.run F cs, w.own), w.cluster.stores)

/-- The control node and the stores of the world `w` behind its commands, with nothing in flight. -/
def World.ended (w : World) : Net ℕ Bytes StoreImpl (Script Unit × Own) :=
  ⟨.ready (.pure (), w.own), w.cluster.stores, [], []⟩

/-- In whatever order the control node and the stores take their steps, and however long messages are on their way: the
commands end as they do with one exchange at a time. The cluster cannot run for ever nor get stuck before that, and no two
answers are ever on their way. -/
theorem run_interleaved (F : Type) [Double F] {cs : List Command} {w : World} (href : w.refusals = [])
    (hrun : (run F cs w).1 = .ok ()) :
    ∃ bound, ∀ l c, Net.Run Script.move StoreImpl.take l (w.net F cs) c →
      l ≤ bound ∧ c.replies.length ≤ 1 ∧
        (c = (run F cs w).2.ended ∨ ∃ c', Net.Step Script.move StoreImpl.take c c') := by
  obtain ⟨-, -, hsteps⟩ := Script.implements_run F cs w () (run F cs w).2 href (Prod.ext hrun rfl)
  obtain ⟨n, hends⟩ := Direct.Ends.of_steps (Script.Steps.direct hsteps) rfl
  exact ⟨3 * n, fun l c hc => Net.outcome hends hc⟩

/-- A `test` between the commands: store 0 may read it while the control node is at later commands. -/
def probeCommands : List Command :=
  [.put (text "a") (text "x"), .test (text "hello"), .put (text "b") (text "y"), .get (text "a")]

theorem run_interleaved_twoStores :
    ∃ bound, ∀ l c, Net.Run Script.move StoreImpl.take l (twoStores.net ℚ probeCommands) c →
      l ≤ bound ∧ c.replies.length ≤ 1 ∧
        (c = (run ℚ probeCommands twoStores).2.ended ∨ ∃ c', Net.Step Script.move StoreImpl.take c c') :=
  run_interleaved ℚ twoStores_fresh.refusals (by decide +kernel)

end DistRocks
