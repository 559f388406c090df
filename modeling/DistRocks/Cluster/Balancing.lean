import DistRocks.Cluster.Sim
import Mathlib.Logic.Relation

/-!
# Balancing as a sequence of migrations

* `Calm` : what `notTooMuch` decides of a node;
* `Sim.migrate` : one round of a loop of `reBalance` is the plan of a migration;
* `Rest` : a world between two plans; `Moves`, `Round`, `Drained`, `Sweeps` : what a migration, a round, a loop and a pass
  make of a view, with what a pass leaves alone (`Sweeps.node_eq`) and what it leaves calm (`Sweeps.calm_of_mem`);
* `Origin.rounds` : where the loops of `reBalance` are looked at from;
* `ends_runPass` : the rule for a pass;
* `Rest.drain`, `Rest.runPass`, `Rest.reBalance` : the loops end, with every drained node calm.
-/

namespace DistRocks

open ConstValues Proc

variable {n : ℕ} {O : Origin} {V V' : View} {σ : Stage} {answers : List Bytes} {w : World}

section Calm
variable (F : Type) [Double F]

/-- The node holds no more than its share, or one key at most. -/
def Calm (total_size : ℤ) (perfect : F) (nd : Node) : Prop :=
  (Int.cast (wrapInt nd.size) : F) / (Int.cast total_size + 0.000001) ≤ perfect + 0.01 ∨ nd.data.entries.length ≤ 1

end Calm

/-! ## The pair of a round -/

/-- The request for the pair that a round moves. -/
def Pass.question : Pass → Request
  | forward => .maxKey
  | backward => .minKey

theorem Pass.pick_eq (pass : Pass) (i : ℕ) :
    pass.pick i = (call i pass.question.message >>= fun _ => receivedPair) := by
  cases pass with
  | forward => exact getMaxStore_eq i
  | backward => exact getMinStore_eq i

theorem Node.answer_question (nd : Node) {pass : Pass} {k v : Bytes} (hpick : pass.extreme? nd.data = some (k, v)) :
    nd.answer pass.question.asRead = some (.pair k v) := by
  cases pass with
  | forward =>
      have hmax : nd.storeData.getMaxKey = (k, v) := by
        simp only [StoreData.getMaxKey, Cursor.seekToLast]
        rw [show nd.storeData.dbHandle.newIterator.snapshot.last? = some (k, v) from hpick]
      exact congrArg (fun e => some (Value.pair e.1 e.2)) hmax
  | backward =>
      have hmin : nd.storeData.getMinKey = (k, v) := by
        simp only [StoreData.getMinKey, Cursor.seekToFirst]
        rw [show nd.storeData.dbHandle.newIterator.snapshot.first? = some (k, v) from hpick]
      exact congrArg (fun e => some (Value.pair e.1 e.2)) hmin

/-- A pair that is stored can be sent. -/
theorem Log.Carried.pair_fits {k v : Bytes} (h : (Log.mk .put k v).Carried) :
    (Value.pair k v).message.length ≤ MAXLINE := by
  have hlen := h.fits
  simp only [Value.message, List.length_append, length_encStr, Log.length_encLog] at hlen ⊢
  omega

namespace Sim

/-! ## Questions -/

theorem getSize (h : Sim n O σ answers w) {fd : ℕ} (hfd : fd < n) {H : Fault → World → Prop} :
    Ends (DistRocks.getSize fd) w (fun a w' => a = wrapInt (σ.view.node fd).size ∧ Sim n O σ answers w') H := by
  have hfit : (Value.int (σ.view.node fd).size).message.length ≤ MAXLINE := by
    rw [Value.message, length_intToBytes]
    decide
  rw [getSize_eq]
  refine (h.call_read (q := .size) hfd trivial (by decide) rfl hfit).bind fun _ w₁ h₁ => ?_
  exact Ends.of_run h₁.2.int ⟨rfl, h₁.1⟩

theorem getStoreLessOrEqualOne (h : Sim n O σ answers w) {fd : ℕ} (hfd : fd < n) {H : Fault → World → Prop} :
    Ends (DistRocks.getStoreLessOrEqualOne fd) w
      (fun b w' => (b = true ↔ (σ.view.node fd).data.entries.length ≤ 1) ∧ Sim n O σ answers w') H := by
  have hfit : ∀ b, (Value.flag b).message.length ≤ MAXLINE := by decide
  rw [getStoreLessOrEqualOne_eq]
  refine (h.call_read (q := .lessOrEqualOne) hfd trivial (by decide) rfl (hfit _)).bind fun _ w₁ h₁ => ?_
  exact Ends.of_run h₁.2.flag ⟨DBHandle.storeLessOrEqualOne_iff _, h₁.1⟩

theorem notTooMuch (F : Type) [Double F] (h : Sim n O σ answers w) {fd : ℕ} (hfd : fd < n) (total_size : ℤ) (perfect : F)
    {H : Fault → World → Prop} :
    Ends (DistRocks.notTooMuch F fd total_size perfect) w
      (fun b w' => (b = true ↔ Calm F total_size perfect (σ.view.node fd)) ∧ Sim n O σ answers w') H := by
  rw [DistRocks.notTooMuch]
  refine (h.getSize hfd).bind fun a w₁ h₁ => ?_
  obtain ⟨rfl, h₁⟩ := h₁
  simp only
  split_ifs with hle
  · exact ⟨⟨fun _ => Or.inl hle, fun _ => rfl⟩, h₁⟩
  · refine (h₁.getStoreLessOrEqualOne hfd).mono (fun b w₂ h₂ => ⟨h₂.1.trans ?_, h₂.2⟩) fun _ _ he => he
    exact ⟨Or.inr, fun hcalm => hcalm.resolve_left hle⟩

theorem pick (h : Sim n O σ answers w) (pass : Pass) {i : ℕ} {k v : Bytes} (hi : i < n)
    (hpick : pass.extreme? (σ.view.node i).data = some (k, v)) (hkv : (Log.mk .put k v).Carried)
    {H : Fault → World → Prop} :
    Ends (pass.pick i) w (fun e w' => e = (k, v) ∧ Sim n O σ answers w') H := by
  have hlen : pass.question.message.length ≤ MAXLINE := by cases pass <;> decide
  have hreads : pass.question.Reads := by cases pass <;> trivial
  rw [Pass.pick_eq]
  refine (h.call_read hi hreads hlen ((σ.view.node i).answer_question hpick) hkv.pair_fits).bind fun _ w₁ h₁ => ?_
  exact Ends.of_run (h₁.2.pair hkv.nulFree.key hkv.nulFree.value) ⟨rfl, h₁.1⟩

/-! ## One migration -/

theorem requestLog (h : Sim n O σ answers w) {fd : ℕ} {r : Log} {p : List Change} (hfd : fd < n) (hr : r.Carried)
    (hrec : r.recorded = r) (hkey : r.key ≠ [])
    (hstored : ∀ e ∈ (σ.view.node fd).data.entries, e.1 ≠ [] ∧ (Log.mk .put e.1 e.2).Carried)
    (hp : Allowed n σ.base σ.mark p) (hpre : σ.made ++ [.log fd r] <+: p) :
    Ends (DistRocks.requestLog fd r) w
      (fun ans w' => ans = (OK, keyEnds (r.apply (σ.view.node fd).data)) ∧ Sim n O (σ.make [.log fd r]) answers w')
      (Stopped n O answers σ.mark σ.base p) := by
  rw [requestLog_eq]
  refine (h.call_log hfd hr hrec hkey (fun e he => (hstored e he).1) hp hpre).bind fun _ w₁ h₁ => ?_
  have hends := nulFree_keyEnds fun e he => (hr.apply hkey hstored e he).2.nulFree.key
  obtain ⟨rec, rec', rest, hans, hlo, hhi⟩ := h₁.2.vote (by decide) hends.1 hends.2
  exact Ends.of_run (receivedVote_of hans hlo hhi) ⟨rfl, h₁.1⟩

end Sim

theorem ControlMeta.withBounds_eq {c : ControlMeta} {lo hi : Bytes} (hlo : lo ≠ []) (hhi : hi ≠ []) :
    c.withBounds lo hi = ⟨lo, hi, c.virtual_fd⟩ := by
  simp [withBounds, hlo, hhi]

/-- The event asks node `i` for the pair that a round of the pass moves. -/
def Act.Picks (pass : Pass) (i : ℕ) (a : Act) : Prop := a = .exchange i pass.question.message

theorem Pass.pick_event (pass : Pass) (i : ℕ) (w : World) :
    Ends (pass.pick i) w (fun _ w' => ∃ x, w'.history = x :: w.history ∧ x.act.Picks pass i ∧ x.before = w.cluster)
      (fun _ _ => True) := by
  have hread : ∀ w, Ends receivedPair w (fun _ w' => w' = w) (fun _ _ => True) := by
    intro w
    simp only [receivedPair, receivedStr, ends_bind, ends_get]
    cases getStringFromBuff w.receiveBuff.bytes with
    | error e => trivial
    | ok a =>
        simp only [ends_lift_ok]
        cases getStringFromBuff a.2 <;> trivial
  have hlen : pass.question.message.length ≤ MAXLINE := by cases pass <;> decide
  rw [Pass.pick_eq]
  refine (call_event hlen).bind fun _ w₁ h₁ => ?_
  obtain ⟨c, h₁⟩ := h₁
  refine (hread w₁).mono (fun _ w₂ h₂ => ?_) fun _ _ he => he
  rw [h₂]
  exact ⟨_, h₁, rfl, rfl⟩

/-- Beside the entry of node `i` stands the entry of its neighbour. -/
theorem Pass.advance_current {pass : Pass} {i : ℕ} {T : Spans Bytes} {s t : Bytes × Bytes} {it : Iterator}
    (hindex : Spans.Indexes encSpan it.snapshot T) (hadj : pass.Adjacent n i) (hs : T.span i = some s)
    (ht : T.span (pass.peer i) = some t) (hat : it.current = some (s.1, encSpan i s)) :
    (pass.advance it).current = some (t.1, encSpan (pass.peer i) t) := by
  cases pass with
  | forward =>
      rw [Pass.advance, Cursor.next, hat]
      show it.snapshot.entryGT? s.1 = _
      exact hindex.next hs ht
  | backward =>
      obtain ⟨j, rfl⟩ := Nat.exists_eq_succ_of_ne_zero hadj.1.ne'
      rw [Pass.advance, Cursor.prev, hat]
      show it.snapshot.entryLT? s.1 = _
      exact hindex.prev hs ht

namespace Sim

/-- The two entries of a migration take their new bounds, as the next four changes of its plan. -/
theorem moveMeta (h : Sim n O σ answers w) {pass : Pass} {i : ℕ} {k : Bytes} {s t b₁ b₂ : Bytes × Bytes} {p : List Change}
    (hadj : pass.Adjacent n i) (hs : σ.view.table.span i = some s) (ht : σ.view.table.span (pass.peer i) = some t)
    (hk : s.1 ≤ k ∧ k ≤ s.2) (hsound₁ : (ControlMeta.mk s.1 s.2 i).Sound)
    (hsound₂ : (ControlMeta.mk t.1 t.2 (pass.peer i : ℕ)).Sound) (hb₁ : b₁.1 ≠ [] ∧ b₁.2 ≠ [])
    (hb₂ : b₂.1 ≠ [] ∧ b₂.2 ≠ []) (hnul₁ : NulFree b₁.1 ∧ NulFree b₁.2) (hnul₂ : NulFree b₂.1 ∧ NulFree b₂.2)
    (hp : Allowed n σ.base σ.mark p)
    (hpre : σ.made ++ [.unfile i, .file i b₁, .unfile (pass.peer i), .file (pass.peer i) b₂] <+: p) :
    Ends (DistRocks.moveMeta pass k b₁ b₂) w (fun _ w' =>
        Sim n O (σ.make [.unfile i, .file i b₁, .unfile (pass.peer i), .file (pass.peer i) b₂]) answers w')
      (Stopped n O answers σ.mark σ.base p) := by
  have hpre₁ : σ.made ++ [.unfile i, .file i b₁] <+: p :=
    List.IsPrefix.trans ⟨[.unfile (pass.peer i), .file (pass.peer i) b₂], by simp⟩ hpre
  obtain ⟨m, it, hindex, hsearch, hsnap, hcur⟩ := h.searchMeta k
  have hat := hcur.trans (hindex.locate_of_mem hs hk.1 hk.2)
  have hnext := Pass.advance_current (hsnap ▸ hindex) hadj hs ht hat
  rw [DistRocks.moveMeta, ends_run hsearch, ends_run (metaOf_eq hat hsound₁), ControlMeta.withBounds_eq hb₁.1 hb₁.2]
  refine (h.rewriteMeta hat hs hp hpre₁ hnul₁ hsound₁.virtual_fd.2).bind fun _ w₁ h₁ => ?_
  rw [ends_run (metaOf_eq hnext hsound₂), ControlMeta.withBounds_eq hb₂.1 hb₂.2]
  have ht' : (σ.make [.unfile i, .file i b₁]).view.table.span (pass.peer i) = some t := by
    simpa [View.change, Spans.span_put_of_ne _ _ hadj.peer_ne, hadj.peer_ne] using ht
  have hpre₂ : (σ.make [.unfile i, .file i b₁]).made ++ [.unfile (pass.peer i), .file (pass.peer i) b₂] <+: p := by
    simpa [Stage.make] using hpre
  refine (h₁.1.rewriteMeta hnext ht' hp hpre₂ hnul₂ hsound₂.virtual_fd.2).mono (fun _ w₂ h₂ => ?_) fun _ _ he => he
  simpa using h₂.1

/-- Both commits, as the next two changes of a plan. -/
theorem commitBoth (h : Sim n O σ answers w) {i j : ℕ} {p : List Change} {H : Fault → World → Prop} (hi : i < n)
    (hj : j < n) (hp : Allowed n σ.base σ.mark p) (hpre : σ.made ++ [.commit i, .commit j] <+: p) :
    Ends (DistRocks.commitBoth i j) w
      (fun on w' => on = true ∧ Sim n O (σ.make [.commit i, .commit j]) answers w') H := by
  have hlen : Request.commitLog.message.length ≤ MAXLINE := by decide
  have hpre₁ : σ.made ++ [.commit i] <+: p := List.IsPrefix.trans ⟨[.commit j], by simp⟩ hpre
  have hpre₂ : (σ.make [.commit i]).made ++ [.commit j] <+: p := by simpa [Stage.make] using hpre
  rw [DistRocks.commitBoth, assembleStrs_eq, List.flatMap_singleton]
  refine (h.assemble hlen).bind fun len w₁ h₁ => ?_
  obtain ⟨-, htake, h₁, -⟩ := h₁
  refine (h₁.exchange_commit hi htake hp hpre₁).bind fun _ w₂ h₂ => ?_
  obtain ⟨h₂, hgot, hsend⟩ := h₂
  obtain ⟨rest, hans⟩ := hgot.str (by decide)
  rw [ends_run hans]
  simp only [ne_eq, not_true_eq_false, if_false]
  refine (h₂.exchange_commit hj (by rw [hsend]; exact htake) hp hpre₂).bind fun _ w₃ h₃ => ?_
  obtain ⟨h₃, hgot, -⟩ := h₃
  obtain ⟨rest, hans⟩ := hgot.str (by decide)
  rw [ends_run hans, ends_pure]
  exact ⟨decide_eq_true rfl, by simpa using h₃⟩

/-- Once the pair is known, a round carries out the plan of a migration. -/
theorem migrateRest {pass : Pass} {i : ℕ} {k v : Bytes} (h : Sim n O ⟨.iteration pass i, V, []⟩ answers w)
    (hmove : Movable n pass i k v V) :
    Ends (do
      let (ans₁, b₁) ← DistRocks.requestLog i { kind := .delete, key := k }
      let (ans₂, b₂) ← DistRocks.requestLog (pass.peer i) { kind := .put, key := k, value := v }
      let can_commit := ans₁ = OK ∧ ans₂ = OK
      if ¬can_commit then rollback i (pass.peer i)
      DistRocks.moveMeta pass k b₁ b₂
      DistRocks.commitBoth i (pass.peer i)) w
      (fun on w' => on = true ∧ Sim n O ⟨.iteration pass i, V, movePlan V pass i k v⟩ answers w')
      (Stopped n O answers (.iteration pass i) V (movePlan V pass i k v)) := by
  have hV : Placed n V := h.valid.placed
  have hi := hmove.adjacent.lt
  have hj := hmove.adjacent.peer_lt
  have hp : Allowed n V (.iteration pass i) (movePlan V pass i k v) := .move hmove
  obtain ⟨hkey, hput⟩ := hV.stored hi _ hmove.mem
  have hdel := hput.delete
  obtain ⟨s, hs⟩ := hV.exists_span hi
  obtain ⟨t, ht⟩ := hV.exists_span hj
  refine (h.requestLog hi hdel rfl hkey (hV.stored hi) hp ⟨_, rfl⟩).bind fun _ w₂ h₂ => ?_
  obtain ⟨rfl, h₂⟩ := h₂
  have hpeer : ((Stage.mk (.iteration pass i) V []).make [.log i ⟨.delete, k, []⟩]).view.node (pass.peer i) =
      V.node (pass.peer i) := by
    simp [Stage.view, Stage.make, View.change, hmove.adjacent.peer_ne]
  refine (h₂.requestLog (r := ⟨.put, k, v⟩) hj hput rfl hkey (hpeer ▸ hV.stored hj) hp ⟨_, rfl⟩).bind fun _ w₃ h₃ => ?_
  obtain ⟨rfl, h₃⟩ := h₃
  rw [hpeer]
  simp only [and_self, not_true_eq_false, if_false]
  -- both nodes have announced the ends of what they will hold
  have hsrc := hdel.apply hkey (hV.stored hi)
  have hdst := hput.apply hkey (hV.stored hj)
  have hne₁ := hmove.source_ne_nil
  have hne₂ := OrdMap.insert_ne_nil (V.node (pass.peer i)).data k v
  refine (h₃.moveMeta hmove.adjacent hs ht (hV.within hs _ hmove.mem) (hV.sound hs) (hV.sound ht)
    (keyEnds_of_forall (P := (· ≠ [])) hne₁ fun e he => (hsrc e he).1)
    (keyEnds_of_forall (P := (· ≠ [])) hne₂ fun e he => (hdst e he).1)
    (nulFree_keyEnds fun e he => (hsrc e he).2.nulFree.key) (nulFree_keyEnds fun e he => (hdst e he).2.nulFree.key) hp
    ⟨_, rfl⟩).bind fun _ w₄ h₄ => ?_
  exact h₄.commitBoth hi hj hp ⟨[], rfl⟩

/-- One round of a loop carries out the plan of a migration. When it stops, the pair was asked for at the view where the
round began. -/
theorem migrate {pass : Pass} {i : ℕ} {k v : Bytes} (h : Sim n O ⟨.iteration pass i, V, []⟩ answers w)
    (hmove : Movable n pass i k v V) :
    Ends (DistRocks.migrate pass i) w
      (fun on w' => on = true ∧ Sim n O ⟨.iteration pass i, V, movePlan V pass i k v⟩ answers w')
      (fun e w' => Stopped n O answers (.iteration pass i) V (movePlan V pass i k v) e w' ∧
        ∃ x ∈ w'.history, x.act.Picks pass i ∧ Shows n x.before V) := by
  have hput := (h.valid.placed.stored hmove.adjacent.lt _ hmove.mem).2
  rw [DistRocks.migrate]
  refine (((h.pick pass hmove.adjacent.lt hmove.picked hput (H := fun _ _ => False)).and (pass.pick_event i w)).mono
    (fun _ _ hq => hq) fun _ _ he => he.1.elim).bind fun _ w₁ h₁ => ?_
  obtain ⟨⟨rfl, h₁⟩, x, hx, hpicks, hbefore⟩ := h₁
  -- what comes after the question is seen from there too
  have hrest := (h₁.migrateRest hmove).and ((h₁.rebase h₁.valid rfl O.marks).migrateRest hmove)
  refine hrest.mono (fun _ _ hq => hq.1) fun e w₂ he => ⟨he.1, x, ?_, hpicks, hbefore ▸ h.shows⟩
  obtain ⟨-, made, c, hsim, -⟩ := he.2
  obtain ⟨new, hnew, -⟩ := hsim.traced
  rw [hnew, hx]
  exact List.mem_append_right _ List.mem_cons_self

end Sim

/-! ## The loops -/

/-- Between two plans, with the nodes as `V` has them. -/
def Rest (n : ℕ) (O : Origin) (answers : List Bytes) (V : View) (w : World) : Prop :=
  ∃ σ, Sim n O σ answers w ∧ σ.Complete n ∧ σ.view = V

/-- A run that ended in the middle of a migration, whose pair was asked for at the view where it began. -/
def MoveStopped (n : ℕ) (O : Origin) (answers : List Bytes) (e : Fault) (w : World) : Prop :=
  ∃ V pass i k v, Movable n pass i k v V ∧ Stopped n O answers (.iteration pass i) V (movePlan V pass i k v) e w ∧
    ∃ x ∈ w.history, x.act.Picks pass i ∧ Shows n x.before V

/-- One migration out of node `i`. -/
def Moves (n : ℕ) (pass : Pass) (i : ℕ) (V V' : View) : Prop :=
  ∃ k v, Movable n pass i k v V ∧ (∀ c ∈ movePlan V pass i k v, c.Sound) ∧ V' = V.after (movePlan V pass i k v)

/-- A round of the loop for node `i`: it is not calm, and one pair goes to its neighbour. -/
def Round (n : ℕ) (pass : Pass) (calm : Node → Prop) (i : ℕ) (V V' : View) : Prop :=
  ¬calm (V.node i) ∧ Moves n pass i V V'

/-- Migrations out of node `i`, until it is calm. -/
def Drained (n : ℕ) (pass : Pass) (calm : Node → Prop) (i : ℕ) (V V' : View) : Prop :=
  Relation.ReflTransGen (Round n pass calm i) V V' ∧ calm (V'.node i)

/-- The nodes of a list are drained in turn. -/
inductive Sweeps (n : ℕ) (pass : Pass) (calm : Node → Prop) : List ℕ → View → View → Prop
  | nil {V : View} : Sweeps n pass calm [] V V
  | cons {i : ℕ} {is : List ℕ} {V V' V'' : View} (hi : Drained n pass calm i V V') (his : Sweeps n pass calm is V' V'') :
      Sweeps n pass calm (i :: is) V V''

section Sweeps
variable {pass : Pass} {calm : Node → Prop} {i j : ℕ} {is : List ℕ}

theorem Drained.invariant {P : View → Prop} (hmove : ∀ {V V'}, P V → Moves n pass i V V' → P V')
    (h : Drained n pass calm i V V') (hP : P V) : P V' := by
  obtain ⟨hmoves, -⟩ := h
  induction hmoves with
  | refl => exact hP
  | tail _ hstep ih => exact hmove ih hstep.2

/-- What every migration keeps, a pass keeps. -/
theorem Sweeps.invariant {P : View → Prop} (hmove : ∀ {i V V'}, P V → Moves n pass i V V' → P V')
    (h : Sweeps n pass calm is V V') (hP : P V) : P V' := by
  induction h with
  | nil => exact hP
  | cons hi _ ih => exact ih (hi.invariant hmove hP)

theorem Moves.placed (h : Moves n pass i V V') (hV : Placed n V) : Placed n V' := by
  obtain ⟨k, v, hmove, hsound, rfl⟩ := h
  exact (Allowed.move hmove).placed hV hsound

/-- What migrations of placed nodes keep. -/
theorem Sweeps.keeps {P : View → Prop} (hmove : ∀ {i V V'}, Placed n V → Moves n pass i V V' → P V → P V')
    (h : Sweeps n pass calm is V V') (hV : Placed n V) (hP : P V) : Placed n V' ∧ P V' :=
  h.invariant (P := fun V => Placed n V ∧ P V) (fun hP hm => ⟨hm.placed hP.1, hmove hP.1 hm hP.2⟩) ⟨hV, hP⟩

/-- A migration leaves the other nodes alone. -/
theorem Moves.node_eq (h : Moves n pass i V V') (hi : j ≠ i) (hpeer : j ≠ pass.peer i) : V'.node j = V.node j := by
  obtain ⟨k, v, hmove, -, rfl⟩ := h
  rw [node_after_move hmove, Function.update_of_ne hpeer, Function.update_of_ne hi]

theorem Drained.node_eq (h : Drained n pass calm i V V') (hi : j ≠ i) (hpeer : j ≠ pass.peer i) :
    V'.node j = V.node j :=
  h.invariant (P := fun V' => V'.node j = V.node j) (fun hP hmove => (hmove.node_eq hi hpeer).trans hP) rfl

theorem Sweeps.node_eq (h : Sweeps n pass calm is V V') (his : ∀ i ∈ is, i ≠ j ∧ pass.peer i ≠ j) :
    V'.node j = V.node j := by
  induction h with
  | nil => rfl
  | cons hi _ ih =>
      obtain ⟨hne, hpeer⟩ := his _ List.mem_cons_self
      exact (ih fun i hi => his i (List.mem_cons_of_mem _ hi)).trans (hi.node_eq hne.symm hpeer.symm)

/-- A node that is calm when its turn ends stays so, if nothing goes to it afterwards. -/
theorem Sweeps.calm_of_mem (h : Sweeps n pass calm is V V') (his : is.Pairwise fun i i' => i' ≠ i ∧ pass.peer i' ≠ i) :
    ∀ i ∈ is, calm (V'.node i) := by
  induction h with
  | nil => exact fun i hi => absurd hi List.not_mem_nil
  | cons hi hrest ih =>
      obtain ⟨hfirst, his⟩ := List.pairwise_cons.mp his
      intro j hj
      rcases List.mem_cons.mp hj with rfl | hj
      · rw [hrest.node_eq hfirst]
        exact hi.2
      · exact ih his j hj

/-- A pass that moves anything starts at a node that is not calm. -/
theorem Sweeps.eq_or_not_calm (h : Sweeps n pass calm is V V') : V' = V ∨ ∃ i ∈ is, ¬calm (V.node i) := by
  induction h with
  | nil => exact Or.inl rfl
  | cons hi _ ih =>
      rcases hi.1.cases_head with rfl | ⟨V₁, hround, -⟩
      · rcases ih with rfl | ⟨j, hj, hcalm⟩
        · exact Or.inl rfl
        · exact Or.inr ⟨j, List.mem_cons_of_mem _ hj, hcalm⟩
      · exact Or.inr ⟨_, List.mem_cons_self, hround.1⟩

end Sweeps

theorem Pass.exists_extreme (pass : Pass) {m : OrdMap Bytes Bytes} (h : m.entries ≠ []) :
    ∃ k v, pass.extreme? m = some (k, v) := by
  obtain ⟨e, e', he, he'⟩ := exists_ends h
  cases pass with
  | forward => exact ⟨e'.1, e'.2, he'⟩
  | backward => exact ⟨e.1, e.2, he⟩

theorem Pass.Adjacent.exists_movable {pass : Pass} {i : ℕ} (hadj : pass.Adjacent n i)
    (htwo : 2 ≤ (V.node i).data.entries.length) : ∃ k v, Movable n pass i k v V := by
  have hne : (V.node i).data.entries ≠ [] := List.ne_nil_of_length_pos (by omega)
  obtain ⟨k, v, hpick⟩ := pass.exists_extreme hne
  exact ⟨k, v, hadj, hpick, htwo⟩

theorem Sim.rest (h : Sim n O σ answers w) (hσ : σ.Complete n) : Rest n O answers σ.view w := ⟨σ, h, hσ, rfl⟩

theorem Rest.count (h : Rest n O answers V w) : w.storeNodeCount = n := by
  obtain ⟨σ, hσ, -, -⟩ := h
  exact hσ.count

theorem Sim.entries (h : Sim n O σ answers w) {i : ℕ} (hi : i < n) :
    (w.cluster.stores i).storeData.dbHandle.db = (σ.view.node i).data := by
  rw [(h.shows.stores hi).data]
  rfl

/-- A migration takes one key out of its node. -/
theorem length_after_move {pass : Pass} {i : ℕ} {k v : Bytes} (h : Movable n pass i k v V) :
    ((V.after (movePlan V pass i k v)).node i).data.entries.length + 1 = (V.node i).data.entries.length := by
  rw [node_after_move h, Function.update_of_ne h.adjacent.peer_ne.symm, Function.update_self]
  exact OrdMap.length_erase h.mem

section Loops
variable {F : Type} [Double F] {pass : Pass} {i : ℕ}

/-- A node that is not calm has a pair to give away. -/
theorem exists_movable (hadj : pass.Adjacent n i) {total_size : ℤ} {perfect : F}
    (h : ¬Calm F total_size perfect (V.node i)) : ∃ k v, Movable n pass i k v V := by
  have htwo : 2 ≤ (V.node i).data.entries.length := not_le.mp fun hle => h (Or.inr hle)
  exact hadj.exists_movable htwo

theorem Rest.drain (h : Rest n O answers V w) (hO : ∀ i, O.marks (.iteration pass i)) (hadj : pass.Adjacent n i)
    (total_size : ℤ) (perfect : F) :
    Ends (DistRocks.drain F pass total_size perfect i) w
      (fun on w' => on = true ∧
        ∃ V', Drained n pass (Calm F total_size perfect) i V V' ∧ Rest n O answers V' w')
      (MoveStopped n O answers) := by
  rw [DistRocks.drain, ends_bind, ends_get]
  refine ends_repeatWhile
    (I := fun w => ∃ V', Relation.ReflTransGen (Round n pass (Calm F total_size perfect) i) V V' ∧ Rest n O answers V' w)
    (m := fun w => (w.cluster.stores i).storeData.dbHandle.db.entries.length) (fun w₁ hI => ?_) _ w ⟨V, .refl, h⟩
    (Nat.lt_succ_self _)
  obtain ⟨V₁, hmoves, σ, hσ, hcomplete, rfl⟩ := hI
  refine (hσ.mark hcomplete (a := .iteration pass i) trivial (hO i)).bind fun _ w₂ h₂ => ?_
  refine (h₂.1.notTooMuch F hadj.lt total_size perfect).bind fun calm w₃ h₃ => ?_
  obtain ⟨hcalm, h₃⟩ := h₃
  have hrest : Stage.Complete n ⟨.iteration pass i, σ.view, []⟩ := Or.inl rfl
  rw [ends_pure]
  cases calm with
  | true => exact ⟨rfl, σ.view, ⟨hmoves, hcalm.mp rfl⟩, h₃.rest hrest⟩
  | false =>
      have hrough : ¬Calm F total_size perfect (σ.view.node i) := fun hc => Bool.false_ne_true (hcalm.mpr hc)
      obtain ⟨k, v, hmove⟩ := exists_movable hadj hrough
      refine (h₃.migrate hmove).mono (fun on w₄ h₄ => ?_) fun _ _ he => ⟨σ.view, pass, i, k, v, hmove, he⟩
      obtain ⟨rfl, h₄⟩ := h₄
      have hdone := h₄.rest (Or.inr (.move hmove))
      refine ⟨⟨_, hmoves.tail ⟨hrough, k, v, hmove, h₄.valid.sound, rfl⟩, hdone⟩, ?_⟩
      show (w₄.cluster.stores i).storeData.dbHandle.db.entries.length <
        (w₁.cluster.stores i).storeData.dbHandle.db.entries.length
      rw [h₄.entries hadj.lt, hσ.entries hadj.lt]
      have hlen := length_after_move hmove
      simp only [Stage.view] at hlen ⊢
      omega

theorem Pass.adjacent_of_mem (h : i ∈ pass.nodes n) : pass.Adjacent n i := by
  cases pass with
  | forward =>
      have := List.mem_range.mp h
      exact show i + 1 < n by omega
  | backward =>
      rw [Pass.nodes, List.mem_reverse, List.mem_drop_iff_getElem] at h
      obtain ⟨j, hj, rfl⟩ := h
      simp only [List.length_range] at hj
      simp only [List.getElem_range]
      exact ⟨by omega, by omega⟩

/-- What every loop of a pass keeps, the pass keeps. -/
theorem ends_runPass {I : World → Prop} {H : Fault → World → Prop} {total_size : ℤ} {perfect : F}
    (hcount : w.storeNodeCount = n)
    (hdrain : ∀ i w, pass.Adjacent n i → I w →
      Ends (DistRocks.drain F pass total_size perfect i) w (fun on w' => on = true ∧ I w') H) (h : I w) :
    Ends (DistRocks.runPass F pass total_size perfect) w (fun on w' => on = true ∧ I w') H := by
  rw [DistRocks.runPass, ends_bind, ends_get, hcount]
  refine ends_forEachWhile (I := fun is w => (∀ i ∈ is, pass.Adjacent n i) ∧ I w) (fun i is w₁ hI => ?_)
    (fun w₁ hI => ⟨rfl, hI.2⟩) _ w ⟨fun i hi => Pass.adjacent_of_mem hi, h⟩
  obtain ⟨hadj, h₁⟩ := hI
  refine (hdrain i w₁ (hadj i List.mem_cons_self) h₁).mono (fun on w₂ h₂ => ?_) fun _ _ he => he
  obtain ⟨rfl, h₂⟩ := h₂
  exact ⟨fun j hj => hadj j (List.mem_cons_of_mem _ hj), h₂⟩

theorem Rest.runPass (h : Rest n O answers V w) {pass : Pass} (hO : ∀ i, O.marks (.iteration pass i))
    (total_size : ℤ) (perfect : F) :
    Ends (DistRocks.runPass F pass total_size perfect) w
      (fun on w' => on = true ∧
        ∃ V', Sweeps n pass (Calm F total_size perfect) (pass.nodes n) V V' ∧ Rest n O answers V' w')
      (MoveStopped n O answers) := by
  rw [DistRocks.runPass, ends_bind, ends_get, h.count]
  refine ends_forEachWhile (I := fun is w => (∀ i ∈ is, pass.Adjacent n i) ∧ ∃ V', Rest n O answers V' w ∧
    ∀ V'', Sweeps n pass (Calm F total_size perfect) is V' V'' →
      Sweeps n pass (Calm F total_size perfect) (pass.nodes n) V V'') (fun i is w₁ hI => ?_) (fun w₁ hI => ?_) _ w
    ⟨fun i hi => Pass.adjacent_of_mem hi, V, h, fun _ hs => hs⟩
  · obtain ⟨hadj, V₁, hrest, hsweeps⟩ := hI
    refine (hrest.drain hO (hadj i List.mem_cons_self) total_size perfect).mono (fun on w₂ h₂ => ?_) fun _ _ he => he
    obtain ⟨rfl, V₂, hdrained, hrest₂⟩ := h₂
    exact ⟨fun j hj => hadj j (List.mem_cons_of_mem _ hj), V₂, hrest₂, fun V'' hs => hsweeps V'' (.cons hdrained hs)⟩
  · obtain ⟨-, V₁, hrest, hsweeps⟩ := hI
    exact ⟨rfl, V₁, hsweeps V₁ .nil, hrest⟩

end Loops

/-! ## `reBalance` -/

/-- The sum that `reBalance` starts with. -/
def totalOf (n : ℕ) (V : View) : ℤ :=
  (List.range n).foldl (fun total_size_x i => wrapInt (total_size_x + wrapInt (V.node i).size)) 0

theorem Sim.totalSize (h : Sim n O σ answers w) {H : Fault → World → Prop} :
    Ends DistRocks.totalSize w (fun a w' => a = totalOf n σ.view ∧ Sim n O σ answers w') H := by
  rw [DistRocks.totalSize, ends_bind, ends_get, h.count]
  refine ends_foldlM (I := fun is a w => (∀ i ∈ is, i < n) ∧ Sim n O σ answers w ∧
    is.foldl (fun total_size_x i => wrapInt (total_size_x + wrapInt (σ.view.node i).size)) a = totalOf n σ.view)
    (fun i is a w₁ hI => ?_) (fun a w₁ hI => ⟨hI.2.2, hI.2.1⟩) _ _ w ⟨fun i => List.mem_range.mp, h, rfl⟩
  obtain ⟨hlt, h₁, hsum⟩ := hI
  refine (h₁.getSize (hlt i List.mem_cons_self)).bind fun s w₂ h₂ => ?_
  obtain ⟨rfl, h₂⟩ := h₂
  exact ⟨fun j hj => hlt j (List.mem_cons_of_mem _ hj), h₂, hsum⟩

theorem Sim.showMeta (h : Sim n O σ answers w) (hV : Placed n σ.view) {H : Fault → World → Prop} :
    Ends DistRocks.showMeta w (fun _ w' => Sim n O σ answers w') H := by
  obtain ⟨m, hm, hindex⟩ := h.shows.index
  rw [DistRocks.showMeta, ends_bind, ends_get, hm, ends_bind]
  refine (ends_forEachWhile (I := fun es w => (∀ e ∈ es, e ∈ m.entries) ∧ Sim n O σ answers w)
    (Q := fun _ w => Sim n O σ answers w) (fun e es w₁ hI => ?_) (fun w₁ hI => hI.2) _ w ⟨fun e he => he, h⟩).mono
    (fun _ _ h₁ => h₁) fun _ _ he => he
  obtain ⟨hmem, h₁⟩ := hI
  obtain ⟨j, s, hspan, rfl⟩ := (hindex e).mp (hmem e List.mem_cons_self)
  have hdec : ControlMeta.ofSlice (encSpan j s) = .ok ⟨s.1, s.2, j⟩ := ControlMeta.ofSlice_encMeta (hV.sound hspan)
  simp only [hdec]
  rw [ends_bind, ends_lift_ok, ends_run (fdOf_eq _ _ j)]
  refine (h₁.getSize (hV.lt_of_span hspan)).bind fun a w₂ h₂ => ?_
  exact ⟨fun e' he' => hmem e' (List.mem_cons_of_mem _ he'), h₂.2⟩

/-- A look at the loops of `reBalance` from the view `V` on, with tests of the given passes only. No plan can follow the
mark that stands for the beginning. -/
def Origin.rounds (V : View) (older : List Event) (passes : Pass → Prop) : Origin where
  stage := ⟨.iteration .backward 0, V, []⟩
  history := older
  marks a := ∃ pass i, a = .iteration pass i ∧ passes pass

theorem Rest.placed (h : Rest n O answers V w) : Placed n V := by
  obtain ⟨σ, hσ, hcomplete, rfl⟩ := h
  exact hσ.valid.placed_view hcomplete

theorem Rest.rebase (h : Rest n O answers V w) (passes : Pass → Prop) : Rest n (.rounds V w.history passes) answers V w := by
  have hV := h.placed
  obtain ⟨σ, hσ, -, rfl⟩ := h
  have hvalid : Valid n ⟨.iteration .backward 0, σ.view, []⟩ := ⟨hV, fun c hc => absurd hc List.not_mem_nil, Or.inl rfl⟩
  exact ⟨_, hσ.rebase hvalid rfl _, Or.inl rfl, rfl⟩

/-- `reBalance` is a sweep to the right and a sweep to the left. The second one is also seen from where it starts. -/
theorem Rest.reBalance (F : Type) [Double F] (h : Rest n O answers V w) (hO : ∀ pass i, O.marks (.iteration pass i)) :
    Ends (DistRocks.reBalance F) w
      (fun _ w' => ∃ V₁ older, O.history <:+ older ∧
        Sweeps n .forward (Calm F (totalOf n V) (perfectShare F n)) (Pass.forward.nodes n) V V₁ ∧
        (∃ V₂, Sweeps n .backward (Calm F (totalOf n V) (perfectShare F n)) (Pass.backward.nodes n) V₁ V₂ ∧
          Rest n O answers V₂ w') ∧
        ∃ V₂, Sweeps n .backward (Calm F (totalOf n V) (perfectShare F n)) (Pass.backward.nodes n) V₁ V₂ ∧
          Rest n (.rounds V₁ older (· = .backward)) answers V₂ w')
      (MoveStopped n O answers) := by
  obtain ⟨σ, hσ, hcomplete, rfl⟩ := h
  rw [DistRocks.reBalance]
  refine hσ.totalSize.bind fun a w₁ h₁ => ?_
  obtain ⟨rfl, h₁⟩ := h₁
  rw [ends_bind, ends_get, h₁.count]
  refine ((h₁.rest hcomplete).runPass (hO .forward) _ (perfectShare F n)).bind fun on w₂ h₂ => ?_
  obtain ⟨rfl, V₁, hright, h₂⟩ := h₂
  have hsuffix : O.history <:+ w₂.history := h₂.elim fun _ hσ => hσ.1.traced.elim fun new hnew => ⟨new, hnew.1.symm⟩
  -- the pass to the left, from the first origin and from its own
  have hO₂ : ∀ i, O.marks (.iteration .backward i) := hO .backward
  have hleft := (h₂.runPass hO₂ (totalOf n σ.view) (perfectShare F n)).and
    ((h₂.rebase (· = .backward)).runPass (fun i => ⟨_, i, rfl, rfl⟩) (totalOf n σ.view) (perfectShare F n))
  refine (hleft.mono (fun _ _ hq => hq) fun _ _ he => he.1).bind fun on w₃ h₃ => ?_
  obtain ⟨⟨rfl, V₂, hsweep, σ₂, h₂, hdone₂, rfl⟩, -, V₃, hsweep', σ₃, h₃, hdone₃, rfl⟩ := h₃
  have hshow := (h₂.showMeta (h₂.valid.placed_view hdone₂) (H := MoveStopped n O answers)).and
    (h₃.showMeta (h₃.valid.placed_view hdone₃) (H := MoveStopped n O answers))
  refine hshow.mono (fun _ w₄ h₄ => ?_) fun _ _ he => he.1
  exact ⟨V₁, w₂.history, hsuffix, hright, ⟨σ₂.view, hsweep, h₄.1.rest hdone₂⟩, σ₃.view, hsweep', h₄.2.rest hdone₃⟩

end DistRocks
