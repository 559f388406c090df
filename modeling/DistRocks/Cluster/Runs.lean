import DistRocks.Cluster.Commands
import DistRocks.Cluster.OneMap
import DistRocks.Control.Construct

/-!
# Runs of the console

* `Arranged n c records` : the metadata of a cluster as `n` records in the order of their nodes, with every key in the
  interval of its node; `Fresh` : a control node over empty stores and such metadata;
* `Kept` : an invariant of the nodes under migrations and records;
* `Sim.exec`, `Rest.run` : a command and a run of them follow the protocol, answer like one map and keep the invariants;
* `fresh_construct` : the constructor over at most nine empty stores makes a fresh start;
* `Fresh.run` : every run from a fresh start does so too, and is at the prompt again (`Fresh.prompt`); `run_answers` :
  every `get` prints the value of the last `put`.
-/

namespace DistRocks

open Proc

variable {n : ℕ} {O : Origin} {V : View} {σ : Stage} {answers : List Bytes} {data : OrdMap Bytes Bytes} {w : World}

/-- A command ended at the view `V`, in its update or in the balancing behind it. -/
def ExecStopped (n : ℕ) (O : Origin) (answers : List Bytes) (V : View) (c : Command) (e : Fault) (w : World) : Prop :=
  CommandStopped n O answers V c.request e w ∨ MoveStopped n O answers e w

theorem ExecStopped.sim {c : Command} {e : Fault} (h : ExecStopped n O answers V c e w) :
    e = .overrun ∧ ∃ σ, Sim n O σ answers w := by
  rcases h with (⟨he, hsim, -⟩ | ⟨r, i, s, -, -, he, made, -, hsim, -⟩) | ⟨V, pass, i, k, v, -, ⟨he, made, -, hsim, -⟩, -⟩
  · exact ⟨he, _, hsim⟩
  · exact ⟨he, _, hsim⟩
  · exact ⟨he, _, hsim⟩

/-! ## One command -/

theorem run_cons (F : Type) [Double F] {c : Command} (hc : c.Valid) (cs : List Command) :
    run F (c :: cs) = (do mark .command; c.exec F; run F cs) := by
  cases c with
  | put _ _ | get _ | del _ => rfl
  | quit | test _ | other _ => exact hc.elim

/-- The part of a command before `reBalance`. -/
def Command.update : Command → M Unit
  | put key value => putUpdate key value
  | del key => delUpdate key
  | _ => pure ()

theorem exec_eq (F : Type) [Double F] {c : Command} (hc : c.Valid) {r : Log} (hr : c.record = some r) :
    c.exec F = (do c.update; reBalance F) := by
  cases c with
  | put key value => rfl
  | del key => rw [Command.exec, if_neg hc.1]; rfl
  | _ => cases hr

/-- The update of a command is the user's plan for its record. -/
theorem Sim.update (h : Sim n O ⟨.command, V, []⟩ answers w) (hn : 0 < n) {c : Command} (hc : c.Valid) {r : Log}
    (hr : c.record = some r) :
    Ends c.update w (fun _ w' => ∃ i s, Routed V r.key i s ∧ Allowed n V .command (userPlan i r s) ∧
      Sim n O ⟨.command, V, userPlan i r s⟩ answers w') (CommandStopped n O answers V c.request) := by
  cases c with
  | put key value =>
      cases hr
      exact h.putUpdate hn value hc.1 hc.2
  | del key =>
      cases hr
      exact h.delUpdate hn hc.1 hc.2
  | _ => cases hr

/-- An invariant of the nodes under migrations and under the records of the commands in `P`, from empty stores on. -/
structure Kept (n : ℕ) (P : Command → Prop) (I : View → Prop) : Prop where
  start : ∀ {V}, (∀ j, V.node j = ⟨.empty, 0, none⟩) → I V
  user : ∀ {c r V i s}, P c → c.record = some r → Placed n V → Routed V r.key i s → I V → I (V.after (userPlan i r s))
  move : ∀ {pass i V V'}, Placed n V → Moves n pass i V V' → I V → I V'

theorem Kept.trivial (n : ℕ) : Kept n (fun _ => True) fun _ => True :=
  ⟨fun _ => True.intro, fun _ _ _ _ _ => True.intro, fun _ _ _ => True.intro⟩

theorem Kept.sweeps {P : Command → Prop} {I : View → Prop} (hI : Kept n P I) {pass : Pass} {calm : Node → Prop}
    {is : List ℕ} {V' : View} (h : Sweeps n pass calm is V V') (hV : Placed n V) (hinv : I V) : I V' :=
  (h.keeps (P := I) (fun hV hmove => hI.move hV hmove) hV hinv).2

theorem Command.record_kind {c : Command} {r : Log} (h : c.record = some r) : r.kind ≠ .error := by
  cases c with
  | put _ _ | del _ =>
      cases h
      exact fun hk => by cases hk
  | _ => cases h

section Exec
variable {P : Command → Prop} {I : View → Prop}

/-- After a user's plan the cluster is balanced. -/
theorem Sim.rebalanced (F : Type) [Double F] (hI : Kept n P I) {c : Command} {i : ℕ} {r : Log} {s : Bytes × Bytes}
    (h : Sim n O ⟨.command, V, userPlan i r s⟩ answers w) (hO : ∀ pass i, O.marks (.iteration pass i))
    (hp : Allowed n V .command (userPlan i r s)) (hc : P c) (hr : c.record = some r) (hroute : Routed V r.key i s)
    (hdata : Holds n V data) (hinv : I V) :
    Ends (reBalance F) w (fun _ w' => ∃ V', Rest n O answers V' w' ∧ Holds n V' (r.apply data) ∧ I V')
      (MoveStopped n O answers) := by
  have hV : Placed n V := h.valid.placed
  have hdone : Stage.Complete n ⟨.command, V, userPlan i r s⟩ := Or.inr hp
  have hplaced := h.valid.placed_view hdone
  have hheld := holds_user hdata hV (Command.record_kind hr) hroute
  have hkept := hI.user hc hr hV hroute hinv
  refine ((h.rest hdone).reBalance F hO).mono (fun _ w₁ h₁ => ?_) fun _ _ he => he
  obtain ⟨V₁, -, -, hright, ⟨V₂, hleft, hrest⟩, -⟩ := h₁
  obtain ⟨hV₁, h₁⟩ := hright.holds hplaced hheld
  exact ⟨V₂, hrest, (hleft.holds hV₁ h₁).2, hI.sweeps hleft hV₁ (hI.sweeps hright hplaced hkept)⟩

theorem Sim.exec (F : Type) [Double F] (hI : Kept n P I) (h : Sim n O ⟨.command, V, []⟩ answers w)
    (hO : ∀ pass i, O.marks (.iteration pass i)) (hn : 0 < n) (hdata : Holds n V data) (hinv : I V) {c : Command}
    (hc : c.Valid) (hP : P c) :
    Ends (c.exec F) w
      (fun _ w' => ∃ V', Rest n O (answers ++ c.answer data) V' w' ∧ Holds n V' (c.asRead.next data) ∧ I V')
      (ExecStopped n O answers V c) := by
  have hV : Placed n V := h.valid.placed
  cases hr : c.record with
  | some r =>
      have hanswer : c.answer data = [] := by cases c <;> first | rfl | cases hr
      rw [exec_eq F hc hr, hanswer, List.append_nil, Command.next_asRead hr]
      refine ((h.update hn hc hr).mono (fun _ _ hq => hq) fun _ _ he => Or.inl he).bind fun _ w₁ h₁ => ?_
      obtain ⟨i, s, hroute, hp, h₁⟩ := h₁
      exact (h₁.rebalanced F hI hO hp hP hr hroute hdata hinv).mono (fun _ _ h₂ => h₂) fun _ _ he => Or.inr he
  | none =>
      cases c with
      | quit | test _ | other _ => exact hc.elim
      | put _ _ | del _ => cases hr
      | get key =>
          rw [Command.exec]
          refine (h.getCommand hn hc.2).mono (fun _ w₁ h₁ => ?_) fun _ _ he => Or.inl he
          obtain ⟨i, s, hroute, h₁⟩ := h₁
          rw [hdata.get?_eq hV hroute] at h₁
          exact ⟨V, h₁.rest (Or.inl rfl), hdata, hinv⟩

/-! ## Runs -/

/-- A run of `cs` from `w` ended in one of the commands, those before it having ended well. -/
def Halted (F : Type) [Double F] (n : ℕ) (O : Origin) (w : World) (cs : List Command) (e : Fault) (w' : World) : Prop :=
  ∃ pre c post V answers, cs = pre ++ c :: post ∧ (run F pre w).1 = .ok () ∧
    Sim n O ⟨.command, V, []⟩ answers (run F pre w).2 ∧ ExecStopped n O answers V c e w'

/-- A run prints what it would print over one map. -/
theorem Rest.run (F : Type) [Double F] (hI : Kept n P I) (h : Rest n O answers V w)
    (hO : ∀ a : Act, a.IsMark → O.marks a) (hn : 0 < n) (hdata : Holds n V data) (hinv : I V) {cs : List Command}
    (hcs : ∀ c ∈ cs, c.Valid ∧ P c) :
    Ends (DistRocks.run F cs) w
      (fun _ w' => w'.answers = answers ++ mapAnswers data (cs.map Command.asRead) ∧
        ∃ V', Sim n O ⟨.command, V', []⟩ w'.answers w' ∧
          Holds n V' ((cs.map Command.asRead).foldl Command.next data) ∧ I V')
      (Halted F n O w cs) := by
  induction cs generalizing w V data answers with
  | nil =>
      obtain ⟨σ, hσ, hdone, rfl⟩ := h
      refine (hσ.mark hdone (a := .command) trivial (hO _ trivial)).mono (fun _ w₁ h₁ => ?_) fun _ _ he => he
      rw [h₁.1.answered]
      exact ⟨(List.append_nil answers).symm, σ.view, h₁.1, hdata, hinv⟩
  | cons c cs ih =>
      obtain ⟨σ, hσ, hdone, rfl⟩ := h
      obtain ⟨hc, hP⟩ := hcs c List.mem_cons_self
      obtain ⟨w₁, hmark, h₁⟩ : ∃ w₁, mark .command w = (.ok (), w₁) ∧ Sim n O ⟨.command, σ.view, []⟩ answers w₁ :=
        ⟨_, rfl, (hσ.mark hdone (a := .command) (H := fun _ _ => True) trivial (hO _ trivial)).of_eq rfl |>.1⟩
      rw [run_cons F hc, ends_run hmark]
      have hexec := h₁.exec F hI (fun _ _ => hO _ trivial) hn hdata hinv hc hP
      rcases hx : c.exec F w₁ with ⟨_ | _, w₂⟩
      · rw [Ends, hx] at hexec
        rw [Ends, bind_run_error hx]
        exact ⟨[], c, cs, σ.view, answers, rfl, by rw [DistRocks.run, hmark], by rw [DistRocks.run, hmark]; exact h₁, hexec⟩
      · obtain ⟨V₂, hrest, hdata₂, hinv₂⟩ := hexec.of_eq hx
        have hanswer : c.asRead.answer data = c.answer data := by cases c <;> rfl
        rw [ends_run hx]
        refine (ih hrest hdata₂ hinv₂ fun c' hc' => hcs c' (List.mem_cons_of_mem _ hc')).mono (fun _ w₃ h₃ => ?_)
          fun e w₃ he => ?_
        · rw [List.map_cons, mapAnswers, hanswer, ← List.append_assoc]
          exact h₃
        · obtain ⟨pre, c', post, V', as, rfl, hok, hsim, hstop⟩ := he
          have hrun : DistRocks.run F (c :: pre) w = DistRocks.run F pre w₂ := by
            rw [run_cons F hc, bind_run hmark, bind_run hx]
          exact ⟨c :: pre, c', post, V', as, rfl, by rw [hrun]; exact hok, by rw [hrun]; exact hsim, hstop⟩

end Exec

/-! ## Fresh starts -/

/-- The metadata is one record for each node, in the order of the nodes, and every key of a node lies in the interval of
its record. -/
structure Arranged (n : ℕ) (c : Cluster) (records : ℕ → ControlMeta) : Prop where
  entries : c.metaDb.db.entries = (List.range n).map fun j => ((records j).min_str, encMeta (records j))
  reads : ∀ j < n, ControlMeta.ofSlice (encMeta (records j)) = .ok (records j)
  virtual_fd : ∀ j < n, (records j).virtual_fd = j
  bounds : ∀ j < n, (records j).min_str ≤ (records j).max_str
  apart : ∀ j, j + 1 < n → (records j).max_str < (records (j + 1)).min_str
  within : ∀ j < n, ∀ e ∈ (c.stores j).storeData.dbHandle.db.entries,
    (records j).min_str ≤ e.1 ∧ e.1 ≤ (records j).max_str

/-- A control node over `n` empty stores, none of whose writes or messages fails, and metadata in the order of the
nodes. -/
structure Fresh (n : ℕ) (w : World) : Prop where
  pos : 0 < n
  count : w.storeNodeCount = n
  refusals : w.refusals = []
  answers : w.answers = []
  history : w.history = []
  data : ∀ j < n, (w.cluster.stores j).storeData = ⟨.reliable .empty, 0⟩
  log : ∀ j < n, (w.cluster.stores j).storeLog.dbHandle = .reliable .empty
  outcomes : w.cluster.metaDb.outcomes = []
  arranged : ∃ records, Arranged n w.cluster records ∧ ∀ j < n, (records j).Sound

/-- A run from its first prompt on, with all its marks. -/
def Origin.first (V : View) : Origin := ⟨⟨.command, V, []⟩, [], Act.IsMark⟩

/-- The nodes of empty stores. -/
theorem Fresh.sim (h : Fresh n w) :
    ∃ V, Sim n (.first V) ⟨.command, V, []⟩ [] w ∧ Holds n V .empty ∧ ∀ j, V.node j = ⟨.empty, 0, none⟩ := by
  obtain ⟨records, harr, hsound⟩ := h.arranged
  let f : ℕ → Bytes × Bytes := fun j => ((records j).min_str, (records j).max_str)
  let V : View := ⟨fun _ => ⟨.empty, 0, none⟩, Spans.ofSeq n f harr.bounds harr.apart⟩
  have hspan : ∀ {j s}, V.table.span j = some s → j < n ∧ f j = s := fun {j s} hs => by
    by_cases hj : j < n
    · exact ⟨hj, by simpa [V, Spans.span_ofSeq, hj] using hs⟩
    · simp [V, Spans.span_ofSeq, hj] at hs
  have hrecord : ∀ j < n, ControlMeta.mk (f j).1 (f j).2 j = records j := fun j hj => by
    rw [← harr.virtual_fd j hj]
  have hplaced : Placed n V :=
    { filled := fun j => by
        constructor
        · rintro ⟨s, hs⟩
          exact (hspan hs).1
        · exact fun hj => ⟨f j, by simp [V, Spans.span_ofSeq, hj]⟩
      quiet := fun _ => rfl
      within := fun _ e he => absurd he List.not_mem_nil
      stored := fun _ e he => absurd he List.not_mem_nil
      sound := fun {j s} hs => by
        obtain ⟨hj, rfl⟩ := hspan hs
        rw [hrecord j hj]
        exact hsound j hj }
  have hindex : Spans.Indexes encSpan w.cluster.metaDb.db V.table := by
    refine Spans.Indexes.of_entries_eq_map harr.bounds harr.apart (harr.entries.trans (List.map_congr_left fun j hj => ?_))
    rw [encSpan, hrecord j (List.mem_range.mp hj)]
  have hshows : Shows n w.cluster V :=
    { stores := fun {j} hj => ⟨h.data j hj, h.log j hj, fun _ hr => by cases hr⟩
      index := ⟨w.cluster.metaDb.db, by rw [DBHandle.reliable, ← h.outcomes], hindex⟩ }
  have hvalid : Valid n ⟨.command, V, []⟩ := ⟨hplaced, fun _ hc => absurd hc List.not_mem_nil, Or.inl rfl⟩
  refine ⟨V, ⟨h.count, h.refusals, h.answers, hshows, [], h.history, .start hvalid⟩, fun k v => ?_, fun _ => rfl⟩
  simp [V]

/-- The constructor over at most nine empty stores, with what it has written left out of the history. -/
theorem fresh_construct {room : ℕ → ℕ} {stores : ℕ → StoreImpl} (hroom : Connects room n) (hn : 0 < n) (h9 : n ≤ 9)
    (hdata : ∀ j < n, (stores j).storeData = ⟨.reliable .empty, 0⟩)
    (hlog : ∀ j < n, (stores j).storeLog.dbHandle = .reliable .empty) :
    (construct room n (World.boot ⟨stores, .reliable .empty⟩)).1 = .ok () ∧
      Fresh n { (construct room n (World.boot ⟨stores, .reliable .empty⟩)).2 with history := [] } := by
  rcases (construct_built hroom stores).outcome with
    ⟨a, hok, hbuilt, hcount, hstores, href, hans, -⟩ | ⟨-, -, i, -, hin, hlong⟩
  · refine ⟨hok, ?_⟩
    generalize (construct room n (World.boot ⟨stores, .reliable .empty⟩)).2 = w at hbuilt hcount hstores href hans ⊢
    have hsound : ∀ j < n, (firstRecord j).Sound := fun j hj => firstRecord_sound (by omega)
    exact
      { pos := hn
        count := hcount
        refusals := href
        answers := hans
        history := rfl
        data := fun j hj => hstores ▸ hdata j hj
        log := fun j hj => hstores ▸ hlog j hj
        outcomes := by
          obtain ⟨m, hm, -⟩ := hbuilt
          exact congrArg DBHandle.outcomes hm
        arranged := ⟨firstRecord,
          { entries := hbuilt.entries h9
            reads := fun j hj => ControlMeta.ofSlice_encMeta (hsound j hj)
            virtual_fd := fun j _ => rfl
            bounds := fun j _ => le_rfl
            apart := fun j hj => decimal_lt (j + 1) (by omega) j (Nat.lt_succ_self j)
            within := fun j hj e he => by
              have hempty := hdata j hj
              rw [show ({ w with history := [] } : World).cluster.stores = stores from hstores, hempty] at he
              exact absurd he List.not_mem_nil },
          hsound⟩ }
  · exact absurd (firstRecord_sound (by omega)).fits hlong.not_ge

/-- Two empty stores behind a control node at its console. -/
def twoStores : World :=
  { (construct gnuRoom 2 (World.boot ⟨fun _ => StoreImpl.emptyStore, .reliable .empty⟩)).2 with history := [] }

theorem twoStores_fresh : Fresh 2 twoStores :=
  (fresh_construct (by decide) (by decide) (by decide) (fun _ _ => rfl) fun _ _ => rfl).2

/-- Every run from a fresh start follows the protocol, and prints what it would print over one map. -/
theorem Fresh.run (F : Type) [Double F] {P : Command → Prop} {I : View → Prop} (hI : Kept n P I) (h : Fresh n w)
    {cs : List Command} (hcs : ∀ c ∈ cs, c.Valid ∧ P c) :
    ∃ V, Ends (DistRocks.run F cs) w
      (fun _ w' => w'.answers = mapAnswers .empty (cs.map Command.asRead) ∧
        ∃ V', Sim n (.first V) ⟨.command, V', []⟩ w'.answers w' ∧
          Holds n V' ((cs.map Command.asRead).foldl Command.next .empty) ∧ I V')
      (Halted F n (.first V) w cs) := by
  obtain ⟨V, hsim, hdata, hempty⟩ := h.sim
  exact ⟨V, (hsim.rest (Or.inl rfl)).run F hI (fun _ ha => ha) h.pos hdata (hI.start hempty) hcs⟩

/-- Where a run has ended well, the control node is at its prompt. -/
theorem Fresh.prompt (F : Type) [Double F] (h : Fresh n w) {cs : List Command} (hcs : ∀ c ∈ cs, c.Valid)
    (hok : (DistRocks.run F cs w).1 = .ok ()) :
    ∃ V₀ V answers, Sim n (.first V₀) ⟨.command, V, []⟩ answers (DistRocks.run F cs w).2 := by
  obtain ⟨V₀, hrun⟩ := h.run F (.trivial n) fun c hc => ⟨hcs c hc, trivial⟩
  obtain ⟨-, V, hsim, -⟩ := hrun.of_eq (Prod.ext hok rfl)
  exact ⟨V₀, V, _, hsim⟩

/-- Whatever becomes of a run, its history is one of the protocol. -/
theorem Fresh.traced (F : Type) [Double F] (h : Fresh n w) {cs : List Command} (hcs : ∀ c ∈ cs, c.Valid) :
    ((DistRocks.run F cs w).1 = .ok () ∨ (DistRocks.run F cs w).1 = .error .overrun) ∧
      ∃ V σ answers, Sim n (.first V) σ answers (DistRocks.run F cs w).2 := by
  obtain ⟨V, hrun⟩ := h.run F (.trivial n) fun c hc => ⟨hcs c hc, trivial⟩
  rcases hrun.outcome with ⟨a, hok, -, V', hsim, -⟩ | ⟨e, herr, pre, c, post, V', answers, -, -, -, hstop⟩
  · exact ⟨Or.inl hok, V, _, _, hsim⟩
  · obtain ⟨rfl, σ, hsim⟩ := hstop.sim
    exact ⟨Or.inr herr, V, σ, answers, hsim⟩

/-- The cluster is one map: every `get` of a run prints the value of the last `put` of its key that no `del` follows. -/
theorem run_answers (F : Type) [Double F] (hw : Fresh n w) {cs : List Command} (hcs : ∀ c ∈ cs, c.Valid ∧ c.Plain)
    (hfit : (DistRocks.run F cs w).1 ≠ .error .overrun) :
    (DistRocks.run F cs w).1 = .ok () ∧ (DistRocks.run F cs w).2.answers = lastPuts [] cs := by
  have hread : cs.map Command.asRead = cs := by
    rw [List.map_congr_left fun c hc => (hcs c hc).2.asRead_eq, List.map_id']
  obtain ⟨V₀, hrun⟩ := hw.run F (.trivial n) fun c hc => ⟨(hcs c hc).1, trivial⟩
  rcases hrun.outcome with ⟨a, hok, hans, -⟩ | ⟨e, herr, pre, c, post, V, answers, -, -, -, hstop⟩
  · have hempty : ∀ key, ((OrdMap.empty : OrdMap Bytes Bytes).get? key).getD [] = lastPut key [] := fun _ => rfl
    rw [hread, mapAnswers_eq hempty] at hans
    exact ⟨hok, hans⟩
  · rw [hstop.sim.1] at herr
    exact absurd herr hfit

/-- `put`, `del` and `get` of three keys that lie in both stores after balancing. -/
def sampleCommands : List Command :=
  [.put (text "a") (text "x"), .put (text "b") (text "y"), .put (text "c") (text "z"), .put (text "b") (text "w"),
    .del (text "a"), .get (text "a"), .get (text "b"), .get (text "c")]

theorem valid_sampleCommands : ∀ c ∈ sampleCommands, c.Valid := by decide

theorem run_sampleCommands :
    (DistRocks.run ℚ sampleCommands twoStores).2.answers = [[], text "w", text "z"] :=
  (run_answers ℚ twoStores_fresh (by decide) (by decide +kernel)).2

end DistRocks
