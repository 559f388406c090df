import DistRocks.Cluster.Runs

/-!
# What holds along a run

* `Ordered` : the metadata is in the order of the nodes, keys are where it says, and the routing search of `reBalance`
  finds the entry of a node and, beside it, that of its neighbour; `run_ordered` : so it is at every mark;
* `latestLog` : the record of the latest `LOG` to a store; `run_logs` : logs hold one record at most, and every commit
  finds and applies the latest;
* `missing` : the node whose metadata entry is deleted and not yet put back; `run_virtualFds` : every other node is named
  by one entry, after every event.
-/

namespace DistRocks

open Proc

variable {n : ℕ} {O : Origin} {V : View} {σ : Stage} {answers : List Bytes} {w : World} {c : Cluster}

/-! ## Order -/

/-- The iterator that routes `key` in the metadata. -/
def Cluster.search (c : Cluster) (key : Bytes) : Iterator :=
  (DBHandle.getSmallerOrEqualButAsLargeAsPossible key c.metaDb.newIterator).1

/-- The pairs of store `j`. -/
def Cluster.pairs (c : Cluster) (j : ℕ) : List (Bytes × Bytes) := (c.stores j).storeData.dbHandle.db.entries

/-- Keys rise with their nodes, and a key of node `i` leads to its record and to that of the neighbour. -/
structure Ordered (n : ℕ) (c : Cluster) (records : ℕ → ControlMeta) : Prop extends Arranged n c records where
  below : ∀ {i j}, i < j → j < n → ∀ e ∈ c.pairs i, ∀ e' ∈ c.pairs j, e.1 < e'.1
  found : ∀ {i}, i < n → ∀ e ∈ c.pairs i, (c.search e.1).current = some ((records i).min_str, encMeta (records i))
  beside : ∀ {pass : Pass} {i}, pass.Adjacent n i → ∀ e ∈ c.pairs i, (pass.advance (c.search e.1)).current =
    some ((records (pass.peer i)).min_str, encMeta (records (pass.peer i)))

theorem Shows.pairs (h : Shows n c V) {j : ℕ} (hj : j < n) : c.pairs j = (V.node j).data.entries := by
  rw [Cluster.pairs, (h.stores hj).data]
  rfl

/-- A cluster that shows placed nodes is ordered by the records of their intervals. -/
theorem Placed.ordered_of (hV : Placed n V) (h : Shows n c V) {f : ℕ → Bytes × Bytes}
    (hf : ∀ j < n, V.table.span j = some (f j)) : Ordered n c fun j => ⟨(f j).1, (f j).2, j⟩ := by
  obtain ⟨m, hm, hindex⟩ := h.index
  have hsearch : ∀ {i}, i < n → ∀ e ∈ c.pairs i, (c.search e.1).snapshot = m ∧
      (c.search e.1).current = some ((f i).1, encSpan i (f i)) := by
    intro i hi e he
    obtain ⟨hlo, hhi⟩ := hV.within (hf i hi) e (h.pairs hi ▸ he)
    rw [Cluster.search, DBHandle.search_snapshot, DBHandle.search_current, hm]
    exact ⟨rfl, hindex.locate_of_mem (hf i hi) hlo hhi⟩
  exact
    { entries := by
        rw [hm]
        exact hindex.entries_eq_map List.pairwise_lt_range (fun j hj => hf j (List.mem_range.mp hj))
          fun hs => List.mem_range.mpr (hV.lt_of_span hs)
      reads := fun j hj => ControlMeta.ofSlice_encMeta (hV.sound (hf j hj))
      virtual_fd := fun j _ => rfl
      bounds := fun j hj => V.table.bounds (hf j hj)
      apart := fun j hj => V.table.apart (Nat.lt_succ_self j) (hf j (Nat.lt_of_succ_lt hj)) (hf (j + 1) hj)
      within := fun j hj e he => hV.within (hf j hj) e (h.pairs hj ▸ he)
      below := fun {i j} hij hj e he e' he' => by
        have hi := hij.trans hj
        have hhi := (hV.within (hf i hi) e (h.pairs hi ▸ he)).2
        have hlo := (hV.within (hf j hj) e' (h.pairs hj ▸ he')).1
        exact hhi.trans_lt ((V.table.apart hij (hf i hi) (hf j hj)).trans_le hlo)
      found := fun hi e he => (hsearch hi e he).2
      beside := fun {pass i} hadj e he => by
        obtain ⟨hsnap, hcur⟩ := hsearch hadj.lt e he
        exact Pass.advance_current (hsnap.symm ▸ hindex) hadj (hf i hadj.lt) (hf _ hadj.peer_lt) hcur }

theorem Placed.exists_spans (hV : Placed n V) : ∃ f : ℕ → Bytes × Bytes, ∀ j < n, V.table.span j = some (f j) := by
  refine ⟨fun j => (V.table.span j).getD ([], []), fun j hj => ?_⟩
  obtain ⟨s, hs⟩ := hV.exists_span hj
  simp [hs]

theorem Placed.ordered (hV : Placed n V) (h : Shows n c V) : ∃ records, Ordered n c records :=
  hV.exists_spans.elim fun _ hf => ⟨_, hV.ordered_of h hf⟩

theorem Change.Performs.not_isMark {ch : Change} {a : Act} (h : ch.Performs V a) : ¬a.IsMark := by
  intro ha
  cases ch <;> cases a <;> first | exact False.elim h | exact ha

theorem Step.of_mark {σ' : Stage} {a : Act} (h : Step n σ a σ') (ha : a.IsMark) :
    σ.Complete n ∧ σ' = ⟨a, σ.view, []⟩ := by
  cases h with
  | read => exact ha.elim
  | mark _ hσ => exact ⟨hσ, rfl⟩
  | change _ _ _ hperf => exact absurd ha hperf.not_isMark

/-- At a mark the nodes are placed. -/
theorem Traced.placed_of_mark {marks : Act → Prop} {σ₀ : Stage} {h : List Event} {e : Event}
    (ht : Traced n marks σ₀ h σ) (he : e ∈ h) (ha : e.act.IsMark) :
    ∃ V, Placed n V ∧ Shows n e.before V ∧ Shows n e.after V := by
  obtain ⟨newer, older, rfl⟩ := List.append_of_mem he
  obtain ⟨σ₁, σ₂, hold, hstep, -, hbefore, hafter, -⟩ := ht.split
  obtain ⟨hσ, rfl⟩ := hstep.of_mark ha
  exact ⟨σ₁.view, hold.valid.placed_view hσ, hbefore, hafter⟩

/-- Before and after every command, and between two migrations, the cluster is ordered. -/
theorem run_ordered (F : Type) [Double F] (hw : Fresh n w) {cs : List Command} (hcs : ∀ c ∈ cs, c.Valid) :
    ((DistRocks.run F cs w).1 = .ok () ∨ (DistRocks.run F cs w).1 = .error .overrun) ∧
      ∀ e ∈ (DistRocks.run F cs w).2.history, e.act.IsMark → ∃ records, Ordered n e.after records := by
  obtain ⟨hout, V, σ, answers, hsim⟩ := hw.traced F hcs
  refine ⟨hout, fun e he ha => ?_⟩
  obtain ⟨new, hnew, ht⟩ := hsim.traced
  rw [hnew, Origin.first, List.append_nil] at he
  obtain ⟨V', hV', -, hshows⟩ := ht.placed_of_mark he ha
  exact hV'.ordered hshows

theorem run_ordered_sampleCommands :
    ((DistRocks.run ℚ sampleCommands twoStores).1 = .ok () ∨
      (DistRocks.run ℚ sampleCommands twoStores).1 = .error .overrun) ∧
      ∀ e ∈ (DistRocks.run ℚ sampleCommands twoStores).2.history, e.act.IsMark → ∃ records, Ordered 2 e.after records :=
  run_ordered ℚ twoStores_fresh valid_sampleCommands

/-! ## Logs -/

/-- The record that an event brings to the log of store `j`. -/
def Act.logged (j : ℕ) : Act → Option Log
  | .exchange fd msg => match decodeRequest msg with
    | .ok (.log r) => if fd = j then some r.recorded else none
    | _ => none
  | _ => none

/-- The record of the latest `LOG` to store `j`. -/
def latestLog (j : ℕ) (older : List Event) : Option Log := older.findSome? fun e => e.act.logged j

/-- A store commits the record `r`, the only one in its log. -/
structure Commits (r : Log) (st st' : StoreImpl) : Prop where
  pending : st.storeLog.dbHandle.db.entries = [(encLog r, [])]
  found : st.storeLog.getLog = .ok r
  data : st'.storeData.dbHandle.db = r.apply st.storeData.dbHandle.db
  cleared : st'.storeLog.dbHandle.db.entries = []

theorem Act.logged_of_isMark {a : Act} (ha : a.IsMark) (j : ℕ) : a.logged j = none := by
  cases a with
  | iteration _ _ | command => rfl
  | _ => exact ha.elim

theorem Node.pending_commit (nd : Node) : nd.commit.pending = none := by
  rw [Node.commit]
  cases h : nd.pending with
  | none => exact h
  | some r => rfl

/-- A record that waits after a step came with it, or waited before. -/
theorem Step.pending {σ' : Stage} {a : Act} {j : ℕ} {r : Log} (h : Step n σ a σ')
    (hr : (σ'.view.node j).pending = some r) :
    a.logged j = some r ∨ a.logged j = none ∧ (σ.view.node j).pending = some r := by
  cases h with
  | @read fd msg q _ hq hreads =>
      refine Or.inr ⟨?_, hr⟩
      rw [Act.logged, hq]
      cases q with
      | log r' => exact hreads.elim
      | _ => rfl
  | mark ha => exact Or.inr ⟨Act.logged_of_isMark ha j, hr⟩
  | @change _ c p _ _ _ hperf =>
      rw [Stage.view_make, View.after_cons, View.after_nil] at hr
      cases c with
      | log fd r' =>
          cases a with
          | exchange fd' msg =>
              obtain ⟨rfl, r'', hdec, rfl⟩ := hperf
              by_cases hj : fd' = j
              · subst hj
                rw [View.node_change_log, Function.update_self] at hr
                exact Or.inl (by rw [Act.logged, hdec]; simpa using hr)
              · rw [View.node_change_log, Function.update_of_ne (Ne.symm hj)] at hr
                exact Or.inr ⟨by rw [Act.logged, hdec]; simp [hj], hr⟩
          | _ => exact False.elim hperf
      | commit fd =>
          cases a with
          | exchange fd' msg =>
              obtain ⟨rfl, hdec⟩ := hperf
              by_cases hj : fd' = j
              · subst hj
                rw [View.node_change_commit, Function.update_self, Node.pending_commit] at hr
                cases hr
              · rw [View.node_change_commit, Function.update_of_ne (Ne.symm hj)] at hr
                exact Or.inr ⟨by rw [Act.logged, hdec], hr⟩
          | _ => exact False.elim hperf
      | unfile i | file i s =>
          cases a with
          | metaDelete key | metaPut key => exact Or.inr ⟨rfl, hr⟩
          | _ => exact False.elim hperf

/-- A record that waits in a log is the latest that was sent there. -/
theorem Traced.latestLog_eq {marks : Act → Prop} {h : List Event} {j : ℕ} {r : Log}
    (ht : Traced n marks ⟨.command, V, []⟩ h σ) (hj : j < n) (hr : (σ.view.node j).pending = some r) :
    latestLog j h = some r := by
  generalize hσ₀ : (⟨.command, V, []⟩ : Stage) = σ₀ at ht
  induction ht with
  | start h₀ =>
      subst hσ₀
      have hquiet : (V.node j).pending = none := h₀.placed.quiet hj
      exact absurd (hquiet.symm.trans hr) (by simp)
  | event _ hstep _ _ _ ih =>
      rw [latestLog, List.findSome?_cons]
      rcases hstep.pending hr with hlog | ⟨hnone, hr'⟩
      · rw [hlog]
      · rw [hnone]
        exact ih hr'

theorem Allowed.lt_of_commit {mark : Act} {p : List Change} {j : ℕ} (h : Allowed n V mark p) (hV : Placed n V)
    (hj : .commit j ∈ p) : j < n := by
  cases h with
  | @user i r s _ _ hroute =>
      obtain rfl : j = i := by simpa [userPlan] using hj
      exact hV.lt_of_span hroute.span
  | @move pass i k v hmove =>
      have hor : j = i ∨ j = pass.peer i := by simpa [movePlan] using hj
      rcases hor with rfl | rfl
      · exact hmove.adjacent.lt
      · exact hmove.adjacent.peer_lt

/-- A commit is the next change of a plan, and finds a record. -/
theorem Step.of_commit {σ' : Stage} {j : ℕ} {msg : Bytes} (h : Step n σ (.exchange j msg) σ') (hσ : Valid n σ)
    (hdec : decodeRequest msg = .ok .commitLog) :
    j < n ∧ (∃ r, (σ.view.node j).pending = some r) ∧ σ' = σ.make [.commit j] := by
  cases h with
  | read _ hq hreads =>
      rw [hdec] at hq
      cases hq
      exact hreads.elim
  | mark ha => exact ha.elim
  | @change _ c p hp hpre _ hperf =>
      cases c with
      | log fd r =>
          obtain ⟨-, r', hdec', -⟩ := hperf
          rw [hdec] at hdec'
          cases hdec'
      | commit fd =>
          obtain ⟨rfl, -⟩ := hperf
          obtain ⟨-, hlegal, -⟩ := hσ.legal hp hpre
          refine ⟨hp.lt_of_commit hσ.placed (hpre.subset (List.mem_append_right _ (List.mem_singleton_self _))), ?_, rfl⟩
          exact Option.ne_none_iff_exists'.mp hlegal
      | unfile i | file i s => exact False.elim hperf

theorem Shows.log (h : Shows n c V) {j : ℕ} (hj : j < n) :
    (c.stores j).storeLog.dbHandle.db = logDb (V.node j).pending := by
  rw [(h.stores hj).log]
  rfl

/-- A commit applies the record that waits. -/
theorem Shows.commits {c' : Cluster} {V' : View} {j : ℕ} {r : Log} (h : Shows n c V) (h' : Shows n c' V') (hj : j < n)
    (hr : (V.node j).pending = some r) (hV' : V'.node j = (V.node j).commit) : Commits r (c.stores j) (c'.stores j) where
  pending := by rw [h.log hj, hr]; rfl
  found := (h.stores hj).getLog_some hr
  data := by
    rw [(h'.stores hj).data, (h.stores hj).data, hV', Node.commit, hr]
    rfl
  cleared := by rw [h'.log hj, hV', Node.pending_commit]; rfl

/-- After every message a log holds one record at most; a commit finds the latest record that was sent and applies it;
at the console all logs are empty. -/
theorem run_logs (F : Type) [Double F] (hw : Fresh n w) {cs : List Command} (hcs : ∀ c ∈ cs, c.Valid) :
    ((DistRocks.run F cs w).1 = .ok () ∨ (DistRocks.run F cs w).1 = .error .overrun) ∧
      ∀ newer e older, (DistRocks.run F cs w).2.history = newer ++ e :: older →
        (∀ j < n, (e.after.stores j).storeLog.dbHandle.db.entries.length ≤ 1) ∧
        (∀ j msg, e.act = .exchange j msg → decodeRequest msg = .ok .commitLog →
          ∃ r, latestLog j older = some r ∧ Commits r (e.before.stores j) (e.after.stores j)) ∧
        (e.act = .command → ∀ j < n, (e.after.stores j).storeLog.dbHandle.db.entries = []) := by
  obtain ⟨hout, V, σ, answers, hsim⟩ := hw.traced F hcs
  refine ⟨hout, fun newer e older hhist => ?_⟩
  obtain ⟨new, hnew, ht⟩ := hsim.traced
  rw [Origin.first, List.append_nil] at hnew
  rw [← hnew, hhist] at ht
  obtain ⟨σ₁, σ₂, hold, hstep, -, hbefore, hafter, -⟩ := ht.split
  refine ⟨fun j hj => ?_, fun j msg hact hdec => ?_, fun hact j hj => ?_⟩
  · rw [hafter.log hj]
    cases (σ₂.view.node j).pending with
    | none => exact Nat.zero_le _
    | some r => exact le_rfl
  · rw [hact] at hstep
    obtain ⟨hj, ⟨r, hr⟩, rfl⟩ := hstep.of_commit hold.valid hdec
    refine ⟨r, hold.latestLog_eq hj hr, hbefore.commits hafter hj hr ?_⟩
    rw [Stage.view_make, View.after_cons, View.after_nil, View.node_change_commit, Function.update_self]
  · obtain ⟨hσ, rfl⟩ := hstep.of_mark (by rw [hact]; trivial)
    have hquiet : (σ₁.view.node j).pending = none := (hold.valid.placed_view hσ).quiet hj
    rw [hafter.log hj]
    show (logDb (σ₁.view.node j).pending).entries = []
    rw [hquiet]
    rfl

theorem run_logs_sampleCommands :
    ((DistRocks.run ℚ sampleCommands twoStores).1 = .ok () ∨
      (DistRocks.run ℚ sampleCommands twoStores).1 = .error .overrun) ∧
      ∀ newer e older, (DistRocks.run ℚ sampleCommands twoStores).2.history = newer ++ e :: older →
        (∀ j < 2, (e.after.stores j).storeLog.dbHandle.db.entries.length ≤ 1) ∧
        (∀ j msg, e.act = .exchange j msg → decodeRequest msg = .ok .commitLog →
          ∃ r, latestLog j older = some r ∧ Commits r (e.before.stores j) (e.after.stores j)) ∧
        (e.act = .command → ∀ j < 2, (e.after.stores j).storeLog.dbHandle.db.entries = []) :=
  run_logs ℚ twoStores_fresh valid_sampleCommands

/-! ## Metadata between two writes -/

/-- The node whose entry is deleted and not yet put back after a list of changes. -/
def missing (m : Option ℕ) : List Change → Option ℕ
  | [] => m
  | .unfile i :: cs => missing (some i) cs
  | .file _ _ :: cs => missing none cs
  | _ :: cs => missing m cs

/-- Entries are deleted and put back in turn. -/
def Alternates (m : Option ℕ) : List Change → Prop
  | [] => True
  | .unfile i :: cs => m = none ∧ Alternates (some i) cs
  | .file i _ :: cs => m = some i ∧ Alternates none cs
  | _ :: cs => Alternates m cs

/-- Every node but `m` is in the table. -/
structure FilledBut (n : ℕ) (m : Option ℕ) (T : Spans Bytes) : Prop where
  lt : ∀ i ∈ m, i < n
  filled : ∀ j, (∃ s, T.span j = some s) ↔ j < n ∧ m ≠ some j

theorem missing_append (m : Option ℕ) (cs cs' : List Change) : missing m (cs ++ cs') = missing (missing m cs) cs' := by
  induction cs generalizing m with
  | nil => rfl
  | cons ch cs ih => cases ch <;> exact ih _

theorem alternates_append {m : Option ℕ} {cs cs' : List Change} :
    Alternates m (cs ++ cs') ↔ Alternates m cs ∧ Alternates (missing m cs) cs' := by
  induction cs generalizing m with
  | nil => simp [Alternates, missing]
  | cons ch cs ih => cases ch <;> simp [Alternates, missing, ih, and_assoc]

theorem Allowed.alternates {mark : Act} {p : List Change} (h : Allowed n V mark p) :
    Alternates none p ∧ missing none p = none := by
  cases h <;> simp [userPlan, movePlan, Alternates, missing]

theorem FilledBut.after {m : Option ℕ} {cs : List Change} (h : FilledBut n m V.table) (hlegal : LegalPath V cs)
    (halt : Alternates m cs) : FilledBut n (missing m cs) (V.after cs).table := by
  induction cs generalizing V m with
  | nil => exact h
  | cons ch cs ih =>
      obtain ⟨hch, hlegal⟩ := hlegal
      cases ch with
      | log j r | commit j => exact ih h hlegal halt
      | unfile i =>
          obtain ⟨rfl, halt⟩ := halt
          have hi : i < n := ((h.filled i).mp hch).1
          refine ih ⟨fun j hj => Option.some.inj hj ▸ hi, fun j => ?_⟩ hlegal halt
          by_cases hj : j = i
          · simp [hj]
          · simpa [hj, Ne.symm hj] using h.filled j
      | file i s =>
          obtain ⟨rfl, halt⟩ := halt
          refine ih ⟨fun j hj => (by cases hj), fun j => ?_⟩ hlegal halt
          rw [View.table_change_file, Spans.put_eq hch.2]
          by_cases hj : j = i
          · simpa [hj] using h.lt i rfl
          · simpa [hj, Ne.symm hj] using h.filled j

theorem Placed.filledBut (hV : Placed n V) : FilledBut n none V.table :=
  ⟨fun _ hi => (by cases hi), fun j => by simpa using hV.filled j⟩

/-- At every stage one entry is missing at most. -/
theorem Valid.filledBut (h : Valid n σ) : FilledBut n (missing none σ.made) σ.view.table := by
  rcases h.plan with hnil | ⟨p, hp, rest, hrest⟩
  · rw [Stage.view, hnil]
    exact h.placed.filledBut
  · have halt := hp.alternates.1
    rw [← hrest, alternates_append] at halt
    have hlegal : LegalPath σ.base σ.made ∧ LegalPath σ.view [] := h.legal hp (by simpa using ⟨rest, hrest⟩)
    exact h.placed.filledBut.after hlegal.1 halt.1

/-- The records in the table can be written and read, whatever changes have been made. -/
theorem Valid.sound_view (h : Valid n σ) {j : ℕ} {s : Bytes × Bytes} (hs : σ.view.table.span j = some s) :
    (ControlMeta.mk s.1 s.2 j).Sound := by
  have hgo : ∀ (cs : List Change) (V : View), (∀ {j s}, V.table.span j = some s → (ControlMeta.mk s.1 s.2 j).Sound) →
      (∀ ch ∈ cs, ch.Sound) → ∀ {j s}, (V.after cs).table.span j = some s → (ControlMeta.mk s.1 s.2 j).Sound := by
    intro cs
    induction cs with
    | nil => exact fun V hV _ => hV
    | cons ch cs ih =>
        intro V hV hcs
        refine ih (V.change ch) (fun {j s} hs => ?_) fun ch' hch' => hcs ch' (List.mem_cons_of_mem _ hch')
        cases ch with
        | log j r | commit j => exact hV hs
        | unfile i =>
            rw [View.table_change_unfile] at hs
            by_cases hj : j = i
            · simp [hj] at hs
            · exact hV (by simpa [hj] using hs)
        | file i t =>
            rw [View.table_change_file] at hs
            by_cases hj : j = i
            · subst hj
              by_cases hfit : V.table.Fits j t
              · obtain rfl : t = s := by simpa [Spans.put_eq hfit] using hs
                exact hcs _ List.mem_cons_self
              · exact hV (by rwa [Spans.put, dif_neg hfit] at hs)
            · exact hV (by rwa [Spans.span_put_of_ne _ _ hj] at hs)
  exact hgo σ.made σ.base (fun hs => h.placed.sound hs) h.sound hs

/-- The records of the table, in the order of their nodes. -/
theorem Shows.virtualFds_eq (h : Shows n c V) {m : Option ℕ} (hV : FilledBut n m V.table)
    (hsound : ∀ {j s}, V.table.span j = some s → (ControlMeta.mk s.1 s.2 j).Sound) :
    virtualFds c = ((List.range n).filter fun j => m ≠ some j).map fun j => .ok (j : ℤ) := by
  obtain ⟨db, hdb, hindex⟩ := h.index
  let f : ℕ → Bytes × Bytes := fun j => (V.table.span j).getD ([], [])
  have hmem : ∀ {j}, j ∈ (List.range n).filter (fun j => m ≠ some j) ↔ ∃ s, V.table.span j = some s := fun {j} => by
    rw [hV.filled j, List.mem_filter, List.mem_range, decide_eq_true_iff]
  have hf : ∀ j ∈ (List.range n).filter (fun j => m ≠ some j), V.table.span j = some (f j) := fun j hj => by
    obtain ⟨s, hs⟩ := hmem.mp hj
    simp [f, hs]
  have hentries := hindex.entries_eq_map (List.pairwise_lt_range.filter _) hf fun hs => hmem.mpr ⟨_, hs⟩
  rw [virtualFds, hdb, DBHandle.db_reliable, hentries, List.map_map]
  refine List.map_congr_left fun j hj => ?_
  rw [Function.comp_apply, encSpan, ControlMeta.ofSlice_encMeta (hsound (hf j hj))]
  rfl

/-! ### The latest write -/

/-- The `virtual_fd` of the record under a key. -/
def fdUnder (c : Cluster) (key : Bytes) : Option ℤ :=
  (c.metaDb.db.get? key).bind fun rec => ((ControlMeta.ofSlice rec).map ControlMeta.virtual_fd).toOption

/-- The node of the record that the latest write to the metadata deleted. -/
def unnamed : List Event → Option ℤ
  | [] => none
  | e :: older => match e.act with
    | .metaDelete key => fdUnder e.before key
    | .metaPut _ => none
    | _ => unnamed older

theorem Stage.Complete.missing_eq (h : σ.Complete n) : missing none σ.made = none := by
  rcases h with hnil | hp
  · rw [hnil]
    rfl
  · exact hp.alternates.2

theorem Step.unnamed_eq {σ' : Stage} {e : Event} {h : List Event} (hstep : Step n σ e.act σ') (hσ : Valid n σ)
    (hbefore : Shows n e.before σ.view) (hh : unnamed h = (missing none σ.made).map Nat.cast) :
    unnamed (e :: h) = (missing none σ'.made).map Nat.cast := by
  obtain ⟨act, before, after⟩ := e
  cases hstep with
  | read => exact hh
  | mark ha hcomplete =>
      rw [hcomplete.missing_eq] at hh
      cases act with
      | iteration _ _ | command => exact hh
      | _ => exact ha.elim
  | @change _ ch p _ _ _ hperf =>
      rw [Stage.make, missing_append]
      cases ch with
      | log j r | commit j =>
          cases act with
          | exchange fd msg => exact hh
          | _ => exact False.elim hperf
      | unfile i =>
          cases act with
          | metaDelete key =>
              obtain ⟨s, hs, rfl⟩ := hperf
              obtain ⟨m, hm, hindex⟩ := hbefore.index
              have hget : before.metaDb.db.get? s.1 = some (encSpan i s) := by
                rw [hm]
                exact OrdMap.get?_eq_some.mpr (hindex.mem hs)
              have hread : ControlMeta.ofSlice (encSpan i s) = .ok ⟨s.1, s.2, i⟩ :=
                ControlMeta.ofSlice_encMeta (hσ.sound_view hs)
              have hfd : fdUnder before s.1 = some (i : ℤ) := by
                rw [fdUnder, hget, Option.bind_some, hread]
                rfl
              exact hfd
          | _ => exact False.elim hperf
      | file i s =>
          cases act with
          | metaPut key => rfl
          | _ => exact False.elim hperf

theorem Step.of_metaDelete {σ' : Stage} {key : Bytes} (h : Step n σ (.metaDelete key) σ') :
    ∃ i, missing none σ'.made = some i := by
  cases h with
  | mark ha => exact ha.elim
  | @change _ ch p _ _ _ hperf =>
      cases ch with
      | unfile i => exact ⟨i, by rw [Stage.make, missing_append]; rfl⟩
      | _ => exact False.elim hperf

theorem Traced.unnamed_eq {marks : Act → Prop} {h : List Event} (ht : Traced n marks ⟨.command, V, []⟩ h σ) :
    unnamed h = (missing none σ.made).map Nat.cast := by
  generalize hσ₀ : (⟨.command, V, []⟩ : Stage) = σ₀ at ht
  induction ht with
  | start h₀ =>
      subst hσ₀
      rfl
  | event ht hstep _ hbefore _ ih => exact hstep.unnamed_eq ht.valid hbefore ih

/-- After every event the metadata names every node in one entry, in the order of the nodes, but the one whose entry the
latest write to the metadata deleted. -/
theorem run_virtualFds (F : Type) [Double F] (hw : Fresh n w) {cs : List Command} (hcs : ∀ c ∈ cs, c.Valid) :
    ((DistRocks.run F cs w).1 = .ok () ∨ (DistRocks.run F cs w).1 = .error .overrun) ∧
      ∀ newer e older, (DistRocks.run F cs w).2.history = newer ++ e :: older →
        virtualFds e.after =
            ((List.range n).filter fun j : ℕ => unnamed (e :: older) ≠ some (j : ℤ)).map (fun j : ℕ => .ok (j : ℤ)) ∧
          ∀ key, e.act = .metaDelete key → ∃ i < n, unnamed (e :: older) = some (i : ℤ) := by
  obtain ⟨hout, V, σ, answers, hsim⟩ := hw.traced F hcs
  refine ⟨hout, fun newer e older hhist => ?_⟩
  obtain ⟨new, hnew, ht⟩ := hsim.traced
  rw [Origin.first, List.append_nil] at hnew
  rw [← hnew, hhist] at ht
  obtain ⟨σ₁, σ₂, hold, hstep, -, hbefore, hafter, -⟩ := ht.split
  have hvalid := hstep.valid hold.valid
  have hname := hstep.unnamed_eq hold.valid hbefore hold.unnamed_eq
  constructor
  · rw [hafter.virtualFds_eq hvalid.filledBut fun hs => hvalid.sound_view hs, hname]
    refine congrArg _ (List.filter_congr fun j _ => decide_eq_decide.mpr (not_congr ?_))
    cases missing none σ₂.made <;> simp
  · intro key hact
    rw [hact] at hstep
    obtain ⟨i, hi⟩ := hstep.of_metaDelete
    exact ⟨i, hvalid.filledBut.lt i hi, by rw [hname, hi]; rfl⟩

theorem run_virtualFds_sampleCommands :
    ((DistRocks.run ℚ sampleCommands twoStores).1 = .ok () ∨
      (DistRocks.run ℚ sampleCommands twoStores).1 = .error .overrun) ∧
      ∀ newer e older, (DistRocks.run ℚ sampleCommands twoStores).2.history = newer ++ e :: older →
        virtualFds e.after =
            ((List.range 2).filter fun j : ℕ => unnamed (e :: older) ≠ some (j : ℤ)).map (fun j : ℕ => .ok (j : ℤ)) ∧
          ∀ key, e.act = .metaDelete key → ∃ i : ℕ, i < 2 ∧ unnamed (e :: older) = some (i : ℤ) :=
  run_virtualFds ℚ twoStores_fresh valid_sampleCommands

/-- While `put a x` rewrites the entry of node 1, no entry names it. -/
theorem virtualFds_deleted :
    ∃ e ∈ (DistRocks.run ℚ [.put (text "a") (text "x")] twoStores).2.history, virtualFds e.after = [.ok 0] := by
  decide +kernel

end DistRocks
