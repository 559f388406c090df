import DistRocks.Cluster.Console
import DistRocks.Cluster.Stops
import DistRocks.Cluster.UpdateCrash

/-!
# Nothing is lost

* `OnDisk n c m` : the databases and logs of the stores hold the map `m`; `View.Keeps` : the same of a view;
* `keeps_user`, `keeps_move` : so they do behind every change of a plan;
* `Traced.keeps_update`, `Traced.keeps_rounds` : and at every event of an update and of the loops of `reBalance`;
* `run_durable` : at every event of a run they hold the map of the commands that have ended, or of one more.
-/

namespace DistRocks

open ConstValues Network Proc

variable {n i m : ℕ} {O : Origin} {V W : View} {σ σ₀ : Stage} {answers : List Bytes} {data : OrdMap Bytes Bytes} {c : Cluster}
  {w w' : World} {h : List Event} {marks : Act → Prop} {pass : Pass} {k v : Bytes} {r : Log} {s : Bytes × Bytes}

/-- What is stored is of the map `m`, in one store only, and what is of `m` is stored or waits in a log to be put. -/
structure OnDisk (n : ℕ) (c : Cluster) (m : OrdMap Bytes Bytes) : Prop where
  stored : ∀ j < n, ∀ e ∈ c.pairs j, m.get? e.1 = some e.2
  once : ∀ i < n, ∀ j < n, ∀ e ∈ c.pairs i, ∀ e' ∈ c.pairs j, e.1 = e'.1 → i = j
  kept : ∀ k v, m.get? k = some v →
    ∃ j < n, (k, v) ∈ c.pairs j ∨ (c.stores j).storeLog.getLog = .ok { kind := .put, key := k, value := v }

/-- The same of a view. -/
structure View.Keeps (n : ℕ) (V : View) (m : OrdMap Bytes Bytes) : Prop where
  stored : ∀ j < n, ∀ e ∈ (V.node j).data.entries, m.get? e.1 = some e.2
  once : ∀ i < n, ∀ j < n, ∀ e ∈ (V.node i).data.entries, ∀ e' ∈ (V.node j).data.entries, e.1 = e'.1 → i = j
  kept : ∀ k v, m.get? k = some v →
    ∃ j < n, (k, v) ∈ (V.node j).data.entries ∨ (V.node j).pending = some { kind := .put, key := k, value := v }

/-- The buffers do not matter. -/
theorem OnDisk.of_sameBases {c' : Cluster} (h : OnDisk n c data) (hsame : SameBases c c') : OnDisk n c' data := by
  have hpairs : ∀ j, c'.pairs j = c.pairs j := fun j => by rw [Cluster.pairs, hsame.data, Cluster.pairs]
  refine ⟨fun j hj e he => h.stored j hj e (hpairs j ▸ he), fun i hi j hj e he e' he' =>
    h.once i hi j hj e (hpairs i ▸ he) e' (hpairs j ▸ he'), fun k v hv => ?_⟩
  obtain ⟨j, hj, hkept⟩ := h.kept k v hv
  exact ⟨j, hj, by rwa [hpairs, hsame.log]⟩

theorem View.Keeps.onDisk (hV : V.Keeps n data) (h : Shows n c V) : OnDisk n c data where
  stored j hj e he := hV.stored j hj e (h.pairs hj ▸ he)
  once i hi j hj e he e' he' := hV.once i hi j hj e (h.pairs hi ▸ he) e' (h.pairs hj ▸ he')
  kept k v hv := by
    obtain ⟨j, hj, hmem | hwait⟩ := hV.kept k v hv
    · exact ⟨j, hj, Or.inl (h.pairs hj ▸ hmem)⟩
    · exact ⟨j, hj, Or.inr ((h.stores hj).getLog_some hwait)⟩

/-! ## Behind every change of a plan -/

theorem Placed.keeps (hV : Placed n V) (h : Holds n V data) : V.Keeps n data where
  stored j hj e he := (h e.1 e.2).mpr ⟨j, hj, OrdMap.get?_eq_some.mpr he⟩
  once _ hi _ hj _ he _ he' heq := hV.node_unique hi hj he he' heq
  kept k v hv := by
    obtain ⟨j, hj, hmem⟩ := (h k v).mp hv
    exact ⟨j, hj, Or.inl (OrdMap.get?_eq_some.mp hmem)⟩

/-- What waits in the logs does not matter where everything is stored. -/
theorem View.Keeps.of_data (hV : Placed n V) (h : Holds n V data) (hdata : ∀ j, (W.node j).data = (V.node j).data) :
    W.Keeps n data where
  stored j hj e he := (hV.keeps h).stored j hj e (hdata j ▸ he)
  once i hi j hj e he e' he' := (hV.keeps h).once i hi j hj e (hdata i ▸ he) e' (hdata j ▸ he')
  kept k v hv := by
    obtain ⟨j, hj, hmem⟩ := (h k v).mp hv
    exact ⟨j, hj, Or.inl (by rw [hdata j]; exact OrdMap.get?_eq_some.mp hmem)⟩

/-- A part of the update of a record keeps the map, and its last change applies the record. -/
theorem keeps_user (hV : Placed n V) (h : Holds n V data) (hkind : r.kind ≠ .error) (hroute : Routed V r.key i s)
    {made : List Change} (hpre : made <+: userPlan i r s) (hplaced : made = userPlan i r s → Placed n (V.after made)) :
    (V.after made).Keeps n data ∨ (V.after made).Keeps n (r.apply data) := by
  have hmade := List.prefix_iff_eq_take.mp hpre
  by_cases hm : made.length ≤ 3
  · rw [hmade]
    exact Or.inl (.of_data hV h (data_take_user V i r s hm))
  · have hlen : (userPlan i r s).length ≤ made.length := show 4 ≤ made.length by omega
    rw [List.take_of_length_le hlen] at hmade
    refine Or.inr ((hplaced hmade).keeps ?_)
    rw [hmade]
    exact holds_user h hV hkind hroute

/-- So does a part of a migration: the moved pair waits where it is going to. -/
theorem keeps_move (hV : Placed n V) (h : Holds n V data) (hmove : Movable n pass i k v V) {made : List Change}
    (hpre : made <+: movePlan V pass i k v) (hsound : ∀ ch ∈ made, ch.Sound) : (V.after made).Keeps n data := by
  rw [List.prefix_iff_eq_take.mp hpre] at hsound ⊢
  generalize made.length = m at hsound ⊢
  by_cases hm : m ≤ 6
  · exact .of_data hV h (data_take V pass k v hm)
  have hlast : (movePlan V pass i k v).drop 7 = [.commit (pass.peer i)] := rfl
  have hall : ∀ ch ∈ movePlan V pass i k v, ch.Sound := fun ch hch => by
    rw [← List.take_append_drop 7 (movePlan V pass i k v)] at hch
    rcases List.mem_append.mp hch with hch | hch
    · exact hsound ch (List.take_subset_take_left _ (by omega) hch)
    · rw [hlast] at hch
      rw [List.mem_singleton.mp hch]
      trivial
  have hV' : Placed n (V.after (movePlan V pass i k v)) := (Allowed.move hmove).placed hV hall
  have hdata' := holds_move h hV hmove
  by_cases h7 : m = 7
  · subst h7
    have hget : ∀ {j}, j < n → ∀ e ∈ ((V.after ((movePlan V pass i k v).take 7)).node j).data.entries,
        e ∈ ((V.after (movePlan V pass i k v)).node j).data.entries := fun hj e he => by
      have hsome := OrdMap.get?_eq_some.mpr he
      rw [get?_take_seven hmove e.1 hj hV] at hsome
      split_ifs at hsome
      exact OrdMap.get?_eq_some.mp hsome
    refine ⟨fun j hj e he => (hV'.keeps hdata').stored j hj e (hget hj e he), fun j hj l hl e he e' he' =>
      (hV'.keeps hdata').once j hj l hl e (hget hj e he) e' (hget hl e' he'), fun k' v' hv => ?_⟩
    by_cases hk : k' = k
    · subst hk
      obtain rfl : v' = v := by
        have hv' := (h k' v).mpr ⟨i, hmove.adjacent.lt, OrdMap.get?_eq_some.mpr hmove.mem⟩
        exact Option.some.inj (hv.symm.trans hv')
      have hne := hmove.adjacent.peer_ne
      exact ⟨pass.peer i, hmove.adjacent.peer_lt, Or.inr (by simp [movePlan, View.change, Node.commit, hne])⟩
    · obtain ⟨j, hj, hmem⟩ := (hdata' k' v').mp hv
      refine ⟨j, hj, Or.inl (OrdMap.get?_eq_some.mp ?_)⟩
      rw [get?_take_seven hmove k' hj hV, if_neg hk, hmem]
  · have hlen : (movePlan V pass i k v).length ≤ m := show 8 ≤ m by omega
    rw [List.take_of_length_le hlen]
    exact hV'.keeps hdata'

/-! ## At every event -/

/-- The stage behind an event of a run. -/
theorem Traced.behind_event (ht : Traced n marks σ₀ h σ) {e : Event} (he : e ∈ h) :
    ∃ σ₁ newer older, h = newer ++ older ∧ Traced n marks σ₀ older σ₁ ∧ Traced n marks σ₁ newer σ ∧
      Shows n e.after σ₁.view ∧ (e.act.IsMark → marks e.act) := by
  obtain ⟨newer, older, rfl⟩ := List.append_of_mem he
  obtain ⟨σ₁, σ₂, hold, hstep, hmark, hbefore, hafter, hnew⟩ := ht.split
  exact ⟨σ₂, newer, e :: older, rfl, hold.event hstep hmark hbefore hafter, hnew, hafter, hmark⟩

/-- Between two marks changes are only added. -/
theorem Traced.made_prefix (ht : Traced n marks σ₀ h σ) (hmid : ∀ e ∈ h, ¬e.act.IsMark) : σ₀.made <+: σ.made := by
  induction ht with
  | start => exact List.prefix_refl _
  | @event h σ σ' x _ hstep _ _ _ ih =>
      have hpre := ih fun e he => hmid e (List.mem_cons_of_mem _ he)
      have hx := hmid x List.mem_cons_self
      obtain ⟨act, before, after⟩ := x
      cases hstep with
      | read => exact hpre
      | mark ha => exact absurd ha hx
      | change => exact hpre.trans (List.prefix_append _ _)

/-- At the events of an update its changes are made one after the other. -/
theorem Traced.keeps_update {X : View → Prop} (ht : Traced n (fun _ => False) σ₀ h σ)
    (hall : ∀ made, made <+: σ.made → (∀ ch ∈ made, ch.Sound) → X (σ₀.base.after made)) {e : Event} (he : e ∈ h) :
    ¬e.act.IsMark ∧ ∃ W, X W ∧ Shows n e.after W := by
  obtain ⟨⟨mark, base, made⟩, newer, older, rfl, hold, hnew, hafter, hmark⟩ := ht.behind_event he
  have hmid : ∀ x ∈ newer ++ older, ¬x.act.IsMark := fun x hx hm => by
    obtain ⟨-, -, -, -, -, -, -, hfalse⟩ := ht.behind_event hx
    exact hfalse hm
  obtain ⟨-, rfl⟩ := hold.base_eq fun x hx => hmid x (List.mem_append_right _ hx)
  have hpre : made <+: σ.made := hnew.made_prefix fun x hx => hmid x (List.mem_append_left _ hx)
  exact ⟨hmark, _, hall made hpre hold.valid.sound, hafter⟩

/-- In the loops of `reBalance` the nodes hold one map at every mark. -/
theorem Traced.holds_rounds (ht : Traced n marks σ₀ h σ) (hmarks : ∀ a, marks a → ∃ pass i, a = .iteration pass i)
    (hfirst : ∃ pass i, σ₀.mark = .iteration pass i) (hdata : Holds n σ₀.base data) :
    (∃ pass i, σ.mark = .iteration pass i) ∧ Holds n σ.base data := by
  induction ht with
  | start => exact ⟨hfirst, hdata⟩
  | @event h σ σ' x ht hstep hmark _ _ ih =>
      obtain ⟨⟨pass, i, hiter⟩, hdata⟩ := ih
      obtain ⟨act, before, after⟩ := x
      cases hstep with
      | read => exact ⟨⟨pass, i, hiter⟩, hdata⟩
      | mark ha hdone =>
          refine ⟨hmarks _ (hmark ha), ?_⟩
          rcases hdone with hnil | hp
          · rwa [Stage.view, hnil]
          · obtain ⟨k, v, hmove, hp⟩ := (hiter ▸ hp).of_iteration
            rw [Stage.view, hp]
            exact holds_move hdata ht.valid.placed hmove
      | change => exact ⟨⟨pass, i, hiter⟩, hdata⟩

/-- And at every event the nodes and their logs hold it. -/
theorem Traced.keeps_rounds (ht : Traced n marks σ₀ h σ) (hmarks : ∀ a, marks a → ∃ pass i, a = .iteration pass i)
    (hfirst : ∃ pass i, σ₀.mark = .iteration pass i) (hdata : Holds n σ₀.base data) : σ.view.Keeps n data := by
  obtain ⟨⟨pass, i, hiter⟩, hdata⟩ := ht.holds_rounds hmarks hfirst hdata
  rcases ht.valid.plan with hnil | ⟨p, hp, hpre⟩
  · rw [Stage.view, hnil]
    exact ht.valid.placed.keeps hdata
  · obtain ⟨k, v, hmove, rfl⟩ := (hiter ▸ hp).of_iteration
    exact keeps_move ht.valid.placed hdata hmove hpre ht.valid.sound

/-! ## At every event of a command -/

/-- From the world `w` to `w'` the control node is not at its prompt, and every event leaves one of the maps `X` on the
disks. -/
def Keeping (n : ℕ) (X : OrdMap Bytes Bytes → Prop) (w w' : World) : Prop :=
  ∃ new, w'.history = new ++ w.history ∧ ∀ e ∈ new, e.act ≠ .command ∧ ∃ data, X data ∧ OnDisk n e.after data

section Keeping
variable {X : OrdMap Bytes Bytes → Prop}

theorem Keeping.trans {w₁ : World} (h : Keeping n X w w₁) (h' : Keeping n X w₁ w') : Keeping n X w w' := by
  obtain ⟨new, hnew, hall⟩ := h
  obtain ⟨new', hnew', hall'⟩ := h'
  refine ⟨new' ++ new, by rw [hnew', hnew, List.append_assoc], fun e he => ?_⟩
  rcases List.mem_append.mp he with he | he
  · exact hall' e he
  · exact hall e he

/-- A part of an update. -/
theorem Sim.keeping {made : List Change}
    (h : Sim n ⟨⟨.command, V, []⟩, w.history, fun _ => False⟩ ⟨.command, V, made⟩ answers w')
    (hall : ∀ made', made' <+: made → (∀ ch ∈ made', ch.Sound) → ∃ data, X data ∧ (V.after made').Keeps n data) :
    Keeping n X w w' := by
  obtain ⟨new, hnew, ht⟩ := h.traced
  refine ⟨new, hnew, fun e he => ?_⟩
  obtain ⟨hmark, W, ⟨data, hX, hW⟩, hshows⟩ := ht.keeps_update (X := fun W => ∃ data, X data ∧ W.Keeps n data) hall he
  exact ⟨fun hcommand => hmark (hcommand ▸ trivial), data, hX, hW.onDisk hshows⟩

/-- A part of `reBalance`. -/
theorem Sim.keeping_rounds {passes : Pass → Prop} (h : Sim n (.rounds V w.history passes) σ answers w')
    (hdata : Holds n V data) (hX : X data) : Keeping n X w w' := by
  obtain ⟨new, hnew, ht⟩ := h.traced
  refine ⟨new, hnew, fun e he => ?_⟩
  have hmarks : ∀ a, (Origin.rounds V w.history passes).marks a → ∃ pass i, a = .iteration pass i := by
    rintro a ⟨pass, i, rfl, -⟩
    exact ⟨pass, i, rfl⟩
  obtain ⟨σ₁, -, older, -, hold, -, hafter, hmark⟩ := ht.behind_event he
  refine ⟨fun hcommand => ?_, data, hX, (hold.keeps_rounds hmarks ⟨_, _, rfl⟩ hdata).onDisk hafter⟩
  obtain ⟨pass, i, hiter⟩ := hmarks _ (hmark (hcommand ▸ trivial))
  rw [hcommand] at hiter
  cases hiter

/-- At every event of a command, whatever becomes of it, the map is that from before it or that from behind it. -/
theorem Sim.exec_keeping (F : Type) [Double F] (h : Sim n O ⟨.command, V, []⟩ answers w) (hn : 0 < n)
    (hdata : Holds n V data) {com : Command} (hc : com.Valid) :
    Keeping n (fun d => d = data ∨ d = com.asRead.next data) w (com.exec F w).2 := by
  have hV : Placed n V := h.valid.placed
  have h₀ : Sim n ⟨⟨.command, V, []⟩, w.history, fun _ => False⟩ ⟨.command, V, []⟩ answers w := h.rebase h.valid rfl _
  have hstill : ∀ made', made' <+: ([] : List Change) → (∀ ch ∈ made', ch.Sound) →
      ∃ d, (d = data ∨ d = com.asRead.next data) ∧ (V.after made').Keeps n d := fun made' hpre _ => by
    rw [List.prefix_nil.mp hpre]
    exact ⟨data, Or.inl rfl, hV.keeps hdata⟩
  cases hr : com.record with
  | none =>
      cases com with
      | quit | test _ | other _ => exact hc.elim
      | put _ _ | del _ => cases hr
      | get key =>
          rcases (h₀.getCommand hn hc.2).outcome with ⟨a, -, i, s, -, hsim⟩ | ⟨e, -, ⟨-, hsim, -⟩ | ⟨r, i, s, hq, -⟩⟩
          · exact hsim.keeping hstill
          · exact hsim.keeping hstill
          · cases hq
  | some r =>
      have hnext : com.asRead.next data = r.apply data := Command.next_asRead hr
      have hkind := Command.record_kind hr
      have huser : ∀ {i s made}, Routed V r.key i s → made <+: userPlan i r s →
          (∀ made', made' <+: made → (∀ ch ∈ made', ch.Sound) → made' = userPlan i r s → Placed n (V.after made')) →
          ∀ made', made' <+: made → (∀ ch ∈ made', ch.Sound) →
            ∃ d, (d = data ∨ d = com.asRead.next data) ∧ (V.after made').Keeps n d := by
        intro i s made hroute hpre hplaced made' hpre' hsound
        rcases keeps_user hV hdata hkind hroute (hpre'.trans hpre) (hplaced made' hpre' hsound) with hkeeps | hkeeps
        · exact ⟨data, Or.inl rfl, hkeeps⟩
        · exact ⟨_, Or.inr rfl, hnext ▸ hkeeps⟩
      have hupdate := h₀.update hn hc hr
      rw [exec_eq F hc hr]
      rcases hx : com.update w with ⟨e | a, w₁⟩
      · rw [Ends, hx] at hupdate
        rw [bind_run_error hx]
        rcases hupdate with ⟨-, hsim, -⟩ | ⟨r', i, s, hq, hroute, -, made, ch, hsim, hpre, -⟩
        · exact hsim.keeping hstill
        · obtain rfl : r = r'.asRead.recorded := Option.some.inj (hr.symm.trans (Command.record_eq hc hq))
          rw [← Log.key_recorded] at hroute
          refine hsim.keeping (huser hroute ((List.prefix_append _ _).trans hpre) fun made' hpre' _ hfull => ?_)
          -- the change that did not fit is missing
          have hlen := hpre.length_le
          have hlen' := hpre'.length_le
          rw [hfull] at hlen'
          simp only [List.length_append, List.length_singleton] at hlen
          omega
      · obtain ⟨i, s, hroute, hp, h₁⟩ := hupdate.of_eq hx
        rw [bind_run hx]
        have hfirst : Keeping n (fun d => d = data ∨ d = com.asRead.next data) w w₁ :=
          h₁.keeping (huser hroute (List.prefix_refl _) fun made' _ hsound hfull => by
            rw [hfull] at hsound ⊢
            exact hp.placed hV hsound)
        have hheld : Holds n (V.after (userPlan i r s)) (com.asRead.next data) := hnext ▸ holds_user hdata hV hkind hroute
        have hrest := (h₁.rest (Or.inr hp)).rebase fun _ => True
        refine hfirst.trans ?_
        rcases (hrest.reBalance F fun pass i => ⟨pass, i, rfl, trivial⟩).outcome with
          ⟨-, -, V₁, older, -, -, ⟨V₂, -, σ, hsim, -⟩, -⟩ | ⟨e, -, V₁, pass, l, k, v, -, ⟨-, made, ch, hsim, -⟩, -⟩
        · exact hsim.keeping_rounds hheld (Or.inr rfl)
        · exact hsim.keeping_rounds hheld (Or.inr rfl)

/-- A `test` is one event at most, which changes no database. -/
theorem history_testCommand (s : Bytes) (w : World) : (testCommand s w).2.history = w.history ∨
    ∃ msg cl, (testCommand s w).2.history = ⟨.post 0 msg, w.cluster, cl⟩ :: w.history ∧ SameBases w.cluster cl := by
  have hmsg : [TEST, s].flatMap encStr = (Request.test s).message := by simp [Request.message]
  have hends : Ends (testCommand s) w
      (fun _ w' => w'.history = w.history ∨
        ∃ msg cl, w'.history = ⟨.post 0 msg, w.cluster, cl⟩ :: w.history ∧ SameBases w.cluster cl)
      (fun _ w' => w'.history = w.history) := by
    rw [testCommand, assembleStrs_eq, hmsg, ends_bind]
    refine ends_assemble _ (fun b hlen htake => ?_) fun _ => rfl
    by_cases hfd : 0 < w.storeNodeCount
    · rw [Ends, post, get_bind_run, if_pos hfd, htake, StoreImpl.serve_test _ hlen, lift_ok_bind_run]
      exact Or.inr ⟨_, _, rfl, SameBases.update rfl rfl⟩
    · rw [Ends, post, get_bind_run, if_neg hfd]
      rfl
  rcases hends.outcome with ⟨a, -, hevent⟩ | ⟨e, -, hsame⟩
  · exact hevent
  · exact Or.inl hsame

/-- So it is for what else can be typed. -/
theorem Sim.typed_keeping (F : Type) [Double F] (h : Sim n O ⟨.command, V, []⟩ answers w) (hn : 0 < n)
    (hdata : Holds n V data) {com : Command} (hc : com.Typed) :
    Keeping n (fun d => d = data ∨ d = com.asRead.next data) w (com.exec F w).2 := by
  by_cases hvalid : com.Valid
  · exact h.exec_keeping F hn hdata hvalid
  have hstay : Keeping n (fun d => d = data ∨ d = com.asRead.next data) w w :=
    ⟨[], rfl, fun e he => absurd he List.not_mem_nil⟩
  cases com with
  | quit | other _ => exact hstay
  | test s =>
      have hdisk : OnDisk n w.cluster data := (h.valid.placed.keeps hdata).onDisk h.shows
      rcases history_testCommand s w with hhist | ⟨msg, cl, hhist, hsame⟩
      · exact ⟨[], hhist, fun e he => absurd he List.not_mem_nil⟩
      · refine ⟨[_], hhist, fun e he => ?_⟩
        rw [List.mem_singleton.mp he]
        exact ⟨fun hcommand => (by cases hcommand), data, Or.inl rfl, hdisk.of_sameBases hsame⟩
  | put _ _ | get _ => exact absurd hc hvalid
  | del key =>
      obtain rfl : key = [] := by
        by_contra hkey
        exact hvalid ⟨hkey, hc⟩
      rw [Command.exec, if_pos rfl]
      exact hstay

end Keeping

theorem Prompt.onDisk (h : Prompt n data answers w) : OnDisk n w.cluster data := by
  obtain ⟨O, V, -, ⟨σ, hσ, hdone, rfl⟩, hdata⟩ := h
  exact ((hσ.valid.placed_view hdone).keeps hdata).onDisk hσ.shows

/-! ## At every event of a run -/

/-- How often the control node has been at its prompt. -/
def prompts (h : List Event) : ℕ := h.countP fun e => e.act = .command

theorem prompts_append (h h' : List Event) : prompts (h ++ h') = prompts h + prompts h' := List.countP_append

theorem prompts_eq_zero (hall : ∀ e ∈ h, e.act ≠ .command) : prompts h = 0 :=
  List.countP_eq_zero.mpr fun e he => by simpa using hall e he

/-- The map of the first commands. -/
def mapAfter (data : OrdMap Bytes Bytes) (cs : List Command) : OrdMap Bytes Bytes :=
  (cs.map Command.asRead).foldl Command.next data

/-- The map of the commands that have ended at an event, or of one more. -/
def Tracks (n : ℕ) (data : OrdMap Bytes Bytes) (cs : List Command) (new : List Event) : Prop :=
  ∀ newer e older, new = newer ++ e :: older →
    ∃ k, (prompts (e :: older) = k + 1 ∨ prompts (e :: older) = k) ∧ OnDisk n e.after (mapAfter data (cs.take k))

theorem tracks_nil {cs : List Command} : Tracks n data cs [] := fun newer e older heq => by
  cases newer <;> cases heq

theorem tracks_prompt {cs : List Command} {e₀ : Event} (he₀ : e₀.act = .command) (hfirst : OnDisk n e₀.after data) :
    Tracks n data cs [e₀] := by
  intro newer e older heq
  obtain ⟨rfl, hlast⟩ | ⟨-, hnil⟩ := List.append_eq_singleton_iff.mp heq.symm
  · obtain ⟨rfl, rfl⟩ := List.cons.inj hlast
    exact ⟨0, Or.inl (by simp [prompts, he₀]), hfirst⟩
  · cases hnil

/-- The prompt, the events of a command, and those of the commands behind it. -/
theorem Tracks.cons {com : Command} {cs : List Command} {e₀ : Event} {new new' : List Event} (he₀ : e₀.act = .command)
    (hfirst : OnDisk n e₀.after data) (hnew : ∀ e ∈ new, e.act ≠ .command ∧ ∃ d, (d = data ∨ d = com.asRead.next data) ∧
      OnDisk n e.after d) (h : Tracks n (com.asRead.next data) cs new') :
    Tracks n data (com :: cs) (new' ++ (new ++ [e₀])) := by
  intro newer e older heq
  have hone : prompts [e₀] = 1 := by simp [prompts, he₀]
  rcases split_middle heq.symm with ⟨back, rfl, rfl⟩ | ⟨mid, rfl, hlast⟩
  · obtain ⟨k, hk, hdisk⟩ := h newer e back rfl
    have hcount : prompts (e :: (back ++ (new ++ [e₀]))) = prompts (e :: back) + 1 := by
      rw [← List.cons_append, prompts_append, prompts_append, prompts_eq_zero fun x hx => (hnew x hx).1, hone]
    exact ⟨k + 1, by omega, hdisk⟩
  · rcases split_middle hlast.symm with ⟨back, rfl, rfl⟩ | ⟨mid, rfl, hfront⟩
    · obtain ⟨-, d, hd, hdisk⟩ := hnew e (by simp)
      have hzero : prompts (e :: back) = 0 := prompts_eq_zero fun x hx => (hnew x (List.mem_append_right _ hx)).1
      have hcount : prompts (e :: (back ++ [e₀])) = 1 := by
        rw [← List.cons_append, prompts_append, hzero, hone]
      rcases hd with rfl | rfl
      · exact ⟨0, Or.inl hcount, hdisk⟩
      · exact ⟨1, Or.inr hcount, hdisk⟩
    · exact tracks_prompt he₀ hfirst mid e older hfront

/-- A run from the prompt. -/
theorem Prompt.tracks (F : Type) [Double F] (h : Prompt n data answers w) (hn : 0 < n) {cs : List Command}
    (hcs : ∀ com ∈ cs, com.Typed) :
    ∃ new, (DistRocks.run F cs w).2.history = new ++ w.history ∧ Tracks n data (taken cs) new := by
  induction cs generalizing w data answers with
  | nil => exact ⟨[⟨.command, w.cluster, w.cluster⟩], rfl, tracks_prompt rfl h.onDisk⟩
  | cons com cs ih =>
      have hfirst : OnDisk n w.cluster data := h.onDisk
      let e₀ : Event := ⟨.command, w.cluster, w.cluster⟩
      by_cases hquit : com = .quit
      · subst hquit
        exact ⟨[e₀], rfl, tracks_prompt rfl hfirst⟩
      · have htaken : taken (com :: cs) = com :: taken cs := by simp [taken, hquit]
        have hc := hcs com List.mem_cons_self
        have hexec := h.exec F hn hc
        obtain ⟨O, V, hO, ⟨σ, hσ, hdone, rfl⟩, hdata⟩ := h
        obtain ⟨w₁, hmark, hhist, h₁⟩ : ∃ w₁, DistRocks.mark .command w = (.ok (), w₁) ∧ w₁.history = e₀ :: w.history ∧
            Sim n O ⟨.command, σ.view, []⟩ answers w₁ :=
          ⟨_, rfl, rfl, (hσ.mark hdone (a := .command) (H := fun _ _ => True) trivial (hO _ trivial)).of_eq rfl |>.1⟩
        obtain ⟨new, hnew, hall⟩ := h₁.typed_keeping F hn hdata hc
        rw [run_eq F hquit, htaken]
        rcases hx : com.exec F w₁ with ⟨e | a, w₂⟩
        · rw [bind_run_error (by rw [bind_run hmark, hx])]
          rw [hx] at hnew
          refine ⟨[] ++ (new ++ [e₀]), ?_, tracks_nil.cons rfl hfirst hall⟩
          rw [hnew, hhist]
          simp
        · have hx' : (do DistRocks.mark .command; com.exec F) w = (.ok a, w₂) := by rw [bind_run hmark, hx]
          rw [bind_run hx']
          rw [hx] at hnew
          obtain ⟨new', hnew', htracks⟩ := ih (hexec.of_eq hx') (fun c' hc' => hcs c' (List.mem_cons_of_mem _ hc'))
          refine ⟨new' ++ (new ++ [e₀]), ?_, htracks.cons rfl hfirst hall⟩
          rw [hnew', hnew, hhist]
          simp

theorem Fresh.tracks (F : Type) [Double F] (hw : Fresh n w) {cs : List Command} (hcs : ∀ com ∈ cs, com.Typed) :
    OnDisk n w.cluster .empty ∧ Tracks n .empty (taken cs) (DistRocks.run F cs w).2.history := by
  obtain ⟨V, hsim, hdata, -⟩ := hw.sim
  have hprompt : Prompt n .empty [] w := .of_shows hsim.count hsim.refusals hsim.answered hsim.shows hsim.valid.placed hdata
  obtain ⟨new, hnew, htracks⟩ := hprompt.tracks F hw.pos hcs
  rw [hw.history, List.append_nil] at hnew
  exact ⟨hprompt.onDisk, hnew ▸ htracks⟩

/-- At every event of a run, whatever becomes of it: the stores and their logs hold the map of the commands that have
ended, or that of one command more. -/
theorem run_durable (F : Type) [Double F] (hw : Fresh n w) {cs : List Command} (hcs : ∀ com ∈ cs, com.Typed)
    {newer older : List Event} {e : Event} (hsplit : (run F cs w).2.history = newer ++ e :: older) :
    ∃ k, (prompts (e :: older) = k + 1 ∨ prompts (e :: older) = k) ∧
      OnDisk n e.after (mapAfter .empty ((taken cs).take k)) :=
  (hw.tracks F hcs).2 newer e older hsplit

theorem commit_lt_sampleHistory : 6 + 0 < sampleHistory.length := by decide +kernel

/-- The commit at the source of the migration, behind which the moved pair is in no store. -/
def sampleCommit : Event := sampleHistory.get ⟨6 + 0, commit_lt_sampleHistory⟩

theorem run_durable_twoPuts :
    ∃ k, (prompts (sampleCommit :: sampleHistory.drop 7) = k + 1 ∨ prompts (sampleCommit :: sampleHistory.drop 7) = k) ∧
      OnDisk 2 sampleCommit.after (mapAfter .empty ((taken twoPuts).take k)) := by
  have hsplit := split_at sampleHistory commit_lt_sampleHistory
  rw [List.take_zero, List.nil_append] at hsplit
  exact run_durable ℚ twoStores_fresh (by decide) hsplit

/-- It waits in the log of its new store. -/
example : (sampleCommit.after.stores 0).storeLog.getLog = .ok { kind := .put, key := text "a", value := text "x" } := by
  decide +kernel

/-- In whatever order the control node and the stores take their steps, and wherever all of them stop: the stores and
their logs hold the map of the first commands. -/
theorem stops_durable (F : Type) [Double F] (hw : Fresh n w) {cs : List Command} (hcs : ∀ com ∈ cs, com.Typed)
    (hrun : (run F cs w).1 = .ok ()) {l : ℕ} {net : Net ℕ Bytes StoreImpl (Script Unit × Own)}
    (h : Net.Run Script.move StoreImpl.take l (w.net F cs) net) (hc : c ∈ stops net) :
    ∃ k, OnDisk n c (mapAfter .empty ((taken cs).take k)) := by
  obtain ⟨c₀, ⟨new, hnew, hvisited⟩, hsame⟩ := stops_visited F hw.refusals hrun h.joining hc
  rw [hw.history, List.append_nil] at hnew
  obtain ⟨hfirst, htracks⟩ := hw.tracks F hcs
  rcases hvisited with rfl | ⟨e, he, rfl⟩
  · exact ⟨0, hfirst.of_sameBases hsame⟩
  · obtain ⟨newer, older, hsplit⟩ := List.append_of_mem he
    obtain ⟨k, -, hdisk⟩ := htracks newer e older (hnew.trans hsplit)
    exact ⟨k, hdisk.of_sameBases hsame⟩

theorem stops_durable_twoStores : ∃ k, OnDisk 2 twoStores.cluster (mapAfter .empty ((taken probedCommands).take k)) := by
  have hcount : 0 < twoStores.storeNodeCount := twoStores_fresh.count.symm ▸ twoStores_fresh.pos
  obtain ⟨net, hnet, -, hc⟩ := run_test_posted ℚ (s := text "hello") hcount (by decide) [.put (text "a") (text "x")]
  exact stops_durable ℚ twoStores_fresh (by decide) (by decide +kernel) hnet hc

end DistRocks
