import DistRocks.Cluster.Durable

/-!
# What a stop leaves in the logs

* `Owes n data r i s V` : placed nodes that hold a map once the record `r` in the log of node `i` has been applied;
  `Owes.filed`, `owes_moved` : they are so in the middle of an update and before the last commit of a migration;
* `Leaves n c p` : the logs of a cluster have no record, or one, and no entry is missing in the metadata;
* `Restarts n data p c` : every process is started over the databases, and the control node waits at its prompt;
* `Owes.restarts_user`, `restarts_move` : so it does behind every change of a plan that leaves one record at most.
-/

namespace DistRocks

open ConstValues Network Proc

variable {n i m : ℕ} {O : Origin} {V W : View} {σ σ₀ : Stage} {answers : List Bytes} {data : OrdMap Bytes Bytes} {c : Cluster}
  {w w' : World} {pass : Pass} {k v : Bytes} {r : Log} {s : Bytes × Bytes}

/-! ## A record logged again -/

namespace StoreImpl

variable {st : StoreImpl} {nd : Node}

/-- The log keeps one copy of a record. -/
theorem Reflects.writeLog_again (h : st.Reflects nd) (hr : nd.pending = some r) (b : Buff) : (st.withLog r b).Reflects nd := by
  refine ⟨h.data, ?_, h.storable⟩
  rw [withLog, h.log, hr, DBHandle.put_reliable]
  exact congrArg DBHandle.reliable (OrdMap.insert_of_mem (by rw [logDb_some_entries]; exact List.mem_singleton_self _))

/-- The record that waits already is taken and answered like a new one. -/
theorem Reflects.serve_again (h : st.Reflects nd) {r₀ : Log} {v : Value} (hkind : r₀.kind ≠ .error) (hkey : r₀.asRead.key ≠ [])
    (hlen : (Request.log r₀).message.length ≤ MAXLINE) (hr : nd.pending = some r₀.asRead.recorded)
    (hv : nd.answer (Request.log r₀).asRead = some v) :
    (v.message.length ≤ MAXLINE ∧ ∃ st', st.serve (Request.log r₀).message =
        .ok ((Request.log r₀).asRead, st', some v.message) ∧ st'.Reflects nd) ∨
      (MAXLINE < v.message.length ∧ st.serve (Request.log r₀).message = .error .overrun) := by
  have hreceived : (st.received (Request.log r₀).message).Reflects nd := h.of_eq rfl rfl
  have hkind' : r₀.asRead.kind ≠ .error := hkind
  obtain ⟨b, hb, -⟩ := Buff.put_eq_ok (b := st.storeLog.buff) (h.storable _ hr).fits
  have heffect : (st.received (Request.log r₀).message).effect (Request.log r₀).asRead =
      .ok ((st.received (Request.log r₀).message).withLog r₀.asRead.recorded b) := by
    rw [Request.asRead, StoreImpl.effect, if_neg hkind',
      show (st.received (Request.log r₀).message).storeLog.buff = st.storeLog.buff from rfl, hb, ok_bind,
      if_neg (Log.not_strays hkey _)]
    rfl
  rw [serve_message st hlen (fun c hc => by cases hc), execute_eq _ (hreceived.data ▸ hv : _ = some v), heffect, ok_bind]
  have hrefl := hreceived.writeLog_again hr b
  generalize (st.received (Request.log r₀).message).withLog r₀.asRead.recorded b = st₁ at hrefl ⊢
  rcases sendReply_cases st₁ v.message with ⟨hfit, b', hb'⟩ | ⟨hover, he⟩
  · exact Or.inl ⟨hfit, { st₁ with sendBuff := b' }, by rw [hb', ok_bind], hrefl.of_eq rfl rfl⟩
  · exact Or.inr ⟨hover, by rw [he, error_bind]⟩

end StoreImpl

/-! ## Views with one record left -/

/-- The nodes are placed, and with the record `r`, which is left in the log of node `i`, they hold the map `data`. -/
structure Owes (n : ℕ) (data : OrdMap Bytes Bytes) (r : Log) (i : ℕ) (s : Bytes × Bytes) (V : View) : Prop where
  placed : Placed n V
  routed : Routed V r.key i s
  key : r.key ≠ []
  carried : r.Carried
  holds : ∃ held, Holds n V held ∧ r.apply held = r.apply data

theorem Holds.congr (h : Holds n V data) (hdata : ∀ j < n, (W.node j).data = (V.node j).data) : Holds n W data :=
  fun k v => (h k v).trans (exists_congr fun j => and_congr_right fun hj => by rw [hdata j hj])

/-- Nodes with fewer pairs in the same intervals. -/
theorem Placed.shrink (hV : Placed n V) (htable : W.table = V.table) (hquiet : ∀ j < n, (W.node j).pending = none)
    (hdata : ∀ j < n, ∀ e ∈ (W.node j).data.entries, e ∈ (V.node j).data.entries) : Placed n W where
  filled j := by rw [htable, hV.filled j]
  quiet hj := hquiet _ hj
  within hs e he := by
    rw [htable] at hs
    exact hV.within hs e (hdata _ (hV.lt_of_span hs) e he)
  stored hj e he := hV.stored hj e (hdata _ hj e he)
  sound hs := hV.sound (htable ▸ hs)

/-- Behind the new entry of an update. -/
theorem Owes.filed (h : Owes n data r i s V) (hsound : (ControlMeta.mk (r.widen s).1 (r.widen s).2 i).Sound) :
    ∃ t V', Owes n data r i t V' ∧ V'.after [.log i r] = V.after ((userPlan i r s).take 3) := by
  obtain ⟨hV, hroute, hkey, hr, hdata⟩ := h
  have hi := hV.lt_of_span hroute.span
  have hwithin : ∀ e ∈ (V.node i).data.entries, (r.widen s).1 ≤ e.1 ∧ e.1 ≤ (r.widen s).2 := fun e he => by
    obtain ⟨hlo, hhi⟩ := hV.within hroute.span e he
    refine ⟨le_trans ?_ hlo, hhi.trans (le_max_left _ _)⟩
    rw [Log.widen]
    split_ifs
    · exact le_rfl
    · exact min_le_left _ _
  have hplaced := hV.update hi hroute.fits (hV.quiet hi) hwithin (hV.stored hi) hsound
  rw [Function.update_eq_self] at hplaced
  refine ⟨r.widen s, ⟨V.node, V.table.set i (r.widen s) hroute.fits⟩, ⟨hplaced, ?_, hkey, hr, hdata⟩, ?_⟩
  · refine ⟨Spans.span_set_self hroute.fits, fun hlt ht => ?_, fun hlt ht => ?_, ?_⟩
    · rw [Spans.span_set_of_ne _ hlt.ne] at ht
      exact hroute.above hlt ht
    · rw [Spans.span_set_of_ne _ hlt.ne'] at ht
      exact hroute.below hlt ht
    · rcases hroute.floor with hle | hnone
      · refine Or.inl ((le_trans ?_ hle))
        rw [Log.widen]
        split_ifs
        · exact le_rfl
        · exact min_le_left _ _
      · refine Or.inr fun j hj => ?_
        rw [Spans.span_set_of_ne _ hj.ne]
        exact hnone j hj
  · simp [userPlan, View.change, Spans.put_eq hroute.fits.erase, Spans.set_erase hroute.fits]

/-- Behind the commit at the source of a migration. -/
theorem owes_moved (hV : Placed n V) (hdata : Holds n V data) (hmove : Movable n pass i k v V)
    (hsound : ∀ ch ∈ (movePlan V pass i k v).take 7, ch.Sound) :
    ∃ t V', Owes n data ⟨.put, k, v⟩ (pass.peer i) t V' ∧
      V'.after [.log (pass.peer i) ⟨.put, k, v⟩] = V.after ((movePlan V pass i k v).take 7) := by
  have hne := hmove.adjacent.peer_ne
  have hV' : Placed n (V.after (movePlan V pass i k v)) := placed_take hV hmove le_rfl hsound
  have hnode := node_after_move hmove
  let source : Node := ⟨(V.node i).data.erase k, (Log.mk .delete k []).resize (V.node i).data (V.node i).size, none⟩
  let U : View := ⟨Function.update V.node i source, (V.after (movePlan V pass i k v)).table⟩
  have hdataU : ∀ j, (U.node j).data = ((V.after ((movePlan V pass i k v).take 7)).node j).data := fun j => by
    by_cases hji : j = i
    · subst hji
      simp [U, source, movePlan, View.change, Node.commit, Log.apply, hne.symm]
    · by_cases hjp : j = pass.peer i
      · subst hjp
        simp [U, movePlan, View.change, hne]
      · simp [U, movePlan, View.change, hji, hjp]
  have hget : ∀ {j} key, j < n → (U.node j).data.get? key =
      if key = k then none else ((V.after (movePlan V pass i k v)).node j).data.get? key := fun {j} key hj => by
    rw [hdataU, get?_take_seven hmove key hj hV]
  have hsub : ∀ j < n, ∀ e ∈ (U.node j).data.entries, e ∈ ((V.after (movePlan V pass i k v)).node j).data.entries :=
    fun j hj e he => by
      have hsome := OrdMap.get?_eq_some.mpr he
      rw [hget e.1 hj] at hsome
      split_ifs at hsome
      exact OrdMap.get?_eq_some.mp hsome
  have hquiet : ∀ j < n, (U.node j).pending = none := fun j hj => by
    by_cases hji : j = i
    · subst hji
      simp [U, source]
    · simpa [U, hji] using hV.quiet hj
  have hspan : U.table.span (pass.peer i) = some (keyEnds ((V.node (pass.peer i)).data.insert k v)) := by
    rw [show U.table = _ from table_after_move hV hmove, Spans.span_set_self]
  obtain ⟨hlo, hhi⟩ := keyEnds_bounds (m := (V.node (pass.peer i)).data.insert k v) (OrdMap.mem_insert.mpr (Or.inl rfl))
  obtain ⟨j, hj, hmem⟩ : ∃ j < n, (V.node j).data.get? k = some v :=
    ⟨i, hmove.adjacent.lt, OrdMap.get?_eq_some.mpr hmove.mem⟩
  have hstored := (hdata k v).mpr ⟨j, hj, hmem⟩
  refine ⟨_, U, ⟨hV'.shrink rfl hquiet hsub, .of_mem hspan ⟨hlo, hhi⟩, (hV.stored hmove.adjacent.lt _ hmove.mem).1,
    (hV.stored hmove.adjacent.lt _ hmove.mem).2, data.erase k, fun k' v' => ?_, ?_⟩, ?_⟩
  · have hall := holds_move hdata hV hmove k' v'
    rw [OrdMap.get?_erase]
    by_cases hk : k' = k
    · subst hk
      simp only [if_true]
      refine ⟨(fun hnone => by cases hnone), ?_⟩
      rintro ⟨l, hl, hv⟩
      rw [hget k' hl, if_pos rfl] at hv
      cases hv
    · rw [if_neg hk, hall]
      exact exists_congr fun l => and_congr_right fun hl => by rw [hget k' hl, if_neg hk]
  · show (data.erase k).insert k v = data.insert k v
    rw [OrdMap.insert_erase (OrdMap.get?_eq_some.mp hstored), OrdMap.insert_of_mem (OrdMap.get?_eq_some.mp hstored)]
  · have htable : U.table = (V.after ((movePlan V pass i k v).take 7)).table := by
      rw [table_take_six hV hmove (by omega)]
      exact table_after_move hV hmove
    refine View.ext (funext fun j => ?_) htable
    by_cases hjp : j = pass.peer i
    · subst hjp
      simp [U, movePlan, View.change, hne]
    · by_cases hji : j = i
      · subst hji
        simp [U, source, movePlan, View.change, Node.commit, Log.apply, hne.symm]
      · simp [U, movePlan, View.change, hji, hjp]

/-! ## What a stop leaves -/

/-- What is left in the logs: nothing, or one record, with every node in the metadata. -/
def Leaves (n : ℕ) (c : Cluster) : Option Log → Prop
  | none => ∀ j < n, (c.stores j).storeLog.getLog = .ok { kind := .error }
  | some r => (∀ j < n, .ok (j : ℤ) ∈ virtualFds c) ∧ r.kind ≠ .error ∧
      ∃ i < n, (c.stores i).storeLog.getLog = .ok r ∧ ∀ j < n, j ≠ i → (c.stores j).storeLog.getLog = .ok { kind := .error }

/-- The control node is at its prompt, and the nodes hold `data`, or will when the record that is left has been applied. -/
def Waits (n : ℕ) (data : OrdMap Bytes Bytes) (answers : List Bytes) (w : World) : Option Log → Prop
  | none => Prompt n data answers w
  | some r => ∃ i s V, Owes n data r i s V ∧ w.storeNodeCount = n ∧ w.refusals = [] ∧ w.answers = answers ∧
      Shows n w.cluster (V.after [.log i r])

/-- When every process is started again over the databases of `c`, the control node comes to its prompt, unless the block
of its connections is too small. -/
def Restarts (n : ℕ) (data : OrdMap Bytes Bytes) (p : Option Log) (c : Cluster) : Prop :=
  ∀ room, Connects room n → Ends (construct room n) (World.boot c.reopen) (fun _ w => Waits n data [] w p) fun _ _ => False

theorem Shows.getLog {j : ℕ} (h : Shows n c W) (hj : j < n) :
    (c.stores j).storeLog.getLog = .ok ((W.node j).pending.getD { kind := .error }) := by
  cases hp : (W.node j).pending with
  | none => exact (h.stores hj).getLog_none hp
  | some r => exact (h.stores hj).getLog_some hp

theorem Shows.pending_eq_none {j : ℕ} (h : Shows n c W) (hj : j < n)
    (hget : (c.stores j).storeLog.getLog = .ok { kind := .error }) : (W.node j).pending = none := by
  rw [h.getLog hj] at hget
  cases hp : (W.node j).pending with
  | none => rfl
  | some r =>
      rw [hp] at hget
      have hkind := ((h.stores hj).storable r hp).kind
      rw [show r = _ from Except.ok.inj hget] at hkind
      exact absurd rfl hkind

theorem Shows.pending_eq_some {j : ℕ} (h : Shows n c W) (hj : j < n) (hr : r.kind ≠ .error)
    (hget : (c.stores j).storeLog.getLog = .ok r) : (W.node j).pending = some r := by
  rw [h.getLog hj] at hget
  have heq := Except.ok.inj hget
  cases hp : (W.node j).pending with
  | none =>
      rw [hp] at heq
      exact absurd (congrArg Log.kind heq).symm hr
  | some r' =>
      rw [hp] at heq
      exact congrArg some heq

/-- What is left stands in the view. -/
theorem Leaves.pending {p : Option Log} (hl : Leaves n c p) (h : Shows n c W) (hi : i < n)
    (hr : (W.node i).pending = some r) : p = some r ∧ ∀ j < n, j ≠ i → (W.node j).pending = none := by
  cases p with
  | none =>
      rw [h.pending_eq_none hi (hl i hi)] at hr
      cases hr
  | some r' =>
      obtain ⟨-, hkind, l, hln, hget, hnone⟩ := hl
      obtain rfl : i = l := by
        by_contra hil
        rw [h.pending_eq_none hi (hnone i hi hil)] at hr
        cases hr
      exact ⟨(h.pending_eq_some hi hkind hget).symm.trans hr, fun j hj hji => h.pending_eq_none hj (hnone j hj hji)⟩

theorem Leaves.eq_none {p : Option Log} (hl : Leaves n c p) (h : Shows n c W) (hW : ∀ j < n, (W.node j).pending = none) :
    p = none := by
  cases p with
  | none => rfl
  | some r =>
      obtain ⟨-, hkind, i, hi, hget, -⟩ := hl
      have hr := h.pending_eq_some hi hkind hget
      rw [hW i hi] at hr
      cases hr

/-- With a record left, no entry is missing. -/
theorem Leaves.missing_eq (hl : Leaves n c (some r)) (hσ : Valid n σ) (h : Shows n c σ.view) : missing none σ.made = none := by
  have hfds := h.virtualFds_eq hσ.filledBut fun hs => hσ.sound_view hs
  cases hm : missing none σ.made with
  | none => rfl
  | some j =>
      have hj : j < n := hσ.filledBut.lt j hm
      have hmem := hl.1 j hj
      rw [hfds, hm] at hmem
      simp at hmem

/-! ## Stops behind the changes of a plan -/

theorem Owes.restarts (h : Owes n data r i s V) (hc : Shows n c (V.after [.log i r])) : Restarts n data (some r) c := by
  refine fun room hroom => (hc.boot hroom ⟨i, s, h.routed.span⟩).mono (fun _ w₁ h₁ => ?_) fun _ _ he => he
  obtain ⟨hcount, href, hans, hshows⟩ := h₁
  generalize (fun j => (c.reopen.stores j).storeData.size) = size at hshows
  have hview : (V.after [.log i r]).withSizes size = (V.withSizes size).after [.log i r] := by
    refine View.ext (funext fun j => ?_) rfl
    by_cases hji : j = i
    · subst hji
      simp [View.withSizes]
    · simp [View.withSizes, hji]
  obtain ⟨hspan, habove, hbelow, hfloor⟩ := h.routed
  exact ⟨i, s, V.withSizes size, ⟨h.placed.withSizes size, ⟨hspan, habove, hbelow, hfloor⟩, h.key, h.carried, h.holds⟩,
    hcount, href, hans, hview ▸ hshows⟩

theorem restarts_placed {p : Option Log} (hn : 0 < n) (hV : Placed n V) (hdata : Holds n V data) (h : Shows n c V)
    (hl : Leaves n c p) : Restarts n data p c := by
  obtain rfl := hl.eq_none h fun j hj => hV.quiet hj
  exact hV.resumes hdata hn h

/-- In the plan of a record that is logged: until the commit it is owed. -/
theorem Owes.restarts_user {made : List Change} {p : Option Log} (h : Owes n data r i s V) (hn : 0 < n) (hmade : made ≠ [])
    (hpre : made <+: userPlan i r s) (hsound : ∀ ch ∈ made, ch.Sound) (hc : Shows n c (V.after made)) (hl : Leaves n c p) :
    Restarts n (if made.length < 4 then data else r.apply data) p c := by
  have hi : i < n := h.placed.lt_of_span h.routed.span
  have hplan : Allowed n V .command (userPlan i r s) := .user h.key h.carried h.routed
  have hvalid : Valid n ⟨.command, V, made⟩ := ⟨h.placed, hsound, Or.inr ⟨_, hplan, hpre⟩⟩
  have hlen : made.length ≤ 4 := hpre.length_le
  have htake := List.prefix_iff_eq_take.mp hpre
  generalize made.length = m at hlen htake ⊢
  subst htake
  have hleft : m < 4 → p = some r := fun hm => by
    refine (hl.pending hc hi ?_).1
    interval_cases m
    · exact absurd rfl hmade
    all_goals simp [userPlan, View.change]
  interval_cases m
  · exact absurd rfl hmade
  · obtain rfl := hleft (by omega)
    exact h.restarts hc
  · obtain rfl := hleft (by omega)
    have hmiss := hl.missing_eq hvalid hc
    cases hmiss
  · obtain rfl := hleft (by omega)
    obtain ⟨t, V', h', hview⟩ := h.filed (hsound (.file i (r.widen s)) (by simp [userPlan]))
    exact h'.restarts (hview ▸ hc)
  · obtain ⟨held, hheld, heq⟩ := h.holds
    rw [if_neg (by omega), ← heq]
    exact restarts_placed hn (hplan.placed h.placed hsound) (holds_user hheld h.placed h.carried.kind h.routed) hc hl

/-- In the plan of a migration. -/
theorem restarts_move {made : List Change} {p : Option Log} (hn : 0 < n) (hV : Placed n V) (hdata : Holds n V data)
    (hmove : Movable n pass i k v V) (hpre : made <+: movePlan V pass i k v) (hsound : ∀ ch ∈ made, ch.Sound)
    (hc : Shows n c (V.after made)) (hl : Leaves n c p) : Restarts n data p c := by
  have hi := hmove.adjacent.lt
  have hpeer := hmove.adjacent.peer_lt
  have hne := hmove.adjacent.peer_ne
  have hlen : made.length ≤ 8 := hpre.length_le
  have htake := List.prefix_iff_eq_take.mp hpre
  generalize made.length = m at hlen htake
  subst htake
  -- with both records logged and none committed, two are left
  have htwo : ¬(2 ≤ m ∧ m ≤ 6) := fun hm => by
    have hsource : ((V.after ((movePlan V pass i k v).take m)).node i).pending = some ⟨.delete, k, []⟩ := by
      obtain ⟨h2, h6⟩ := hm
      interval_cases m <;> simp [movePlan, View.change, hne.symm]
    have htarget : ((V.after ((movePlan V pass i k v).take m)).node (pass.peer i)).pending = some ⟨.put, k, v⟩ := by
      obtain ⟨h2, h6⟩ := hm
      interval_cases m <;> simp [movePlan, View.change]
    rw [(hl.pending hc hi hsource).2 _ hpeer hne] at htarget
    cases htarget
  rcases (by omega : m = 0 ∨ m = 1 ∨ m = 7 ∨ m = 8) with rfl | rfl | rfl | rfl
  · exact restarts_placed hn hV hdata hc hl
  · obtain ⟨t, ht⟩ := hV.exists_span hi
    have hstored := hV.stored hi _ hmove.mem
    obtain ⟨rfl, -⟩ := hl.pending (r := ⟨.delete, k, []⟩) hc hi (by simp [movePlan])
    exact Owes.restarts ⟨hV, .of_mem ht (hV.within ht _ hmove.mem), hstored.1, hstored.2.delete, data, hdata, rfl⟩ hc
  · obtain ⟨rfl, -⟩ := hl.pending (r := ⟨.put, k, v⟩) hc hpeer (by simp [movePlan, View.change, Node.commit, hne])
    obtain ⟨t, V', h', hview⟩ := owes_moved hV hdata hmove hsound
    exact h'.restarts (hview ▸ hc)
  · exact restarts_placed hn ((Allowed.move hmove).placed hV hsound) (holds_move hdata hV hmove) hc hl

end DistRocks
