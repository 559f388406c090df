import DistRocks.Cluster.Leftover

/-!
# Recovery by typing a command again

* `Passes` : the events of a command, with the map that a restart at each of them finds; `Rest.passes`,
  `Sim.exec_passes` : those of `reBalance` and of a command from the prompt;
* `Owes.logAgain`, `Owes.exec` : with its record left in a log, a command does what it would have done without a stop;
* `carriedOut` : how many commands a history has carried out; `Reaches` : a restart at its events finds their map;
* `Lives` : sessions that are stopped where one record is left at most, each beginning with the command of that record;
  `lives_answers` : they are answered like one map.
-/

namespace DistRocks

open ConstValues Network Proc

variable {room : ℕ → ℕ} {n i m : ℕ} {O : Origin} {V W : View} {σ σ₀ : Stage} {answers : List Bytes} {data : OrdMap Bytes Bytes}
  {c : Cluster} {w w' : World} {pass : Pass} {k v : Bytes} {r : Log} {s : Bytes × Bytes}

/-! ## The events of a command -/

/-- The events between two histories: `m` writes of the command came before them and `m'` at their end, and wherever the
cluster stops there with a record left at most, it can be started again over the map `data` or, from the fourth write on,
over `data'`. -/
def Passes (n : ℕ) (data data' : OrdMap Bytes Bytes) (m m' : ℕ) (h h' : List Event) : Prop :=
  ∃ new, h' = new ++ h ∧ m' = m + writes new ∧ (∀ e ∈ new, e.act ≠ .command) ∧
    ∀ newer e older p, new = newer ++ e :: older → Leaves n e.after p →
      Restarts n (if m + writes (e :: older) < 4 then data else data') p e.after

section Passes
variable {data' : OrdMap Bytes Bytes} {m' m'' : ℕ} {h h' h'' : List Event} {marks : Act → Prop}

theorem writes_append (h h' : List Event) : writes (h ++ h') = writes h + writes h' := List.countP_append

theorem Passes.refl : Passes n data data' m m h h :=
  ⟨[], rfl, rfl, fun e he => absurd he List.not_mem_nil, fun newer e older _ heq _ => by cases newer <;> cases heq⟩

theorem Passes.trans (h₁ : Passes n data data' m m' h h') (h₂ : Passes n data data' m' m'' h' h'') :
    Passes n data data' m m'' h h'' := by
  obtain ⟨new, rfl, rfl, hact, hall⟩ := h₁
  obtain ⟨new', rfl, rfl, hact', hall'⟩ := h₂
  refine ⟨new' ++ new, (List.append_assoc _ _ _).symm, by rw [writes_append]; omega, fun e he => ?_,
    fun newer e older p heq hl => ?_⟩
  · rcases List.mem_append.mp he with he | he
    · exact hact' e he
    · exact hact e he
  · rcases split_middle heq.symm with ⟨back, rfl, rfl⟩ | ⟨mid, rfl, hlast⟩
    · have hrestarts := hall' newer e back p rfl hl
      have hcount : m + writes (e :: (back ++ new)) = m + writes new + writes (e :: back) := by
        rw [← List.cons_append, writes_append]
        omega
      rwa [hcount]
    · exact hall mid e older p hlast hl

/-- The stage behind an event of a run. -/
theorem Traced.to_event (ht : Traced n marks σ₀ h σ) {newer older : List Event} {e : Event} (heq : h = newer ++ e :: older) :
    ∃ σ₁, Traced n marks σ₀ (e :: older) σ₁ ∧ Traced n marks σ₁ newer σ ∧ Shows n e.after σ₁.view := by
  subst heq
  obtain ⟨σ₁, σ₂, hold, hstep, hmark, hbefore, hafter, hnew⟩ := ht.split
  exact ⟨σ₂, hold.event hstep hmark hbefore hafter, hnew, hafter⟩

/-- A part of an update. -/
theorem Sim.passes {made₀ made : List Change}
    (hsim : Sim n ⟨⟨.command, V, made₀⟩, h, fun _ => False⟩ ⟨.command, V, made⟩ answers w)
    (hall : ∀ made', made₀ <+: made' → made' <+: made → (∀ ch ∈ made', ch.Sound) → ∀ c p, Shows n c (V.after made') →
      Leaves n c p → Restarts n (if made'.length < 4 then data else data') p c) :
    Passes n data data' made₀.length made.length h w.history := by
  obtain ⟨new, hnew, ht⟩ := hsim.traced
  have hnone : ∀ {h' σ σ'}, Traced n (fun _ => False) σ h' σ' → ∀ x ∈ h', ¬x.act.IsMark := fun ht' x hx hm => by
    obtain ⟨-, -, -, -, -, -, -, hfalse⟩ := ht'.behind_event hx
    exact hfalse hm
  refine ⟨new, hnew, ht.length_made (hnone ht), fun e he hcommand => hnone ht e he (hcommand ▸ trivial),
    fun newer e older p heq hl => ?_⟩
  obtain ⟨⟨mark, base, made'⟩, hold, hlast, hafter⟩ := ht.to_event heq
  obtain ⟨-, rfl⟩ := hold.base_eq (hnone hold)
  have hlen : made'.length = made₀.length + writes (e :: older) := hold.length_made (hnone hold)
  rw [← hlen]
  exact hall made' (hold.made_prefix (hnone hold)) (hlast.made_prefix (hnone hlast)) hold.valid.sound _ _ hafter hl

/-- A part of `reBalance`. -/
theorem Sim.passes_rounds {passes : Pass → Prop} (hsim : Sim n (.rounds V h passes) σ answers w) (hn : 0 < n)
    (hdata : Holds n V data') : ∃ m', Passes n data data' 4 m' h w.history := by
  obtain ⟨new, hnew, ht⟩ := hsim.traced
  have hmarks : ∀ a, (Origin.rounds V h passes).marks a → ∃ pass i, a = .iteration pass i := by
    rintro a ⟨pass, i, rfl, -⟩
    exact ⟨pass, i, rfl⟩
  refine ⟨_, new, hnew, rfl, fun e he hcommand => ?_, fun newer e older p heq hl => ?_⟩
  · obtain ⟨-, -, -, -, -, -, -, hmark⟩ := ht.behind_event he
    obtain ⟨pass, i, hiter⟩ := hmarks _ (hmark (hcommand ▸ trivial))
    rw [hcommand] at hiter
    cases hiter
  · obtain ⟨σ₁, hold, -, hafter⟩ := ht.to_event heq
    obtain ⟨⟨pass, i, hiter⟩, hheld⟩ := hold.holds_rounds hmarks ⟨_, _, rfl⟩ hdata
    rw [if_neg (by omega)]
    rcases hold.valid.plan with hnil | ⟨plan, hplan, hpre⟩
    · rw [Stage.view, hnil] at hafter
      exact restarts_placed hn hold.valid.placed hheld hafter hl
    · obtain ⟨k, v, hmove, rfl⟩ := (hiter ▸ hplan).of_iteration
      exact restarts_move hn hold.valid.placed hheld hmove hpre hold.valid.sound hafter hl

/-- `reBalance` behind an update. -/
theorem Rest.passes (F : Type) [Double F] (data : OrdMap Bytes Bytes) (hrest : Rest n O answers V w) (hn : 0 < n)
    (hdata : Holds n V data') :
    Ends (DistRocks.reBalance F) w
      (fun _ w' => Prompt n data' answers w' ∧ ∃ m', Passes n data data' 4 m' w.history w'.history)
      (fun e w' => e = .overrun ∧ ∃ m', Passes n data data' 4 m' w.history w'.history) := by
  refine ((hrest.rebase fun _ => True).reBalance F fun pass i => ⟨pass, i, rfl, trivial⟩).mono (fun _ w₁ h₁ => ?_)
    fun e w₁ he => ?_
  · obtain ⟨V₁, -, -, hright, ⟨V₂, hleft, σ, hsim, hdone, rfl⟩, -⟩ := h₁
    obtain ⟨hV₁, hdata₁⟩ := hright.holds hrest.placed hdata
    obtain ⟨hV₂, hdata₂⟩ := hleft.holds hV₁ hdata₁
    exact ⟨.of_shows hsim.count hsim.refusals hsim.answered hsim.shows hV₂ hdata₂, hsim.passes_rounds hn hdata⟩
  · obtain ⟨V₁, pass, i, k, v, -, ⟨rfl, made, ch, hsim, -⟩, -⟩ := he
    exact ⟨rfl, hsim.passes_rounds hn hdata⟩

/-- A plan that has begun is that of its record. -/
theorem Valid.user {made : List Change} (h : Valid n ⟨.command, V, made⟩) (hmade : made ≠ []) (hpre : made <+: userPlan i r s) :
    r.key ≠ [] ∧ r.Carried := by
  rcases h.plan with hnil | ⟨plan, hplan, hpre'⟩
  · exact absurd hnil hmade
  · obtain ⟨i', r', s', hkey, hr, -, rfl⟩ := hplan.of_command
    cases made with
    | nil => exact absurd rfl hmade
    | cons ch made =>
        obtain ⟨rfl, -⟩ := List.cons_prefix_cons.mp hpre
        obtain ⟨heq, -⟩ := List.cons_prefix_cons.mp hpre'
        obtain ⟨-, rfl⟩ := Change.log.inj heq
        exact ⟨hkey, hr⟩

/-- The events of a command, whatever becomes of it. -/
theorem Sim.exec_passes (F : Type) [Double F] (hsim : Sim n O ⟨.command, V, []⟩ answers w) (hn : 0 < n)
    (hdata : Holds n V data) {com : Command} (hc : com.Valid) :
    ∃ m', Passes n data (com.asRead.next data) 0 m' w.history (com.exec F w).2.history := by
  have hV : Placed n V := hsim.valid.placed
  have h₀ : Sim n ⟨⟨.command, V, []⟩, w.history, fun _ => False⟩ ⟨.command, V, []⟩ answers w := hsim.rebase hsim.valid rfl _
  have hstill : ∀ {data'} made', [] <+: made' → made' <+: ([] : List Change) → (∀ ch ∈ made', ch.Sound) → ∀ c p,
      Shows n c (V.after made') → Leaves n c p → Restarts n (if made'.length < 4 then data else data') p c := by
    intro data' made' _ hpre _ c p hshows hl
    rw [List.prefix_nil.mp hpre] at hshows ⊢
    exact restarts_placed hn hV hdata hshows hl
  cases hr : com.record with
  | none =>
      cases com with
      | quit | test _ | other _ => exact hc.elim
      | put _ _ | del _ => cases hr
      | get key =>
          rcases (h₀.getCommand hn hc.2).outcome with ⟨a, -, i, s, -, h₁⟩ | ⟨e, -, ⟨-, h₁, -⟩ | ⟨r, i, s, hq, -⟩⟩
          · exact ⟨_, h₁.passes hstill⟩
          · exact ⟨_, h₁.passes hstill⟩
          · cases hq
  | some r =>
      have hnext : com.asRead.next data = r.apply data := Command.next_asRead hr
      have huser : ∀ {i s made}, Valid n ⟨.command, V, made⟩ → Routed V r.key i s → made <+: userPlan i r s →
          ∀ made', [] <+: made' → made' <+: made → (∀ ch ∈ made', ch.Sound) → ∀ c p, Shows n c (V.after made') →
          Leaves n c p → Restarts n (if made'.length < 4 then data else com.asRead.next data) p c := by
        intro i s made hvalid hroute hpre made' _ hpre' hsound c p hshows hl
        by_cases hnil : made' = []
        · subst hnil
          exact restarts_placed hn hV hdata hshows hl
        · obtain ⟨hkey, hcarried⟩ := hvalid.user (fun h0 => hnil (List.prefix_nil.mp (h0 ▸ hpre'))) hpre
          have howes : Owes n data r i s V := ⟨hV, hroute, hkey, hcarried, data, hdata, rfl⟩
          rw [hnext]
          exact howes.restarts_user hn hnil (hpre'.trans hpre) hsound hshows hl
      have hupdate := h₀.update hn hc hr
      rw [exec_eq F hc hr]
      rcases hx : com.update w with ⟨e | a, w₁⟩
      · rw [Ends, hx] at hupdate
        rw [bind_run_error hx]
        rcases hupdate with ⟨-, h₁, -⟩ | ⟨r', i, s, hq, hroute, -, made, ch, h₁, hpre, -⟩
        · exact ⟨_, h₁.passes hstill⟩
        · obtain rfl : r = r'.asRead.recorded := Option.some.inj (hr.symm.trans (Command.record_eq hc hq))
          rw [← Log.key_recorded] at hroute
          exact ⟨_, h₁.passes (huser h₁.valid hroute ((List.prefix_append _ _).trans hpre))⟩
      · obtain ⟨i, s, hroute, hp, h₁⟩ := hupdate.of_eq hx
        rw [bind_run hx]
        have hfirst := h₁.passes (huser h₁.valid hroute (List.prefix_refl _))
        have hheld : Holds n (V.after (userPlan i r s)) (com.asRead.next data) :=
          hnext ▸ holds_user hdata hV (Command.record_kind hr) hroute
        rcases ((h₁.rest (Or.inr hp)).passes F data hn hheld).outcome with
          ⟨-, -, -, m', hrest⟩ | ⟨-, -, -, m', hrest⟩
        · exact ⟨m', hfirst.trans hrest⟩
        · exact ⟨m', hfirst.trans hrest⟩

end Passes

/-! ## The command of the record that is left -/

/-- Its record goes to the same log once more. -/
theorem Owes.logAgain (ho : Owes n data r i s V) (hcount : w.storeNodeCount = n) (href : w.refusals = [])
    (hans : w.answers = answers) (hshows : Shows n w.cluster (V.after [.log i r])) (r₀ : Log) (hkind : r₀.kind ≠ .error)
    (hkey : r₀.key = r.key) (hasKey : r₀.asRead.key = r.key) (hr : r₀.asRead.recorded = r) {Q : Unit → World → Prop}
    {H : Fault → World → Prop} {f : Iterator → ControlMeta → ℕ → M Unit} (hover : ∀ w', w'.history = w.history → H .overrun w')
    (hf : ∀ (it : Iterator) (e : Event) (w' : World), it.current = some (s.1, encSpan i s) →
      e.act.writes = true → e.act ≠ .command → Shows n e.after (V.after [.log i r]) →
      Sim n ⟨⟨.command, V, [.log i r]⟩, e :: w.history, fun _ => False⟩ ⟨.command, V, [.log i r]⟩ answers w' →
      (∃ rec rec' rest, receivedStr w' = (.ok (OK, rec), w') ∧
        getStringFromBuff rec = .ok ((keyEnds (r.apply (V.node i).data)).1, rec') ∧
        getStringFromBuff rec' = .ok ((keyEnds (r.apply (V.node i).data)).2, rest)) →
      Ends (f it ⟨s.1, s.2, i⟩ i) w' Q H) :
    Ends (do
      let len ← assembleLog r₀
      let it ← searchMeta r₀.key
      let controlMeta ← metaOf it
      let virtual_fd ← fdOf controlMeta
      exchange virtual_fd len
      f it controlMeta virtual_fd) w Q H := by
  have hV := ho.placed
  have hi : i < n := hV.lt_of_span ho.routed.span
  have hplan : Allowed n V .command (userPlan i r s) := .user ho.key ho.carried ho.routed
  have hvalid : Valid n ⟨.command, V, [.log i r]⟩ :=
    ⟨hV, fun ch hch => List.mem_singleton.mp hch ▸ trivial, Or.inr ⟨_, hplan, ⟨_, rfl⟩⟩⟩
  have hroute : Routed (V.after [.log i r]) r₀.key i s := hkey ▸ ho.routed.of_table rfl
  have hkind' : r₀.asRead.kind ≠ .error := hkind
  rw [assembleLog_eq, ends_bind]
  refine ends_assemble _ (fun b hlen htake => ?_) fun _ => hover _ rfl
  have hsearch : searchMeta r₀.key { w with sendBuff := b } = (.ok (w.cluster.search r₀.key), { w with sendBuff := b }) := rfl
  have hat := hshows.search hroute
  rw [ends_run hsearch, ends_run (metaOf_eq hat (hV.sound ho.routed.span)), ends_run (fdOf_eq _ _ i)]
  have hother : ∀ c, Request.log r₀ ≠ .other c := fun c hc => by cases hc
  have hstore := hshows.stores hi
  have hnode : (V.after [.log i r]).node i = { V.node i with pending := some r } := by simp
  have hanswer : ((V.after [.log i r]).node i).answer (Request.log r₀).asRead = some (.vote OK
      (keyEnds (r.apply (V.node i).data)).1 (keyEnds (r.apply (V.node i).data)).2) := by
    have hb := Log.bounds_eq hkind' (hasKey ▸ ho.key) (.reliable (V.node i).data) fun e he => (hV.stored hi e he).1
    rw [hnode, Node.answer, Request.asRead, StoreData.answer, if_neg hkind', Node.storeData, hb, ← hr, Log.apply_recorded]
    rfl
  have hfd : i < ({ w with sendBuff := b } : World).storeNodeCount := hcount.symm ▸ hi
  rcases hstore.serve_again hkind (hasKey ▸ ho.key) hlen (by rw [hnode, hr]) hanswer with ⟨hfit, st, hserve, hst⟩ | ⟨hlong, herr⟩
  · have hnone : ∀ x, ({ w with sendBuff := b } : World).refusals.head? ≠ some (some x) := by simp [href]
    rw [ends_run (exchange_eq hfd hnone htake hserve)]
    let w₁ := ({ w with sendBuff := b } : World).exchanged i (Request.log r₀).message st
      (Value.vote OK (keyEnds (r.apply (V.node i).data)).1 (keyEnds (r.apply (V.node i).data)).2).message
    have hshows₁ : Shows n w₁.cluster (V.after [.log i r]) := by
      refine ⟨fun {j} hj => ?_, hshows.index⟩
      by_cases hji : j = i
      · subst hji
        simpa [w₁, World.exchanged] using hst
      · simpa [w₁, World.exchanged, hji] using hshows.stores hj
    have hsim : Sim n ⟨⟨.command, V, [.log i r]⟩, w₁.history, fun _ => False⟩ ⟨.command, V, [.log i r]⟩ answers w₁ :=
      ⟨hcount, by simp [w₁, World.exchanged, href], hans, hshows₁, [], rfl, .start hvalid⟩
    have hends := nulFree_keyEnds fun e he => (ho.carried.apply ho.key (hV.stored hi) e he).2.nulFree.key
    have hgot : w₁.Got (.vote OK (keyEnds (r.apply (V.node i).data)).1 (keyEnds (r.apply (V.node i).data)).2) :=
      ⟨hfit, bytes_exchanged _ _ _ st hfit⟩
    have hwrites : (Act.exchange i (Request.log r₀).message).writes = true := by
      rw [Act.writes, Sim.decode_message hother hlen, Request.asRead]
    exact hf _ ⟨.exchange i (Request.log r₀).message, w.cluster, w₁.cluster⟩ w₁ hat hwrites (fun hcommand => by cases hcommand)
      hshows₁ hsim (hgot.vote (by decide) hends.1 hends.2)
  · rw [ends_bind, Ends, exchange_error hfd htake herr]
    exact hover _ rfl

/-- What becomes of the update of that command. -/
theorem Owes.finishAgain (ho : Owes n data r i s V) (hn : 0 < n) {h : List Event} {e : Event} (hwrites : e.act.writes = true)
    (hact : e.act ≠ .command) (hafter : Shows n e.after (V.after [.log i r]))
    (hsim : Sim n ⟨⟨.command, V, [.log i r]⟩, e :: h, fun _ => False⟩ ⟨.command, V, [.log i r]⟩ answers w) {it : Iterator}
    {k : Bytes} (hat : it.current = some (s.1, k)) :
    Ends (do
        rewriteMeta it ⟨(r.widen s).1, (r.widen s).2, i⟩
        request COMMIT_LOG i
        let _ ← receivedStr) w
      (fun _ w' => Passes n data (r.apply data) 0 4 h w'.history ∧ ∃ O, Sim n O ⟨.command, V, userPlan i r s⟩ answers w')
      (fun e w' => e = .overrun ∧ ∃ m', Passes n data (r.apply data) 0 m' h w'.history) := by
  have hplan : Allowed n V .command (userPlan i r s) := .user ho.key ho.carried ho.routed
  have huser : ∀ {made}, made <+: userPlan i r s → ∀ made', [.log i r] <+: made' → made' <+: made →
      (∀ ch ∈ made', ch.Sound) → ∀ c p, Shows n c (V.after made') → Leaves n c p →
      Restarts n (if made'.length < 4 then data else r.apply data) p c := by
    intro made hpre made' hlog hpre' hsound c p hshows hl
    have hnil : made' ≠ [] := fun h0 => by
      rw [h0] at hlog
      cases List.prefix_nil.mp hlog
    exact ho.restarts_user hn hnil (hpre'.trans hpre) hsound hshows hl
  have hfirst : Passes n data (r.apply data) 0 1 h (e :: h) := by
    refine ⟨[e], rfl, by simp [writes, hwrites], fun x hx => List.mem_singleton.mp hx ▸ hact, fun newer x older p heq hl => ?_⟩
    obtain ⟨rfl, hlast⟩ | ⟨-, hnone⟩ := List.append_eq_singleton_iff.mp heq.symm
    · obtain ⟨rfl, rfl⟩ := List.cons.inj hlast
      have hone : writes [x] = 1 := by simp [writes, hwrites]
      rw [hone]
      exact huser ⟨_, rfl⟩ [.log i r] (List.prefix_refl _) (List.prefix_refl _) hsim.valid.sound _ _ hafter hl
    · cases hnone
  refine (hsim.finishUser hat ho.carried.nulFree.key ho.routed hplan).mono (fun _ w₁ h₁ => ?_) fun e w₁ he => ?_
  · exact ⟨hfirst.trans (h₁.passes (huser (List.prefix_refl _))), _, h₁⟩
  · obtain ⟨rfl, made, ch, h₁, hpre, -⟩ := he
    exact ⟨rfl, _, hfirst.trans (h₁.passes (huser ((List.prefix_append _ _).trans hpre)))⟩

theorem Owes.update (ho : Owes n data r i s V) (hn : 0 < n) (hcount : w.storeNodeCount = n) (href : w.refusals = [])
    (hans : w.answers = answers) (hshows : Shows n w.cluster (V.after [.log i r])) {com : Command} (hc : com.Valid)
    (hr : com.record = some r) :
    Ends com.update w
      (fun _ w' => Passes n data (r.apply data) 0 4 w.history w'.history ∧
        ∃ O, Sim n O ⟨.command, V, userPlan i r s⟩ answers w')
      (fun e w' => e = .overrun ∧ ∃ m', Passes n data (r.apply data) 0 m' w.history w'.history) := by
  have hover : ∀ w' : World, w'.history = w.history →
      Fault.overrun = .overrun ∧ ∃ m', Passes n data (r.apply data) 0 m' w.history w'.history :=
    fun w' hhist => ⟨rfl, 0, hhist.symm ▸ .refl⟩
  cases com with
  | quit | test _ | get _ | other _ => cases hr
  | put key value =>
      cases hr
      have hread : (Log.mk .put key value).asRead.recorded = ⟨.put, key, cstr value⟩ := by
        rw [Log.asRead, hc.2.cstr_eq]
        rfl
      rw [Command.update, putUpdate]
      refine ho.logAgain hcount href hans hshows ⟨.put, key, value⟩ (fun hk => by cases hk) rfl hc.2.cstr_eq hread hover
        fun it e w₁ hat hwrites hact hafter h₁ hvote => ?_
      obtain ⟨rec, -, -, hvote, -, -⟩ := hvote
      rw [ends_run hvote]
      simp only [if_true]
      exact ho.finishAgain hn hwrites hact hafter h₁ hat
  | del key =>
      cases hr
      have hread : (Log.mk .delete key []).asRead.recorded = ⟨.delete, key, []⟩ := by
        rw [Log.asRead, hc.2.cstr_eq]
        rfl
      rw [Command.update, delUpdate]
      refine ho.logAgain hcount href hans hshows ⟨.delete, key, []⟩ (fun hk => by cases hk) rfl hc.2.cstr_eq hread hover
        fun it e w₁ hat hwrites hact hafter h₁ hvote => ?_
      obtain ⟨rec, rec', rest, hvote, hlo, hhi⟩ := hvote
      rw [ends_run hvote]
      simp only [if_true, hlo]
      rw [ends_bind, ends_lift_ok]
      simp only [hhi]
      rw [ends_bind, ends_lift_ok]
      have hends : (keyEnds ((Log.mk .delete key []).apply (V.node i).data)).1 = _ := rfl
      simp only [Sim.min_lower ho.placed ho.routed.span key hends]
      exact ho.finishAgain hn hwrites hact hafter h₁ hat

/-- That command has the effect it would have had, and nothing is left. -/
theorem Owes.exec (F : Type) [Double F] (ho : Owes n data r i s V) (hn : 0 < n) (hcount : w.storeNodeCount = n)
    (href : w.refusals = []) (hans : w.answers = answers) (hshows : Shows n w.cluster (V.after [.log i r])) {com : Command}
    (hc : com.Valid) (hr : com.record = some r) :
    Ends (com.exec F) w
      (fun _ w' => Prompt n (com.asRead.next data) answers w' ∧
        ∃ m', Passes n data (com.asRead.next data) 0 m' w.history w'.history)
      (fun e w' => e = .overrun ∧ ∃ m', Passes n data (com.asRead.next data) 0 m' w.history w'.history) := by
  have hplan : Allowed n V .command (userPlan i r s) := .user ho.key ho.carried ho.routed
  obtain ⟨held, hheld, heq⟩ := ho.holds
  rw [exec_eq F hc hr, Command.next_asRead hr]
  refine (ho.update hn hcount href hans hshows hc hr).bind fun _ w₁ h₁ => ?_
  obtain ⟨hfirst, O, hsim⟩ := h₁
  have hdone : Holds n (V.after (userPlan i r s)) (r.apply data) :=
    heq ▸ holds_user hheld ho.placed ho.carried.kind ho.routed
  refine ((hsim.rest (Or.inr hplan)).passes F data hn hdone).mono (fun _ w₂ h₂ => ?_) fun e w₂ he => ?_
  · obtain ⟨hprompt, m', hrest⟩ := h₂
    exact ⟨hprompt, m', hfirst.trans hrest⟩
  · obtain ⟨rfl, m', hrest⟩ := he
    exact ⟨rfl, m', hfirst.trans hrest⟩

/-! ## The events of a run -/

/-- The events since the control node was at its prompt. -/
def sincePrompt (h : List Event) : List Event := h.takeWhile fun e => e.act ≠ .command

/-- How many commands have been carried out: those that have ended, and the one under way from its fourth write on. -/
def carriedOut (h : List Event) : ℕ := if writes (sincePrompt h) < 4 then prompts h - 1 else prompts h

section Reaches
variable {h h' new new' : List Event} {cs : List Command} {p : Option Log} {com : Command} {e₀ : Event}

theorem carriedOut_append (hh : 0 < prompts h) (h' : List Event) : carriedOut (h ++ h') = carriedOut h + prompts h' := by
  have hsince : sincePrompt (h ++ h') = sincePrompt h := by
    rw [sincePrompt, List.takeWhile_append, if_neg, sincePrompt]
    intro hlen
    have hself := (List.takeWhile_prefix (l := h) _).eq_of_length hlen
    refine hh.ne' (prompts_eq_zero fun e he => ?_)
    simpa using List.takeWhile_eq_self_iff.mp hself e he
  rw [carriedOut, carriedOut, hsince, prompts_append]
  split_ifs <;> omega

theorem carriedOut_prompt (hnew : ∀ e ∈ new, e.act ≠ .command) (he₀ : e₀.act = .command) :
    prompts (new ++ [e₀]) = 1 ∧ carriedOut (new ++ [e₀]) = if writes new < 4 then 0 else 1 := by
  have hprompts : prompts (new ++ [e₀]) = 1 := by
    rw [prompts_append, prompts_eq_zero hnew]
    simp [prompts, he₀]
  have hsince : sincePrompt (new ++ [e₀]) = new := by
    rw [sincePrompt, List.takeWhile_append_of_pos fun e he => by simpa using hnew e he]
    simp [he₀]
  exact ⟨hprompts, by rw [carriedOut, hsince, hprompts]⟩

/-- Wherever the cluster stops at one of the events, with a record left at most, it can be started again over the map of
the commands carried out. -/
def Reaches (n : ℕ) (data : OrdMap Bytes Bytes) (cs : List Command) (new : List Event) : Prop :=
  ∀ newer e older, new = newer ++ e :: older → 0 < prompts (e :: older) ∧
    ∀ p, Leaves n e.after p → Restarts n (mapAfter data (cs.take (carriedOut (e :: older)))) p e.after

theorem reaches_nil : Reaches n data cs [] := fun newer e older heq => by
  cases newer <;> cases heq

theorem reaches_prompt (he₀ : e₀.act = .command) (hfirst : ∀ p, Leaves n e₀.after p → Restarts n data p e₀.after) :
    Reaches n data cs [e₀] := by
  intro newer e older heq
  obtain ⟨rfl, hlast⟩ | ⟨-, hnil⟩ := List.append_eq_singleton_iff.mp heq.symm
  · obtain ⟨rfl, rfl⟩ := List.cons.inj hlast
    have hnone : ∀ x ∈ ([] : List Event), x.act ≠ .command := fun _ hx => absurd hx List.not_mem_nil
    obtain ⟨hprompts, hcarried⟩ := carriedOut_prompt hnone he₀
    rw [List.nil_append] at hprompts hcarried
    rw [hprompts, hcarried]
    exact ⟨Nat.one_pos, hfirst⟩
  · cases hnil

/-- The prompt, the events of a command, and those of the commands behind it. -/
theorem Reaches.cons {m' : ℕ} (he₀ : e₀.act = .command) (hfirst : ∀ p, Leaves n e₀.after p → Restarts n data p e₀.after)
    (hpass : Passes n data (com.asRead.next data) 0 m' (e₀ :: h) h')
    (hrest : Reaches n (com.asRead.next data) cs new') :
    ∃ new, new' ++ h' = new ++ h ∧ Reaches n data (com :: cs) new := by
  obtain ⟨new, rfl, -, hact, hall⟩ := hpass
  refine ⟨new' ++ (new ++ [e₀]), by simp, fun newer e older heq => ?_⟩
  rcases split_middle heq.symm with ⟨back, rfl, rfl⟩ | ⟨mid, rfl, hlast⟩
  · obtain ⟨hpos, hrestarts⟩ := hrest newer e back rfl
    have hcarried := carriedOut_append hpos (new ++ [e₀])
    rw [(carriedOut_prompt hact he₀).1, List.cons_append] at hcarried
    refine ⟨?_, fun p hl => ?_⟩
    · rw [← List.cons_append, prompts_append]
      omega
    · rw [hcarried]
      exact hrestarts p hl
  · rcases split_middle hlast.symm with ⟨back, rfl, rfl⟩ | ⟨mid, rfl, hfront⟩
    · have hback : ∀ x ∈ e :: back, x.act ≠ .command := fun x hx => hact x (List.mem_append_right _ hx)
      obtain ⟨hprompts, hcarried⟩ := carriedOut_prompt hback he₀
      rw [List.cons_append] at hprompts hcarried
      rw [hprompts, hcarried]
      refine ⟨Nat.one_pos, fun p hl => ?_⟩
      have hrestarts := hall mid e back p rfl hl
      rw [Nat.zero_add] at hrestarts
      split_ifs at hrestarts ⊢
      · exact hrestarts
      · exact hrestarts
    · exact reaches_prompt he₀ hfirst mid e older hfront

theorem Leaves.of_sameBases {c' : Cluster} (hl : Leaves n c' p) (hsame : SameBases c c') : Leaves n c p := by
  cases p with
  | none => exact fun j hj => hsame.log j ▸ hl j hj
  | some r =>
      obtain ⟨hnames, hkind, i, hi, hget, hnone⟩ := hl
      refine ⟨fun j hj => ?_, hkind, i, hi, hsame.log i ▸ hget, fun j hj hji => hsame.log j ▸ hnone j hj hji⟩
      have hname := hnames j hj
      rwa [virtualFds, hsame.metaDb] at hname

theorem Restarts.of_sameBases {c' : Cluster} (h : Restarts n data p c) (hsame : SameBases c c') : Restarts n data p c' := by
  intro room hroom
  rw [hsame.reopen]
  exact h room hroom

/-- A stop at the prompt. -/
theorem Waits.restarts {p' : Option Log} (hw : Waits n data answers w p) (hn : 0 < n) (hl : Leaves n w.cluster p') :
    Restarts n data p' w.cluster := by
  cases p with
  | none =>
      obtain ⟨O, V, -, ⟨σ, hσ, hdone, rfl⟩, hdata⟩ := hw
      exact restarts_placed hn (hσ.valid.placed_view hdone) hdata hσ.shows hl
  | some r =>
      obtain ⟨i, s, V, ho, -, -, -, hshows⟩ := hw
      obtain ⟨rfl, -⟩ := hl.pending (r := r) hshows (ho.placed.lt_of_span ho.routed.span) (by simp)
      exact ho.restarts hshows

/-- The events of a command of any kind. -/
theorem Prompt.passes (F : Type) [Double F] (hw : Prompt n data answers w) (hn : 0 < n) (hc : com.Typed) :
    ∃ m', Passes n data (com.asRead.next data) 0 m' w.history (com.exec F w).2.history := by
  have hstill : ∀ p, Leaves n w.cluster p → Restarts n data p w.cluster := fun p hl =>
    (show Waits n data answers w none from hw).restarts hn hl
  obtain ⟨O, V, -, ⟨σ, hσ, hdone, rfl⟩, hdata⟩ := hw
  have hV := hσ.valid.placed_view hdone
  have hvalid : Valid n ⟨.command, σ.view, []⟩ := ⟨hV, fun _ hch => absurd hch List.not_mem_nil, Or.inl rfl⟩
  by_cases hcom : com.Valid
  · exact (hσ.rebase hvalid rfl Act.IsMark).exec_passes F hn hdata hcom
  cases com with
  | quit | other _ => exact ⟨0, .refl⟩
  | put _ _ | get _ => exact absurd hc hcom
  | del key =>
      obtain rfl : key = [] := by
        by_contra hkey
        exact hcom ⟨hkey, hc⟩
      rw [Command.exec, if_pos rfl]
      exact ⟨0, .refl⟩
  | test s =>
      rcases history_testCommand s w with hhist | ⟨msg, cl, hhist, hsame⟩
      · rw [Command.exec, hhist]
        exact ⟨0, .refl⟩
      · rw [Command.exec, hhist]
        refine ⟨_, [⟨.post 0 msg, w.cluster, cl⟩], rfl, rfl, fun e he hcommand => ?_, fun newer e older p heq hl => ?_⟩
        · rw [List.mem_singleton.mp he] at hcommand
          cases hcommand
        · obtain ⟨rfl, hlast⟩ | ⟨-, hnone⟩ := List.append_eq_singleton_iff.mp heq.symm
          · obtain ⟨rfl, rfl⟩ := List.cons.inj hlast
            exact (hstill p (hl.of_sameBases hsame)).of_sameBases hsame
          · cases hnone

/-- What a command does and prints, when it is that of the record that is left, if there is one. -/
theorem Waits.exec (F : Type) [Double F] (hw : Waits n data answers w p) (hn : 0 < n) (hc : com.Typed)
    (hp : ∀ r, p = some r → com.record = some r) :
    Ends (do DistRocks.mark .command; com.exec F) w
      (fun _ w' => Prompt n (com.asRead.next data) (answers ++ com.answer data) w' ∧
        ∃ m', Passes n data (com.asRead.next data) 0 m' (⟨.command, w.cluster, w.cluster⟩ :: w.history) w'.history)
      (fun e w' => e = .overrun ∧
        ∃ m', Passes n data (com.asRead.next data) 0 m' (⟨.command, w.cluster, w.cluster⟩ :: w.history) w'.history) := by
  let w₁ : World := { w with history := ⟨.command, w.cluster, w.cluster⟩ :: w.history }
  have hmark : DistRocks.mark .command w = (.ok (), w₁) := rfl
  cases p with
  | none =>
      have hprompt : Prompt n data answers w₁ := (Prompt.mark hw (H := fun _ _ => True)).of_eq hmark
      have hpass := hprompt.passes F hn hc
      have hexec := Prompt.exec F hw hn hc
      rw [ends_run hmark] at hexec ⊢
      rcases hx : com.exec F w₁ with ⟨_ | _, w₂⟩
      · rw [hx] at hpass
        rw [Ends, hx] at hexec ⊢
        exact ⟨hexec, hpass⟩
      · rw [hx] at hpass
        rw [Ends, hx] at hexec ⊢
        exact ⟨hexec, hpass⟩
  | some r =>
      obtain ⟨i, s, V, ho, hcount, href, hans, hshows⟩ := hw
      have hr := hp r rfl
      have hvalid : com.Valid := by
        cases com with
        | put _ _ => exact hc
        | del key =>
            cases hr
            exact ⟨ho.key, hc⟩
        | _ => cases hr
      have hanswer : com.answer data = [] := by cases com <;> first | rfl | cases hr
      rw [ends_run hmark, hanswer, List.append_nil]
      exact ho.exec F hn (w := w₁) hcount href hans hshows hvalid hr

/-- A run from the prompt. -/
theorem Waits.reaches (F : Type) [Double F] (hw : Waits n data answers w p) (hn : 0 < n) (hcs : ∀ com ∈ cs, com.Typed)
    (hp : ∀ r, p = some r → ∃ com ∈ cs.head?, com.record = some r) :
    (∃ new, (DistRocks.run F cs w).2.history = new ++ w.history ∧ Reaches n data (taken cs) new) := by
  induction cs generalizing w p data answers with
  | nil => exact ⟨[⟨.command, w.cluster, w.cluster⟩], rfl, reaches_prompt rfl fun p' hl => hw.restarts hn hl⟩
  | cons com cs ih =>
      have hfirst : ∀ p', Leaves n w.cluster p' → Restarts n data p' w.cluster := fun p' hl => hw.restarts hn hl
      by_cases hquit : com = .quit
      · subst hquit
        exact ⟨[⟨.command, w.cluster, w.cluster⟩], rfl, reaches_prompt rfl hfirst⟩
      · have htaken : taken (com :: cs) = com :: taken cs := by simp [taken, hquit]
        have hrecord : ∀ r, p = some r → com.record = some r := fun r hr => by
          obtain ⟨com', hhead, hrec⟩ := hp r hr
          obtain rfl : com = com' := Option.some.inj hhead
          exact hrec
        rw [run_eq F hquit, htaken]
        have hexec := hw.exec F hn (hcs com List.mem_cons_self) hrecord
        rcases hx : (do DistRocks.mark .command; com.exec F) w with ⟨e | a, w₁⟩
        · rw [Ends, hx] at hexec
          obtain ⟨-, m', hpass⟩ := hexec
          rw [bind_run_error hx]
          have hnil : Reaches n (com.asRead.next data) (taken cs) [] := reaches_nil
          exact hnil.cons rfl hfirst hpass
        · obtain ⟨hprompt, m', hpass⟩ := hexec.of_eq hx
          have hwaits : Waits n (com.asRead.next data) (answers ++ com.answer data) w₁ none := hprompt
          obtain ⟨new, hnew, hreaches⟩ := ih hwaits (fun c' hc' => hcs c' (List.mem_cons_of_mem _ hc')) fun r hr => by cases hr
          rw [bind_run hx, hnew]
          exact hreaches.cons rfl hfirst hpass

/-- What a run does and prints. -/
theorem Waits.run (F : Type) [Double F] (hw : Waits n data answers w p) (hn : 0 < n) (hcs : ∀ com ∈ cs, com.Typed)
    (hp : ∀ r, p = some r → ∃ com ∈ cs.head?, com.record = some r) :
    Ends (DistRocks.run F cs) w (fun _ w' => w'.answers = answers ++ mapAnswers data ((taken cs).map Command.asRead))
      (fun e _ => e = .overrun) := by
  have hprompt : ∀ {data answers w cs}, Prompt n data answers w → (∀ com ∈ cs, com.Typed) →
      Ends (DistRocks.run F cs) w (fun _ w' => w'.answers = answers ++ mapAnswers data ((taken cs).map Command.asRead))
        (fun e _ => e = .overrun) := fun hw hcs => (hw.run F hn hcs).mono (fun _ w₁ h₁ => by
      obtain ⟨_, _, _, ⟨_, hσ, -⟩, -⟩ := h₁
      exact hσ.answered) fun _ _ he => he
  cases p with
  | none => exact hprompt hw hcs
  | some r =>
      obtain ⟨com, hhead, hr⟩ := hp r rfl
      cases cs with
      | nil => cases hhead
      | cons com' cs =>
          obtain rfl : com' = com := Option.some.inj hhead
          have hquit : com' ≠ .quit := by
            rintro rfl
            cases hr
          have htaken : taken (com' :: cs) = com' :: taken cs := by simp [taken, hquit]
          have hanswer : com'.asRead.answer data = com'.answer data := by cases com' <;> rfl
          rw [run_eq F hquit, htaken, List.map_cons, mapAnswers, hanswer, ← List.append_assoc]
          have hexec := hw.exec F hn (hcs com' List.mem_cons_self) fun r' hr' => Option.some.inj hr' ▸ hr
          refine (hexec.mono (fun _ _ hq => hq.1) fun _ _ he => he.1).bind fun _ w₁ h₁ => ?_
          exact hprompt h₁ fun c' hc' => hcs c' (List.mem_cons_of_mem _ hc')

end Reaches

/-! ## One life after another -/

/-- From one world to the other the control node is not at its prompt. -/
def Unprompted (w w' : World) : Prop := ∃ new, w'.history = new ++ w.history ∧ ∀ e ∈ new, e.act ≠ .command

namespace Unprompted

theorem of_eq (h : w'.history = w.history) : Unprompted w w' := ⟨[], h, fun _ he => absurd he List.not_mem_nil⟩

instance refl : Std.Refl Unprompted := ⟨fun _ => .of_eq rfl⟩

instance trans : IsTrans World Unprompted where
  trans := by
    rintro w₀ w₁ w₂ ⟨new, hnew, hall⟩ ⟨new', hnew', hall'⟩
    refine ⟨new' ++ new, by rw [hnew', hnew, List.append_assoc], fun e he => ?_⟩
    rcases List.mem_append.mp he with he | he
    · exact hall' e he
    · exact hall e he

end Unprompted

theorem within_constructNode (room size i : ℕ) : Within Unprompted (constructNode room size i) := by
  have hstore : Within Unprompted (storeNetFile room i) := within_ite (within_fail _) (within_pure _)
  refine (within_modify fun w => .of_eq rfl).bind fun _ => hstore.bind fun _ => within_ite ?_ (within_pure _)
  refine within_get.bind fun w => (within_lift _).bind fun x => (within_modify fun w => .of_eq rfl).bind fun _ => ?_
  exact within_modify fun w => ⟨[_], rfl, fun e he hcommand => by
    rw [List.mem_singleton.mp he] at hcommand
    cases hcommand⟩

theorem within_construct (room : ℕ → ℕ) (n : ℕ) : Within Unprompted (construct room n) :=
  within_get.bind fun _ => (within_forEachWhile (fun i => (within_constructNode _ _ i).bind fun _ => within_pure _) _).bind
    fun _ => within_modify fun _ => .of_eq rfl

/-- One session: what it prints, and where it can be stopped. -/
theorem Restarts.session (F : Type) [Double F] (hroom : Connects room n) {p : Option Log}
    (h : Restarts n data p c) (hn : 0 < n) {cs : List Command} (hcs : ∀ com ∈ cs, com.Typed)
    (hp : ∀ r, p = some r → ∃ com ∈ cs.head?, com.record = some r) :
    ((DistRocks.session F room n c cs).1 = .ok () ∧
        (DistRocks.session F room n c cs).2.answers = mapAnswers data ((taken cs).map Command.asRead) ∨
      (DistRocks.session F room n c cs).1 = .error .overrun) ∧
    ∀ newer e older, (DistRocks.session F room n c cs).2.history = newer ++ e :: older → 0 < prompts (e :: older) →
      ∀ p', Leaves n e.after p' → Restarts n (mapAfter data ((taken cs).take (carriedOut (e :: older)))) p' e.after := by
  rcases ((within_construct room n).ends (h room hroom)).outcome with ⟨a, hok, hw, hunprompted⟩ | ⟨-, -, hfalse, -⟩
  · generalize hboot : construct room n (World.boot c.reopen) = out at hok hw hunprompted
    obtain ⟨x, w⟩ := out
    obtain rfl : x = .ok a := hok
    have hsession : DistRocks.session F room n c cs = DistRocks.run F cs w := by
      rw [DistRocks.session, bind_run hboot]
    obtain ⟨old, hold, hact⟩ := hunprompted
    have hhist : w.history = old := hold.trans (List.append_nil old)
    rw [hsession]
    constructor
    · rcases (hw.run F hn hcs hp).outcome with ⟨a, hok, hans⟩ | ⟨e, herr, rfl⟩
      · exact Or.inl ⟨hok, hans⟩
      · exact Or.inr herr
    · intro newer e older hsplit hprompt p' hl
      obtain ⟨new, hnew, hreaches⟩ := hw.reaches F hn hcs hp
      rw [hnew, hhist] at hsplit
      rcases split_middle hsplit.symm with ⟨back, rfl, rfl⟩ | ⟨mid, rfl, hlast⟩
      · obtain ⟨hpos, hrestarts⟩ := hreaches newer e back rfl
        have hcarried := carriedOut_append hpos old
        rw [prompts_eq_zero hact, Nat.add_zero, List.cons_append] at hcarried
        rw [hcarried]
        exact hrestarts p' hl
      · rw [prompts_eq_zero fun x hx => hact x (hlast ▸ List.mem_append_right _ hx)] at hprompt
        exact absurd hprompt (lt_irrefl 0)
  · exact hfalse.elim

/-- What has become of a cluster that was empty at first: in each session every process is started over the databases, and
then stopped behind some event that has left nothing in the logs, or one record; in that case the first command of the next
session is that of the record. With it come the commands that have been carried out. -/
inductive Lives (F : Type) [Double F] (room : ℕ → ℕ) (n : ℕ) : List Command → Option Log → Cluster → Prop
  | start : Lives F room n [] none .empty
  | stop {done cs : List Command} {p p' : Option Log} {c c' : Cluster} {newer older : List Event} {e : Event}
      (h : Lives F room n done p c) (hcs : ∀ com ∈ cs, com.Typed ∧ com.Plain)
      (hp : ∀ r, p = some r → ∃ com ∈ cs.head?, com.record = some r)
      (hsplit : (session F room n c cs).2.history = newer ++ e :: older) (hprompt : 0 < prompts (e :: older))
      (hl : Leaves n e.after p') (hsame : SameBases e.after c') :
      Lives F room n (done ++ (taken cs).take (carriedOut (e :: older))) p' c'

theorem Lives.restarts {F : Type} [Double F] {done : List Command} {p : Option Log} (h : Lives F room n done p c)
    (hroom : Connects room n) (hn : 0 < n) (h9 : n ≤ 9) :
    ∃ data, Restarts n data p c ∧ ∀ key, (data.get? key).getD [] = lastPut key done := by
  induction h with
  | start => exact ⟨.empty, resumes_empty hn h9, fun _ => rfl⟩
  | @stop done cs p p' c c' newer older e _ hcs hp hsplit hprompt hl hsame ih =>
      obtain ⟨data, hrestarts, hdata⟩ := ih
      obtain ⟨-, hstops⟩ := hrestarts.session F hroom hn (fun com hcom => (hcs com hcom).1) hp
      refine ⟨_, (hstops newer e older hsplit hprompt p' hl).of_sameBases hsame, fun key => ?_⟩
      have hplain : ∀ com ∈ (taken cs).take (carriedOut (e :: older)), com.asRead = com := fun com hcom =>
        (hcs com (List.takeWhile_subset _ (List.take_subset _ _ hcom))).2.asRead_eq
      rw [mapAfter, List.map_congr_left hplain, List.map_id']
      exact getD_foldl hdata key

/-- However often the cluster is stopped so, the console answers like one map: every `get` prints the value of the last
`put` of its key that no `del` follows, among the commands carried out before and in the session. -/
theorem lives_answers (F : Type) [Double F] (hroom : Connects room n) (hn : 0 < n) (h9 : n ≤ 9) {done : List Command}
    {p : Option Log} (h : Lives F room n done p c) {cs : List Command} (hcs : ∀ com ∈ cs, com.Typed ∧ com.Plain)
    (hp : ∀ r, p = some r → ∃ com ∈ cs.head?, com.record = some r) :
    ((session F room n c cs).1 = .ok () ∧ (session F room n c cs).2.answers = lastPuts done (taken cs)) ∨
      (session F room n c cs).1 = .error .overrun := by
  obtain ⟨data, hrestarts, hdata⟩ := h.restarts hroom hn h9
  obtain ⟨hout, -⟩ := hrestarts.session F hroom hn (fun com hcom => (hcs com hcom).1) hp
  rw [map_asRead fun com hcom => (hcs com hcom).2, mapAnswers_eq hdata] at hout
  exact hout

/-- Two `put`s; behind the second one the pair of the first goes to the other store. -/
def stoppedHistory : List Event := (session ℚ gnuRoom 2 .empty twoPuts).2.history

theorem commit_lt_stoppedHistory : 6 + 0 < stoppedHistory.length := by decide +kernel

/-- The commit at the source, behind which that pair is in no store. -/
def stoppedCommit : Event := stoppedHistory.get ⟨6 + 0, commit_lt_stoppedHistory⟩

/-- It is left in the log of its new store. -/
theorem leaves_stoppedCommit : Leaves 2 stoppedCommit.after (some ⟨.put, text "a", text "x"⟩) :=
  ⟨by decide +kernel, by decide, 0, by decide, by decide +kernel, by decide +kernel⟩

theorem lives_stoppedCommit : Lives ℚ gnuRoom 2 twoPuts (some ⟨.put, text "a", text "x"⟩) stoppedCommit.after := by
  have hsplit := split_at stoppedHistory commit_lt_stoppedHistory
  rw [List.take_zero, List.nil_append] at hsplit
  have hcarried : [] ++ (taken twoPuts).take (carriedOut (stoppedCommit :: stoppedHistory.drop 7)) = twoPuts := by
    decide +kernel
  have h := Lives.stop .start (by decide) (fun r hr => by cases hr) hsplit (by decide +kernel) leaves_stoppedCommit (.refl _)
  rwa [← hcarried]

theorem lives_answers_stoppedCommit :
    (session ℚ gnuRoom 2 stoppedCommit.after [.put (text "a") (text "x"), .get (text "a"), .get (text "b")]).2.answers =
      [text "x", text "y"] :=
  ((lives_answers ℚ (by decide) (by decide) (by decide) lives_stoppedCommit (by decide)
    fun r hr => ⟨_, rfl, hr.symm ▸ rfl⟩).resolve_right (by decide +kernel)).2

/-- With another command first, the record that was left is applied in the place of the new one. -/
example : (session ℚ gnuRoom 2 stoppedCommit.after [.put (text "a") (text "z"), .get (text "a")]).2.answers = [text "x"] := by
  decide +kernel

end DistRocks
