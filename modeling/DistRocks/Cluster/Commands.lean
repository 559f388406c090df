import DistRocks.Cluster.Sim

/-!
# `put`, `del` and `get`

* `CommandStopped` : a command whose request did not fit, or whose plan stopped;
* `Sim.logUser`, `Sim.finishUser` : the two halves of an update, up to the answer to its record and from there on;
* `Sim.putUpdate`, `Sim.delUpdate` : the two updates are the user's plan on the node that the key is routed to;
* `Sim.getCommand` : a `get` prints the value in that node.
-/

namespace DistRocks

open ConstValues Proc

variable {n : ℕ} {O : Origin} {V : View} {σ : Stage} {answers : List Bytes} {w : World}

/-- A command ended at the view `V`: its request `q` did not fit a buffer, or the plan of its record stopped. -/
def CommandStopped (n : ℕ) (O : Origin) (answers : List Bytes) (V : View) (q : Request) (e : Fault) (w : World) : Prop :=
  (e = .overrun ∧ Sim n O ⟨.command, V, []⟩ answers w ∧ MAXLINE < q.message.length) ∨
    ∃ r i s, q = .log r ∧ Routed V r.asRead.key i s ∧
      Stopped n O answers .command V (userPlan i r.asRead.recorded s) e w

/-- A value that is stored can be sent. -/
theorem get_value {m : OrdMap Bytes Bytes} (hm : ∀ e ∈ m.entries, (Log.mk .put e.1 e.2).Carried) (key : Bytes) :
    NulFree ((m.get? key).getD []) ∧ (Value.str ((m.get? key).getD [])).message.length ≤ MAXLINE := by
  cases hget : m.get? key with
  | none => exact ⟨List.not_mem_nil, by decide⟩
  | some v =>
      have hc := hm _ (OrdMap.get?_eq_some.mp hget)
      have hfits := hc.fits
      simp only [Log.length_encLog] at hfits
      refine ⟨hc.nulFree.value, ?_⟩
      simp only [Option.getD_some, Value.message, length_encStr]
      omega

namespace Sim

/-! ## The two halves of an update -/

/-- The record of a `put` or `del` goes to the log of the node that the key is routed to. -/
theorem logUser (h : Sim n O ⟨.command, V, []⟩ answers w) (hn : 0 < n) {r r' : Log} (hkind : r.kind ≠ .error)
    (hkey : r.key ≠ []) (hnul : NulFree r.key) (hr' : r.asRead.recorded = r') (hrk : r'.key = r.key) {Q : Unit → World → Prop}
    {f : Iterator → ControlMeta → ℕ → M Unit}
    (hf : ∀ (it : Iterator) (i : ℕ) (s : Bytes × Bytes) (w' : World), it.current = some (s.1, encSpan i s) →
      Routed V r.key i s → Allowed n V .command (userPlan i r' s) →
      Sim n O ⟨.command, V, [.log i r']⟩ answers w' →
      (∃ rec rec' rest, receivedStr w' = (.ok (OK, rec), w') ∧
        getStringFromBuff rec = .ok ((keyEnds (r'.apply (V.node i).data)).1, rec') ∧
        getStringFromBuff rec' = .ok ((keyEnds (r'.apply (V.node i).data)).2, rest)) →
      Ends (f it ⟨s.1, s.2, i⟩ i) w' Q (Stopped n O answers .command V (userPlan i r' s))) :
    Ends (do
      let len ← assembleLog r
      let it ← DistRocks.searchMeta r.key
      let controlMeta ← metaOf it
      let virtual_fd ← fdOf controlMeta
      DistRocks.exchange virtual_fd len
      f it controlMeta virtual_fd) w Q (CommandStopped n O answers V (.log r)) := by
  have hV : Placed n V := h.valid.placed
  rw [assembleLog_eq]
  by_cases hlen : MAXLINE < (Request.log r).message.length
  · rw [ends_bind]
    exact ends_assemble _ (fun _ hfit _ => absurd hfit hlen.not_ge) fun _ => Or.inl ⟨rfl, h, hlen⟩
  rw [not_lt] at hlen
  refine (h.assemble hlen).bind fun len w₁ h₁ => ?_
  obtain ⟨-, htake, h₁, -⟩ := h₁
  obtain ⟨it, i, s, hsearch, hat, hroute⟩ := h₁.routed hV hn r.key
  have hi : i < n := hV.lt_of_span hroute.span
  have hasKey : r.asRead.key = r.key := hnul.cstr_eq
  have hcarried : r'.Carried := by
    rw [← hr']
    exact StoreImpl.recorded_carried hkind r.asRead_nulFree ((Request.length_message_asRead_le (.log r)).trans hlen)
  have hroute' : Routed V r'.key i s := hrk ▸ hroute
  have hp : Allowed n V .command (userPlan i r' s) := .user (hrk ▸ hkey) hcarried hroute'
  have hstop : ∀ e w', Stopped n O answers .command V (userPlan i r' s) e w' →
      CommandStopped n O answers V (.log r) e w' :=
    fun e w' he => Or.inr ⟨r, i, s, rfl, hasKey ▸ hroute, hr'.symm ▸ he⟩
  rw [ends_run hsearch, ends_run (metaOf_eq hat (hV.sound hroute.span)), ends_run (fdOf_eq _ _ i)]
  have hx := h₁.exchange_log (p := userPlan i r' s) hi hkind (hasKey ▸ hkey) (fun e he => (hV.stored hi e he).1) hlen htake hp
    (by rw [hr']; exact ⟨_, rfl⟩)
  refine (hx.bind fun _ w₂ h₂ => ?_).mono (fun _ _ hq => hq) hstop
  obtain ⟨h₂, hgot, -⟩ := h₂
  rw [hr'] at h₂
  rw [← r.asRead.apply_recorded, hr'] at hgot
  have hends := nulFree_keyEnds fun e he => (hcarried.apply (hrk ▸ hkey) (hV.stored hi) e he).2.nulFree.key
  exact hf it i s w₂ hat hroute hp h₂ (hgot.vote (by decide) hends.1 hends.2)

/-- After the record is filed, the commit ends the plan. -/
theorem commitUser (h : Sim n O σ answers w) {i : ℕ} (hi : i < n) {p : List Change} {H : Fault → World → Prop}
    (hp : Allowed n σ.base σ.mark p) (hpre : σ.made ++ [.commit i] <+: p) :
    Ends (do
      request COMMIT_LOG i
      let _ ← receivedStr) w (fun _ w' => Sim n O (σ.make [.commit i]) answers w') H := by
  have hlen : Request.commitLog.message.length ≤ MAXLINE := by decide
  rw [request_eq, call, bind_assoc]
  refine (h.assemble hlen).bind fun len w₁ h₁ => ?_
  obtain ⟨-, htake, h₁, -⟩ := h₁
  refine (h₁.exchange_commit hi htake hp hpre).bind fun _ w₂ h₂ => ?_
  obtain ⟨h₂, hgot, -⟩ := h₂
  obtain ⟨rest, hrest⟩ := hgot.str (by decide)
  rw [ends_run hrest, ends_pure]
  exact h₂

/-- The rest of an update: the interval takes in the key, and the record is committed. -/
theorem finishUser {r : Log} {i : ℕ} {s : Bytes × Bytes} {k : Bytes} {it : Iterator}
    (h : Sim n O ⟨.command, V, [.log i r]⟩ answers w) (hat : it.current = some (s.1, k)) (hnul : NulFree r.key)
    (hroute : Routed V r.key i s) (hp : Allowed n V .command (userPlan i r s)) :
    Ends (do
      DistRocks.rewriteMeta it ⟨(r.widen s).1, (r.widen s).2, i⟩
      request COMMIT_LOG i
      let _ ← receivedStr) w (fun _ w' => Sim n O ⟨.command, V, userPlan i r s⟩ answers w')
      (Stopped n O answers .command V (userPlan i r s)) := by
  have hV : Placed n V := h.valid.placed
  have hs := hV.sound hroute.span
  have hlo : NulFree (r.widen s).1 := by
    rw [Log.widen]
    split_ifs
    · exact hs.min_str
    · rcases min_choice s.1 r.key with he | he <;> rw [he]
      · exact hs.min_str
      · exact hnul
  have hhi : NulFree (r.widen s).2 := by
    rcases max_choice s.2 r.key with he | he <;> rw [Log.widen, he]
    · exact hs.max_str
    · exact hnul
  refine (h.rewriteMeta (t := r.widen s) hat hroute.span hp ⟨[.commit i], rfl⟩ ⟨hlo, hhi⟩ hs.virtual_fd.2).bind
    fun _ w₁ h₁ => ?_
  exact h₁.1.commitUser (hV.lt_of_span hroute.span) hp ⟨[], rfl⟩

/-! ## The commands -/

/-- A `put` is the user's plan for its record. -/
theorem putUpdate (h : Sim n O ⟨.command, V, []⟩ answers w) (hn : 0 < n) {key : Bytes} (value : Bytes) (hkey : key ≠ [])
    (hnul : NulFree key) :
    Ends (DistRocks.putUpdate key value) w
      (fun _ w' => ∃ i s, Routed V key i s ∧ Allowed n V .command (userPlan i ⟨.put, key, cstr value⟩ s) ∧
        Sim n O ⟨.command, V, userPlan i ⟨.put, key, cstr value⟩ s⟩ answers w')
      (CommandStopped n O answers V (.log ⟨.put, key, value⟩)) := by
  have hr : (Log.mk .put key value).asRead.recorded = ⟨.put, key, cstr value⟩ := by
    rw [Log.asRead, hnul.cstr_eq]
    rfl
  rw [DistRocks.putUpdate]
  refine h.logUser hn (fun hk => by cases hk) hkey hnul hr rfl fun it i s w₁ hat hroute hp h₁ hans => ?_
  obtain ⟨rec, -, -, hans, -, -⟩ := hans
  rw [ends_run hans]
  simp only [if_true]
  exact (h₁.finishUser hat hnul hroute hp).mono (fun _ _ h₂ => ⟨i, s, hroute, hp, h₂⟩) fun _ _ he => he

/-- The lower end that the control node works out after a `del` is the old one. -/
theorem min_lower (hV : Placed n V) {i : ℕ} {s : Bytes × Bytes} (hs : V.table.span i = some s) (key : Bytes) {lo : Bytes}
    (hlo : lo = (keyEnds ((V.node i).data.erase key)).1) : min s.1 (if lo = [] then s.1 else lo) = s.1 := by
  split_ifs with hnil
  · exact min_self _
  · refine min_eq_left ?_
    have hne : ((V.node i).data.erase key).entries ≠ [] := fun h0 => hnil (by rw [hlo, keyEnds_empty h0])
    obtain ⟨⟨e, he, heq⟩, -⟩ := exists_mem_keyEnds hne
    rw [hlo, heq]
    exact (hV.within hs e (OrdMap.mem_erase.mp he).2).1

theorem delUpdate (h : Sim n O ⟨.command, V, []⟩ answers w) (hn : 0 < n) {key : Bytes} (hkey : key ≠ [])
    (hnul : NulFree key) :
    Ends (DistRocks.delUpdate key) w
      (fun _ w' => ∃ i s, Routed V key i s ∧ Allowed n V .command (userPlan i ⟨.delete, key, []⟩ s) ∧
        Sim n O ⟨.command, V, userPlan i ⟨.delete, key, []⟩ s⟩ answers w')
      (CommandStopped n O answers V (.log ⟨.delete, key, []⟩)) := by
  have hr : (Log.mk .delete key []).asRead.recorded = ⟨.delete, key, []⟩ := by
    rw [Log.asRead, hnul.cstr_eq]
    rfl
  rw [DistRocks.delUpdate]
  refine h.logUser hn (fun hk => by cases hk) hkey hnul hr rfl fun it i s w₁ hat hroute hp h₁ hans => ?_
  obtain ⟨rec, rec', rest, hans, hlo, hhi⟩ := hans
  have hV : Placed n V := h.valid.placed
  rw [ends_run hans]
  simp only [if_true, hlo]
  rw [ends_bind, ends_lift_ok]
  simp only [hhi]
  rw [ends_bind, ends_lift_ok]
  have hends : (keyEnds ((Log.mk .delete key []).apply (V.node i).data)).1 = _ := rfl
  simp only [min_lower hV hroute.span key hends]
  exact (h₁.finishUser hat hnul hroute hp).mono (fun _ _ h₂ => ⟨i, s, hroute, hp, h₂⟩) fun _ _ he => he

/-- A `get` prints the value in the node that the key is routed to. -/
theorem getCommand (h : Sim n O ⟨.command, V, []⟩ answers w) (hn : 0 < n) {key : Bytes} (hnul : NulFree key) :
    Ends (DistRocks.getCommand key) w
      (fun _ w' => ∃ i s, Routed V key i s ∧
        Sim n O ⟨.command, V, []⟩ (answers ++ [((V.node i).data.get? key).getD []]) w')
      (CommandStopped n O answers V (.get key)) := by
  have hV : Placed n V := h.valid.placed
  obtain ⟨it, i, s, hsearch, hat, hroute⟩ := h.routed hV hn key
  have hi : i < n := hV.lt_of_span hroute.span
  have hmsg : [GET, key].flatMap encStr = (Request.get key).message := by simp [Request.message]
  rw [DistRocks.getCommand, ends_run hsearch, ends_run (metaOf_eq hat (hV.sound hroute.span)), ends_run (fdOf_eq _ _ i),
    assembleStrs_eq, hmsg]
  by_cases hlen : MAXLINE < (Request.get key).message.length
  · rw [ends_bind]
    exact ends_assemble _ (fun _ hfit _ => absurd hfit hlen.not_ge) fun _ => Or.inl ⟨rfl, h, hlen⟩
  rw [not_lt] at hlen
  refine (h.assemble hlen).bind fun len w₁ h₁ => ?_
  obtain ⟨-, htake, h₁, -⟩ := h₁
  have hv : (V.node i).answer (Request.get key).asRead = some (.str (((V.node i).data.get? key).getD [])) := by
    rw [Request.asRead, hnul.cstr_eq]
    rfl
  obtain ⟨hvalue, hfit⟩ := get_value (fun e he => (hV.stored hi e he).2) key
  refine (h₁.exchange_read (q := .get key) hi trivial hlen htake hv hfit).bind fun _ w₂ h₂ => ?_
  obtain ⟨h₂, hgot, -⟩ := h₂
  obtain ⟨rest, hrest⟩ := hgot.str hvalue
  rw [ends_run hrest, ends_modify]
  exact ⟨i, s, hroute, h₂.count, h₂.refusals, by rw [h₂.answered], h₂.shows, h₂.traced⟩

end Sim

end DistRocks
