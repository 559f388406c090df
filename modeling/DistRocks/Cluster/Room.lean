import DistRocks.Base.Calls
import DistRocks.Cluster.Rounds

/-!
# Room in the buffers

Nothing that is written to a buffer is checked against its end; a run of the model ends with `overrun` where the code
writes past it.

* `EndsFit` : the answer to a record, with the two ends of what the node will hold, fits a buffer;
* `Command.Roomy`, `Pass.Roomy` : at the state where it begins, a command or a round of `reBalance` fits its buffers;
* `user_roomy`, `move_roomy` : then so does every change of its plan;
* `run_roomy` : a run of such commands and rounds writes past no buffer;
* `View.Brief`, `run_brief` : so does a run of commands whose requests fit and whose keys have at most 20471 bytes;
* `Fresh.put_overruns` : a `put` of a long key does, although its request fits.
-/

namespace DistRocks

open ConstValues Proc

variable {n i : ℕ} {O : Origin} {V : View} {σ : Stage} {answers : List Bytes} {w : World} {c : Cluster}
  {m : OrdMap Bytes Bytes}

/-- The answer to a record after which a node holds `m` fits a buffer: `ok` and the two ends, five bytes with each. -/
def EndsFit (m : OrdMap Bytes Bytes) : Prop := 17 + ((keyEnds m).1.length + (keyEnds m).2.length) ≤ MAXLINE

/-- The record of an interval fits a buffer: the two ends, five bytes with each, and an `int`. -/
def SpanFits (s : Bytes × Bytes) : Prop := 14 + (s.1.length + s.2.length) ≤ MAXLINE

/-- The data of store `j`. -/
def Cluster.data (c : Cluster) (j : ℕ) : OrdMap Bytes Bytes := (c.stores j).storeData.dbHandle.db

/-- A command fits its buffers at the cluster `c`: its request, and for a record the answer of the node it goes to and
the record of the widened interval. -/
structure Command.Roomy (com : Command) (c : Cluster) : Prop where
  request : com.request.message.length ≤ MAXLINE
  update : ∀ r ∈ com.record, ∀ e ∈ (c.search r.key).current, ∀ entry ∈ (ControlMeta.ofSlice e.2).toOption,
    EndsFit (r.apply (c.data entry.virtual_fd.toNat)) ∧ SpanFits (r.widen (entry.min_str, entry.max_str))

/-- A round that moves a pair out of node `i` fits its buffers at the cluster `c`: both answers. -/
def Pass.Roomy (pass : Pass) (i : ℕ) (c : Cluster) : Prop :=
  ∀ e ∈ pass.extreme? (c.data i),
    EndsFit ((c.data i).erase e.1) ∧ EndsFit ((c.data (pass.peer i)).insert e.1 e.2)

/-- If the event asks for the pair of a round, that round fits its buffers. -/
def Event.Roomy (x : Event) : Prop := ∀ pass i, x.act.Picks pass i → pass.Roomy i x.before

instance decidableEndsFit (m : OrdMap Bytes Bytes) : Decidable (EndsFit m) := by
  unfold EndsFit
  infer_instance

instance decidableSpanFits (s : Bytes × Bytes) : Decidable (SpanFits s) := by
  unfold SpanFits
  infer_instance

instance Command.decidableRoomy (com : Command) (c : Cluster) : Decidable (com.Roomy c) :=
  decidable_of_iff (com.request.message.length ≤ MAXLINE ∧
    ∀ r ∈ com.record, ∀ e ∈ (c.search r.key).current, ∀ entry ∈ (ControlMeta.ofSlice e.2).toOption,
      EndsFit (r.apply (c.data entry.virtual_fd.toNat)) ∧ SpanFits (r.widen (entry.min_str, entry.max_str)))
    ⟨fun h => ⟨h.1, h.2⟩, fun h => ⟨h.request, h.update⟩⟩

instance Pass.decidableRoomy (pass : Pass) (i : ℕ) (c : Cluster) : Decidable (pass.Roomy i c) := by
  unfold Pass.Roomy
  infer_instance

/-- The store and the message of an exchange. -/
def Act.asked : Act → Option (ℕ × Bytes)
  | .exchange fd msg => some (fd, msg)
  | _ => none

theorem Event.roomy_iff (x : Event) : x.Roomy ↔ ∀ q ∈ x.act.asked, ∀ pass ∈ [Pass.forward, .backward],
    q.2 = pass.question.message → pass.Roomy q.1 x.before := by
  obtain ⟨act, before, after⟩ := x
  constructor
  · intro h q hq pass _ hmsg
    cases act with
    | exchange fd msg =>
        cases hq
        exact h pass fd (congrArg (Act.exchange fd) hmsg)
    | _ => cases hq
  · rintro h pass i rfl
    exact h _ rfl pass (by cases pass <;> simp) rfl

instance Event.decidableRoomy (x : Event) : Decidable x.Roomy := decidable_of_iff _ x.roomy_iff.symm

/-! ## The changes of a plan -/

theorem roomy_log {j : ℕ} {r : Log} (h : EndsFit (r.apply (V.node j).data)) : (Change.log j r).Roomy V := by
  unfold EndsFit at h
  unfold Change.Roomy
  simp only [Value.message, List.length_append, length_encStr]
  have hok : OK.length = 2 := by decide
  omega

theorem roomy_file {s : Bytes × Bytes} (h : SpanFits s) : (Change.file i s).Roomy V := by
  unfold SpanFits at h
  unfold Change.Roomy encSpan
  simp only [encMeta, List.length_append, length_encStr, length_intToBytes]
  omega

theorem EndsFit.span (h : EndsFit m) : SpanFits (keyEnds m) := by
  unfold EndsFit at h
  unfold SpanFits
  omega

theorem user_roomy {r : Log} {s : Bytes × Bytes} (hends : EndsFit (r.apply (V.node i).data)) (hspan : SpanFits (r.widen s)) :
    ∀ made ch, made ++ [ch] <+: userPlan i r s → ch.Roomy (V.after made) := by
  simp only [userPlan, forall_snoc_prefix_cons]
  exact ⟨roomy_log hends, trivial, roomy_file hspan, trivial, fun made ch hnil => absurd hnil (by simp)⟩

theorem move_roomy {pass : Pass} {k v : Bytes} (hmove : Movable n pass i k v V)
    (hsrc : EndsFit ((V.node i).data.erase k)) (hdst : EndsFit ((V.node (pass.peer i)).data.insert k v)) :
    ∀ made ch, made ++ [ch] <+: movePlan V pass i k v → ch.Roomy (V.after made) := by
  simp only [movePlan, forall_snoc_prefix_cons]
  refine ⟨roomy_log hsrc, roomy_log ?_, trivial, roomy_file hsrc.span, trivial, roomy_file hdst.span, trivial, trivial,
    fun made ch hnil => absurd hnil (by simp)⟩
  rw [View.after_cons, View.after_nil, View.node_change_log, Function.update_of_ne hmove.adjacent.peer_ne]
  exact hdst

/-- A plan whose changes all fit does not stop. -/
theorem Stopped.elim {mark : Act} {p : List Change} {e : Fault} (h : Stopped n O answers mark V p e w)
    (hroomy : ∀ made ch, made ++ [ch] <+: p → ch.Roomy (V.after made)) : False := by
  obtain ⟨-, made, ch, -, hpre, hnot⟩ := h
  exact hnot (hroomy made ch hpre)

/-! ## Runs -/

theorem Shows.data (h : Shows n c V) {j : ℕ} (hj : j < n) : c.data j = (V.node j).data := by
  rw [Cluster.data, (h.stores hj).data]
  rfl

/-- The search in the metadata ends where the table says. -/
theorem Shows.search (h : Shows n c V) {k : Bytes} {s : Bytes × Bytes} (hroute : Routed V k i s) :
    (c.search k).current = some (s.1, encSpan i s) := by
  obtain ⟨db, hdb, hindex⟩ := h.index
  obtain ⟨j, t, hspan, hloc, habove, hbelow, hfloor⟩ := hindex.locate ⟨i, s, hroute.span⟩ k
  obtain rfl : i = j := hroute.eq ⟨hspan, habove, hbelow, hfloor⟩
  obtain rfl : s = t := Option.some.inj (hroute.span.symm.trans hspan)
  rw [Cluster.search, DBHandle.search_current, hdb]
  exact hloc

/-- The record that a command sends, as it is read and logged. -/
theorem Command.record_eq {com : Command} (hc : com.Valid) {r : Log} (h : com.request = .log r) :
    com.record = some r.asRead.recorded := by
  cases com with
  | put key value =>
      cases h
      rw [Command.record, Log.asRead, NulFree.cstr_eq hc.2]
      rfl
  | del key =>
      cases h
      rw [Command.record, Log.asRead, NulFree.cstr_eq hc.2]
      rfl
  | _ => cases h

theorem Log.key_recorded (r : Log) : r.recorded.key = r.key := by
  rw [Log.recorded]
  split_ifs <;> rfl

/-- A command that fits its buffers does not stop in its update. -/
theorem CommandStopped.elim {com : Command} {e : Fault} (hc : com.Valid) (hV : Placed n V) (hshows : Shows n c V)
    (hroomy : com.Roomy c) (h : CommandStopped n O answers V com.request e w) : False := by
  rcases h with ⟨-, -, hlong⟩ | ⟨r, i, s, hq, hroute, hstop⟩
  · exact absurd hroomy.request hlong.not_ge
  · have hroute' : Routed V r.asRead.recorded.key i s := by rwa [Log.key_recorded]
    have hi := hV.lt_of_span hroute.span
    have hread : (ControlMeta.ofSlice (encSpan i s)).toOption = some ⟨s.1, s.2, i⟩ := by
      rw [encSpan, ControlMeta.ofSlice_encMeta (hV.sound hroute.span)]
      rfl
    obtain ⟨hends, hspan⟩ := hroomy.update _ (Command.record_eq hc hq) _ (hshows.search hroute') _ hread
    rw [Int.toNat_natCast, hshows.data hi] at hends
    exact hstop.elim (user_roomy hends hspan)

/-- A round that fits its buffers does not stop. -/
theorem MoveStopped.elim {e : Fault} (h : MoveStopped n O answers e w)
    (hroomy : ∀ x ∈ w.history, x.Roomy) : False := by
  obtain ⟨V, pass, i, k, v, hmove, hstop, x, hx, hpicks, hshows⟩ := h
  have hround := hroomy x hx pass i hpicks
  rw [Pass.Roomy, hshows.data hmove.adjacent.lt, hshows.data hmove.adjacent.peer_lt] at hround
  obtain ⟨hsrc, hdst⟩ := hround _ hmove.picked
  exact hstop.elim (move_roomy hmove hsrc hdst)

/-- A run writes past no buffer if every command fits at the state it is typed in, and every round of `reBalance` at the
state in which it asks for its pair. -/
theorem run_roomy (F : Type) [Double F] (hw : Fresh n w) {cs : List Command} (hcs : ∀ com ∈ cs, com.Valid)
    (hcommand : ∀ pre com, pre ++ [com] <+: cs → (DistRocks.run F pre w).1 = .ok () →
      com.Roomy (DistRocks.run F pre w).2.cluster)
    (hround : ∀ x ∈ (DistRocks.run F cs w).2.history, x.Roomy) :
    (DistRocks.run F cs w).1 = .ok () := by
  obtain ⟨V₀, hrun⟩ := hw.run F (.trivial n) fun com hc => ⟨hcs com hc, trivial⟩
  rcases hrun.outcome with ⟨a, hok, -⟩ | ⟨e, -, pre, com, post, V, answers, rfl, hok, hsim, hstop⟩
  · exact hok
  · have hvalid := hcs com (List.mem_append_right _ List.mem_cons_self)
    have hV : Placed n V := hsim.valid.placed
    have hshows : Shows n (DistRocks.run F pre w).2.cluster V := hsim.shows
    rcases hstop with hstop | hstop
    · exact (hstop.elim hvalid hV hshows (hcommand pre com ⟨post, by simp⟩ hok)).elim
    · exact (hstop.elim hround).elim

theorem run_roomy_threePuts :
    (DistRocks.run ℚ (twoPuts ++ [.put (text "c") (text "z")]) twoStores).1 = .ok () := by
  refine run_roomy ℚ twoStores_fresh (by decide) ?_ (by decide +kernel)
  simp only [twoPuts, List.cons_append, List.nil_append, forall_snoc_prefix_cons]
  exact ⟨fun _ => by decide +kernel, fun _ => by decide +kernel, fun _ => by decide +kernel,
    fun pre com hnil => absurd hnil (by simp)⟩

/-! ## Short keys -/

/-- The answer to a record with two such keys fits a buffer. -/
def Brief (key : Bytes) : Prop := 17 + (key.length + key.length) ≤ MAXLINE

instance decidableBrief (key : Bytes) : Decidable (Brief key) := by
  unfold Brief
  infer_instance

/-- The keys of the nodes and the ends of the intervals are short. -/
structure View.Brief (V : View) : Prop where
  keys : ∀ j, ∀ e ∈ (V.node j).data.entries, DistRocks.Brief e.1
  ends : ∀ j s, V.table.span j = some s → DistRocks.Brief s.1 ∧ DistRocks.Brief s.2

theorem EndsFit.of_brief (h : ∀ e ∈ m.entries, Brief e.1) : EndsFit m := by
  by_cases hm : m.entries = []
  · rw [EndsFit, keyEnds_empty hm]
    decide
  · obtain ⟨hlo, hhi⟩ := keyEnds_of_forall hm h
    unfold EndsFit
    unfold Brief at hlo hhi
    omega

theorem SpanFits.of_brief {s : Bytes × Bytes} (h : Brief s.1 ∧ Brief s.2) : SpanFits s := by
  obtain ⟨hlo, hhi⟩ := h
  unfold SpanFits
  unfold Brief at hlo hhi
  omega

theorem Log.brief_widen {r : Log} {s : Bytes × Bytes} (hr : Brief r.key) (hs : Brief s.1 ∧ Brief s.2) :
    Brief (r.widen s).1 ∧ Brief (r.widen s).2 := by
  constructor
  · rw [widen]
    split_ifs
    · exact hs.1
    · rcases min_choice s.1 r.key with h | h <;> rw [h]
      · exact hs.1
      · exact hr
  · rw [widen]
    rcases max_choice s.2 r.key with h | h <;> rw [h]
    · exact hs.2
    · exact hr

theorem Log.brief_apply {r : Log} (hr : Brief r.key) (hm : ∀ e ∈ m.entries, Brief e.1) :
    ∀ e ∈ (r.apply m).entries, Brief e.1 := by
  intro e he
  rcases Log.mem_apply he with ⟨-, rfl⟩ | he
  · exact hr
  · exact hm e he

namespace View.Brief

theorem user {r : Log} {s : Bytes × Bytes} (h : V.Brief) (hr : DistRocks.Brief r.key) (hroute : Routed V r.key i s) :
    (V.after (userPlan i r s)).Brief where
  keys j := by
    rw [node_after_user]
    by_cases hj : j = i
    · rw [hj, Function.update_self]
      exact r.brief_apply hr (h.keys i)
    · rw [Function.update_of_ne hj]
      exact h.keys j
  ends j t ht := by
    rw [table_after_user hroute.fits] at ht
    by_cases hj : j = i
    · rw [hj, Spans.span_set_self] at ht
      exact Option.some.inj ht ▸ r.brief_widen hr (h.ends i s hroute.span)
    · rw [Spans.span_set_of_ne _ hj] at ht
      exact h.ends j t ht

theorem move {pass : Pass} {k v : Bytes} (h : V.Brief) (hV : Placed n V) (hmove : Movable n pass i k v V) :
    (V.after (movePlan V pass i k v)).Brief := by
  have hk : DistRocks.Brief k := h.keys i _ hmove.mem
  have hsrc : ∀ e ∈ ((V.node i).data.erase k).entries, DistRocks.Brief e.1 := fun e he =>
    h.keys i e (OrdMap.mem_erase.mp he).2
  have hdst : ∀ e ∈ ((V.node (pass.peer i)).data.insert k v).entries, DistRocks.Brief e.1 := fun e he => by
    rcases OrdMap.mem_insert.mp he with rfl | ⟨-, he⟩
    · exact hk
    · exact h.keys _ e he
  refine ⟨fun j => ?_, fun j t ht => ?_⟩
  · rw [node_after_move hmove]
    by_cases hp : j = pass.peer i
    · rw [hp, Function.update_self]
      exact hdst
    · rw [Function.update_of_ne hp]
      by_cases hj : j = i
      · rw [hj, Function.update_self]
        exact hsrc
      · rw [Function.update_of_ne hj]
        exact h.keys j
  · rw [table_after_move hV hmove] at ht
    by_cases hp : j = pass.peer i
    · rw [hp, Spans.span_set_self] at ht
      exact Option.some.inj ht ▸ keyEnds_of_forall (OrdMap.insert_ne_nil _ k v) hdst
    · rw [Spans.span_set_of_ne _ hp] at ht
      by_cases hj : j = i
      · rw [hj, Spans.span_set_self] at ht
        exact Option.some.inj ht ▸ keyEnds_of_forall hmove.source_ne_nil hsrc
      · rw [Spans.span_set_of_ne _ hj] at ht
        exact h.ends j t ht

/-- A migration of a short key does not stop. -/
theorem move_roomy {pass : Pass} {k v : Bytes} (h : V.Brief) (hmove : Movable n pass i k v V) :
    ∀ made ch, made ++ [ch] <+: movePlan V pass i k v → ch.Roomy (V.after made) := by
  refine DistRocks.move_roomy hmove (.of_brief fun e he => h.keys i e (OrdMap.mem_erase.mp he).2)
    (.of_brief fun e he => ?_)
  rcases OrdMap.mem_insert.mp he with rfl | ⟨-, he⟩
  · exact h.keys i _ hmove.mem
  · exact h.keys _ e he

end View.Brief

section Loops
variable {F : Type} [Double F] {pass : Pass} {total : ℤ} {perfect : F}

theorem Rest.drain_brief (h : Rest n O answers V w) (hV : V.Brief) (hO : ∀ i, O.marks (.iteration pass i))
    (hadj : pass.Adjacent n i) :
    Ends (DistRocks.drain F pass total perfect i) w
      (fun on w' => on = true ∧ ∃ V', V'.Brief ∧ Rest n O answers V' w') (fun _ _ => False) := by
  rw [DistRocks.drain, ends_bind, ends_get]
  refine ends_repeatWhile (I := fun w => ∃ V', V'.Brief ∧ Rest n O answers V' w)
    (m := fun w => (w.cluster.stores i).storeData.dbHandle.db.entries.length) (fun w₁ hI => ?_) _ w ⟨V, hV, h⟩
    (Nat.lt_succ_self _)
  obtain ⟨V₁, hV₁, σ, hσ, hcomplete, rfl⟩ := hI
  refine (hσ.mark hcomplete (a := .iteration pass i) trivial (hO i)).bind fun _ w₂ h₂ => ?_
  refine (h₂.1.notTooMuch F hadj.lt total perfect).bind fun calm w₃ h₃ => ?_
  obtain ⟨hcalm, h₃⟩ := h₃
  rw [ends_pure]
  cases calm with
  | true => exact ⟨rfl, σ.view, hV₁, h₃.rest (Or.inl rfl)⟩
  | false =>
      have hrough : ¬Calm F total perfect (σ.view.node i) := fun hc => Bool.false_ne_true (hcalm.mpr hc)
      obtain ⟨k, v, hmove⟩ := exists_movable hadj hrough
      refine (h₃.migrate hmove).mono (fun on w₄ h₄ => ?_) fun _ _ he => he.1.elim (hV₁.move_roomy hmove)
      obtain ⟨rfl, h₄⟩ := h₄
      refine ⟨⟨_, hV₁.move (hσ.valid.placed_view hcomplete) hmove, h₄.rest (Or.inr (.move hmove))⟩, ?_⟩
      show (w₄.cluster.stores i).storeData.dbHandle.db.entries.length <
        (w₁.cluster.stores i).storeData.dbHandle.db.entries.length
      rw [h₄.entries hadj.lt, hσ.entries hadj.lt]
      have hlen := length_after_move hmove
      simp only [Stage.view] at hlen ⊢
      omega

theorem Rest.runPass_brief (h : Rest n O answers V w) (hV : V.Brief) (hO : ∀ i, O.marks (.iteration pass i)) :
    Ends (DistRocks.runPass F pass total perfect) w
      (fun on w' => on = true ∧ ∃ V', V'.Brief ∧ Rest n O answers V' w') (fun _ _ => False) := by
  have hstart : ∃ V', V'.Brief ∧ Rest n O answers V' w := ⟨V, hV, h⟩
  refine ends_runPass h.count (fun i w₁ hadj hI => ?_) hstart
  obtain ⟨V₁, hV₁, h₁⟩ := hI
  exact h₁.drain_brief hV₁ hO hadj

end Loops

theorem Rest.reBalance_brief (F : Type) [Double F] (h : Rest n O answers V w) (hV : V.Brief)
    (hO : ∀ pass i, O.marks (.iteration pass i)) :
    Ends (DistRocks.reBalance F) w (fun _ w' => ∃ V', V'.Brief ∧ Rest n O answers V' w') (fun _ _ => False) := by
  obtain ⟨σ, hσ, hdone, rfl⟩ := h
  rw [DistRocks.reBalance]
  refine hσ.totalSize.bind fun a w₁ h₁ => ?_
  rw [ends_bind, ends_get, h₁.2.count]
  refine ((h₁.2.rest hdone).runPass_brief hV (hO .forward)).bind fun on w₂ h₂ => ?_
  obtain ⟨rfl, V₂, hV₂, h₂⟩ := h₂
  refine (h₂.runPass_brief hV₂ (hO .backward)).bind fun on w₃ h₃ => ?_
  obtain ⟨rfl, V₃, hV₃, σ₃, h₃, hdone₃, rfl⟩ := h₃
  exact (h₃.showMeta (h₃.valid.placed_view hdone₃)).mono (fun _ _ h₄ => ⟨σ₃.view, hV₃, h₄.rest hdone₃⟩) fun _ _ he => he

/-- The request of the command fits a buffer, and its key is short. -/
structure Command.Brief (com : Command) : Prop where
  request : com.request.message.length ≤ MAXLINE
  key : ∀ r ∈ com.record, DistRocks.Brief r.key

instance Command.decidableBrief (com : Command) : Decidable com.Brief :=
  decidable_of_iff (com.request.message.length ≤ MAXLINE ∧ ∀ r ∈ com.record, DistRocks.Brief r.key)
    ⟨fun h => ⟨h.1, h.2⟩, fun h => ⟨h.request, h.key⟩⟩

/-- A command with a short key does not stop in its update. -/
theorem CommandStopped.elim_brief {com : Command} {e : Fault} (hc : com.Valid) (hbrief : com.Brief) (hV : V.Brief)
    (h : CommandStopped n O answers V com.request e w) : False := by
  rcases h with ⟨-, -, hlong⟩ | ⟨r, i, s, hq, hroute, hstop⟩
  · exact absurd hbrief.request hlong.not_ge
  · have hkey : DistRocks.Brief r.asRead.recorded.key := hbrief.key _ (Command.record_eq hc hq)
    exact hstop.elim (user_roomy (.of_brief (Log.brief_apply hkey (hV.keys i)))
      (.of_brief (Log.brief_widen hkey (hV.ends i s hroute.span))))

theorem Sim.exec_brief (F : Type) [Double F] (h : Sim n O ⟨.command, V, []⟩ answers w)
    (hO : ∀ pass i, O.marks (.iteration pass i)) (hn : 0 < n) (hV : V.Brief) {com : Command} (hc : com.Valid)
    (hbrief : com.Brief) :
    Ends (com.exec F) w (fun _ w' => ∃ V' answers', V'.Brief ∧ Rest n O answers' V' w') (fun _ _ => False) := by
  cases hr : com.record with
  | some r =>
      rw [exec_eq F hc hr]
      refine ((h.update hn hc hr).mono (fun _ _ hq => hq) fun _ _ he => he.elim_brief hc hbrief hV).bind fun _ w₁ h₁ => ?_
      obtain ⟨i, s, hroute, hp, h₁⟩ := h₁
      have hV₁ := hV.user (hbrief.key r hr) hroute
      exact ((h₁.rest (Or.inr hp)).reBalance_brief F hV₁ hO).mono (fun _ _ ⟨V', h₂⟩ => ⟨V', answers, h₂⟩) fun _ _ he => he
  | none =>
      cases com with
      | quit | test _ | other _ => exact hc.elim
      | put _ _ | del _ => cases hr
      | get key =>
          rw [Command.exec]
          refine (h.getCommand hn hc.2).mono (fun _ w₁ h₁ => ?_) fun _ _ he => he.elim_brief hc hbrief hV
          obtain ⟨i, s, -, h₁⟩ := h₁
          exact ⟨V, _, hV, h₁.rest (Or.inl rfl)⟩

theorem Rest.run_brief (F : Type) [Double F] (h : Rest n O answers V w) (hO : ∀ a : Act, a.IsMark → O.marks a)
    (hn : 0 < n) (hV : V.Brief) {cs : List Command} (hcs : ∀ com ∈ cs, com.Valid ∧ com.Brief) :
    Ends (DistRocks.run F cs) w (fun _ _ => True) (fun _ _ => False) := by
  induction cs generalizing w V answers with
  | nil => trivial
  | cons com cs ih =>
      obtain ⟨σ, hσ, hdone, rfl⟩ := h
      obtain ⟨hc, hbrief⟩ := hcs com List.mem_cons_self
      rw [run_cons F hc]
      refine (hσ.mark hdone (a := .command) trivial (hO _ trivial)).bind fun _ w₁ h₁ => ?_
      refine (h₁.1.exec_brief F (fun _ _ => hO _ trivial) hn hV hc hbrief).bind fun _ w₂ h₂ => ?_
      obtain ⟨V₂, answers₂, hV₂, h₂⟩ := h₂
      exact ih h₂ hV₂ fun com' hc' => hcs com' (List.mem_cons_of_mem _ hc')

/-- A run of commands whose requests fit and whose keys are short writes past no buffer, if the metadata at the start has
short names. -/
theorem run_brief (F : Type) [Double F] (hw : Fresh n w) {cs : List Command} (hcs : ∀ com ∈ cs, com.Valid ∧ com.Brief)
    (hnames : ∀ e ∈ w.cluster.metaDb.db.entries, ∀ entry ∈ (ControlMeta.ofSlice e.2).toOption,
      Brief entry.min_str ∧ Brief entry.max_str) : (DistRocks.run F cs w).1 = .ok () := by
  obtain ⟨V, hsim, -, hempty⟩ := hw.sim
  have hV : V.Brief := by
    refine ⟨fun j e he => ?_, fun j s hs => ?_⟩
    · rw [hempty j] at he
      exact absurd he List.not_mem_nil
    · obtain ⟨db, hdb, hindex⟩ := hsim.shows.index
      have hread : ControlMeta.ofSlice (encSpan j s) = .ok ⟨s.1, s.2, j⟩ :=
        ControlMeta.ofSlice_encMeta (hsim.valid.placed.sound hs)
      refine hnames (s.1, encSpan j s) ?_ ⟨s.1, s.2, j⟩ (by rw [hread]; rfl)
      rw [hdb]
      exact (hindex _).mpr ⟨j, s, hs, rfl⟩
  rcases ((hsim.rest (Or.inl rfl)).run_brief F (fun _ ha => ha) hw.pos hV hcs).outcome with ⟨a, hok, -⟩ | ⟨-, -, hfalse⟩
  · exact hok
  · exact hfalse.elim

example : (DistRocks.run ℚ (twoPuts ++ [.del (text "a"), .get (text "b")]) twoStores).1 = .ok () :=
  run_brief ℚ twoStores_fresh (by decide +kernel) (by decide +kernel)

/-! ## A long key -/

/-- A request whose reply is too long. -/
theorem Sim.exchange_overrun (h : Sim n O σ answers w) {fd len : ℕ} {q : Request} {v : Value} (hfd : fd < n)
    (hother : ∀ c, q ≠ .other c) (hlen : q.message.length ≤ MAXLINE) (hmsg : w.sendBuff.bytes.take len = q.message)
    (hlog : ∀ r, q = .log r → (σ.view.node fd).pending = none ∧ ¬r.asRead.Strays (σ.view.node fd).data)
    (hv : (σ.view.node fd).answer q.asRead = some v)
    (hlong : MAXLINE < v.message.length) : DistRocks.exchange fd len w = (.error .overrun, w) := by
  have hfd' : fd < w.storeNodeCount := h.count.symm ▸ hfd
  rcases (h.shows.stores hfd).serve hother hlen hlog hv with ⟨hfit, -⟩ | ⟨-, herr⟩
  · exact absurd hlong hfit.not_gt
  · exact exchange_error hfd' hmsg herr

/-- The answer to the first `put` has its key twice. -/
theorem Fresh.put_overruns (F : Type) [Double F] (hw : Fresh n w) {key value : Bytes} (hkey : key ≠ []) (hnul : NulFree key)
    (hlen : (Request.log ⟨.put, key, value⟩).message.length ≤ MAXLINE) (hlong : MAXLINE < 17 + (key.length + key.length)) :
    (DistRocks.run F [.put key value] w).1 = .error .overrun := by
  obtain ⟨V, hsim, -, hempty⟩ := hw.sim
  suffices h : Ends (DistRocks.run F [.put key value]) w (fun _ _ => False) fun e _ => e = .overrun by
    rcases h.outcome with ⟨-, -, hfalse⟩ | ⟨e, he, rfl⟩
    · exact hfalse.elim
    · exact he
  rw [run_cons F (c := .put key value) ⟨hkey, hnul⟩]
  refine (hsim.mark (Or.inl rfl) (a := .command) trivial trivial).bind fun _ w₁ h₁ => ?_
  have h₁ : Sim n (.first V) ⟨.command, V, []⟩ [] w₁ := h₁.1
  have hV : Placed n V := h₁.valid.placed
  rw [ends_bind, Command.exec, ends_bind, DistRocks.putUpdate, assembleLog_eq]
  refine (h₁.assemble hlen).bind fun len w₂ h₂ => ?_
  obtain ⟨-, htake, h₂, -⟩ := h₂
  obtain ⟨it, i, s, hsearch, hat, hroute⟩ := h₂.routed hV hw.pos key
  have hi := hV.lt_of_span hroute.span
  rw [ends_run hsearch, ends_run (metaOf_eq hat (hV.sound hroute.span)), ends_run (fdOf_eq _ _ i)]
  have hdata : (Log.apply ⟨.put, key, cstr value⟩ (V.node i).data) = OrdMap.empty.insert key (cstr value) := by
    rw [hempty i]
    rfl
  have hans : (V.node i).answer (Request.log ⟨.put, key, value⟩).asRead = some (.vote OK key key) := by
    have hb := Log.bounds_eq (r := ⟨.put, key, cstr value⟩) (fun hk => by cases hk) hkey (.reliable (V.node i).data)
      fun e he => (hV.stored hi e he).1
    rw [Node.answer, Request.asRead, Log.asRead, hnul.cstr_eq, StoreData.answer, if_neg (fun hk => by cases hk),
      Node.storeData, hb]
    rw [show (DBHandle.reliable (V.node i).data).db = (V.node i).data from rfl, hdata]
    rfl
  have hlog : ∀ r, Request.log ⟨.put, key, value⟩ = .log r → (V.node i).pending = none ∧
      ¬r.asRead.Strays (V.node i).data := by
    rintro r ⟨⟩
    exact ⟨hV.quiet hi, fun hs => by cases hs.1⟩
  have hover := h₂.exchange_overrun hi (fun c hc => by cases hc) hlen htake hlog hans
    (by simp only [Value.message, List.length_append, length_encStr]; have hok : OK.length = 2 := by decide
        omega)
  rw [Ends, bind_run_error hover]

/-- A key of 20480 bytes. -/
def longKey : Bytes := List.replicate 20480 97

/-- The claim that a run whose requests fit writes past no buffer is false. -/
theorem long_key_overruns :
    ∃ cs : List Command, (∀ com ∈ cs, com.Valid ∧ com.request.message.length ≤ MAXLINE) ∧
      (DistRocks.run ℚ cs twoStores).1 = .error .overrun := by
  have hnul : NulFree longKey := fun h => by
    have := List.eq_of_mem_replicate h
    revert this
    decide
  have hlen : longKey.length = 20480 := List.length_replicate
  have hne : longKey ≠ [] := fun h => by
    rw [h] at hlen
    cases hlen
  have hfit : (Request.log ⟨.put, longKey, text "x"⟩).message.length ≤ MAXLINE := by
    simp only [Request.message, List.length_append, Log.length_encLog, length_encStr, hlen]
    decide
  refine ⟨[.put longKey (text "x")], fun com hc => ?_, twoStores_fresh.put_overruns ℚ hne hnul hfit ?_⟩
  · rw [List.mem_singleton.mp hc]
    exact ⟨⟨hne, hnul⟩, hfit⟩
  · rw [hlen]
    decide

end DistRocks
