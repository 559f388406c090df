import DistRocks.Cluster.Rounds
import DistRocks.Store.Bounds

/-!
# Rounds that a store refuses

* `Stands n nodes p m l w` : the stores of the world `w` hold the nodes with the records `p` in their logs, the metadata
  is `m`, and the answers `l` are still to come; it follows a round through any answers (`Stands.exchange_log`);
* `votes` : a round up to the answers to its two records; `migrate_eq` : what follows them, `ok` or not;
* `Stands.refused` : a round with an answer that is not `ok`;
* `RolledBack` : nothing is left of a round; `Attained` : the clusters of runs in which this held of the rounds refused;
* `migrate_refused_iff` : the metadata changes unless it held all announced bounds before; `migrate_half_refused` : a
  round in which it changes.
-/

namespace DistRocks

open ConstValues Proc

variable {n i fd len : ℕ} {pass : Pass} {nodes : ℕ → Node} {p : ℕ → Option Log} {m : OrdMap Bytes Bytes}
  {l : List (Option Refusal)} {w : World} {q : Request} {v : Value}

/-- The first `n` stores hold the nodes with the records `p` in their logs. -/
structure Stands (n : ℕ) (nodes : ℕ → Node) (p : ℕ → Option Log) (m : OrdMap Bytes Bytes) (l : List (Option Refusal))
    (w : World) : Prop where
  count : w.storeNodeCount = n
  refusals : w.refusals = l
  stores : ∀ j < n, (w.cluster.stores j).Reflects { nodes j with pending := p j }
  metaDb : w.cluster.metaDb = .reliable m

namespace Stands

theorem served (h : Stands n nodes p m l w) {st : StoreImpl} {r : Option Log} {msg reply : Bytes}
    (hst : st.Reflects { nodes fd with pending := r }) :
    Stands n nodes (Function.update p fd r) m l.tail (w.exchanged fd msg st reply) := by
  refine ⟨h.count, by rw [← h.refusals]; rfl, fun j hj => ?_, h.metaDb⟩
  by_cases hjf : j = fd
  · subst hjf
    simpa [World.exchanged] using hst
  · simpa [World.exchanged, hjf] using h.stores j hj

theorem assemble (h : Stands n nodes p m l w) {msg : Bytes} {H : Fault → World → Prop}
    (hover : MAXLINE < msg.length → H .overrun w) :
    Ends (DistRocks.assemble msg) w
      (fun len w' => w'.sendBuff.bytes.take len = msg ∧ msg.length ≤ MAXLINE ∧ Stands n nodes p m l w') H :=
  ends_assemble msg (fun _ hlen htake => ⟨htake, hlen, h.count, h.refusals, h.stores, h.metaDb⟩) hover

/-- A request that is answered as the store's code does. -/
theorem exchange (h : Stands n nodes p m l w) {r : Option Log} {H : Fault → World → Prop} (hfd : fd < n)
    (hl : ∀ r, l.head? ≠ some (some r)) (hother : ∀ c, q ≠ .other c) (hlen : q.message.length ≤ MAXLINE)
    (hmsg : w.sendBuff.bytes.take len = q.message) (hlog : ∀ r, q = .log r → p fd = none ∧ ¬r.asRead.Strays (nodes fd).data)
    (hv : (nodes fd).answer q.asRead = some v)
    (hnext : Node.next { nodes fd with pending := p fd } q.asRead = { nodes fd with pending := r })
    (hover : MAXLINE < v.message.length → H .overrun w) :
    Ends (DistRocks.exchange fd len) w
      (fun _ w' => Stands n nodes (Function.update p fd r) m l.tail w' ∧ w'.Got v ∧ w'.sendBuff = w.sendBuff) H := by
  have hfd' : fd < w.storeNodeCount := h.count.symm ▸ hfd
  rcases (h.stores fd hfd).serve hother hlen hlog hv with ⟨hfit, st, hserve, hst⟩ | ⟨hlong, herr⟩
  · exact Ends.of_run (exchange_eq hfd' (h.refusals.symm ▸ hl) hmsg hserve)
      ⟨h.served (hnext ▸ hst), ⟨hfit, bytes_exchanged w fd q.message st hfit⟩, rfl⟩
  · rw [Ends, exchange_error hfd' hmsg herr]
    exact hover hlong

/-- A record that is answered in any way: it is in the log, or the log is as it was. -/
theorem exchange_log (h : Stands n nodes p m l w) {r : Log} (hfd : fd < n) (hkind : r.kind ≠ .error)
    (hkey : r.asRead.key ≠ [])
    (hlen : (Request.log r).message.length ≤ MAXLINE) (hmsg : w.sendBuff.bytes.take len = (Request.log r).message)
    (hnone : p fd = none) :
    Ends (DistRocks.exchange fd len) w (fun _ w' => ∃ r', Stands n nodes (Function.update p fd r') m l.tail w')
      (fun e _ => e = .overrun) := by
  have hfd' : fd < w.storeNodeCount := h.count.symm ▸ hfd
  have hkind' : r.asRead.kind ≠ .error := hkind
  have hother : ∀ c, Request.log r ≠ .other c := fun c hc => by cases hc
  have hnext : Node.next { nodes fd with pending := p fd } (Request.log r).asRead =
      { nodes fd with pending := some r.asRead.recorded } := by
    rw [Request.asRead, Node.next, if_neg hkind']
  obtain ⟨v, hv⟩ : ∃ v, (nodes fd).answer (Request.log r).asRead = some v := by
    rw [Request.asRead, Node.answer, StoreData.answer, if_neg hkind']
    exact ⟨_, rfl⟩
  have hlog : ∀ r', Request.log r = .log r' → p fd = none ∧ ¬r'.asRead.Strays (nodes fd).data := by
    rintro r' ⟨⟩
    exact ⟨hnone, Log.not_strays hkey _⟩
  rcases (h.stores fd hfd).serve hother hlen hlog hv with ⟨-, st, hserve, hst⟩ | ⟨-, herr⟩
  · by_cases hhead : ∃ refusal, w.refusals.head? = some (some refusal)
    · obtain ⟨refusal, hhead⟩ := hhead
      refine Ends.of_run (exchange_refused hfd' hhead hmsg hserve) ?_
      split_ifs
      · exact ⟨_, h.served (hnext ▸ hst)⟩
      · exact ⟨p fd, h.served (h.stores fd hfd)⟩
    · have hcode : ∀ refusal, w.refusals.head? ≠ some (some refusal) := fun refusal heq => hhead ⟨refusal, heq⟩
      exact Ends.of_run (exchange_eq hfd' hcode hmsg hserve) ⟨_, h.served (hnext ▸ hst)⟩
  · rw [Ends, exchange_error hfd' hmsg herr]

/-! ## Up to the votes -/

theorem pick (h : Stands n nodes p m (none :: l) w) {k v : Bytes} {H : Fault → World → Prop} (hi : i < n)
    (hpick : pass.extreme? (nodes i).data = some (k, v)) (hkv : (Log.mk .put k v).Carried) :
    Ends (pass.pick i) w (fun e w' => e = (k, v) ∧ Stands n nodes p m l w') H := by
  have hlen : pass.question.message.length ≤ MAXLINE := by cases pass <;> decide
  have hreads : pass.question.asRead.Reads := by cases pass <;> trivial
  have hother : ∀ c, pass.question ≠ .other c := by cases pass <;> exact fun c hc => by cases hc
  have hlog : ∀ r, pass.question ≠ .log r := by cases pass <;> exact fun r hr => by cases hr
  rw [Pass.pick_eq, call, bind_assoc]
  refine (h.assemble fun hover => absurd hlen hover.not_ge).bind fun len w₁ h₁ => ?_
  obtain ⟨htake, -, h₁⟩ := h₁
  refine (h₁.exchange hi (by simp) hother hlen htake (fun r hr => absurd hr (hlog r))
    ((nodes i).answer_question hpick) (Node.next_of_reads hreads _) fun hover => absurd hkv.pair_fits hover.not_ge).bind
    fun _ w₂ h₂ => ?_
  obtain ⟨h₂, hgot, -⟩ := h₂
  rw [Function.update_eq_self] at h₂
  exact Ends.of_run (hgot.pair hkv.nulFree.key hkv.nulFree.value) ⟨rfl, h₂⟩

end Stands

/-- Whatever a store answers, the bounds that are read of it have no NUL. -/
theorem ends_receivedVote : Ends receivedVote w (fun vote w' => w' = w ∧ NulFree vote.2.1 ∧ NulFree vote.2.2)
    fun _ _ => True := by
  simp only [receivedVote, receivedStr, ends_bind, ends_get]
  cases getStringFromBuff w.receiveBuff.bytes with
  | error => trivial
  | ok ans =>
      simp only [ends_lift_ok]
      cases hlo : getStringFromBuff ans.2 with
      | error => trivial
      | ok lo =>
          simp only [ends_lift_ok]
          cases hhi : getStringFromBuff lo.2 with
          | error => trivial
          | ok hi => exact ⟨rfl, getString_nulFree hlo, getString_nulFree hhi⟩

namespace Stands

theorem requestLog (h : Stands n nodes p m l w) {r : Log} (hfd : fd < n) (hkind : r.kind ≠ .error)
    (hkey : r.asRead.key ≠ []) (hnone : p fd = none) :
    Ends (DistRocks.requestLog fd r) w
      (fun vote w' => (∃ r', Stands n nodes (Function.update p fd r') m l.tail w') ∧
        NulFree vote.2.1 ∧ NulFree vote.2.2) (fun _ _ => True) := by
  rw [requestLog_eq, call, bind_assoc]
  refine (h.assemble fun _ => trivial).bind fun len w₁ h₁ => ?_
  obtain ⟨htake, hlen, h₁⟩ := h₁
  have hlogged := h₁.exchange_log hfd hkind hkey hlen htake hnone
  refine (hlogged.mono (fun _ _ hq => hq) fun _ _ _ => trivial).bind fun _ w₂ h₂ => ?_
  refine ends_receivedVote.mono (fun vote w₃ h₃ => ?_) fun _ _ he => he
  obtain ⟨rfl, hnul⟩ := h₃
  exact ⟨h₂, hnul⟩

end Stands

/-- A round up to the answers to its records: the key that it moves, and what the source and the target answer. -/
def votes (pass : Pass) (i : ℕ) : M (Bytes × (Bytes × Bytes × Bytes) × (Bytes × Bytes × Bytes)) := do
  let (key, value) ← pass.pick i
  let vote₁ ← requestLog i { kind := .delete, key }
  let vote₂ ← requestLog (pass.peer i) { kind := .put, key, value }
  return (key, vote₁, vote₂)

theorem migrate_eq (pass : Pass) (i : ℕ) : migrate pass i = (do
    let (key, vote₁, vote₂) ← votes pass i
    if ¬(vote₁.1 = OK ∧ vote₂.1 = OK) then rollback i (pass.peer i)
    moveMeta pass key vote₁.2 vote₂.2
    commitBoth i (pass.peer i)) := by
  simp only [migrate, votes, bind_assoc, pure_bind]

namespace Stands

/-- After the answers the logs of the two nodes hold anything that is or is not recorded. -/
theorem votes (h : Stands n nodes (fun _ => none) m (none :: l) w) {k v : Bytes} (hadj : pass.Adjacent n i)
    (hpick : pass.extreme? (nodes i).data = some (k, v)) (hkey : k ≠ []) (hkv : (Log.mk .put k v).Carried) :
    Ends (DistRocks.votes pass i) w (fun a w' => a.1 = k ∧
        (∃ r r', Stands n nodes (Function.update (Function.update (fun _ => none) i r) (pass.peer i) r') m
          l.tail.tail w') ∧
        (NulFree a.2.1.2.1 ∧ NulFree a.2.1.2.2) ∧ NulFree a.2.2.2.1 ∧ NulFree a.2.2.2.2) (fun _ _ => True) := by
  rw [DistRocks.votes]
  refine (h.pick hadj.lt hpick hkv).bind fun e w₁ h₁ => ?_
  obtain ⟨rfl, h₁⟩ := h₁
  have hread : ∀ kind value, (Log.mk kind k value).asRead.key ≠ [] := fun _ _ => by
    rwa [Log.asRead, hkv.nulFree.key.cstr_eq]
  refine (h₁.requestLog hadj.lt (fun hk => by cases hk) (hread _ _) rfl).bind fun vote₁ w₂ h₂ => ?_
  obtain ⟨⟨r, h₂⟩, hnul₁⟩ := h₂
  have hnone : Function.update (fun _ => none) i r (pass.peer i) = none := by simp [hadj.peer_ne]
  refine (h₂.requestLog hadj.peer_lt (fun hk => by cases hk) (hread _ _) hnone).bind fun vote₂ w₃ h₃ => ?_
  obtain ⟨⟨r', h₃⟩, hnul₂⟩ := h₃
  rw [ends_pure]
  exact ⟨rfl, ⟨r, r', h₃⟩, hnul₁, hnul₂⟩

/-! ## Behind the votes -/

theorem rollback (h : Stands n nodes p m [] w) {j : ℕ} {H : Fault → World → Prop} (hi : i < n) (hj : j < n) :
    Ends (DistRocks.rollback i j) w
      (fun _ w' => Stands n nodes (Function.update (Function.update p i none) j none) m [] w') H := by
  have hlen : Request.delLog.message.length ≤ MAXLINE := by decide
  have hfit : (Value.str OK).message.length ≤ MAXLINE := by decide
  have hother : ∀ c, Request.delLog ≠ .other c := fun c hc => by cases hc
  rw [DistRocks.rollback, assembleStrs_eq, List.flatMap_singleton]
  refine (h.assemble fun hover => absurd hlen hover.not_ge).bind fun len w₁ h₁ => ?_
  obtain ⟨htake, -, h₁⟩ := h₁
  refine (h₁.exchange (q := .delLog) (v := .str OK) hi (by simp) hother hlen htake (fun r hr => by cases hr) rfl rfl
    fun hover => absurd hfit hover.not_ge).bind fun _ w₂ h₂ => ?_
  obtain ⟨h₂, -, hsend⟩ := h₂
  exact (h₂.exchange (q := .delLog) (v := .str OK) hj (by simp) hother hlen (by rw [hsend]; exact htake)
    (fun r hr => by cases hr) rfl rfl fun hover => absurd hfit hover.not_ge).mono (fun _ _ h₃ => h₃.1) fun _ _ he => he

theorem metaDelete (h : Stands n nodes p m l w) (key : Bytes) {H : Fault → World → Prop} :
    Ends (DistRocks.metaDelete key) w (fun _ w' => Stands n nodes p (m.erase key) l w') H := by
  refine Ends.of_run rfl ⟨h.count, h.refusals, h.stores, ?_⟩
  show w.cluster.metaDb.delete1 key = _
  rw [h.metaDb]
  rfl

theorem metaPut (h : Stands n nodes p m l w) (key value : Bytes) {H : Fault → World → Prop} :
    Ends (DistRocks.metaPut key value) w (fun _ w' => Stands n nodes p (m.insert key value) l w') H := by
  refine Ends.of_run rfl ⟨h.count, h.refusals, h.stores, ?_⟩
  show w.cluster.metaDb.put key value = _
  rw [h.metaDb]
  rfl

theorem rewriteMeta (h : Stands n nodes p m l w) {it : Iterator} {e : Bytes × Bytes} (hat : it.current = some e)
    (c : ControlMeta) : Ends (DistRocks.rewriteMeta it c) w
      (fun _ w' => Stands n nodes p ((m.erase e.1).insert c.min_str (encMeta c)) l w' ∧ (encMeta c).length ≤ MAXLINE)
      (fun e _ => e = .overrun) := by
  rw [DistRocks.rewriteMeta, ends_run (entryOf_eq hat)]
  refine (h.metaDelete e.1).bind fun _ w₁ h₁ => ?_
  rw [ends_bind, ends_get]
  refine ends_toSlice (fun b hlen htake => ?_) fun _ => rfl
  have h₂ : Stands n nodes p (m.erase e.1) l { w₁ with receiveBuff := b } :=
    ⟨h₁.count, h₁.refusals, h₁.stores, h₁.metaDb⟩
  rw [ends_bind, ends_modify]
  simp only [htake]
  exact (h₂.metaPut _ _).mono (fun _ _ h₃ => ⟨h₃, hlen⟩) fun _ _ he => he

/-- The two entries of a round, refiled under what was announced. -/
theorem moveMeta (h : Stands n nodes p m l w) {T : Spans Bytes} (hindex : Spans.Indexes encSpan m T)
    (hadj : pass.Adjacent n i) {s t : Bytes × Bytes} (hs : T.span i = some s) (ht : T.span (pass.peer i) = some t)
    (hsound : ∀ {j u}, T.span j = some u → (ControlMeta.mk u.1 u.2 j).Sound) {k : Bytes} (hk : s.1 ≤ k ∧ k ≤ s.2)
    (b₁ b₂ : Bytes × Bytes) {c₁ c₂ : ControlMeta} (hc₁ : (ControlMeta.mk s.1 s.2 i).withBounds b₁.1 b₁.2 = c₁)
    (hc₂ : (ControlMeta.mk t.1 t.2 (pass.peer i : ℕ)).withBounds b₂.1 b₂.2 = c₂) :
    Ends (DistRocks.moveMeta pass k b₁ b₂) w (fun _ w' =>
        Stands n nodes p
          ((((m.erase s.1).insert c₁.min_str (encMeta c₁)).erase t.1).insert c₂.min_str (encMeta c₂)) l w' ∧
          (encMeta c₁).length ≤ MAXLINE ∧ (encMeta c₂).length ≤ MAXLINE)
      (fun e _ => e = .overrun) := by
  obtain ⟨it, hsearch, hsnap, hcur⟩ : ∃ it, DistRocks.searchMeta k w = (.ok it, w) ∧ it.snapshot = m ∧
      it.current = m.locate k := by
    refine ⟨_, rfl, ?_, ?_⟩
    · rw [DBHandle.search_snapshot, h.metaDb]
      rfl
    · rw [DBHandle.search_current, h.metaDb]
      rfl
  have hat := hcur.trans (hindex.locate_of_mem hs hk.1 hk.2)
  have hnext := Pass.advance_current (hsnap ▸ hindex) hadj hs ht hat
  rw [DistRocks.moveMeta, ends_run hsearch, ends_run (metaOf_eq hat (hsound hs)), hc₁]
  refine (h.rewriteMeta hat c₁).bind fun _ w₁ h₁ => ?_
  rw [ends_run (metaOf_eq hnext (hsound ht)), hc₂]
  exact (h₁.1.rewriteMeta hnext c₂).mono (fun _ w₂ h₂ => ⟨h₂.1, h₁.2, h₂.2⟩) fun _ _ he => he

/-- Commits to empty logs. -/
theorem commitBoth (h : Stands n nodes p m [] w) {j : ℕ} {H : Fault → World → Prop} (hi : i < n) (hj : j < n)
    (hpi : p i = none) (hpj : p j = none) :
    Ends (DistRocks.commitBoth i j) w (fun on w' => on = true ∧ Stands n nodes p m [] w') H := by
  have hlen : Request.commitLog.message.length ≤ MAXLINE := by decide
  have hfit : (Value.str OK).message.length ≤ MAXLINE := by decide
  have hother : ∀ c, Request.commitLog ≠ .other c := fun c hc => by cases hc
  have hnext : ∀ {fd}, p fd = none →
      Node.next { nodes fd with pending := p fd } Request.commitLog.asRead = { nodes fd with pending := p fd } :=
    fun hnone => by simp [Request.asRead, Node.next, Node.commit, hnone]
  rw [DistRocks.commitBoth, assembleStrs_eq, List.flatMap_singleton]
  refine (h.assemble fun hover => absurd hlen hover.not_ge).bind fun len w₁ h₁ => ?_
  obtain ⟨htake, -, h₁⟩ := h₁
  refine (h₁.exchange (q := .commitLog) (v := .str OK) hi (by simp) hother hlen htake (fun r hr => by cases hr) rfl
    (hnext hpi) fun hover => absurd hfit hover.not_ge).bind fun _ w₂ h₂ => ?_
  obtain ⟨h₂, hgot, hsend⟩ := h₂
  rw [Function.update_eq_self] at h₂
  obtain ⟨rest, hans⟩ := hgot.str (by decide)
  rw [ends_run hans]
  simp only [ne_eq, not_true_eq_false, if_false]
  refine (h₂.exchange (q := .commitLog) (v := .str OK) hj (by simp) hother hlen (by rw [hsend]; exact htake)
    (fun r hr => by cases hr) rfl (hnext hpj) fun hover => absurd hfit hover.not_ge).bind fun _ w₃ h₃ => ?_
  obtain ⟨h₃, hgot, -⟩ := h₃
  rw [Function.update_eq_self] at h₃
  obtain ⟨rest, hans⟩ := hgot.str (by decide)
  rw [ends_run hans, ends_pure]
  exact ⟨decide_eq_true rfl, h₃⟩

end Stands

/-! ## A refused round -/

theorem encSpan_inj {j k : ℕ} {s t : Bytes × Bytes} (hs : (ControlMeta.mk s.1 s.2 j).Sound)
    (ht : (ControlMeta.mk t.1 t.2 k).Sound) (h : encSpan j s = encSpan k t) : j = k ∧ s = t := by
  have hread := ControlMeta.ofSlice_encMeta hs
  rw [encSpan, encSpan] at h
  rw [h, ControlMeta.ofSlice_encMeta ht] at hread
  have heq := Except.ok.inj hread
  simp only [ControlMeta.mk.injEq, Nat.cast_inj] at heq
  exact ⟨heq.2.2.symm, Prod.ext heq.1.symm heq.2.1.symm⟩

namespace ControlMeta

variable {c : ControlMeta} {lo hi : Bytes}

@[simp] theorem virtual_fd_withBounds : (c.withBounds lo hi).virtual_fd = c.virtual_fd := by
  rw [withBounds]
  split_ifs <;> rfl

theorem Sound.withBounds (h : c.Sound) (hlo : NulFree lo) (hhi : NulFree hi)
    (hfit : (encMeta (c.withBounds lo hi)).length ≤ MAXLINE) : (c.withBounds lo hi).Sound := by
  refine ⟨?_, ?_, hfit, by rw [virtual_fd_withBounds]; exact h.virtual_fd⟩
  · rw [ControlMeta.withBounds]
    split_ifs <;> first | exact hlo | exact h.min_str
  · rw [ControlMeta.withBounds]
    split_ifs <;> first | exact hhi | exact h.max_str

end ControlMeta

/-- Two entries refiled leave the metadata as it is only if each is filed as it was. -/
theorem refileMeta_eq_iff {T : Spans Bytes} (hindex : Spans.Indexes encSpan m T) {i j : ℕ} (hne : i ≠ j)
    {s t : Bytes × Bytes} (hs : T.span i = some s) (ht : T.span j = some t)
    (hsound : ∀ {l u}, T.span l = some u → (ControlMeta.mk u.1 u.2 l).Sound) {c₁ c₂ : ControlMeta} (h₁ : c₁.Sound)
    (h₂ : c₂.Sound) (hfd₁ : c₁.virtual_fd = i) (hfd₂ : c₂.virtual_fd = j) :
    (((m.erase s.1).insert c₁.min_str (encMeta c₁)).erase t.1).insert c₂.min_str (encMeta c₂) = m ↔
      c₁ = ⟨s.1, s.2, i⟩ ∧ c₂ = ⟨t.1, t.2, j⟩ := by
  obtain ⟨lo₁, hi₁, fd₁⟩ := c₁
  obtain ⟨lo₂, hi₂, fd₂⟩ := c₂
  obtain rfl : fd₁ = i := hfd₁
  obtain rfl : fd₂ = j := hfd₂
  have hrefile : (((m.erase s.1).insert lo₁ (encSpan i (lo₁, hi₁))).erase t.1).insert lo₂ (encSpan j (lo₂, hi₂)) = m ↔
      (lo₁, hi₁) = s ∧ (lo₂, hi₂) = t :=
    hindex.refile_eq_iff hs ht hne (lo₁, hi₁) (lo₂, hi₂) (fun hl he => encSpan_inj (hsound hl) h₁ he)
      fun hl he => encSpan_inj (hsound hl) h₂ he
  refine hrefile.trans (and_congr ?_ ?_)
  · simp [Prod.ext_iff]
  · simp [Prod.ext_iff]

/-- A round with an answer that is not `ok`: the logs are emptied, nothing is committed, and the metadata is as before
exactly if all the bounds that came with the answers stand in it already. -/
theorem Stands.refused {a₁ a₂ : Option Refusal} (h : Stands n nodes (fun _ => none) m [none, a₁, a₂] w)
    {T : Spans Bytes} (hindex : Spans.Indexes encSpan m T) (hadj : pass.Adjacent n i) {s t : Bytes × Bytes}
    (hs : T.span i = some s) (ht : T.span (pass.peer i) = some t)
    (hsound : ∀ {j u}, T.span j = some u → (ControlMeta.mk u.1 u.2 j).Sound)
    {k v : Bytes} (hk : s.1 ≤ k ∧ k ≤ s.2) (hpick : pass.extreme? (nodes i).data = some (k, v)) (hk₀ : k ≠ [])
    (hkv : (Log.mk .put k v).Carried) {key ans₁ ans₂ : Bytes} {b₁ b₂ : Bytes × Bytes}
    (hvotes : (DistRocks.votes pass i w).1 = .ok (key, (ans₁, b₁), (ans₂, b₂))) (hno : ¬(ans₁ = OK ∧ ans₂ = OK)) :
    Ends (migrate pass i) w (fun on w' => on = true ∧ ∃ m', Stands n nodes (fun _ => none) m' [] w' ∧
        (m' = m ↔ (ControlMeta.mk s.1 s.2 i).withBounds b₁.1 b₁.2 = ⟨s.1, s.2, i⟩ ∧
          (ControlMeta.mk t.1 t.2 (pass.peer i : ℕ)).withBounds b₂.1 b₂.2 = ⟨t.1, t.2, (pass.peer i : ℕ)⟩))
      (fun e _ => e = .overrun) := by
  have hrun : DistRocks.votes pass i w = (.ok (key, (ans₁, b₁), (ans₂, b₂)), (DistRocks.votes pass i w).2) :=
    Prod.ext hvotes rfl
  obtain ⟨hkey, ⟨r, r', h₁⟩, hnul₁, hnul₂⟩ := (h.votes hadj hpick hk₀ hkv).of_eq hrun
  obtain rfl : key = k := hkey
  rw [migrate_eq, ends_run hrun]
  simp only [hno, not_false_eq_true, if_true]
  refine (h₁.rollback hadj.lt hadj.peer_lt).bind fun _ w₂ h₂ => ?_
  -- whatever was recorded is gone
  have hempty : Function.update (Function.update (Function.update (Function.update (fun _ => (none : Option Log)) i r)
      (pass.peer i) r') i none) (pass.peer i) none = fun _ => none := by
    funext j
    simp only [Function.update_apply]
    split_ifs <;> rfl
  rw [hempty] at h₂
  refine (h₂.moveMeta hindex hadj hs ht hsound hk b₁ b₂ rfl rfl).bind fun _ w₃ h₃ => ?_
  obtain ⟨h₃, hfit₁, hfit₂⟩ := h₃
  refine (h₃.commitBoth hadj.lt hadj.peer_lt rfl rfl).mono (fun on w₄ h₄ => ⟨h₄.1, _, h₄.2, ?_⟩) fun _ _ he => he
  have hsound₁ := (hsound hs).withBounds hnul₁.1 hnul₁.2 hfit₁
  have hsound₂ := (hsound ht).withBounds hnul₂.1 hnul₂.2 hfit₂
  exact refileMeta_eq_iff hindex hadj.peer_ne.symm hs ht hsound hsound₁ hsound₂ ControlMeta.virtual_fd_withBounds
    ControlMeta.virtual_fd_withBounds

/-! ## Where rounds are refused -/

/-- Nothing is left of a round: the metadata and the data are as before, and the logs are empty. -/
structure RolledBack (n : ℕ) (c c' : Cluster) : Prop where
  metaDb : c'.metaDb = c.metaDb
  data : ∀ j < n, (c'.stores j).storeData = (c.stores j).storeData
  logs : ∀ j < n, (c'.stores j).storeLog.dbHandle = .reliable .empty

/-- The clusters of runs in which stores may refuse records, as long as nothing was left of the rounds refused so far: a
prompt or any other mark of a run without refusals, and what updates, rounds and refused rounds make of it. -/
inductive Attained (F : Type) [Double F] (n : ℕ) : Cluster → Prop
  | prompt {w₀ : World} {cs : List Command} (hw : Fresh n w₀) (hcs : ∀ c ∈ cs, c.Valid)
      (hok : (DistRocks.run F cs w₀).1 = .ok ()) : Attained F n (DistRocks.run F cs w₀).2.cluster
  | mark {w₀ : World} {cs : List Command} {e : Event} (hw : Fresh n w₀) (hcs : ∀ c ∈ cs, c.Valid)
      (he : e ∈ (DistRocks.run F cs w₀).2.history) (hmark : e.act.IsMark) : Attained F n e.after
  | update {w : World} {c : Command} (h : Attained F n w.cluster) (hcount : w.storeNodeCount = n)
      (href : w.refusals = []) (hc : c.Valid) (hok : (c.update w).1 = .ok ()) : Attained F n (c.update w).2.cluster
  | round {w : World} {pass : Pass} {i : ℕ} (h : Attained F n w.cluster) (hcount : w.storeNodeCount = n)
      (href : w.refusals = []) (hadj : pass.Adjacent n i) (htwo : 2 ≤ (w.cluster.pairs i).length)
      (hok : (migrate pass i w).1 = .ok true) : Attained F n (migrate pass i w).2.cluster
  | refused {c c' : Cluster} (h : Attained F n c) (hc : RolledBack n c c') : Attained F n c'

/-- A world that shows placed nodes, looked at from now on. -/
theorem Sim.of_shows {V : View} (hV : Placed n V) (h : Shows n w.cluster V) (hcount : w.storeNodeCount = n)
    (href : w.refusals = []) (mark : Act) :
    Sim n ⟨⟨mark, V, []⟩, w.history, fun _ => True⟩ ⟨mark, V, []⟩ w.answers w :=
  ⟨hcount, href, rfl, h, [], rfl, .start ⟨hV, fun _ hc => absurd hc List.not_mem_nil, Or.inl rfl⟩⟩

theorem RolledBack.shows {c c' : Cluster} {V : View} (h : RolledBack n c c') (hV : Placed n V) (hc : Shows n c V) :
    Shows n c' V := by
  obtain ⟨m, hm, hindex⟩ := hc.index
  refine ⟨fun {j} hj => ⟨(h.data j hj).trans (hc.stores hj).data, ?_, (hc.stores hj).storable⟩, m, h.metaDb.trans hm,
    hindex⟩
  rw [h.logs j hj, hV.quiet hj]
  rfl

theorem Attained.shows {F : Type} [Double F] {c : Cluster} (h : Attained F n c) :
    0 < n ∧ ∃ V, Placed n V ∧ Shows n c V := by
  induction h with
  | prompt hw hcs hok =>
      obtain ⟨V₀, V, answers, hsim⟩ := hw.prompt F hcs hok
      exact ⟨hw.pos, V, hsim.valid.placed, hsim.shows⟩
  | mark hw hcs he hmark =>
      obtain ⟨-, V, σ, answers, hsim⟩ := hw.traced F hcs
      obtain ⟨new, hnew, ht⟩ := hsim.traced
      rw [hnew, Origin.first, List.append_nil] at he
      obtain ⟨V', hV', -, hshows⟩ := ht.placed_of_mark he hmark
      exact ⟨hw.pos, V', hV', hshows⟩
  | @update w c _ hcount href hc hok ih =>
      obtain ⟨hn, V, hV, hshows⟩ := ih
      refine ⟨hn, ?_⟩
      have hsim := Sim.of_shows hV hshows hcount href .command
      cases hr : c.record with
      | none =>
          have hsame : (c.update w).2 = w := by cases c <;> first | rfl | cases hr
          refine ⟨V, hV, ?_⟩
          rw [hsame]
          exact hshows
      | some r =>
          obtain ⟨i, s, -, hp, hsim'⟩ := (hsim.update hn hc hr).of_eq (Prod.ext hok rfl)
          exact ⟨_, hsim'.valid.placed_view (Or.inr hp), hsim'.shows⟩
  | @round w pass i _ hcount href hadj htwo hok ih =>
      obtain ⟨hn, V, hV, hshows⟩ := ih
      refine ⟨hn, ?_⟩
      obtain ⟨k, v, hmove⟩ := hadj.exists_movable (hshows.pairs hadj.lt ▸ htwo)
      have hsim := Sim.of_shows hV hshows hcount href (.iteration pass i)
      obtain ⟨-, hsim'⟩ := (hsim.migrate hmove).of_eq (Prod.ext hok rfl)
      exact ⟨_, hsim'.valid.placed_view (Or.inr (.move hmove)), hsim'.shows⟩
  | refused _ hc ih =>
      obtain ⟨hn, V, hV, hshows⟩ := ih
      exact ⟨hn, V, hV, hc.shows hV hshows⟩

/-! ## All or nothing -/

/-- In a round with an answer that is not `ok` the data and the emptied logs of all stores are as they should be, and
nothing is left of the round exactly if every bound that came with the answers is empty or stands in the metadata
already. -/
theorem migrate_refused_iff (F : Type) [Double F] {a₁ a₂ : Option Refusal} (hc : Attained F n w.cluster)
    (hcount : w.storeNodeCount = n) (href : w.refusals = [none, a₁, a₂]) (hadj : pass.Adjacent n i)
    (htwo : 2 ≤ (w.cluster.pairs i).length) {key ans₁ ans₂ : Bytes} {b₁ b₂ : Bytes × Bytes}
    (hvotes : (votes pass i w).1 = .ok (key, (ans₁, b₁), (ans₂, b₂))) (hno : ¬(ans₁ = OK ∧ ans₂ = OK))
    (hfit : (migrate pass i w).1 ≠ .error .overrun) :
    (migrate pass i w).1 = .ok true ∧
      (∀ j < n, ((migrate pass i w).2.cluster.stores j).storeData = (w.cluster.stores j).storeData ∧
        ((migrate pass i w).2.cluster.stores j).storeLog.dbHandle = .reliable .empty) ∧
      ∃ records, Arranged n w.cluster records ∧ (RolledBack n w.cluster (migrate pass i w).2.cluster ↔
        (records i).withBounds b₁.1 b₁.2 = records i ∧
          (records (pass.peer i)).withBounds b₂.1 b₂.2 = records (pass.peer i)) := by
  obtain ⟨-, V, hV, hshows⟩ := hc.shows
  obtain ⟨m, hm, hindex⟩ := hshows.index
  obtain ⟨f, hf⟩ := hV.exists_spans
  obtain ⟨k, v, hmove⟩ := hadj.exists_movable (hshows.pairs hadj.lt ▸ htwo)
  have hstands : Stands n V.node (fun _ => none) m [none, a₁, a₂] w := by
    refine ⟨hcount, href, fun j hj => ?_, hm⟩
    rw [show ({ V.node j with pending := none } : Node) = V.node j by rw [← hV.quiet hj]]
    exact hshows.stores hj
  have hends := hstands.refused hindex hadj (hf i hadj.lt) (hf _ hadj.peer_lt) hV.sound
    (hV.within (hf i hadj.lt) _ hmove.mem) hmove.picked (hV.stored hadj.lt _ hmove.mem).1
    (hV.stored hadj.lt _ hmove.mem).2 hvotes hno
  rcases hends.outcome with ⟨on, hok, rfl, m', h', hiff⟩ | ⟨e, herr, rfl⟩
  · have hstores : ∀ j < n, ((migrate pass i w).2.cluster.stores j).storeData = (w.cluster.stores j).storeData ∧
        ((migrate pass i w).2.cluster.stores j).storeLog.dbHandle = .reliable .empty := fun j hj =>
      ⟨(h'.stores j hj).data.trans (hshows.stores hj).data.symm, (h'.stores j hj).log⟩
    refine ⟨hok, hstores, _, (hV.ordered_of hshows hf).toArranged, Iff.trans ?_ hiff⟩
    constructor
    · intro hback
      have hmeta := hback.metaDb
      rw [h'.metaDb, hm] at hmeta
      exact congrArg DBHandle.db hmeta
    · rintro rfl
      exact ⟨h'.metaDb.trans hm.symm, fun j hj => (hstores j hj).1, fun j hj => (hstores j hj).2⟩
  · exact absurd herr hfit

/-! ## A round that one store refuses -/

/-- A world in which the next answers are `l`. -/
def World.refusing (w : World) (l : List (Option Refusal)) : World := { w with refusals := l }

@[simp] theorem World.cluster_refusing (w : World) (l : List (Option Refusal)) :
    (w.refusing l).cluster = w.cluster := rfl

@[simp] theorem World.refusals_refusing (w : World) (l : List (Option Refusal)) : (w.refusing l).refusals = l := rfl

def firstPut : List Command := [.put (text "a") (text "x")]

theorem run_firstPut : (DistRocks.run ℚ firstPut twoStores).1 = .ok () := by decide +kernel

theorem update_second :
    ((Command.put (text "b") (text "y")).update (DistRocks.run ℚ firstPut twoStores).2).1 = .ok () := by
  decide +kernel

/-- Two keys in node 1, behind the update of the second `put`. -/
def twoKeys : World := ((Command.put (text "b") (text "y")).update (DistRocks.run ℚ firstPut twoStores).2).2

theorem attained_twoKeys : Attained ℚ 2 twoKeys.cluster := by
  have hfirst : Attained ℚ 2 (DistRocks.run ℚ firstPut twoStores).2.cluster :=
    .prompt twoStores_fresh (by decide) run_firstPut
  have hvalid : (Command.put (text "b") (text "y")).Valid := by decide
  obtain ⟨V₀, V, answers, hsim⟩ := twoStores_fresh.prompt ℚ (show ∀ c ∈ firstPut, c.Valid by decide) run_firstPut
  have hsecond := Attained.update hfirst hsim.count hsim.refusals hvalid update_second
  rw [twoKeys]
  exact hsecond

/-- The source refuses the record and does not keep it, the target answers as its code does. -/
def halfRefused : World :=
  twoKeys.refusing [none, some ⟨false, (Value.vote (text "no") [] []).message⟩, none]

theorem attained_halfRefused : Attained ℚ 2 halfRefused.cluster := by
  rw [halfRefused, World.cluster_refusing]
  exact attained_twoKeys

theorem votes_halfRefused :
    (votes .backward 1 halfRefused).1 = .ok (text "a", (text "no", [], []), (OK, text "a", text "a")) := by
  decide +kernel

theorem migrate_refused_iff_halfRefused :
    (migrate .backward 1 halfRefused).1 = .ok true ∧
      (∀ j < 2, ((migrate .backward 1 halfRefused).2.cluster.stores j).storeData =
          (halfRefused.cluster.stores j).storeData ∧
        ((migrate .backward 1 halfRefused).2.cluster.stores j).storeLog.dbHandle = .reliable .empty) ∧
      ∃ records, Arranged 2 halfRefused.cluster records ∧
        (RolledBack 2 halfRefused.cluster (migrate .backward 1 halfRefused).2.cluster ↔
          (records 1).withBounds [] [] = records 1 ∧
            (records 0).withBounds (text "a") (text "a") = records 0) := by
  have hcount : halfRefused.storeNodeCount = 2 := by decide +kernel
  have htwo : 2 ≤ (halfRefused.cluster.pairs 1).length := by decide +kernel
  have hfit : (migrate .backward 1 halfRefused).1 ≠ .error .overrun := by decide +kernel
  have href : halfRefused.refusals = [none, some ⟨false, (Value.vote (text "no") [] []).message⟩, none] := by
    rw [halfRefused, World.refusals_refusing]
  have hadj : Pass.backward.Adjacent 2 1 := ⟨by decide, by decide⟩
  exact migrate_refused_iff ℚ attained_halfRefused hcount href hadj htwo votes_halfRefused (by decide) hfit

/-- The record of node 0 is gone from under the key `1`, where it was, though no pair has moved. -/
theorem migrate_half_refused :
    Attained ℚ 2 halfRefused.cluster ∧
      (votes .backward 1 halfRefused).1 = .ok (text "a", (text "no", [], []), (OK, text "a", text "a")) ∧
      (migrate .backward 1 halfRefused).1 = .ok true ∧
      (migrate .backward 1 halfRefused).2.cluster.pairs 0 = [] ∧
      ¬RolledBack 2 halfRefused.cluster (migrate .backward 1 halfRefused).2.cluster := by
  have hbefore : halfRefused.cluster.metaDb.db.get? (text "1") ≠ none := by decide +kernel
  have hafter : (migrate .backward 1 halfRefused).2.cluster.metaDb.db.get? (text "1") = none := by decide +kernel
  have hok : (migrate .backward 1 halfRefused).1 = .ok true := by decide +kernel
  have hpairs : (migrate .backward 1 halfRefused).2.cluster.pairs 0 = [] := by decide +kernel
  refine ⟨attained_halfRefused, votes_halfRefused, hok, hpairs, fun hback => ?_⟩
  rw [hback.metaDb] at hafter
  exact hbefore hafter

end DistRocks
