import DistRocks.Cluster.Trace

/-!
# The control node follows the protocol

* `Sim n O σ as w` : the world `w` is at stage `σ` of a history traced from the origin `O`, with nothing refused;
* `Stopped` : in the middle of a plan, the next change did not fit a buffer (`Change.Roomy`);
* `Sim.call_read`, `Sim.call_log`, `Sim.exchange_commit` : a request that only asks, and those that are the next change
  of a plan;
* `Sim.searchMeta`, `Sim.rewriteMeta` : the routing search, and a record taken out of the metadata and put back;
* `Sim.mark` : a mark between two plans.
-/

namespace DistRocks

open ConstValues Proc

/-- Where a run is looked at from: the stage and the history at that point, and the marks it makes from there on. -/
structure Origin where
  stage : Stage
  history : List Event
  marks : Act → Prop

structure Sim (n : ℕ) (O : Origin) (σ : Stage) (answers : List Bytes) (w : World) : Prop where
  count : w.storeNodeCount = n
  refusals : w.refusals = []
  answered : w.answers = answers
  shows : Shows n w.cluster σ.view
  traced : ∃ new, w.history = new ++ O.history ∧ Traced n O.marks O.stage new σ

/-- The answer to a record, and the record of an interval, fit a buffer. -/
def Change.Roomy (V : View) : Change → Prop
  | .log j r => (Value.vote OK (keyEnds (r.apply (V.node j).data)).1 (keyEnds (r.apply (V.node j).data)).2).message.length
      ≤ MAXLINE
  | .file i s => (encSpan i s).length ≤ MAXLINE
  | _ => True

/-- A run that ended in the plan `p` from the view `base`, because the next change did not fit a buffer. -/
def Stopped (n : ℕ) (O : Origin) (answers : List Bytes) (mark : Act) (base : View) (p : List Change) (e : Fault)
    (w : World) : Prop :=
  e = .overrun ∧ ∃ made c, Sim n O ⟨mark, base, made⟩ answers w ∧ made ++ [c] <+: p ∧ ¬c.Roomy (base.after made)

/-- The reply `v` is at the front of the receive buffer. -/
def World.Got (w : World) (v : Value) : Prop :=
  v.message.length ≤ MAXLINE ∧ ∃ rest, w.receiveBuff.bytes = v.message ++ rest

variable {n : ℕ} {O : Origin} {σ σ' : Stage} {answers : List Bytes} {w w' : World}

/-! ## What is read of a reply -/

theorem World.Got.str {s : Bytes} (h : w.Got (.str s)) (hs : NulFree s) :
    ∃ rest, receivedStr w = (.ok (s, rest), w) := by
  obtain ⟨hfit, rest, hrest⟩ := h
  simp only [Value.message, length_encStr] at hfit
  exact ⟨rest, by rw [receivedStr_eq hrest (by omega), hs.cstr_eq]⟩

theorem World.Got.vote {ans lo hi : Bytes} (h : w.Got (.vote ans lo hi)) (hans : NulFree ans) (hlo : NulFree lo)
    (hhi : NulFree hi) :
    ∃ rec rec' rest, receivedStr w = (.ok (ans, rec), w) ∧ getStringFromBuff rec = .ok (lo, rec') ∧
      getStringFromBuff rec' = .ok (hi, rest) := by
  obtain ⟨hfit, rest, hrest⟩ := h
  simp only [Value.message, List.length_append, length_encStr] at hfit
  rw [Value.message, List.append_assoc, List.append_assoc] at hrest
  exact ⟨_, _, rest, by rw [receivedStr_eq hrest (by omega), hans.cstr_eq],
    by rw [getString_encStr _ (by omega), hlo.cstr_eq], by rw [getString_encStr _ (by omega), hhi.cstr_eq]⟩

theorem World.Got.int {a : ℤ} (h : w.Got (.int a)) : receivedInt w = (.ok (wrapInt a), w) := by
  obtain ⟨-, rest, hrest⟩ := h
  exact receivedInt_eq hrest

theorem World.Got.flag {b : Bool} (h : w.Got (.flag b)) :
    (receivedInt >>= fun a => pure (decide (a ≠ 0))) w = (.ok b, w) := by
  obtain ⟨-, rest, hrest⟩ := h
  rw [bind_run (receivedInt_eq hrest)]
  cases b <;> rfl

theorem World.Got.pair {key value : Bytes} (h : w.Got (.pair key value)) (hkey : NulFree key) (hvalue : NulFree value) :
    receivedPair w = (.ok (key, value), w) := by
  obtain ⟨hfit, rest, hrest⟩ := h
  simp only [Value.message, List.length_append, length_encStr] at hfit
  rw [Value.message, List.append_assoc] at hrest
  rw [receivedPair_eq hrest (by omega) (by omega), hkey.cstr_eq, hvalue.cstr_eq]

namespace Sim

/-- The buffers do not matter. -/
theorem of_eq (h : Sim n O σ answers w) (hcluster : w'.cluster = w.cluster) (hcount : w'.storeNodeCount = w.storeNodeCount)
    (href : w'.refusals = w.refusals) (hans : w'.answers = w.answers) (hhist : w'.history = w.history) :
    Sim n O σ answers w' :=
  ⟨hcount.trans h.count, href.trans h.refusals, hans.trans h.answered, hcluster ▸ h.shows, hhist ▸ h.traced⟩

/-- One event. -/
theorem event (h : Sim n O σ answers w) {a : Act} (hstep : Step n σ a σ') (hmark : a.IsMark → O.marks a)
    (hshows : Shows n w'.cluster σ'.view) (hcount : w'.storeNodeCount = w.storeNodeCount) (href : w'.refusals = [])
    (hans : w'.answers = w.answers) (hhist : w'.history = ⟨a, w.cluster, w'.cluster⟩ :: w.history) :
    Sim n O σ' answers w' := by
  obtain ⟨new, hnew, ht⟩ := h.traced
  exact ⟨hcount.trans h.count, href, hans.trans h.answered, hshows, ⟨a, w.cluster, w'.cluster⟩ :: new,
    by rw [hhist, hnew]; rfl, ht.event hstep hmark h.shows hshows⟩

theorem valid (h : Sim n O σ answers w) : Valid n σ := h.traced.elim fun _ ht => ht.2.valid

/-- The same world looked at from now on, at any stage that shows it. -/
theorem rebase (h : Sim n O σ answers w) {τ : Stage} (hτ : Valid n τ) (hview : τ.view = σ.view) (marks : Act → Prop) :
    Sim n ⟨τ, w.history, marks⟩ τ answers w :=
  ⟨h.count, h.refusals, h.answered, hview ▸ h.shows, [], rfl, .start hτ⟩

theorem stopped (h : Sim n O σ answers w) {p : List Change} {c : Change} (hpre : σ.made ++ [c] <+: p)
    (hc : ¬c.Roomy σ.view) : Stopped n O answers σ.mark σ.base p .overrun w :=
  ⟨rfl, σ.made, c, h, hpre, hc⟩

/-! ## Marks -/

theorem mark (h : Sim n O σ answers w) (hσ : σ.Complete n) {a : Act} (ha : a.IsMark) (hO : O.marks a)
    {H : Fault → World → Prop} :
    Ends (DistRocks.mark a) w (fun _ w' => Sim n O ⟨a, σ.view, []⟩ answers w' ∧ w'.cluster = w.cluster) H :=
  ⟨h.event (.mark ha hσ) (fun _ => hO) h.shows rfl h.refusals rfl rfl, rfl⟩

/-! ## Messages -/

theorem assemble (h : Sim n O σ answers w) {msg : Bytes} (hlen : msg.length ≤ MAXLINE) {H : Fault → World → Prop} :
    Ends (DistRocks.assemble msg) w (fun len w' => len = msg.length ∧ w'.sendBuff.bytes.take len = msg ∧
        Sim n O σ answers w' ∧ w'.cluster = w.cluster) H :=
  ends_assemble msg (fun _ _ htake => ⟨rfl, htake, h.of_eq rfl rfl rfl rfl rfl, rfl⟩)
    fun hover => absurd hlen hover.not_ge

/-- A served request moves its node and nothing else. -/
theorem shows_exchanged (h : Sim n O σ answers w) {fd : ℕ} {st : StoreImpl} {nd : Node} (hst : st.Reflects nd) :
    Shows n { w.cluster with stores := Function.update w.cluster.stores fd st }
      { σ.view with node := Function.update σ.view.node fd nd } := by
  refine ⟨fun {j} hj => ?_, h.shows.index⟩
  by_cases hjf : j = fd
  · subst hjf
    simpa using hst
  · simpa [hjf] using h.shows.stores hj

/-- A request to the store `fd`, whose message stands in the send buffer. -/
theorem exchange (h : Sim n O σ answers w) {fd len : ℕ} {q : Request} {v : Value} {H : Fault → World → Prop} (hfd : fd < n)
    (hother : ∀ c, q ≠ .other c) (hlen : q.message.length ≤ MAXLINE) (hmsg : w.sendBuff.bytes.take len = q.message)
    (hlog : ∀ r, q = .log r → (σ.view.node fd).pending = none ∧ ¬r.asRead.Strays (σ.view.node fd).data)
    (hv : (σ.view.node fd).answer q.asRead = some v)
    (hstep : Step n σ (.exchange fd q.message) σ')
    (hview : σ'.view = { σ.view with node := Function.update σ.view.node fd ((σ.view.node fd).next q.asRead) })
    (hover : MAXLINE < v.message.length → H .overrun w) :
    Ends (DistRocks.exchange fd len) w (fun _ w' => Sim n O σ' answers w' ∧ w'.Got v ∧ w'.sendBuff = w.sendBuff) H := by
  have hfd' : fd < w.storeNodeCount := h.count.symm ▸ hfd
  rcases (h.shows.stores hfd).serve hother hlen hlog hv with ⟨hfit, st, hserve, hst⟩ | ⟨hlong, herr⟩
  · have hnone : ∀ r, w.refusals.head? ≠ some (some r) := by simp [h.refusals]
    refine Ends.of_run (exchange_eq hfd' hnone hmsg hserve) ⟨?_, ⟨hfit, bytes_exchanged w fd q.message st hfit⟩, rfl⟩
    refine h.event hstep (fun ha => ha.elim) ?_ rfl ?_ rfl rfl
    · rw [hview]
      exact h.shows_exchanged hst
    · simp [World.exchanged, h.refusals]
  · rw [Ends, exchange_error hfd' hmsg herr]
    exact hover hlong

theorem decode_message {q : Request} (hother : ∀ c, q ≠ .other c) (hlen : q.message.length ≤ MAXLINE) :
    decodeRequest q.message = .ok q.asRead := by
  have h := decodeRequest_message [] hlen hother
  rwa [List.append_nil] at h

/-- A request that only asks. -/
theorem exchange_read (h : Sim n O σ answers w) {fd len : ℕ} {q : Request} {v : Value} {H : Fault → World → Prop}
    (hfd : fd < n) (hq : q.Reads) (hlen : q.message.length ≤ MAXLINE) (hmsg : w.sendBuff.bytes.take len = q.message)
    (hv : (σ.view.node fd).answer q.asRead = some v) (hfit : v.message.length ≤ MAXLINE) :
    Ends (DistRocks.exchange fd len) w (fun _ w' => Sim n O σ answers w' ∧ w'.Got v ∧ w'.sendBuff = w.sendBuff) H := by
  have hother : ∀ c, q ≠ .other c := by
    rintro c rfl
    exact hq
  have hreads : q.asRead.Reads := by
    cases q with
    | log _ | commitLog | delLog | quit | other _ => exact hq.elim
    | _ => trivial
  refine h.exchange hfd hother hlen hmsg ?_ hv (.read hfd (decode_message hother hlen) hreads) ?_
    fun hover => absurd hfit hover.not_ge
  · rintro r rfl
    exact hq.elim
  · rw [Node.next_of_reads hreads, Function.update_eq_self]

/-- A record for the log of the node `fd`, as the next change of a plan. -/
theorem exchange_log (h : Sim n O σ answers w) {fd len : ℕ} {r : Log} {p : List Change} (hfd : fd < n)
    (hkind : r.kind ≠ .error) (hkey : r.asRead.key ≠ []) (hkeys : ∀ e ∈ (σ.view.node fd).data.entries, e.1 ≠ [])
    (hlen : (Request.log r).message.length ≤ MAXLINE) (hmsg : w.sendBuff.bytes.take len = (Request.log r).message)
    (hp : Allowed n σ.base σ.mark p) (hpre : σ.made ++ [.log fd r.asRead.recorded] <+: p) :
    Ends (DistRocks.exchange fd len) w
      (fun _ w' => Sim n O (σ.make [.log fd r.asRead.recorded]) answers w' ∧
        w'.Got (.vote OK (keyEnds (r.asRead.apply (σ.view.node fd).data)).1
          (keyEnds (r.asRead.apply (σ.view.node fd).data)).2) ∧ w'.sendBuff = w.sendBuff)
      (Stopped n O answers σ.mark σ.base p) := by
  obtain ⟨-, ⟨hnone, hr⟩, -⟩ := h.valid.legal hp hpre
  have hother : ∀ c, Request.log r ≠ .other c := fun c hc => by cases hc
  have hdec := decode_message hother hlen
  have hkind' : r.asRead.kind ≠ .error := hkind
  have hans : (σ.view.node fd).answer (Request.log r).asRead = some (.vote OK
      (keyEnds (r.asRead.apply (σ.view.node fd).data)).1 (keyEnds (r.asRead.apply (σ.view.node fd).data)).2) := by
    have hb := Log.bounds_eq hkind' hkey (.reliable (σ.view.node fd).data) hkeys
    rw [Node.answer, Request.asRead, StoreData.answer, if_neg hkind', Node.storeData, hb]
    rfl
  have hlog : ∀ r', Request.log r = .log r' → (σ.view.node fd).pending = none ∧
      ¬r'.asRead.Strays (σ.view.node fd).data := by
    rintro r' ⟨⟩
    exact ⟨hnone, Log.not_strays hkey _⟩
  refine h.exchange hfd hother hlen hmsg hlog hans
    (.change hp hpre trivial ⟨rfl, r.asRead, hdec, rfl⟩) ?_ fun hover => h.stopped hpre ?_
  · rw [Stage.view_make, Request.asRead, Node.next, if_neg hkind']
    rfl
  · rw [Change.Roomy, Log.apply_recorded]
    exact hover.not_ge

/-- A commit, as the next change of a plan. -/
theorem exchange_commit (h : Sim n O σ answers w) {fd len : ℕ} {p : List Change} {H : Fault → World → Prop} (hfd : fd < n)
    (hmsg : w.sendBuff.bytes.take len = Request.commitLog.message) (hp : Allowed n σ.base σ.mark p)
    (hpre : σ.made ++ [.commit fd] <+: p) :
    Ends (DistRocks.exchange fd len) w
      (fun _ w' => Sim n O (σ.make [.commit fd]) answers w' ∧ w'.Got (.str OK) ∧ w'.sendBuff = w.sendBuff) H := by
  have hother : ∀ c, Request.commitLog ≠ .other c := fun c hc => by cases hc
  have hlen : Request.commitLog.message.length ≤ MAXLINE := by decide
  have hfit : (Value.str OK).message.length ≤ MAXLINE := by decide
  refine h.exchange hfd hother hlen hmsg (fun _ hr => by cases hr) rfl
    (.change hp hpre trivial ⟨rfl, decode_message hother hlen⟩) ?_ fun hover => absurd hfit hover.not_ge
  rw [Stage.view_make]
  rfl

theorem call_read (h : Sim n O σ answers w) {fd : ℕ} {q : Request} {v : Value} {H : Fault → World → Prop} (hfd : fd < n)
    (hq : q.Reads) (hlen : q.message.length ≤ MAXLINE) (hv : (σ.view.node fd).answer q.asRead = some v)
    (hfit : v.message.length ≤ MAXLINE) :
    Ends (call fd q.message) w (fun _ w' => Sim n O σ answers w' ∧ w'.Got v) H := by
  refine (h.assemble hlen).bind fun len w₁ h₁ => ?_
  obtain ⟨-, htake, h₁, -⟩ := h₁
  exact (h₁.exchange_read hfd hq hlen htake hv hfit).mono (fun _ _ h₂ => ⟨h₂.1, h₂.2.1⟩) fun _ _ he => he

/-- A record that the control node works out itself. -/
theorem call_log (h : Sim n O σ answers w) {fd : ℕ} {r : Log} {p : List Change} (hfd : fd < n) (hr : r.Carried)
    (hrec : r.recorded = r) (hkey : r.key ≠ []) (hkeys : ∀ e ∈ (σ.view.node fd).data.entries, e.1 ≠ [])
    (hp : Allowed n σ.base σ.mark p) (hpre : σ.made ++ [.log fd r] <+: p) :
    Ends (call fd (Request.log r).message) w
      (fun _ w' => Sim n O (σ.make [.log fd r]) answers w' ∧
        w'.Got (.vote OK (keyEnds (r.apply (σ.view.node fd).data)).1 (keyEnds (r.apply (σ.view.node fd).data)).2))
      (Stopped n O answers σ.mark σ.base p) := by
  have hread : r.asRead = r := hr.nulFree.asRead_eq
  refine (h.assemble hr.request).bind fun len w₁ h₁ => ?_
  obtain ⟨-, htake, h₁, -⟩ := h₁
  have hx := h₁.exchange_log (p := p) hfd hr.kind (hread.symm ▸ hkey) hkeys hr.request htake hp (by rwa [hread, hrec])
  rw [hread, hrec] at hx
  exact hx.mono (fun _ _ h₂ => ⟨h₂.1, h₂.2.1⟩) fun _ _ he => he

/-! ## Metadata -/

end Sim

theorem entryOf_eq {it : Iterator} {e : Bytes × Bytes} (h : it.current = some e) : entryOf it w = (.ok e, w) := by
  rw [entryOf, h]
  rfl

theorem metaOf_eq {it : Iterator} {k : Bytes} {i : ℕ} {s : Bytes × Bytes} (h : it.current = some (k, encSpan i s))
    (hs : (ControlMeta.mk s.1 s.2 i).Sound) : metaOf it w = (.ok ⟨s.1, s.2, i⟩, w) := by
  rw [metaOf, bind_run (entryOf_eq h), encSpan, ControlMeta.ofSlice_encMeta hs]
  rfl

theorem fdOf_eq (a b : Bytes) (i : ℕ) : fdOf ⟨a, b, i⟩ w = (.ok i, w) := by
  rw [fdOf, if_pos (Int.natCast_nonneg i), Int.toNat_natCast]
  rfl

namespace Sim

/-- The search in the metadata is the predecessor search in the table. -/
theorem searchMeta (h : Sim n O σ answers w) (key : Bytes) :
    ∃ m it, Spans.Indexes encSpan m σ.view.table ∧ DistRocks.searchMeta key w = (.ok it, w) ∧ it.snapshot = m ∧
      it.current = m.locate key := by
  obtain ⟨m, hm, hindex⟩ := h.shows.index
  refine ⟨m, _, hindex, rfl, ?_, ?_⟩
  · rw [DBHandle.search_snapshot, hm]
    rfl
  · rw [DBHandle.search_current, hm]
    rfl

/-- A key is routed to a node. -/
theorem routed (h : Sim n O σ answers w) (hV : Placed n σ.view) (hn : 0 < n) (key : Bytes) :
    ∃ it i s, DistRocks.searchMeta key w = (.ok it, w) ∧ it.current = some (s.1, encSpan i s) ∧
      Routed σ.view key i s := by
  obtain ⟨m, it, hindex, hsearch, hsnap, hcur⟩ := h.searchMeta key
  obtain ⟨s₀, h₀⟩ := hV.exists_span hn
  obtain ⟨i, s, hspan, hloc, habove, hbelow, hfloor⟩ := hindex.locate ⟨0, s₀, h₀⟩ key
  exact ⟨it, i, s, hsearch, hcur.trans hloc, hspan, habove, hbelow, hfloor⟩

theorem metaDelete (h : Sim n O σ answers w) {i : ℕ} {s : Bytes × Bytes} {p : List Change} {H : Fault → World → Prop}
    (hspan : σ.view.table.span i = some s) (hp : Allowed n σ.base σ.mark p) (hpre : σ.made ++ [.unfile i] <+: p) :
    Ends (DistRocks.metaDelete s.1) w
      (fun _ w' => Sim n O (σ.make [.unfile i]) answers w' ∧ w'.sendBuff = w.sendBuff) H := by
  obtain ⟨m, hm, hindex⟩ := h.shows.index
  have hstep : Step n σ (.metaDelete s.1) (σ.make [.unfile i]) := .change hp hpre trivial ⟨s, hspan, rfl⟩
  refine Ends.of_run rfl ⟨h.event hstep (fun ha => ha.elim) ?_ rfl h.refusals rfl rfl, rfl⟩
  refine ⟨fun hj => by simpa [View.change] using h.shows.stores hj, m.erase s.1, by rw [hm]; rfl, ?_⟩
  simpa [View.change] using hindex.erase hspan

theorem metaPut (h : Sim n O σ answers w) {i : ℕ} {s : Bytes × Bytes} {p : List Change} {H : Fault → World → Prop}
    (hp : Allowed n σ.base σ.mark p) (hpre : σ.made ++ [.file i s] <+: p) (hs : (ControlMeta.mk s.1 s.2 i).Sound) :
    Ends (DistRocks.metaPut s.1 (encSpan i s)) w
      (fun _ w' => Sim n O (σ.make [.file i s]) answers w' ∧ w'.sendBuff = w.sendBuff) H := by
  obtain ⟨m, hm, hindex⟩ := h.shows.index
  obtain ⟨-, ⟨hnone, hfit⟩, -⟩ := h.valid.legal hp hpre
  have hstep : Step n σ (.metaPut s.1) (σ.make [.file i s]) := .change hp hpre hs rfl
  refine Ends.of_run rfl ⟨h.event hstep (fun ha => ha.elim) ?_ rfl h.refusals rfl rfl, rfl⟩
  refine ⟨fun hj => by simpa [View.change] using h.shows.stores hj, m.insert s.1 (encSpan i s), by rw [hm]; rfl, ?_⟩
  simpa [View.change, Spans.put_eq hfit] using hindex.set hnone hfit

end Sim

/-- A record is assembled in a buffer, if it fits. -/
theorem ends_toSlice {α : Type} {c : ControlMeta} {b : Buff} {f : Buff × ℕ → M α} {Q : α → World → Prop}
    {H : Fault → World → Prop}
    (hok : ∀ b' : Buff, (encMeta c).length ≤ MAXLINE → b'.bytes.take (encMeta c).length = encMeta c →
      Ends (f (b', (encMeta c).length)) w Q H)
    (herr : MAXLINE < (encMeta c).length → H .overrun w) : Ends (lift (c.toSlice b) >>= f) w Q H := by
  rw [ControlMeta.toSlice_eq]
  rcases b.put_cases (encMeta c) with ⟨hlen, b', hb, -⟩ | ⟨hlong, he⟩
  · rw [hb, ok_bind]
    exact hok b' hlen (Buff.take_put hb)
  · rw [he]
    exact herr hlong

namespace Sim

/-- A record is taken out of the metadata and put back with another interval, as the next two changes of a plan. -/
theorem rewriteMeta (h : Sim n O σ answers w) {it : Iterator} {k : Bytes} {i : ℕ} {s t : Bytes × Bytes} {p : List Change}
    (hat : it.current = some (s.1, k)) (hspan : σ.view.table.span i = some s) (hp : Allowed n σ.base σ.mark p)
    (hpre : σ.made ++ [.unfile i, .file i t] <+: p) (hnul : NulFree t.1 ∧ NulFree t.2) (hfd : (i : ℤ) < 2147483648) :
    Ends (DistRocks.rewriteMeta it ⟨t.1, t.2, i⟩) w
      (fun _ w' => Sim n O (σ.make [.unfile i, .file i t]) answers w' ∧ w'.sendBuff = w.sendBuff)
      (Stopped n O answers σ.mark σ.base p) := by
  have hpre₁ : σ.made ++ [.unfile i] <+: p := List.IsPrefix.trans ⟨[.file i t], by simp⟩ hpre
  rw [DistRocks.rewriteMeta, ends_run (entryOf_eq hat)]
  refine (h.metaDelete hspan hp hpre₁).bind fun _ w₁ h₁ => ?_
  obtain ⟨h₁, hsend⟩ := h₁
  have hpre₂ : (σ.make [.unfile i]).made ++ [.file i t] <+: p := by simpa [Stage.make] using hpre
  rw [ends_bind, ends_get]
  refine ends_toSlice (fun b hlen htake => ?_) fun hlong => h₁.stopped hpre₂ hlong.not_ge
  have h₂ : Sim n O (σ.make [.unfile i]) answers { w₁ with receiveBuff := b } := h₁.of_eq rfl rfl rfl rfl rfl
  have ht : (ControlMeta.mk t.1 t.2 i).Sound :=
    ⟨hnul.1, hnul.2, hlen, show -2147483648 ≤ (i : ℤ) by omega, hfd⟩
  rw [ends_bind, ends_modify]
  simp only [htake]
  refine (h₂.metaPut hp hpre₂ ht).mono (fun _ w₃ h₃ => ?_) fun _ _ he => he
  exact ⟨by simpa using h₃.1, h₃.2.trans hsend⟩

end Sim

end DistRocks
