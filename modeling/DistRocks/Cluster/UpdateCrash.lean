import DistRocks.Cluster.Crash

/-!
# Restarts in the middle of a put or del

* `Traced.since` : the events behind a mark, as the beginning of a plan; `Traced.logged_iff` : the records logged there;
* `data_take_user`, `answers_take_user` : the four writes of an update stopped behind the first `m`: a record, two writes
  to the metadata and a commit;
* `restart_alone` : a single store is found again without its entry in the metadata;
* `update_restart_iff` : a stop in an update leaves all of it or nothing, and after a restart every `get` prints what is
  stored, unless the entry of the node was just out of the metadata.
-/

namespace DistRocks

open ConstValues Proc

variable {room : ℕ → ℕ} {n m i j : ℕ} {V W : View} {σ₀ σ : Stage} {w : World} {marks : Act → Prop} {h mid : List Event}
  {c : Cluster} {r : Log} {s : Bytes × Bytes} {key : Bytes}

/-! ## Events behind a mark -/

/-- The records logged since the mark are those of the changes made. -/
theorem Traced.logged_iff (ht : Traced n marks σ₀ h σ) (hmid : ∀ x ∈ h, ¬x.act.IsMark) :
    .log j r ∈ σ.made ↔ .log j r ∈ σ₀.made ∨ ∃ x ∈ h, x.act.logged j = some r := by
  induction ht with
  | start => simp
  | @event h σ σ' x ht hstep _ _ _ ih =>
      have hx := hmid _ List.mem_cons_self
      have hold := ih fun x hx => hmid x (List.mem_cons_of_mem _ hx)
      have hcons : (∃ y ∈ x :: h, y.act.logged j = some r) ↔
          x.act.logged j = some r ∨ ∃ y ∈ h, y.act.logged j = some r := by simp
      rw [hcons, or_left_comm, ← hold]
      have hlogged := hstep.of_logged (j := j) (r := r)
      generalize x.act = a at hstep hx hlogged
      cases hstep with
      | read hj hq hr => simp [Step.logged_read hq hr]
      | mark ha => exact absurd ha hx
      | @change _ ch _ _ _ _ hperf =>
          have hnew : a.logged j = some r ↔ ch = .log j r := by
            constructor
            · intro ha
              have hmake := congrArg Stage.made (hlogged ha).1
              simpa [Stage.make] using hmake
            · rintro rfl
              exact hperf.logged
          rw [hnew, Stage.make, List.mem_append, List.mem_singleton, or_comm, eq_comm]

/-- The events behind a mark are the beginning of a plan. -/
theorem Traced.since {e₀ : Event} {newer older : List Event} (ht : Traced n marks σ₀ (newer ++ (mid ++ e₀ :: older)) σ)
    (he₀ : e₀.act.IsMark) (hmid : ∀ x ∈ mid, ¬x.act.IsMark) {e : Event} (he : (mid ++ [e₀]).head? = some e) :
    ∃ V made, Traced n marks ⟨e₀.act, V, []⟩ mid ⟨e₀.act, V, made⟩ ∧ Shows n e₀.after V ∧ Shows n e.after (V.after made) := by
  obtain ⟨⟨mark, base, made⟩, ht, -⟩ := ht.append
  obtain ⟨σ₃, σ₄, -, hstep, -, -, hafter, htmid⟩ := ht.split
  obtain ⟨-, rfl⟩ := hstep.of_mark he₀
  obtain ⟨rfl, rfl⟩ : mark = e₀.act ∧ base = σ₃.view := htmid.base_eq hmid
  refine ⟨σ₃.view, made, htmid, hafter, ?_⟩
  cases mid with
  | nil =>
      obtain rfl := Option.some.inj he
      cases htmid
      exact hafter
  | cons x mid =>
      obtain rfl := Option.some.inj he
      cases htmid with
      | event _ _ _ _ hafter' => exact hafter'

/-! ## The prefixes of an update -/

theorem View.lookup_congr (hdata : ∀ j, (W.node j).data = (V.node j).data) (key : Bytes) :
    W.lookup n key = V.lookup n key := by
  simp only [View.lookup, hdata]

section User
variable (hV : Placed n V) (hroute : Routed V r.key i s)

theorem data_take_user (V : View) (i : ℕ) (r : Log) (s : Bytes × Bytes) (hm : m ≤ 3) (j : ℕ) :
    ((V.after ((userPlan i r s).take m)).node j).data = (V.node j).data := by
  have hlog : ∀ V : View, ((V.change (.log i r)).node j).data = (V.node j).data := fun V => by
    by_cases hji : j = i
    · subst hji
      simp
    · simp [hji]
  interval_cases m <;> simp only [userPlan, List.take_zero, List.take_succ_cons, View.after_nil, View.after_cons,
    View.node_change_file, View.node_change_unfile, hlog]

include hroute

theorem table_take_user (hm : 3 ≤ m) :
    (V.after ((userPlan i r s).take m)).table = V.table.set i (r.widen s) hroute.fits := by
  have hfull := table_after_user hroute.fits
  by_cases h3 : m = 3
  · subst h3
    rw [← hfull]
    rfl
  · rw [List.take_of_length_le (by simp [userPlan]; omega), hfull]

omit hroute in
/-- Before the commit the nodes hold what they held. -/
theorem lookup_take_user (i : ℕ) (r : Log) (s : Bytes × Bytes) (hm : m ≤ 3) (key : Bytes) :
    (V.after ((userPlan i r s).take m)).lookup n key = V.lookup n key :=
  View.lookup_congr (data_take_user V i r s hm) key

include hV

/-- The commit applies the record. -/
theorem lookup_after_user (hkind : r.kind ≠ .error) (hV' : Placed n (V.after (userPlan i r s))) (key : Bytes) :
    (V.after (userPlan i r s)).lookup n key =
      if key = r.key then if r.kind = .put then some r.value else none else V.lookup n key := by
  have hi : i < n := hV.lt_of_span hroute.span
  apply Option.ext
  intro x
  rw [hV'.lookup_eq_some, node_after_user]
  by_cases hk : key = r.key
  · subst hk
    rw [if_pos rfl, ← r.get?_apply_self hkind (V.node i).data]
    constructor
    · rintro ⟨j, hj, hx⟩
      by_cases hji : j = i
      · subst hji
        simpa using hx
      · rw [Function.update_of_ne hji, hroute.get?_eq_none hV hj hji] at hx
        cases hx
    · exact fun hx => ⟨i, hi, by simpa using hx⟩
  · rw [if_neg hk, hV.lookup_eq_some]
    refine exists_congr fun j => and_congr_right fun _ => ?_
    by_cases hji : j = i
    · subst hji
      simp [Log.get?_apply_of_ne hk]
    · rw [Function.update_of_ne hji]

/-- The view in which an update stopped can be searched, if it is not the only node whose entry is out. -/
theorem readable_take_user (hm : m = 2 → 1 < n) (hsound : ∀ ch ∈ (userPlan i r s).take m, ch.Sound)
    (hr : r.Carried) (hkey : r.key ≠ []) : Readable n (V.after ((userPlan i r s).take m)) where
  filled := by
    by_cases h2 : m = 2
    · subst h2
      obtain ⟨j, hj, hji⟩ : ∃ j < n, j ≠ i := by
        by_cases h0 : i = 0
        · exact ⟨1, hm rfl, by omega⟩
        · exact ⟨0, (Nat.zero_lt_one).trans (hm rfl), Ne.symm h0⟩
      obtain ⟨t, ht⟩ := hV.exists_span hj
      exact ⟨j, t, (Spans.span_erase_of_ne _ hji).trans ht⟩
    · by_cases h1 : m ≤ 1
      · refine ⟨i, s, ?_⟩
        interval_cases m <;> exact hroute.span
      · exact ⟨i, _, by rw [table_take_user hroute (by omega), Spans.span_set_self]⟩
  sound := by
    refine sound_after hV fun ch hch => ⟨hsound ch hch, ?_⟩
    rintro l t rfl
    have hmem := List.mem_of_mem_take hch
    simp only [userPlan, List.mem_cons, List.not_mem_nil, Change.file.injEq, reduceCtorEq, or_false, false_or] at hmem
    exact hmem.1 ▸ hV.lt_of_span hroute.span
  stored := fun {j} hj e he => by
    by_cases h3 : m ≤ 3
    · rw [data_take_user V i r s h3] at he
      exact (hV.stored hj e he).2
    · rw [List.take_of_length_le (by simp [userPlan]; omega), node_after_user] at he
      by_cases hji : j = i
      · subst hji
        rw [Function.update_self] at he
        exact (hr.apply hkey (hV.stored hj) e he).2
      · rw [Function.update_of_ne hji] at he
        exact (hV.stored hj e he).2

/-- The entry of the node is out, and its keys are routed to other nodes. -/
theorem answers_take_user_two (hW : W = V.after ((userPlan i r s).take 2)) (hroutes : ∀ key, ∃ j s, Routed W key j s)
    (hbound : ∀ {j s}, W.table.span j = some s → j < n) :
    Answers n V W ↔ ∀ e ∈ (V.node i).data.entries, e.2 = [] := by
  have htable : W.table = V.table.erase i := by rw [hW]; rfl
  rw [answers_iff hV hroutes hbound (hW ▸ data_take_user V i r s (by omega))]
  constructor
  · intro hall e he
    refine (hall i (hV.lt_of_span hroute.span) e he).resolve_left ?_
    rintro ⟨t, hr⟩
    have hspan := hr.span
    rw [htable, Spans.span_erase_self] at hspan
    cases hspan
  · intro hblank j hj e he
    by_cases hji : j = i
    · exact Or.inr (hblank e (hji ▸ he))
    · obtain ⟨t, ht⟩ := hV.exists_span hj
      exact Or.inl ⟨t, .of_mem (by rw [htable, Spans.span_erase_of_ne _ hji, ht]) (hV.within ht e he)⟩

/-- With the entry in the metadata, old or new, every key is routed to its node. -/
theorem answers_take_user (hm : m ≤ 3) (h2 : m ≠ 2) (hW : W = V.after ((userPlan i r s).take m))
    (hroutes : ∀ key, ∃ j s, Routed W key j s) (hbound : ∀ {j s}, W.table.span j = some s → j < n) :
    Answers n V W := by
  rw [answers_iff hV hroutes hbound (hW ▸ data_take_user V i r s hm)]
  intro j hj e he
  obtain ⟨t, ht⟩ := hV.exists_span hj
  have hin := hV.within ht e he
  refine Or.inl ?_
  by_cases h1 : m ≤ 1
  · have htable : W.table = V.table := by
      rw [hW]
      interval_cases m <;> rfl
    exact ⟨t, .of_mem (by rw [htable, ht]) hin⟩
  · obtain rfl : m = 3 := by omega
    have htable := table_take_user hroute (m := 3) le_rfl
    rw [← hW] at htable
    by_cases hji : j = i
    · subst hji
      obtain rfl := Option.some.inj (ht.symm.trans hroute.span)
      have hwide : (r.widen t).1 ≤ t.1 ∧ t.2 ≤ (r.widen t).2 := by
        rw [Log.widen]
        split_ifs
        · exact ⟨le_rfl, le_max_left _ _⟩
        · exact ⟨min_le_left _ _, le_max_left _ _⟩
      exact ⟨_, .of_mem (by rw [htable, Spans.span_set_self]) ⟨hwide.1.trans hin.1, hin.2.trans hwide.2⟩⟩
    · exact ⟨t, .of_mem (by rw [htable, Spans.span_set_of_ne _ hji, ht]) hin⟩

end User

/-! ## A single store -/

/-- Without any entry in the metadata the constructor writes new ones, and a single store is found again. -/
theorem restart_alone (hroom : Connects room 1) (h : Shows 1 c W) (hnone : ∀ j, W.table.span j = none)
    (hstored : ∀ e ∈ (W.node 0).data.entries, (Log.mk .put e.1 e.2).Carried) (hkey : Askable key) :
    getAfterRestart room 1 c key = (.ok (), [((W.node 0).data.get? key).getD []]) := by
  obtain ⟨m, hm, hindex⟩ := h.index
  have hempty : m = .empty := OrdMap.ext_mem fun e => by
    rw [hindex e]
    simp [hnone]
  have hreopen : c.reopen = ⟨c.reopen.stores, .reliable .empty⟩ := congrArg _ (hempty ▸ hm)
  let f : ℕ → Bytes × Bytes := fun j => (decimal (j + 1), decimal (j + 1))
  have hb : ∀ j < 1, (f j).1 ≤ (f j).2 := fun _ _ => le_rfl
  have ha : ∀ j, j + 1 < 1 → (f j).2 < (f (j + 1)).1 := fun j hj => absurd hj (by omega)
  let V : View := ⟨(W.withSizes fun j => (c.reopen.stores j).storeData.size).node, Spans.ofSeq 1 f hb ha⟩
  have hspan : V.table.span 0 = some (f 0) := rfl
  have hzero : ∀ {j t}, V.table.span j = some t → j = 0 ∧ t = f 0 := fun {j t} ht => by
    simp only [V, Spans.span_ofSeq, Nat.lt_one_iff] at ht
    split_ifs at ht with hj
    subst hj
    exact ⟨rfl, (Option.some.inj ht).symm⟩
  have hread : Readable 1 V :=
    { filled := ⟨0, _, hspan⟩
      sound := fun ht => by
        obtain ⟨rfl, rfl⟩ := hzero ht
        exact ⟨Nat.one_pos, firstRecord_sound (by decide)⟩
      stored := fun {j} hj => by
        obtain rfl : j = 0 := by omega
        exact hstored }
  have hroute : Routed V key 0 (f 0) := ⟨hspan, fun hj => absurd hj (Nat.not_lt_zero _), fun hj ht => by
    obtain ⟨rfl, -⟩ := hzero ht
    exact absurd hj (lt_irrefl 0), Or.inr fun j hj => absurd hj (Nat.not_lt_zero _)⟩
  have hends : Ends (construct room 1 >>= fun _ => getCommand key) (World.boot c.reopen)
      (fun _ w => w.answers = [((W.node 0).data.get? key).getD []]) (fun _ _ => False) := by
    rw [hreopen]
    refine ((construct_built hroom c.reopen.stores).mono (fun _ _ hq => hq) fun _ _ he => ?_).bind fun _ w h₁ => ?_
    · obtain ⟨j, -, hj, hlong⟩ := he
      exact absurd (firstRecord_sound (by omega)).fits hlong.not_ge
    · obtain ⟨hbuilt, hcount, hstores, href, hans, -⟩ := h₁
      obtain ⟨m', hm', -⟩ := id hbuilt
      have hentries := hbuilt.entries (by omega)
      rw [hm'] at hentries
      have hshows : Shows 1 w.cluster V :=
        { stores := fun hj => by
            rw [hstores]
            exact h.reopen.stores hj
          index := ⟨m', hm', .of_entries_eq_map hb ha hentries⟩ }
      have hget := getCommand_eq hcount href hshows hread hkey hroute
      rw [hans] at hget
      exact hget
  rcases hends.outcome with ⟨a, hok, hans⟩ | ⟨-, -, hfalse⟩
  · rw [getAfterRestart, hok, hans]
  · exact hfalse.elim

/-! ## Stops in a run -/

theorem Allowed.of_command {p : List Change} (h : Allowed n V .command p) :
    ∃ i r s, r.key ≠ [] ∧ r.Carried ∧ Routed V r.key i s ∧ p = userPlan i r s := by
  cases h with
  | user hkey hr hroute => exact ⟨_, _, _, hkey, hr, hroute, rfl⟩

/-- What a restart finds is what is stored, exactly if the searches end where the pairs are. -/
theorem Shows.getAfterRestart_iff (hroom : Connects room n) (h : Shows n c W) (hW : Readable n W) :
    (∀ key, Askable key → getAfterRestart room n c key = (.ok (), [c.value n key])) ↔ Answers n W W := by
  refine forall_congr' fun key => forall_congr' fun hkey => ?_
  rw [h.value]
  constructor
  · intro hget j s hr
    rw [restart_eq hroom h hW hkey hr] at hget
    simpa using hget
  · intro hall
    obtain ⟨j, s, hr⟩ := h.routed hW key
    rw [restart_eq hroom h hW hkey hr, hall j s hr]

theorem answers_congr (hlookup : ∀ key, W.lookup n key = V.lookup n key) : Answers n W W ↔ Answers n V W := by
  simp only [Answers, hlookup]

/-- A restart behind the first `m` writes of an update finds what is stored, unless it misses the entry of the node. -/
theorem restart_take_user (hroom : Connects room n) (hn : 0 < n) (hV : Placed n V) (hroute : Routed V r.key i s)
    (hr : r.Carried) (hkey : r.key ≠ []) (hm : m ≤ 4)
    (hsound : ∀ ch ∈ (userPlan i r s).take m, ch.Sound) (h : Shows n c (V.after ((userPlan i r s).take m))) :
    (∀ key, Askable key → getAfterRestart room n c key = (.ok (), [c.value n key])) ↔
      (m = 2 → n = 1 ∨ ∀ e ∈ (V.node i).data.entries, e.2 = []) := by
  by_cases halone : m = 2 ∧ n = 1
  · obtain ⟨rfl, rfl⟩ := halone
    refine iff_of_true (fun key hkey => ?_) fun _ => Or.inl rfl
    have hnone : ∀ j, (V.after ((userPlan i r s).take 2)).table.span j = none := fun j => by
      have hi : i < 1 := hV.lt_of_span hroute.span
      by_cases hji : j = i
      · subst hji
        exact Spans.span_erase_self _ _
      · refine (Spans.span_erase_of_ne _ hji).trans (Option.eq_none_iff_forall_ne_some.mpr fun t ht => ?_)
        have hj : j < 1 := hV.lt_of_span ht
        omega
    have hstored : ∀ e ∈ ((V.after ((userPlan i r s).take 2)).node 0).data.entries, (Log.mk .put e.1 e.2).Carried := by
      rw [data_take_user V i r s (by omega)]
      exact fun e he => (hV.stored hn e he).2
    have hlookup : ∀ W : View, W.lookup 1 key = (W.node 0).data.get? key := fun W => by
      simp [View.lookup, List.range_succ]
    rw [restart_alone hroom h hnone hstored hkey, h.value, hlookup]
  have hread := readable_take_user hV hroute (m := m) (fun h2 => by omega) hsound hr hkey
  have hbound : ∀ {j t}, (V.after ((userPlan i r s).take m)).table.span j = some t → j < n := fun ht => (hread.sound ht).1
  rw [h.getAfterRestart_iff hroom hread]
  by_cases h4 : m = 4
  · subst h4
    have hV' : Placed n (V.after ((userPlan i r s).take 4)) := (Allowed.user hkey hr hroute).placed hV hsound
    exact iff_of_true (fun key _ j t ht => by rw [hV'.lookup_routed ht]) fun h2 => absurd h2 (by omega)
  · rw [answers_congr (lookup_take_user i r s (by omega))]
    by_cases h2 : m = 2
    · subst h2
      rw [answers_take_user_two hV hroute rfl (h.routed hread) hbound]
      exact ⟨fun hblank _ => Or.inr hblank, fun hcond => (hcond rfl).resolve_left fun h1 => halone ⟨rfl, h1⟩⟩
    · exact iff_of_true (answers_take_user hV hroute (by omega) h2 rfl (h.routed hread) hbound) fun h => absurd h h2

/-- At a stop in an update the stores' data is that from before it; or the update is done, its record is applied in the
store that it was logged in, the data of the others is that from before, and so are the values of all other keys. -/
def Torn (n : ℕ) (c₀ c : Cluster) (mid : List Event) : Prop :=
  writes mid < 4 ∧ (∀ j < n, c.data j = c₀.data j) ∨
    writes mid = 4 ∧ ∃ i < n, ∃ r, (∃ x ∈ mid, x.act.logged i = some r) ∧
      (∀ j < n, c.data j = if j = i then r.apply (c₀.data i) else c₀.data j) ∧
      ∀ key, c.value n key = if key = r.key then if r.kind = .put then r.value else [] else c₀.value n key

/-- The first writes of an update leave it undone; the last of them does it. -/
theorem torn_take_user {c₀ : Cluster} (hV : Placed n V) (hroute : Routed V r.key i s) (hr : r.Carried) (hkey : r.key ≠ [])
    (hm : writes mid ≤ 4) (hsound : ∀ ch ∈ (userPlan i r s).take (writes mid), ch.Sound) (h₀ : Shows n c₀ V)
    (h : Shows n c (V.after ((userPlan i r s).take (writes mid))))
    (hlogged : ∀ {j r'}, .log j r' ∈ (userPlan i r s).take (writes mid) ↔ ∃ x ∈ mid, x.act.logged j = some r') :
    Torn n c₀ c mid := by
  by_cases h4 : writes mid = 4
  · have hfull : (userPlan i r s).take (writes mid) = userPlan i r s := by
      rw [h4]
      rfl
    rw [hfull] at h hsound hlogged
    have hV' : Placed n (V.after (userPlan i r s)) := (Allowed.user hkey hr hroute).placed hV hsound
    have hi : i < n := hV.lt_of_span hroute.span
    refine Or.inr ⟨h4, i, hi, r, hlogged.mp (by simp [userPlan]), fun j hj => ?_, fun key => ?_⟩
    · rw [h.data hj, h₀.data hi, h₀.data hj, node_after_user]
      by_cases hji : j = i
      · subst hji
        simp
      · simp [hji]
    · rw [h.value, h₀.value, lookup_after_user hV hroute hr.kind hV']
      split_ifs <;> rfl
  · exact Or.inl ⟨by omega, fun j hj => by rw [h.data hj, h₀.data hj, data_take_user V i r s (by omega)]⟩

/-- Without the entry of its node: the record of the update is the only one logged, and the data is that from before it. -/
theorem blank_take_user (hi : i < n) (h2 : writes mid = 2) (h : Shows n c (V.after ((userPlan i r s).take (writes mid))))
    (hlogged : ∀ {j r'}, .log j r' ∈ (userPlan i r s).take (writes mid) ↔ ∃ x ∈ mid, x.act.logged j = some r') :
    (∀ p ∈ (V.node i).data.entries, p.2 = []) ↔
      ∀ j r', (∃ x ∈ mid, x.act.logged j = some r') → ∀ p ∈ (c.data j).entries, p.2 = [] := by
  have hdata : c.data i = (V.node i).data := by
    rw [h.data hi, data_take_user V i r s (by omega)]
  rw [h2] at hlogged
  constructor
  · intro hblank j r' hx q hq
    obtain ⟨rfl, -⟩ : j = i ∧ r' = r := by simpa [userPlan] using hlogged.mpr hx
    exact hblank q (hdata ▸ hq)
  · intro hall q hq
    exact hall i r (hlogged.mp (by simp [userPlan])) q (hdata ▸ hq)

/-- Wherever the control node stops in the update of a `put` or `del`: the update is done in full or not at all, and after
a restart every `get` prints what is stored, exactly if the metadata still has the entry of the node, or there is no other
node, or the node has no values. -/
theorem update_restart_iff (F : Type) [Double F] (hroom : Connects room n) (hw : Fresh n w) {cs : List Command}
    (hcs : ∀ com ∈ cs, com.Valid) {newer older : List Event} {e₀ e : Event}
    (hsplit : (run F cs w).2.history = newer ++ (mid ++ e₀ :: older)) (he₀ : e₀.act = .command)
    (hmid : ∀ x ∈ mid, ¬x.act.IsMark) (he : (mid ++ [e₀]).head? = some e) :
    Torn n e₀.after e.after mid ∧
      ((∀ key, Askable key → getAfterRestart room n e.after key = (.ok (), [e.after.value n key])) ↔
        (writes mid = 2 → n = 1 ∨
          ∀ j r, (∃ x ∈ mid, x.act.logged j = some r) → ∀ p ∈ (e.after.data j).entries, p.2 = [])) := by
  obtain ⟨-, V₀, σ, answers, hsim⟩ := hw.traced F hcs
  obtain ⟨new, hnew, ht⟩ := hsim.traced
  rw [hsplit, show (Origin.first V₀).history = [] from rfl, List.append_nil] at hnew
  rw [← hnew] at ht
  obtain ⟨V, made, htmid, hafter₀, hafter⟩ := ht.since (he₀ ▸ trivial) hmid he
  have hvalid := htmid.valid
  have hV : Placed n V := hvalid.placed
  have hlen : made.length = writes mid := (htmid.length_made hmid).trans (Nat.zero_add _)
  rcases hvalid.plan with hnil | ⟨p, hp, hpre⟩
  · obtain rfl : made = [] := hnil
    have hzero : writes mid = 0 := hlen.symm
    have hread : Readable n V := hV.readable hw.pos
    refine ⟨Or.inl ⟨by omega, fun j hj => (hafter.data hj).trans (hafter₀.data hj).symm⟩, ?_⟩
    rw [hafter.getAfterRestart_iff hroom hread]
    exact iff_of_true (fun key _ j t ht => by rw [View.after_nil, hV.lookup_routed ht]) fun h2 => absurd h2 (by omega)
  · obtain ⟨i, r, s, hkey, hr, hroute, rfl⟩ := (he₀ ▸ hp : Allowed n V .command p).of_command
    obtain rfl : made = (userPlan i r s).take (writes mid) := hlen ▸ List.prefix_iff_eq_take.mp hpre
    have hm : writes mid ≤ 4 := by
      have hle := hpre.length_le
      rwa [hlen] at hle
    have hlogged : ∀ {j r'}, .log j r' ∈ (userPlan i r s).take (writes mid) ↔ ∃ x ∈ mid, x.act.logged j = some r' := by
      intro j r'
      simpa using htmid.logged_iff (j := j) (r := r') hmid
    refine ⟨torn_take_user hV hroute hr hkey hm hvalid.sound hafter₀ hafter hlogged, ?_⟩
    rw [restart_take_user hroom hw.pos hV hroute hr hkey hm hvalid.sound hafter]
    exact imp_congr_right fun h2 => or_congr_right (blank_take_user (hV.lt_of_span hroute.span) h2 hafter hlogged)

theorem lt_length_sampleHistory : 23 + 2 < sampleHistory.length := by decide +kernel

/-- Back at the console, before the second `put`. -/
def sampleCommand : Event := sampleHistory.get ⟨23 + 2, lt_length_sampleHistory⟩

/-- The events of the second `put` up to the write that takes the entry of its node out of the metadata. -/
def sampleUpdate : List Event := (sampleHistory.drop 23).take 2

theorem sampleUpdate_ne_nil : sampleUpdate ++ [sampleCommand] ≠ [] := by simp

/-- The write that takes the entry out. -/
def sampleOut : Event := (sampleUpdate ++ [sampleCommand]).head sampleUpdate_ne_nil

theorem update_restart_twoPuts :
    Torn 2 sampleCommand.after sampleOut.after sampleUpdate ∧
      ((∀ key, Askable key → getAfterRestart gnuRoom 2 sampleOut.after key = (.ok (), [sampleOut.after.value 2 key])) ↔
        (writes sampleUpdate = 2 → 2 = 1 ∨
          ∀ j r, (∃ x ∈ sampleUpdate, x.act.logged j = some r) → ∀ p ∈ (sampleOut.after.data j).entries, p.2 = [])) :=
  update_restart_iff ℚ (by decide) twoStores_fresh (by decide) (split_at sampleHistory lt_length_sampleHistory)
    (by decide +kernel) (by decide +kernel) (List.head?_eq_some_head sampleUpdate_ne_nil)

end DistRocks
