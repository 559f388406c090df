import DistRocks.Cluster.Room
import DistRocks.Control.Construct
import Mathlib.Tactic.IntervalCases

/-!
# Restarts in the middle of a migration

* `getAfterRestart` : what `get` prints when every process is started again over the databases of a cluster;
  `restart_eq` : the value in the node that the key is routed to, whatever is pending in the logs;
* `Cluster.value` : the value of a key, in whichever store it is;
* `Survives` : a stop after the first `m` of the eight writes of a migration loses no value; `answers_take` : at such a
  stop every `get` prints the value from before the migration;
* `restart_iff` : so it is at every event of every migration of a run, and `restart_loses` that a pair can get lost.
-/

namespace DistRocks

open ConstValues Proc

variable {room : ℕ → ℕ} {n m i j : ℕ} {O : Origin} {V W : View} {σ₀ σ : Stage} {answers : List Bytes} {w : World}
  {marks : Act → Prop} {h mid : List Event} {c : Cluster} {pass : Pass} {k v key : Bytes}

/-! ## A restart -/

/-- What a `get` prints when every process is started again over the databases of `c`. -/
def getAfterRestart (room : ℕ → ℕ) (n : ℕ) (c : Cluster) (key : Bytes) : Except Fault Unit × List Bytes :=
  let out := (construct room n >>= fun _ => getCommand key) (World.boot c.reopen)
  (out.1, out.2.answers)

/-- A key that can be asked for. -/
structure Askable (key : Bytes) : Prop where
  nulFree : NulFree key
  fits : (Request.get key).message.length ≤ MAXLINE

/-- The view can be searched: there is an interval, and every interval and every pair can be read back. -/
structure Readable (n : ℕ) (V : View) : Prop where
  filled : ∃ j s, V.table.span j = some s
  sound : ∀ {j s}, V.table.span j = some s → j < n ∧ (ControlMeta.mk s.1 s.2 j).Sound
  stored : ∀ {j}, j < n → ∀ e ∈ (V.node j).data.entries, (Log.mk .put e.1 e.2).Carried

/-- A search in the metadata ends at an interval. -/
theorem Shows.routed (h : Shows n c V) (hV : Readable n V) (key : Bytes) : ∃ i s, Routed V key i s := by
  obtain ⟨db, -, hindex⟩ := h.index
  obtain ⟨i, s, hspan, -, habove, hbelow, hfloor⟩ := hindex.locate hV.filled key
  exact ⟨i, s, hspan, habove, hbelow, hfloor⟩

theorem Placed.readable (hV : Placed n V) (hn : 0 < n) : Readable n V where
  filled := ⟨0, hV.exists_span hn⟩
  sound := fun hs => ⟨hV.lt_of_span hs, hV.sound hs⟩
  stored := fun hj e he => (hV.stored hj e he).2

/-- A `get` prints the value in the node that the key is routed to, whatever is in the logs. -/
theorem getCommand_eq (hcount : w.storeNodeCount = n) (href : w.refusals = []) (hshows : Shows n w.cluster V)
    (hV : Readable n V) (hkey : Askable key) {s : Bytes × Bytes} (hroute : Routed V key i s) :
    Ends (getCommand key) w (fun _ w' => w'.answers = w.answers ++ [((V.node i).data.get? key).getD []])
      (fun _ _ => False) := by
  obtain ⟨hi, hsound⟩ := hV.sound hroute.span
  have hsearch : searchMeta key w = (.ok (w.cluster.search key), w) := rfl
  have hmsg : [GET, key].flatMap encStr = (Request.get key).message := by simp [Request.message]
  obtain ⟨b, hb, htake⟩ := assemble_eq (w := w) hkey.fits
  rw [getCommand, ends_run hsearch, ends_run (metaOf_eq (hshows.search hroute) hsound), ends_run (fdOf_eq _ _ i),
    assembleStrs_eq, hmsg, ends_run hb]
  have hv : (V.node i).answer (Request.get key).asRead = some (.str (((V.node i).data.get? key).getD [])) := by
    rw [Request.asRead, hkey.nulFree.cstr_eq]
    rfl
  obtain ⟨hvalue, hfit⟩ := get_value (hV.stored hi) key
  rcases (hshows.stores hi).serve (fun _ hq => by cases hq) hkey.fits (fun _ hq => by cases hq) hv with
    ⟨-, st, hserve, -⟩ | ⟨hlong, -⟩
  · obtain ⟨w₁, hx, hgot, hans⟩ : ∃ w₁, exchange i (Request.get key).message.length { w with sendBuff := b } =
        (.ok (), w₁) ∧ w₁.Got (.str (((V.node i).data.get? key).getD [])) ∧ w₁.answers = w.answers :=
      ⟨_, exchange_eq (hcount.symm ▸ hi) (fun r => by simp [href]) htake hserve,
        ⟨hfit, bytes_exchanged _ _ _ st hfit⟩, rfl⟩
    obtain ⟨rest, hrest⟩ := hgot.str hvalue
    rw [ends_run hx, ends_run hrest, ends_modify, ← hans]
  · exact absurd hfit hlong.not_ge

/-- The same view with other numbers in the size counters. -/
def View.withSizes (V : View) (size : ℕ → ℤ) : View := ⟨fun j => { V.node j with size := size j }, V.table⟩

/-- A store started again over its databases counts its size anew. -/
theorem Shows.reopen (h : Shows n c V) :
    Shows n c.reopen (V.withSizes fun j => (c.reopen.stores j).storeData.size) where
  stores := fun {j} hj => by
    obtain ⟨hdata, hlog, hstorable⟩ := h.stores hj
    have hdb : (c.stores j).storeData.dbHandle = .reliable (V.node j).data := congrArg StoreData.dbHandle hdata
    exact ⟨congrArg (StoreData.mk · (c.reopen.stores j).storeData.size) hdb, hlog, hstorable⟩
  index := h.index

/-- After a restart, a `get` prints the value in the node that the key is routed to. -/
theorem restart_eq (hroom : Connects room n) (h : Shows n c V) (hV : Readable n V) (hkey : Askable key) {s : Bytes × Bytes}
    (hroute : Routed V key i s) :
    getAfterRestart room n c key = (.ok (), [((V.node i).data.get? key).getD []]) := by
  obtain ⟨db, hdb, hindex⟩ := h.index
  obtain ⟨j, t, ht⟩ := hV.filled
  have hne : c.reopen.metaDb.getNum ≠ 0 := by
    rw [DBHandle.getNum_eq, show c.reopen.metaDb = .reliable db from hdb, DBHandle.db_reliable]
    exact (List.length_pos_of_mem (hindex.mem ht)).ne'
  have hends : Ends (construct room n >>= fun _ => getCommand key) (World.boot c.reopen)
      (fun _ w => w.answers = [((V.node i).data.get? key).getD []]) (fun _ _ => False) := by
    refine (construct_kept hroom hne).bind fun _ w h₁ => ?_
    obtain ⟨hcluster, hcount, href, hans⟩ := h₁
    have hreopen : Shows n w.cluster (V.withSizes fun j => (c.reopen.stores j).storeData.size) := by
      rw [hcluster]
      exact h.reopen
    have hget := getCommand_eq hcount href hreopen ⟨hV.filled, hV.sound, hV.stored⟩ hkey
      ⟨hroute.span, hroute.above, hroute.below, hroute.floor⟩
    rw [hans] at hget
    exact hget
  rcases hends.outcome with ⟨a, hok, hans⟩ | ⟨-, -, hfalse⟩
  · rw [getAfterRestart, hok, hans]
  · exact hfalse.elim

/-! ## The value of a key -/

/-- The value of a key, in the first store that has it. -/
def Cluster.value (n : ℕ) (c : Cluster) (key : Bytes) : Bytes :=
  ((List.range n).findSome? fun j => (c.data j).get? key).getD []

/-- The value of a key in the first node that has it. -/
def View.lookup (n : ℕ) (V : View) (key : Bytes) : Option Bytes :=
  (List.range n).findSome? fun j => (V.node j).data.get? key

theorem Shows.value (h : Shows n c V) (key : Bytes) : c.value n key = (V.lookup n key).getD [] := by
  have hcongr : ∀ l : List ℕ, (∀ j ∈ l, j < n) →
      l.findSome? (fun j => (c.data j).get? key) = l.findSome? fun j => (V.node j).data.get? key := by
    intro l
    induction l with
    | nil => exact fun _ => rfl
    | cons j l ih =>
        intro hl
        rw [List.findSome?_cons, List.findSome?_cons, h.data (hl j List.mem_cons_self),
          ih fun j hj => hl j (List.mem_cons_of_mem _ hj)]
  rw [Cluster.value, View.lookup, hcongr _ fun j => List.mem_range.mp]

/-- A key that one node has is in no other. -/
theorem Placed.get?_of_ne (hV : Placed n V) {e : Bytes × Bytes} (hi : i < n) (hj : j < n)
    (he : e ∈ (V.node i).data.entries) (hne : j ≠ i) : (V.node j).data.get? e.1 = none :=
  OrdMap.get?_eq_none.mpr fun _ hv => hne (hV.node_unique hj hi hv he rfl)

theorem Placed.lookup_eq_some (hV : Placed n V) {x : Bytes} :
    V.lookup n key = some x ↔ ∃ j < n, (V.node j).data.get? key = some x := by
  constructor
  · intro h
    obtain ⟨j, hj, hx⟩ := List.exists_of_findSome?_eq_some h
    exact ⟨j, List.mem_range.mp hj, hx⟩
  · rintro ⟨j, hj, hx⟩
    have hsome : ((List.range n).findSome? fun j => (V.node j).data.get? key).isSome :=
      List.findSome?_isSome_iff.mpr ⟨j, List.mem_range.mpr hj, by rw [hx]; rfl⟩
    obtain ⟨y, hy⟩ := Option.isSome_iff_exists.mp hsome
    obtain ⟨l, hl, hly⟩ := List.exists_of_findSome?_eq_some hy
    obtain rfl := hV.node_unique (List.mem_range.mp hl) hj (OrdMap.get?_eq_some.mp hly) (OrdMap.get?_eq_some.mp hx) rfl
    rw [View.lookup, hy, ← hly, hx]

theorem Placed.lookup_of_mem (hV : Placed n V) {e : Bytes × Bytes} (hj : j < n) (he : e ∈ (V.node j).data.entries) :
    V.lookup n e.1 = some e.2 :=
  hV.lookup_eq_some.mpr ⟨j, hj, OrdMap.get?_eq_some.mpr he⟩

/-- The value of a key is in the node it is routed to. -/
theorem Placed.lookup_routed (hV : Placed n V) {s : Bytes × Bytes} (hroute : Routed V key i s) :
    (V.node i).data.get? key = V.lookup n key := by
  apply Option.ext
  intro x
  rw [hV.lookup_eq_some]
  constructor
  · exact fun hx => ⟨i, hV.lt_of_span hroute.span, hx⟩
  · rintro ⟨j, hj, hx⟩
    by_cases hji : j = i
    · exact hji ▸ hx
    · rw [hroute.get?_eq_none hV hj hji] at hx
      cases hx

theorem Log.Carried.askable (h : (Log.mk .put k v).Carried) : Askable k := by
  refine ⟨h.nulFree.key, ?_⟩
  have hlen := h.request
  simp only [Request.message, List.length_append, Log.length_encLog, length_encStr] at hlen ⊢
  have hlog : LOG.length = 3 := by decide
  have hget : GET.length = 3 := by decide
  omega

/-- An interval that a point lies in is where the search ends. -/
theorem Routed.of_mem {s : Bytes × Bytes} (hs : V.table.span j = some s) (hkey : s.1 ≤ key ∧ key ≤ s.2) :
    Routed V key j s where
  span := hs
  above := fun hlt ht => (V.table.apart hlt ht hs).trans_le hkey.1
  below := fun hlt ht => hkey.2.trans_lt (V.table.apart hlt hs ht)
  floor := Or.inl hkey.1

/-- Where a search ends is fixed by the intervals. -/
theorem Routed.of_table {s : Bytes × Bytes} (hr : Routed W key j s) (h : W.table = V.table) : Routed V key j s :=
  ⟨h ▸ hr.span, fun hlt ht => hr.above hlt (h ▸ ht), fun hlt ht => hr.below hlt (h ▸ ht), h ▸ hr.floor⟩

/-- Searches in the view `W` end at the values that the keys have in `V`. -/
def Answers (n : ℕ) (V W : View) : Prop :=
  ∀ key, Askable key → ∀ j s, Routed W key j s → ((W.node j).data.get? key).getD [] = (V.lookup n key).getD []

/-- With the same pairs in the nodes, the search for every pair has to end at its node, unless the value is empty. -/
theorem answers_iff (hV : Placed n V) (hroute : ∀ key, ∃ j s, Routed W key j s)
    (hbound : ∀ {j s}, W.table.span j = some s → j < n) (hdata : ∀ j, (W.node j).data = (V.node j).data) :
    Answers n V W ↔ ∀ j < n, ∀ e ∈ (V.node j).data.entries, (∃ s, Routed W e.1 j s) ∨ e.2 = [] := by
  constructor
  · intro hall j hj e he
    obtain ⟨l, s, hr⟩ := hroute e.1
    by_cases hlj : l = j
    · exact Or.inl ⟨s, hlj ▸ hr⟩
    · have hsame := hall e.1 (hV.stored hj e he).2.askable l s hr
      rw [hdata, hV.get?_of_ne hj (hbound hr.span) he hlj, hV.lookup_of_mem hj he] at hsame
      exact Or.inr hsame.symm
  · intro hall key _ j s hr
    rw [hdata]
    cases hget : (V.node j).data.get? key with
    | some x => rw [hV.lookup_of_mem (hbound hr.span) (OrdMap.get?_eq_some.mp hget)]
    | none =>
        cases hl : V.lookup n key with
        | none => rfl
        | some x =>
            obtain ⟨l, hlt, hx⟩ := hV.lookup_eq_some.mp hl
            rcases hall l hlt (key, x) (OrdMap.get?_eq_some.mp hx) with ⟨t, hr'⟩ | hnil
            · obtain rfl := hr.eq hr'
              rw [hget] at hx
              cases hx
            · exact hnil.symm

/-! ## The prefixes of a migration -/

/-- A stop after the first `m` of the eight writes of a migration loses no value: two records, four writes to the
metadata and two commits, between a source with the pairs `source` and a target with the pairs `target`. -/
structure Survives (m : ℕ) (pass : Pass) (i : ℕ) (source target : OrdMap Bytes Bytes) : Prop where
  /-- the entry of the source is out of the metadata -/
  sourceOut : m = 3 → ∀ e ∈ source.entries, e.2 = []
  /-- the entry of the target is out of the metadata -/
  targetOut : m = 5 → ∀ e ∈ target.entries, e.2 = []
  /-- the pair that moves is routed to a store that has it, or has no value -/
  moved : 4 ≤ m → m < 8 → m ≤ 5 ∧ pass = .forward ∨ m = 5 ∧ i = 1 ∨ ∀ e ∈ pass.extreme? source, e.2 = []

section Move
variable (hV : Placed n V) (hmove : Movable n pass i k v V)

theorem data_take (V : View) (pass : Pass) (k v : Bytes) (hm : m ≤ 6) (j : ℕ) :
    ((V.after ((movePlan V pass i k v).take m)).node j).data = (V.node j).data := by
  have hlog : ∀ (V : View) (l : ℕ) (r : Log), ((V.change (.log l r)).node j).data = (V.node j).data := fun V l r => by
    by_cases hjl : j = l
    · subst hjl
      simp
    · simp [hjl]
  interval_cases m <;> simp only [movePlan, List.take_zero, List.take_succ_cons, View.after_nil, View.after_cons,
    View.node_change_file, View.node_change_unfile, hlog]

theorem table_take_two (V : View) (pass : Pass) (k v : Bytes) (hm : m ≤ 2) :
    (V.after ((movePlan V pass i k v).take m)).table = V.table := by
  interval_cases m <;> rfl

theorem table_take_three (V : View) (pass : Pass) (k v : Bytes) :
    (V.after ((movePlan V pass i k v).take 3)).table = V.table.erase i := rfl

include hV hmove

theorem table_take_four :
    (V.after ((movePlan V pass i k v).take 4)).table = V.table.set i _ (source_fits hV hmove) := by
  simp [movePlan, View.change, Spans.put_eq (source_fits hV hmove).erase, Spans.set_erase (source_fits hV hmove)]

theorem table_take_five :
    (V.after ((movePlan V pass i k v).take 5)).table = (V.table.set i _ (source_fits hV hmove)).erase (pass.peer i) := by
  simp [movePlan, View.change, Spans.put_eq (source_fits hV hmove).erase, Spans.set_erase (source_fits hV hmove)]

theorem table_take_six (hm : 6 ≤ m) :
    (V.after ((movePlan V pass i k v).take m)).table =
      (V.table.set i _ (source_fits hV hmove)).set (pass.peer i) _ (target_fits hV hmove) := by
  have hrest : ∀ l, (V.after ((movePlan V pass i k v).take (6 + l))).table = (V.after (movePlan V pass i k v)).table := by
    intro l
    rcases l with _ | _ | l
    · rfl
    · rfl
    · rw [List.take_of_length_le (by simp [movePlan]; omega)]
  obtain ⟨l, rfl⟩ := Nat.exists_eq_add_of_le hm
  rw [hrest, table_after_move hV hmove]

omit hV in
/-- The moved pair is the only one outside the new interval of the source. -/
theorem source_iff (hdata : ∀ e ∈ (V.node i).data.entries, e.1 ≠ k → ∃ s, Routed W e.1 i s) :
    (∀ e ∈ (V.node i).data.entries, (∃ s, Routed W e.1 i s) ∨ e.2 = []) ↔ (∃ s, Routed W k i s) ∨ v = [] := by
  constructor
  · exact fun hall => hall _ hmove.mem
  · intro hk e he
    by_cases hek : e.1 = k
    · obtain rfl : e = (k, v) := OrdMap.eq_of_key_eq he hmove.mem hek
      exact hk
    · exact Or.inl (hdata e he hek)

/-- While the intervals of other nodes are old ones or missing, the moved key is still routed to the source if it lies
above the new interval there, or if no interval lies below it. -/
theorem routed_moved (hi : W.table.span i = some (keyEnds ((V.node i).data.erase k)))
    (hsub : ∀ {j s}, j ≠ i → W.table.span j = some s → V.table.span j = some s) :
    (∃ s, Routed W k i s) ↔ pass = .forward ∨ ∀ j < i, W.table.span j = none := by
  obtain ⟨s, hs⟩ := hV.exists_span hmove.adjacent.lt
  obtain ⟨hlo, hhi⟩ := hV.within hs _ hmove.mem
  constructor
  · rintro ⟨t, hr⟩
    obtain rfl := Option.some.inj (hi.symm.trans hr.span)
    cases pass with
    | forward => exact Or.inl rfl
    | backward => exact Or.inr (hr.floor.resolve_left (backward_lt_source hmove).not_ge)
  · intro hfloor
    refine ⟨_, hi, fun hlt ht => ?_, fun hlt ht => ?_, ?_⟩
    · exact (V.table.apart hlt (hsub hlt.ne ht) hs).trans_le hlo
    · exact hhi.trans_lt (V.table.apart hlt hs (hsub hlt.ne' ht))
    · rcases hfloor with rfl | hnone
      · exact Or.inl ((keyEnds_le hmove.source_ne_nil).trans (forward_source_lt hmove).le)
      · exact Or.inr hnone

omit hV hmove in
theorem span_take (hm : m ≤ 6) (hji : j ≠ i) (hjp : j ≠ pass.peer i) :
    (V.after ((movePlan V pass i k v).take m)).table.span j = V.table.span j := by
  interval_cases m <;> simp [movePlan, View.change, Spans.span_put_of_ne, hji, hjp]

/-- While no record is committed, a restart loses what is not routed to its node, if it was in one of the two nodes. -/
theorem answers_iff_of_le_six (hm : m ≤ 6) (hW : W = V.after ((movePlan V pass i k v).take m))
    (hroute : ∀ key, ∃ j s, Routed W key j s) (hbound : ∀ {j s}, W.table.span j = some s → j < n) :
    Answers n V W ↔ (∀ e ∈ (V.node i).data.entries, (∃ s, Routed W e.1 i s) ∨ e.2 = []) ∧
      ∀ e ∈ (V.node (pass.peer i)).data.entries, (∃ s, Routed W e.1 (pass.peer i) s) ∨ e.2 = [] := by
  rw [answers_iff hV hroute hbound (hW ▸ data_take V pass k v hm)]
  constructor
  · exact fun hall => ⟨hall i hmove.adjacent.lt, hall _ hmove.adjacent.peer_lt⟩
  · rintro ⟨hsrc, hdst⟩ j hj e he
    by_cases hji : j = i
    · exact hji ▸ hsrc e (hji ▸ he)
    · by_cases hjp : j = pass.peer i
      · exact hjp ▸ hdst e (hjp ▸ he)
      · obtain ⟨s, hs⟩ := hV.exists_span hj
        exact Or.inl ⟨s, .of_mem (by rw [hW, span_take hm hji hjp, hs]) (hV.within hs e he)⟩

omit hV hmove in
/-- What stays in the source is routed to it by its new interval. -/
theorem routed_rest (hi : W.table.span i = some (keyEnds ((V.node i).data.erase k))) {e : Bytes × Bytes}
    (he : e ∈ (V.node i).data.entries) (hek : e.1 ≠ k) : ∃ s, Routed W e.1 i s :=
  ⟨_, .of_mem hi (keyEnds_bounds (OrdMap.mem_erase.mpr ⟨hek, he⟩))⟩

omit hmove in
theorem answers_take_two (hm : m ≤ 2) (hW : W = V.after ((movePlan V pass i k v).take m)) : Answers n V W := by
  intro key _ j s hr
  rw [hW, data_take V pass k v (by omega), hV.lookup_routed (hr.of_table (by rw [hW, table_take_two V pass k v hm]))]

/-- The entry of the source is gone, and its keys are routed to other nodes. -/
theorem answers_take_three (hW : W = V.after ((movePlan V pass i k v).take 3)) (hroute : ∀ key, ∃ j s, Routed W key j s)
    (hbound : ∀ {j s}, W.table.span j = some s → j < n) :
    Answers n V W ↔ ∀ e ∈ (V.node i).data.entries, e.2 = [] := by
  have htable : W.table = V.table.erase i := by rw [hW, table_take_three]
  rw [answers_iff_of_le_six hV hmove (by omega) hW hroute hbound]
  constructor
  · rintro ⟨hsrc, -⟩ e he
    refine (hsrc e he).resolve_left ?_
    rintro ⟨s, hr⟩
    have hspan := hr.span
    rw [htable, Spans.span_erase_self] at hspan
    cases hspan
  · refine fun hsrc => ⟨fun e he => Or.inr (hsrc e he), fun e he => Or.inl ?_⟩
    obtain ⟨t, ht⟩ := hV.exists_span hmove.adjacent.peer_lt
    exact ⟨t, .of_mem (by rw [htable, Spans.span_erase_of_ne _ hmove.adjacent.peer_ne, ht]) (hV.within ht e he)⟩

/-- The source has its new interval, which does not take in the moved key. -/
theorem answers_take_four (hW : W = V.after ((movePlan V pass i k v).take 4)) (hroute : ∀ key, ∃ j s, Routed W key j s)
    (hbound : ∀ {j s}, W.table.span j = some s → j < n) : Answers n V W ↔ pass = .forward ∨ v = [] := by
  have htable : W.table = V.table.set i _ (source_fits hV hmove) := by rw [hW, table_take_four hV hmove]
  have hi : W.table.span i = some (keyEnds ((V.node i).data.erase k)) := by rw [htable, Spans.span_set_self]
  have hother : ∀ {j}, j ≠ i → W.table.span j = V.table.span j := fun hji => by
    rw [htable, Spans.span_set_of_ne _ hji]
  obtain ⟨t, ht⟩ := hV.exists_span hmove.adjacent.peer_lt
  have hpeer : W.table.span (pass.peer i) = some t := (hother hmove.adjacent.peer_ne).trans ht
  rw [answers_iff_of_le_six hV hmove (by omega) hW hroute hbound, source_iff hmove fun e => routed_rest hi,
    routed_moved hV hmove hi fun hji hs => (hother hji) ▸ hs]
  constructor
  · rintro ⟨(hfwd | hnone) | hnil, -⟩
    · exact Or.inl hfwd
    · cases pass with
      | forward => exact Or.inl rfl
      | backward =>
          rw [hnone (Pass.backward.peer i) (Nat.sub_lt hmove.adjacent.1 Nat.one_pos)] at hpeer
          cases hpeer
    · exact Or.inr hnil
  · exact fun hk => ⟨hk.imp_left Or.inl, fun e he => Or.inl ⟨t, .of_mem hpeer (hV.within ht e he)⟩⟩

/-- The entry of the target is gone too. -/
theorem answers_take_five (hW : W = V.after ((movePlan V pass i k v).take 5)) (hroute : ∀ key, ∃ j s, Routed W key j s)
    (hbound : ∀ {j s}, W.table.span j = some s → j < n) :
    Answers n V W ↔ (∀ e ∈ (V.node (pass.peer i)).data.entries, e.2 = []) ∧ (pass = .forward ∨ i = 1 ∨ v = []) := by
  have hne := hmove.adjacent.peer_ne
  have htable : W.table = (V.table.set i _ (source_fits hV hmove)).erase (pass.peer i) := by
    rw [hW, table_take_five hV hmove]
  have hi : W.table.span i = some (keyEnds ((V.node i).data.erase k)) := by
    rw [htable, Spans.span_erase_of_ne _ hne.symm, Spans.span_set_self]
  have hpeer : W.table.span (pass.peer i) = none := by rw [htable, Spans.span_erase_self]
  have hother : ∀ {j}, j ≠ i → j ≠ pass.peer i → W.table.span j = V.table.span j := fun hji hjp => by
    rw [htable, Spans.span_erase_of_ne _ hjp, Spans.span_set_of_ne _ hji]
  have hsub : ∀ {j s}, j ≠ i → W.table.span j = some s → V.table.span j = some s := fun {j s} hji hs => by
    by_cases hjp : j = pass.peer i
    · rw [hjp, hpeer] at hs
      cases hs
    · rwa [hother hji hjp] at hs
  rw [answers_iff_of_le_six hV hmove (by omega) hW hroute hbound, source_iff hmove fun e => routed_rest hi,
    routed_moved hV hmove hi hsub, and_comm]
  refine and_congr ⟨fun hdst e he => (hdst e he).resolve_left ?_, fun hdst e he => Or.inr (hdst e he)⟩ ?_
  · rintro ⟨s, hr⟩
    rw [hr.span] at hpeer
    cases hpeer
  · rw [or_assoc]
    refine or_congr_right' fun hback => or_congr_left ?_
    obtain rfl : pass = .backward := by cases pass <;> first | rfl | exact absurd rfl hback
    have hpos := hmove.adjacent.1
    constructor
    · intro hnone
      by_contra h1
      obtain ⟨s, hs⟩ := hV.exists_span (j := i - 2) (by have := hmove.adjacent.2; omega)
      have h2 := hother (j := i - 2) (by omega) (by simp only [Pass.peer]; omega)
      rw [hnone _ (by omega), hs] at h2
      cases h2
    · rintro rfl j hj
      obtain rfl : j = 0 := by omega
      exact hpeer

/-- Both entries are new, and the moved key is routed to the target, which does not have it. -/
theorem answers_take_six (hW : W = V.after ((movePlan V pass i k v).take 6)) (hroute : ∀ key, ∃ j s, Routed W key j s)
    (hbound : ∀ {j s}, W.table.span j = some s → j < n) : Answers n V W ↔ v = [] := by
  have hne := hmove.adjacent.peer_ne
  have htable := table_take_six hV hmove (m := 6) le_rfl
  rw [← hW] at htable
  have hi : W.table.span i = some (keyEnds ((V.node i).data.erase k)) := by
    rw [htable, Spans.span_set_of_ne _ hne.symm, Spans.span_set_self]
  have hpeer : W.table.span (pass.peer i) = some (keyEnds ((V.node (pass.peer i)).data.insert k v)) := by
    rw [htable, Spans.span_set_self]
  have hmem : ∀ {e : Bytes × Bytes}, e ∈ ((V.node (pass.peer i)).data.insert k v).entries →
      ∃ s, Routed W e.1 (pass.peer i) s := fun he => ⟨_, .of_mem hpeer (keyEnds_bounds he)⟩
  obtain ⟨s, hk⟩ := hmem (e := (k, v)) (OrdMap.mem_insert.mpr (Or.inl rfl))
  rw [answers_iff_of_le_six hV hmove le_rfl hW hroute hbound, source_iff hmove fun e => routed_rest hi]
  constructor
  · rintro ⟨⟨t, hk'⟩ | hnil, -⟩
    · exact absurd (hk.eq hk') hne
    · exact hnil
  · refine fun hnil => ⟨Or.inr hnil, fun e he => Or.inl ?_⟩
    by_cases hek : e.1 = k
    · exact hek ▸ ⟨s, hk⟩
    · exact hmem (OrdMap.mem_insert.mpr (Or.inr ⟨hek, he⟩))

omit hV in
/-- Behind the commit of the source the moved pair is nowhere, and every other pair is where it will be. -/
theorem get?_take_seven (key : Bytes) (hj : j < n) (hV : Placed n V) :
    ((V.after ((movePlan V pass i k v).take 7)).node j).data.get? key =
      if key = k then none else ((V.after (movePlan V pass i k v)).node j).data.get? key := by
  have hne := hmove.adjacent.peer_ne
  have hnode : ((V.after ((movePlan V pass i k v).take 7)).node j).data =
      if j = i then (V.node i).data.erase k else (V.node j).data := by
    by_cases hji : j = i
    · subst hji
      simp [movePlan, View.change, Node.commit, Log.apply, hne.symm]
    · by_cases hjp : j = pass.peer i
      · subst hjp
        simp [movePlan, View.change, hne]
      · simp [movePlan, View.change, hji, hjp]
  rw [hnode, node_after_move hmove]
  by_cases hji : j = i
  · subst hji
    rw [if_pos rfl, Function.update_of_ne hne.symm, Function.update_self, OrdMap.get?_erase]
    by_cases hk : key = k <;> simp [hk]
  · rw [if_neg hji]
    have hnone : key = k → (V.node j).data.get? key = none := fun hk =>
      hk ▸ hV.get?_of_ne hmove.adjacent.lt hj hmove.mem hji
    by_cases hjp : j = pass.peer i
    · subst hjp
      rw [Function.update_self, OrdMap.get?_insert]
      by_cases hk : key = k
      · rw [hnone hk, if_pos hk]
      · simp [hk]
    · rw [Function.update_of_ne hjp, Function.update_of_ne hji]
      by_cases hk : key = k
      · rw [hnone hk, if_pos hk]
      · simp [hk]

theorem lookup_move (hV' : Placed n (V.after (movePlan V pass i k v))) (key : Bytes) :
    (V.after (movePlan V pass i k v)).lookup n key = V.lookup n key := by
  apply Option.ext
  intro x
  rw [hV'.lookup_eq_some, hV.lookup_eq_some, held_move hV hmove]

theorem answers_take_seven (hV' : Placed n (V.after (movePlan V pass i k v)))
    (hW : W = V.after ((movePlan V pass i k v).take 7)) (hroute : ∀ key, ∃ j s, Routed W key j s)
    (hbound : ∀ {j s}, W.table.span j = some s → j < n) : Answers n V W ↔ v = [] := by
  have hlookup := hV.lookup_of_mem hmove.adjacent.lt hmove.mem
  have htable : W.table = (V.after (movePlan V pass i k v)).table := by
    rw [hW, table_take_six hV hmove (by omega), table_after_move hV hmove]
  constructor
  · intro hall
    obtain ⟨j, s, hr⟩ := hroute k
    have hk := hall k (hV.stored hmove.adjacent.lt _ hmove.mem).2.askable j s hr
    rw [hW, get?_take_seven hmove k (hbound hr.span) hV, if_pos rfl, hlookup] at hk
    exact hk.symm
  · rintro rfl key _ j s hr
    rw [hW, get?_take_seven hmove key (hbound hr.span) hV]
    by_cases hk : key = k
    · rw [if_pos hk, hk, hlookup]
      rfl
    · rw [if_neg hk, hV'.lookup_routed (hr.of_table htable), lookup_move hV hmove hV']

theorem answers_take_eight (hV' : Placed n (V.after (movePlan V pass i k v))) :
    Answers n V (V.after (movePlan V pass i k v)) := fun key _ j s hr => by
  rw [hV'.lookup_routed hr, lookup_move hV hmove hV']

omit hmove in
/-- Sound changes of the first `n` nodes leave sound intervals of these. -/
theorem sound_after {cs : List Change} (hcs : ∀ ch ∈ cs, ch.Sound ∧ ∀ l s, ch = .file l s → l < n) {s : Bytes × Bytes}
    (hs : (V.after cs).table.span j = some s) : j < n ∧ (ControlMeta.mk s.1 s.2 j).Sound := by
  have hgo : ∀ V : View, (∀ {j s}, V.table.span j = some s → j < n ∧ (ControlMeta.mk s.1 s.2 j).Sound) →
      (V.after cs).table.span j = some s → j < n ∧ (ControlMeta.mk s.1 s.2 j).Sound := by
    clear hs
    induction cs with
    | nil => exact fun V hV hs => hV hs
    | cons ch cs ih =>
        intro V hV hs
        obtain ⟨hsound, hlt⟩ := hcs ch List.mem_cons_self
        refine ih (fun ch' hch' => hcs ch' (List.mem_cons_of_mem _ hch')) (V.change ch) (fun {j s} hs => ?_) hs
        cases ch with
        | log _ _ | commit _ => exact hV hs
        | unfile l =>
            by_cases hjl : j = l
            · simp [hjl] at hs
            · exact hV (by simpa [hjl] using hs)
        | file l t =>
            rcases Spans.span_put_cases hs with ⟨rfl, rfl⟩ | hs
            · exact ⟨hlt _ _ rfl, hsound⟩
            · exact hV hs
  exact hgo V (fun hs => ⟨hV.lt_of_span hs, hV.sound hs⟩) hs

theorem filled_take (m : ℕ) : ∃ j s, (V.after ((movePlan V pass i k v).take m)).table.span j = some s := by
  have hne := hmove.adjacent.peer_ne
  obtain ⟨s, hs⟩ := hV.exists_span hmove.adjacent.lt
  obtain ⟨t, ht⟩ := hV.exists_span hmove.adjacent.peer_lt
  by_cases h2 : m ≤ 2
  · exact ⟨i, s, by rw [table_take_two V pass k v h2, hs]⟩
  by_cases h6 : 6 ≤ m
  · exact ⟨pass.peer i, _, by rw [table_take_six hV hmove h6, Spans.span_set_self]⟩
  rcases (by omega : m = 3 ∨ m = 4 ∨ m = 5) with rfl | rfl | rfl
  · exact ⟨pass.peer i, t, by rw [table_take_three, Spans.span_erase_of_ne _ hne, ht]⟩
  · exact ⟨i, _, by rw [table_take_four hV hmove, Spans.span_set_self]⟩
  · exact ⟨i, _, by rw [table_take_five hV hmove, Spans.span_erase_of_ne _ hne.symm, Spans.span_set_self]⟩

/-- Once both entries are new, the nodes are placed at the end of the plan. -/
theorem placed_take (hm : 7 ≤ m) (hsound : ∀ ch ∈ (movePlan V pass i k v).take m, ch.Sound) :
    Placed n (V.after (movePlan V pass i k v)) := by
  refine (Allowed.move hmove).placed hV fun ch hch => ?_
  have hsplit : (movePlan V pass i k v).take 7 ++ [.commit (pass.peer i)] = movePlan V pass i k v := rfl
  rw [← hsplit] at hch
  rcases List.mem_append.mp hch with hch | hch
  · exact hsound ch (List.take_subset_take_left _ hm hch)
  · rw [List.mem_singleton.mp hch]
    trivial

theorem readable_take (hsound : ∀ ch ∈ (movePlan V pass i k v).take m, ch.Sound) :
    Readable n (V.after ((movePlan V pass i k v).take m)) where
  filled := filled_take hV hmove m
  sound := by
    refine sound_after hV fun ch hch => ⟨hsound ch hch, ?_⟩
    rintro l s rfl
    have hl : l = i ∨ l = pass.peer i := by
      have hmem := List.mem_of_mem_take hch
      simp only [movePlan, List.mem_cons, List.not_mem_nil, Change.file.injEq, reduceCtorEq, or_false, false_or] at hmem
      exact hmem.imp And.left And.left
    rcases hl with rfl | rfl
    · exact hmove.adjacent.lt
    · exact hmove.adjacent.peer_lt
  stored := fun {j} hj e he => by
    by_cases h6 : m ≤ 6
    · rw [data_take V pass k v h6] at he
      exact (hV.stored hj e he).2
    have hV' := placed_take hV hmove (by omega) hsound
    by_cases h7 : m = 7
    · subst h7
      have hget := OrdMap.get?_eq_some.mpr he
      rw [get?_take_seven hmove e.1 hj hV] at hget
      split_ifs at hget
      exact (hV'.stored hj e (OrdMap.get?_eq_some.mp hget)).2
    · rw [List.take_of_length_le (by simp [movePlan]; omega)] at he
      exact (hV'.stored hj e he).2

/-- After a restart every `get` prints the value from before the migration, exactly if the stop loses none. -/
theorem answers_take (hsound : ∀ ch ∈ (movePlan V pass i k v).take m, ch.Sound)
    (hroute : ∀ key, ∃ j s, Routed (V.after ((movePlan V pass i k v).take m)) key j s) :
    Answers n V (V.after ((movePlan V pass i k v).take m)) ↔
      Survives m pass i (V.node i).data (V.node (pass.peer i)).data := by
  have hbound : ∀ {j s}, (V.after ((movePlan V pass i k v).take m)).table.span j = some s → j < n := fun hs =>
    ((readable_take hV hmove hsound).sound hs).1
  have hblank : (∀ e ∈ pass.extreme? (V.node i).data, e.2 = []) ↔ v = [] := by simp [hmove.picked]
  have hmoved : 6 ≤ m → m ≤ 7 → (v = [] ↔ Survives m pass i (V.node i).data (V.node (pass.peer i)).data) := by
    intro h6 h7
    constructor
    · exact fun hnil => ⟨fun h => by omega, fun h => by omega, fun _ _ => Or.inr (Or.inr (hblank.mpr hnil))⟩
    · intro h
      rcases h.moved (by omega) (by omega) with ⟨hm, -⟩ | ⟨hm, -⟩ | hnil
      · omega
      · omega
      · exact hblank.mp hnil
  by_cases h2 : m ≤ 2
  · exact ⟨fun _ => ⟨fun h => by omega, fun h => by omega, fun h => by omega⟩, fun _ => answers_take_two hV h2 rfl⟩
  by_cases h8 : 8 ≤ m
  · rw [List.take_of_length_le (by simpa [movePlan] using h8)]
    have hV' := placed_take hV hmove (by omega) hsound
    exact ⟨fun _ => ⟨fun h => by omega, fun h => by omega, fun _ h => by omega⟩, fun _ => answers_take_eight hV hmove hV'⟩
  rcases (by omega : m = 3 ∨ m = 4 ∨ m = 5 ∨ m = 6 ∨ m = 7) with rfl | rfl | rfl | rfl | rfl
  · rw [answers_take_three hV hmove rfl hroute hbound]
    exact ⟨fun h => ⟨fun _ => h, fun h => by omega, fun h => by omega⟩, fun h => h.sourceOut rfl⟩
  · rw [answers_take_four hV hmove rfl hroute hbound]
    constructor
    · exact fun h => ⟨fun h => by omega, fun h => by omega, fun _ _ => h.imp (⟨by omega, ·⟩) (Or.inr ∘ hblank.mpr)⟩
    · intro h
      rcases h.moved (by omega) (by omega) with ⟨-, hfwd⟩ | ⟨hm, -⟩ | hnil
      · exact Or.inl hfwd
      · omega
      · exact Or.inr (hblank.mp hnil)
  · rw [answers_take_five hV hmove rfl hroute hbound]
    constructor
    · rintro ⟨htarget, hk⟩
      exact ⟨fun h => by omega, fun _ => htarget, fun _ _ => hk.imp (⟨by omega, ·⟩) (Or.imp (⟨rfl, ·⟩) hblank.mpr)⟩
    · intro h
      refine ⟨h.targetOut rfl, ?_⟩
      rcases h.moved (by omega) (by omega) with ⟨-, hfwd⟩ | ⟨-, h1⟩ | hnil
      · exact Or.inl hfwd
      · exact Or.inr (Or.inl h1)
      · exact Or.inr (Or.inr (hblank.mp hnil))
  · rw [answers_take_six hV hmove rfl hroute hbound]
    exact hmoved le_rfl (by omega)
  · rw [answers_take_seven hV hmove (placed_take hV hmove le_rfl hsound) rfl hroute hbound]
    exact hmoved (by omega) le_rfl

end Move

/-! ## Stops in a run -/

/-- The event writes to a log, to the metadata, or commits. -/
def Act.writes : Act → Bool
  | .exchange _ msg =>
    match decodeRequest msg with
    | .ok (.log _) => true
    | .ok .commitLog => true
    | _ => false
  | .metaDelete _ | .metaPut _ => true
  | _ => false

/-- The number of writes among the events. -/
def writes (mid : List Event) : ℕ := mid.countP fun x => x.act.writes

instance Act.decidableIsMark : DecidablePred Act.IsMark := fun a => by
  cases a <;> unfold Act.IsMark <;> infer_instance

theorem Change.Performs.writes {ch : Change} {a : Act} (h : ch.Performs V a) : a.writes = true := by
  cases a with
  | exchange fd msg =>
      cases ch with
      | log _ _ =>
          obtain ⟨-, r, hdec, -⟩ := h
          rw [Act.writes, hdec]
      | commit _ => rw [Act.writes, h.2]
      | _ => exact False.elim h
  | metaDelete _ | metaPut _ => rfl
  | _ => cases ch <;> exact False.elim h

theorem Request.Reads.writes {fd : ℕ} {msg : Bytes} {q : Request} (hr : q.Reads) (hq : decodeRequest msg = .ok q) :
    (Act.exchange fd msg).writes = false := by
  rw [Act.writes, hq]
  cases q with
  | log _ | commitLog => exact hr.elim
  | _ => rfl

/-- Without marks, the writes are the changes made. -/
theorem Traced.length_made (ht : Traced n marks σ₀ h σ) (hmid : ∀ x ∈ h, ¬x.act.IsMark) :
    σ.made.length = σ₀.made.length + writes h := by
  induction ht with
  | start => rfl
  | @event h σ σ' x ht hstep _ _ _ ih =>
      have hx := hmid _ List.mem_cons_self
      have hold := ih fun x hx => hmid x (List.mem_cons_of_mem _ hx)
      obtain ⟨act, before, after⟩ := x
      cases hstep with
      | read _ hq hr =>
          rw [writes, List.countP_cons_of_neg (by simp [hr.writes hq])]
          exact hold
      | mark ha => exact absurd ha hx
      | change _ _ _ hperf =>
          rw [writes, List.countP_cons_of_pos (p := fun x : Event => x.act.writes) hperf.writes, Stage.make,
            List.length_append, hold, writes]
          rfl

/-- The events behind a mark are the beginning of a plan from what the cluster showed at the mark. -/
theorem Traced.behind {e₀ : Event} {newer older : List Event} (ht : Traced n marks σ₀ (newer ++ (mid ++ e₀ :: older)) σ)
    (he₀ : e₀.act.IsMark) (hmid : ∀ x ∈ mid, ¬x.act.IsMark) {e : Event} (he : (mid ++ [e₀]).head? = some e) :
    ∃ V made, Shows n e₀.after V ∧ Shows n e.after (V.after made) ∧ Valid n ⟨e₀.act, V, made⟩ ∧
      made.length = writes mid := by
  obtain ⟨⟨mark, base, made⟩, ht, -⟩ := ht.append
  obtain ⟨σ₃, σ₄, -, hstep, -, -, hafter, htmid⟩ := ht.split
  obtain ⟨-, rfl⟩ := hstep.of_mark he₀
  obtain ⟨rfl, rfl⟩ : mark = e₀.act ∧ base = σ₃.view := htmid.base_eq hmid
  refine ⟨σ₃.view, made, hafter, ?_, htmid.valid, (htmid.length_made hmid).trans (Nat.zero_add _)⟩
  cases mid with
  | nil =>
      obtain rfl := Option.some.inj he
      cases htmid
      exact hafter
  | cons x mid =>
      obtain rfl := Option.some.inj he
      cases htmid with
      | event _ _ _ _ hafter' => exact hafter'

/-- Wherever the control node stops in a migration of a run, every `get` after a restart prints the value from before
the migration exactly if the stop loses none. -/
theorem restart_iff (F : Type) [Double F] (hroom : Connects room n) (hw : Fresh n w) {cs : List Command}
    (hcs : ∀ com ∈ cs, com.Valid) {newer older : List Event} {e₀ e : Event}
    (hsplit : (run F cs w).2.history = newer ++ (mid ++ e₀ :: older)) (he₀ : e₀.act = .iteration pass i)
    (hmid : ∀ x ∈ mid, ¬x.act.IsMark) (he : (mid ++ [e₀]).head? = some e) :
    (∀ key, Askable key → getAfterRestart room n e.after key = (.ok (), [e₀.after.value n key])) ↔
      Survives (writes mid) pass i (e₀.after.data i) (e₀.after.data (pass.peer i)) := by
  obtain ⟨-, V₀, σ, answers, hsim⟩ := hw.traced F hcs
  obtain ⟨new, hnew, ht⟩ := hsim.traced
  rw [hsplit, show (Origin.first V₀).history = [] from rfl, List.append_nil] at hnew
  rw [← hnew] at ht
  obtain ⟨V, made, hafter₀, hafter, hvalid, hlen⟩ := ht.behind (he₀ ▸ trivial) hmid he
  have hV : Placed n V := hvalid.placed
  have hanswers : ∀ W, Shows n e.after W → Readable n W →
      ((∀ key, Askable key → getAfterRestart room n e.after key = (.ok (), [e₀.after.value n key])) ↔ Answers n V W) := by
    intro W hW hread
    refine forall_congr' fun key => forall_congr' fun hkey => ?_
    rw [hafter₀.value]
    constructor
    · intro hget j s hr
      rw [restart_eq hroom hW hread hkey hr] at hget
      simpa using hget
    · intro hall
      obtain ⟨j, s, hr⟩ := hW.routed hread key
      rw [restart_eq hroom hW hread hkey hr, hall j s hr]
  rcases hvalid.plan with hnil | ⟨p, hp, hpre⟩
  · have hzero : writes mid = 0 := by rw [← hlen, show made = [] from hnil, List.length_nil]
    have hread : Readable n V := hV.readable hw.pos
    rw [show made = [] from hnil] at hafter
    rw [hzero, hanswers V hafter hread]
    exact ⟨fun _ => ⟨fun h => by omega, fun h => by omega, fun h => by omega⟩, fun _ _ _ _ _ hr => by rw [hV.lookup_routed hr]⟩
  · obtain ⟨k, v, hmove, rfl⟩ := Allowed.of_iteration (he₀ ▸ hp)
    obtain rfl : made = (movePlan V pass i k v).take (writes mid) := hlen ▸ List.prefix_iff_eq_take.mp hpre
    have hread := readable_take hV hmove hvalid.sound
    rw [hanswers _ hafter hread, answers_take hV hmove hvalid.sound (hafter.routed hread), hafter₀.data hmove.adjacent.lt,
      hafter₀.data hmove.adjacent.peer_lt]

/-- A history split at two of its events. -/
theorem split_at (h : List Event) {a b : ℕ} (hb : a + b < h.length) :
    h = h.take a ++ ((h.drop a).take b ++ h.get ⟨a + b, hb⟩ :: h.drop (a + b + 1)) := by
  rw [List.get_eq_getElem, ← List.drop_eq_getElem_cons, ← List.drop_drop, List.take_append_drop, List.take_append_drop]

/-- The history of two `put` commands, the second of which moves a pair. -/
def sampleHistory : List Event := (DistRocks.run ℚ twoPuts twoStores).2.history

theorem length_sampleHistory : 6 + 10 < sampleHistory.length := by decide +kernel

/-- The test before the migration. -/
def sampleMark : Event := sampleHistory.get ⟨6 + 10, length_sampleHistory⟩

/-- The events of the migration up to the commit of its source. -/
def sampleEvents : List Event := (sampleHistory.drop 6).take 10

theorem sampleEvents_ne_nil : sampleEvents ++ [sampleMark] ≠ [] := by simp

/-- The commit of the source. -/
def sampleStop : Event := (sampleEvents ++ [sampleMark]).head sampleEvents_ne_nil

theorem restart_iff_twoPuts :
    (∀ key, Askable key → getAfterRestart gnuRoom 2 sampleStop.after key = (.ok (), [sampleMark.after.value 2 key])) ↔
      Survives (writes sampleEvents) .backward 1 (sampleMark.after.data 1) (sampleMark.after.data 0) :=
  restart_iff ℚ (by decide) twoStores_fresh (by decide) (split_at sampleHistory length_sampleHistory) (by decide +kernel)
    (by decide +kernel) (List.head?_eq_some_head sampleEvents_ne_nil)

/-- The claim that a restart in the middle of a migration loses no value is false: between the two commits the moved pair
is in no store. -/
theorem restart_loses :
    ∃ (cs : List Command) (newer mid older : List Event) (e₀ e : Event) (pass : Pass) (i : ℕ) (key : Bytes),
      (∀ com ∈ cs, com.Valid) ∧ (DistRocks.run ℚ cs twoStores).2.history = newer ++ (mid ++ e₀ :: older) ∧
        e₀.act = .iteration pass i ∧ (∀ x ∈ mid, ¬x.act.IsMark) ∧ (mid ++ [e₀]).head? = some e ∧ Askable key ∧
        e.act = .exchange i Request.commitLog.message ∧ e₀.after.value 2 key = text "x" ∧
        getAfterRestart gnuRoom 2 e.after key = (.ok (), [[]]) :=
  ⟨twoPuts, _, sampleEvents, _, sampleMark, sampleStop, .backward, 1, text "a", by decide,
    split_at sampleHistory length_sampleHistory, by decide +kernel, by decide +kernel,
    List.head?_eq_some_head sampleEvents_ne_nil, ⟨by decide, by decide⟩, by decide +kernel, by decide +kernel,
    by decide +kernel⟩

end DistRocks
