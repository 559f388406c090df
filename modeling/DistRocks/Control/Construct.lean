import DistRocks.Control.Impl

/-!
# The constructor of the control node

* `decimal_injective` : different nodes get different keys;
* `Connects room n` : the block that the constructor allocates has room for the connections; `construct_ends` : else it
  writes past the block;
* `Built i w` : the metadata is the records of the nodes `0 .. i-1`, each under its decimal number; `construct_built` :
  the constructor over empty metadata writes these;
* `virtualFds` : the nodes of the records in key order; `virtualFds_construct_iff` : they are in order up to nine nodes;
* `interrupted` : the constructor stopped behind some of its writes; `construct_kept` : over metadata that is not empty
  it writes nothing; `construct_resumed_iff` : so a second constructor completes the first one only if that wrote
  nothing or all.
-/

namespace DistRocks

open Proc

/-! ## Decimal numbers -/

theorem chars_decimal (i : ℕ) : (decimal i).map (fun b => Char.ofNat b.val) = Nat.toDigits 10 i := by
  rw [decimal, List.map_map]
  refine (List.map_congr_left fun c hc => ?_).trans (List.map_id _)
  have hdigit := Char.isDigit_iff_toNat.mp (Nat.isDigit_of_mem_toDigits (by decide) (by decide) hc)
  have hlt : c.toNat < 256 := hdigit.2.trans_lt (by decide)
  simp only [Function.comp_apply, Fin.val_ofNat, Nat.mod_eq_of_lt hlt, Char.ofNat_toNat, id_eq]

theorem nulFree_decimal (i : ℕ) : NulFree (decimal i) := fun h => by
  obtain ⟨c, hc, h0⟩ := List.mem_map.mp h
  have hdigit := Char.isDigit_iff_toNat.mp (Nat.isDigit_of_mem_toDigits (by decide) (by decide) hc)
  have hlt : c.toNat < 256 := hdigit.2.trans_lt (by decide)
  have hval := congrArg Fin.val h0
  rw [Fin.val_ofNat, Nat.mod_eq_of_lt hlt] at hval
  have hpos : 0 < c.toNat := lt_of_lt_of_le (by decide) hdigit.1
  exact hpos.ne' hval

theorem decimal_injective : Function.Injective decimal := fun i j h => by
  have hdigits : Nat.toDigits 10 i = Nat.toDigits 10 j := by
    rw [← chars_decimal, h, chars_decimal]
  rw [← Nat.ofDigitChars_ten_toDigits (n := i), hdigits, Nat.ofDigitChars_ten_toDigits]

theorem decimal_lt : ∀ j < 9, ∀ i < j, decimal (i + 1) < decimal (j + 1) := by decide

/-! ## The block of the connections -/

/-- The record that the constructor writes for node `j`. -/
def firstRecord (j : ℕ) : ControlMeta := ⟨decimal (j + 1), decimal (j + 1), j⟩

/-- The block of `malloc(store_nodes.size())` has room for the connections of `n` nodes. -/
def Connects (room : ℕ → ℕ) (n : ℕ) : Prop := sizeofNetFile * n ≤ room n

instance Connects.decidable (room : ℕ → ℕ) (n : ℕ) : Decidable (Connects room n) :=
  inferInstanceAs (Decidable (sizeofNetFile * n ≤ room n))

/-- What `malloc_usable_size` says of a block of the GNU allocator: blocks come in steps of 16 bytes, from 24 bytes on. -/
def gnuRoom (size : ℕ) : ℕ := max 24 ((size + 23) / 16 * 16 - 8)

/-- With the GNU allocator there is room for six nodes. -/
theorem connects_gnuRoom_iff (n : ℕ) : Connects gnuRoom n ↔ n ≤ 6 := by
  rw [Connects, gnuRoom, sizeofNetFile]
  omega

variable {room : ℕ → ℕ}

theorem ends_storeNetFile {room i : ℕ} {w : World} {Q : Unit → World → Prop} {H : Fault → World → Prop} :
    Ends (storeNetFile room i) w Q H ↔ if room < sizeofNetFile * (i + 1) then H .overrun w else Q () w := by
  rw [storeNetFile]
  split_ifs <;> rfl

/-- A constructor ends normally only if the block has room for all connections. -/
theorem construct_ends (room : ℕ → ℕ) (c : Cluster) (n : ℕ) :
    Ends (construct room n) (World.boot c) (fun _ _ => Connects room n) (fun e _ => e = .overrun) := by
  rw [construct, ends_bind, ends_get, ends_bind]
  refine (ends_forEachWhile (I := fun is _ => ∃ i, is = (List.range n).drop i ∧ i ≤ n ∧ sizeofNetFile * i ≤ room n)
    (Q := fun _ _ => Connects room n) (fun j is w hI => ?_) (fun w hI => ?_) _ _ ?_).mono (fun _ w hw => hw) fun _ _ he => he
  · obtain ⟨i, his, hi, -⟩ := hI
    have hlt : i < n := by
      by_contra hge
      rw [List.drop_of_length_le (by simpa using hge)] at his
      cases his
    rw [List.drop_eq_getElem_cons (by simpa using hlt), List.getElem_range] at his
    obtain ⟨rfl, rfl⟩ := List.cons.inj his
    have htoSlice := ControlMeta.toSlice_eq (firstRecord j) w.sendBuff
    rw [ends_bind, constructNode, ends_bind, ends_modify, ends_bind, ends_storeNetFile]
    split_ifs with hroom hsize
    · rfl
    · rw [ends_bind, ends_get]
      simp only
      rw [show (ControlMeta.mk (decimal (j + 1)) (decimal (j + 1)) j) = firstRecord j from rfl, htoSlice]
      rcases w.sendBuff.put_cases (encMeta (firstRecord j)) with ⟨-, b, hb, -⟩ | ⟨-, he⟩
      · rw [hb]
        exact ⟨j + 1, rfl, hlt, not_lt.mp hroom⟩
      · rw [he]
        rfl
    · exact ⟨j + 1, rfl, hlt, not_lt.mp hroom⟩
  · obtain ⟨i, his, hi, hroom⟩ := hI
    have hle : n ≤ i := by simpa using List.drop_eq_nil_iff.mp his.symm
    exact (le_antisymm hi hle) ▸ hroom
  · exact ⟨0, rfl, Nat.zero_le n, Nat.zero_le _⟩

/-! ## The loop -/

/-- The metadata is the first records of the nodes `0 .. i-1`. -/
def Built (i : ℕ) (w : World) : Prop :=
  ∃ m, w.cluster.metaDb = .reliable m ∧ ∀ e, e ∈ m.entries ↔ ∃ j < i, e = (decimal (j + 1), encMeta (firstRecord j))

variable {w : World} {n i : ℕ}

/-- The numbers of nodes are `int`s, and the first records of these fit a buffer. -/
theorem firstRecord_sound {j : ℕ} (hj : j < 2147483648) : (firstRecord j).Sound := by
  have hlen : (decimal (j + 1)).length ≤ 10 := by
    rw [decimal, List.length_map, Nat.length_toDigits_le_iff (by decide) (by decide)]
    omega
  refine ⟨nulFree_decimal _, nulFree_decimal _, ?_, by simp only [firstRecord]; omega⟩
  rw [ControlMeta.length_encMeta]
  have hM : MAXLINE = 40960 := rfl
  simp only [firstRecord]
  omega

/-- One round writes one record, unless the number is too long for a buffer. -/
theorem constructNode_built {room : ℕ} (hroom : sizeofNetFile * (i + 1) ≤ room) (h : Built i w) :
    Ends (constructNode room 0 i) w
      (fun _ w' => Built (i + 1) w' ∧ w'.storeNodeCount = w.storeNodeCount + 1 ∧ w'.cluster.stores = w.cluster.stores ∧
        w'.refusals = w.refusals ∧ w'.answers = w.answers ∧
        ∃ a, w'.history = ⟨a, w.cluster, w'.cluster⟩ :: w.history)
      (fun _ w' => Built i w' ∧ MAXLINE < (encMeta (firstRecord i)).length) := by
  obtain ⟨m, hm, hmem⟩ := h
  have htoSlice := ControlMeta.toSlice_eq (firstRecord i) w.sendBuff
  rw [constructNode, ends_bind, ends_modify, ends_bind, ends_storeNetFile, if_neg hroom.not_gt, if_pos rfl, ends_bind,
    ends_get]
  simp only
  rw [show (ControlMeta.mk (decimal (i + 1)) (decimal (i + 1)) i) = firstRecord i from rfl, htoSlice]
  rcases w.sendBuff.put_cases (encMeta (firstRecord i)) with ⟨-, b, hb, -⟩ | ⟨hlong, he⟩
  · rw [hb, ok_bind, ends_bind]
    refine ⟨⟨m.insert (decimal (i + 1)) (encMeta (firstRecord i)), ?_, fun e => ?_⟩, rfl, rfl, rfl, rfl, _, rfl⟩
    · show w.cluster.metaDb.put _ _ = _
      rw [hm, Buff.take_put hb]
      rfl
    · rw [OrdMap.mem_insert, hmem]
      constructor
      · rintro (rfl | ⟨-, j, hj, rfl⟩)
        · exact ⟨i, Nat.lt_succ_self i, rfl⟩
        · exact ⟨j, hj.trans (Nat.lt_succ_self i), rfl⟩
      · rintro ⟨j, hj, rfl⟩
        rcases Nat.lt_succ_iff_lt_or_eq.mp hj with hj | rfl
        · refine Or.inr ⟨fun heq => hj.ne ?_, j, hj, rfl⟩
          exact Nat.succ_injective (decimal_injective heq)
        · exact Or.inl rfl
  · rw [he]
    exact ⟨⟨m, hm, hmem⟩, hlong⟩

/-- The cluster after the events `older`, with `c` before all of them. -/
def stoppedAt (c : Cluster) (older : List Event) : Cluster := (older.head?.map Event.after).getD c

/-- The history from `c` on is `i` events, after each of which the metadata is the records written so far. -/
structure Recorded (c : Cluster) (i : ℕ) (w : World) : Prop where
  length : w.history.length = i
  stop : ∀ newer older, w.history = newer ++ older → Built older.length (World.boot (stoppedAt c older)) ∧
    (stoppedAt c older).stores = c.stores

theorem Recorded.step {c : Cluster} {w' : World} (h : Recorded c i w) (hbuilt : Built (i + 1) w')
    (hstores : w'.cluster.stores = c.stores) {a : Act} (hhist : w'.history = ⟨a, w.cluster, w'.cluster⟩ :: w.history) :
    Recorded c (i + 1) w' where
  length := by rw [hhist, List.length_cons, h.length]
  stop newer older hsplit := by
    rw [hhist] at hsplit
    cases newer with
    | nil =>
        obtain rfl : _ = older := hsplit
        rw [List.length_cons, h.length]
        exact ⟨hbuilt, hstores⟩
    | cons x newer => exact h.stop newer older (List.cons.inj hsplit).2

theorem construct_built (hroom : Connects room n) (stores : ℕ → StoreImpl) :
    Ends (construct room n) (World.boot ⟨stores, .reliable .empty⟩)
      (fun _ w => Built n w ∧ w.storeNodeCount = n ∧ w.cluster.stores = stores ∧ w.refusals = [] ∧ w.answers = [] ∧
        Recorded ⟨stores, .reliable .empty⟩ n w)
      (fun _ w => ∃ i, Built i w ∧ i < n ∧ MAXLINE < (encMeta (firstRecord i)).length) := by
  have hsize : (World.boot ⟨stores, .reliable .empty⟩).cluster.metaDb.getNum = 0 := rfl
  have hempty : ∀ w : World, w.cluster.metaDb = .reliable .empty → Built 0 w := fun w hw => ⟨.empty, hw, fun e => by simp⟩
  rw [construct, ends_bind, ends_get, hsize, ends_bind]
  refine (ends_forEachWhile (I := fun is w => ∃ i, is = (List.range n).drop i ∧ i ≤ n ∧ Built i w ∧ w.storeNodeCount = i ∧
      w.cluster.stores = stores ∧ w.refusals = [] ∧ w.answers = [] ∧ Recorded ⟨stores, .reliable .empty⟩ i w)
    (Q := fun _ w => Built n w ∧ w.storeNodeCount = n ∧ w.cluster.stores = stores ∧ w.refusals = [] ∧ w.answers = [] ∧
      Recorded ⟨stores, .reliable .empty⟩ n w)
    (fun j is w hI => ?_) (fun w hI => ?_) _ _ ?_).mono (fun _ w hw => ?_) fun _ _ he => he
  · obtain ⟨i, his, hi, hbuilt, hcount, hstores, href, hans, hrec⟩ := hI
    have hlt : i < n := by
      by_contra hge
      rw [List.drop_of_length_le (by simpa using hge)] at his
      cases his
    rw [List.drop_eq_getElem_cons (by simpa using hlt), List.getElem_range] at his
    obtain ⟨rfl, rfl⟩ := List.cons.inj his
    have hfits : sizeofNetFile * (j + 1) ≤ room n := (Nat.mul_le_mul_left _ hlt).trans hroom
    refine ((constructNode_built hfits hbuilt).bind fun _ w₁ h₁ => ?_).mono (fun _ _ hq => hq) fun _ _ he => ?_
    · obtain ⟨hbuilt, hcount₁, hstores₁, href₁, hans₁, a, hhist⟩ := h₁
      exact ⟨j + 1, rfl, hlt, hbuilt, hcount₁.trans (by rw [hcount]), hstores₁.trans hstores, href₁.trans href,
        hans₁.trans hans, hrec.step hbuilt (hstores₁.trans hstores) hhist⟩
    · exact ⟨j, he.1, hlt, he.2⟩
  · obtain ⟨i, his, hi, hbuilt, hcount, hrest⟩ := hI
    have hle : n ≤ i := by simpa using List.drop_eq_nil_iff.mp his.symm
    obtain rfl : i = n := le_antisymm hi hle
    exact ⟨hbuilt, hcount, hrest⟩
  · refine ⟨0, rfl, Nat.zero_le n, hempty _ rfl, rfl, rfl, rfl, rfl, rfl, fun newer older hsplit => ?_⟩
    obtain ⟨-, rfl⟩ := List.append_eq_nil_iff.mp hsplit.symm
    exact ⟨hempty _ rfl, rfl⟩
  · exact ⟨hw.1, hw.2.1, hw.2.2.1, hw.2.2.2.1, hw.2.2.2.2.1, hw.2.2.2.2.2.length, hw.2.2.2.2.2.stop⟩

/-! ## The order of the records -/

theorem Built.entries (h : Built n w) (hn : n ≤ 9) :
    w.cluster.metaDb.db.entries = (List.range n).map fun j => (decimal (j + 1), encMeta (firstRecord j)) := by
  obtain ⟨m, hm, hmem⟩ := h
  rw [hm]
  refine OrdMap.entries_eq_map (List.pairwise_lt_range.imp_of_mem fun {i j} _ hj hij => ?_) fun e => (hmem e).trans ?_
  · exact decimal_lt j ((List.mem_range.mp hj).trans_le hn) i hij
  · exact exists_congr fun j => and_congr List.mem_range.symm eq_comm

/-- The `virtual_fd` of the records in key order. -/
def virtualFds (c : Cluster) : List (Except Fault ℤ) :=
  c.metaDb.db.entries.map fun e => ControlMeta.virtual_fd <$> ControlMeta.ofSlice e.2

/-- With ten records or more, node 9 comes before node 1. -/
theorem Built.virtualFds_ne (h : Built i w) (hi : 10 ≤ i) (n : ℕ) :
    virtualFds w.cluster ≠ (List.range n).map fun i => .ok (i : ℤ) := by
  intro hfds
  obtain ⟨m, hm, hmem⟩ := h
  rw [virtualFds, hm] at hfds
  have htwo : (decimal 2, encMeta (firstRecord 1)) ∈ m.entries := (hmem _).mpr ⟨1, by omega, rfl⟩
  have hten : (decimal 10, encMeta (firstRecord 9)) ∈ m.entries := (hmem _).mpr ⟨9, by omega, rfl⟩
  have hlt : decimal 10 < decimal 2 := by decide
  have hread : ∀ j < 10, ControlMeta.virtual_fd <$> ControlMeta.ofSlice (encMeta (firstRecord j)) = .ok (j : ℤ) := by
    decide
  -- the list of numbers fixes where the two entries stand
  have hpos : ∀ j < 10, ∀ e ∈ m.entries, e.2 = encMeta (firstRecord j) → m.entries[j]? = some e := by
    intro j hj e he hval
    obtain ⟨p, hp, rfl⟩ := List.getElem_of_mem he
    have hat := congrArg (fun l => l[p]?) hfds
    simp only [List.getElem?_map, DBHandle.db_reliable, List.getElem?_eq_getElem hp, Option.map_some, hval,
      hread j hj] at hat
    have hlen : m.entries.length = n := by simpa using congrArg List.length hfds
    rw [List.getElem?_range (hlen ▸ hp), Option.map_some, Option.some_inj, Except.ok.injEq, Nat.cast_inj] at hat
    rw [hat, List.getElem?_eq_getElem hp]
  have h₁ := hpos 1 (by omega) _ htwo rfl
  have h₉ := hpos 9 (by omega) _ hten rfl
  obtain ⟨hp, hat⟩ := List.getElem?_eq_some_iff.mp h₁
  obtain ⟨hq, hat'⟩ := List.getElem?_eq_some_iff.mp h₉
  have hsorted := List.pairwise_iff_getElem.mp m.sorted 1 9 hp hq (by omega)
  rw [hat, hat'] at hsorted
  exact hsorted.not_gt hlt

/-- The constructor ends with the nodes in order exactly when there are at most nine of them and the block has room for
their connections. -/
theorem virtualFds_construct_iff (room : ℕ → ℕ) (stores : ℕ → StoreImpl) (n : ℕ) :
    let out := construct room n (World.boot ⟨stores, .reliable .empty⟩)
    out.1 = .ok () ∧ virtualFds out.2.cluster = (List.range n).map (fun i => .ok (i : ℤ)) ↔ n ≤ 9 ∧ Connects room n := by
  intro out
  by_cases hroom : Connects room n
  · rcases (construct_built hroom stores).outcome with ⟨a, hok, hbuilt, -⟩ | ⟨e, herr, i, -, hin, hlong⟩
    · refine ⟨fun h => ⟨?_, hroom⟩, fun h => ⟨hok, ?_⟩⟩
      · by_contra hn
        exact hbuilt.virtualFds_ne (not_le.mp hn) n h.2
      · rw [virtualFds, hbuilt.entries h.1, List.map_map]
        refine List.map_congr_left fun j hj => ?_
        have hlt : j < n := List.mem_range.mp hj
        have hread := ControlMeta.ofSlice_encMeta (firstRecord_sound (j := j) (by omega))
        rw [Function.comp_apply, hread]
        exact congrArg Except.ok (show (firstRecord j).virtual_fd = j from rfl)
    · have hi : 10 ≤ i := by
        by_contra hi
        exact (firstRecord_sound (by omega)).fits.not_gt hlong
      refine ⟨fun h => ?_, fun h => absurd (hi.trans_lt hin) (by omega)⟩
      rw [show out.1 = .error e from herr] at h
      cases h.1
  · rcases (construct_ends room ⟨stores, .reliable .empty⟩ n).outcome with ⟨-, -, hc⟩ | ⟨e, herr, -⟩
    · exact absurd hc hroom
    · refine ⟨fun h => ?_, fun h => absurd h.2 hroom⟩
      rw [show out.1 = .error e from herr] at h
      cases h.1

/-- The claim that the constructor sets up the order of any number of nodes is false: with the GNU allocator it writes
past the block for seven nodes; and where there is room for ten, `10` stands between `1` and `2`. -/
theorem virtualFds_construct_seven_ten :
    let boot := World.boot ⟨fun _ => StoreImpl.start (.reliable .empty) (.reliable .empty), .reliable .empty⟩
    (construct gnuRoom 7 boot).1 = .error .overrun ∧
      (construct (fun _ => 40) 10 boot).1 = .ok () ∧
      virtualFds (construct (fun _ => 40) 10 boot).2.cluster = [0, 9, 1, 2, 3, 4, 5, 6, 7, 8].map .ok ∧
      virtualFds (construct (fun _ => 40) 10 boot).2.cluster ≠ (List.range 10).map fun i => .ok (i : ℤ) := by
  decide +kernel

/-! ## A constructor that was stopped -/

/-- The entry names the node `fd`. -/
def NamesNode (e : Bytes × Bytes) (fd : ℕ) : Prop := ControlMeta.virtual_fd <$> ControlMeta.ofSlice e.2 = .ok (fd : ℤ)

/-- Each of the nodes recorded is named once, and no other is. -/
theorem Built.names_iff (h : Built i w) (hi : i ≤ 2147483648) (fd : ℕ) :
    (∃! e, e ∈ w.cluster.metaDb.db.entries ∧ NamesNode e fd) ↔ fd < i := by
  obtain ⟨m, hm, hmem⟩ := h
  rw [hm]
  have hread : ∀ j < i, NamesNode (decimal (j + 1), encMeta (firstRecord j)) fd ↔ j = fd := fun j hj => by
    rw [NamesNode, ControlMeta.ofSlice_encMeta (firstRecord_sound (hj.trans_le hi))]
    exact ⟨fun h => Nat.cast_injective (Except.ok.inj h), fun h => h ▸ rfl⟩
  constructor
  · rintro ⟨e, ⟨he, hname⟩, -⟩
    obtain ⟨j, hj, rfl⟩ := (hmem e).mp he
    exact ((hread j hj).mp hname) ▸ hj
  · intro hfd
    refine ⟨_, ⟨(hmem _).mpr ⟨fd, hfd, rfl⟩, (hread fd hfd).mpr rfl⟩, fun e he => ?_⟩
    obtain ⟨j, hj, rfl⟩ := (hmem e).mp he.1
    rw [(hread j hj).mp he.2]

/-- The constructor leaves metadata that is there as it is. -/
theorem construct_kept {c : Cluster} (hroom : Connects room n) (hne : c.metaDb.getNum ≠ 0) :
    Ends (construct room n) (World.boot c)
      (fun _ w => w.cluster = c ∧ w.storeNodeCount = n ∧ w.refusals = [] ∧ w.answers = []) (fun _ _ => False) := by
  rw [construct, ends_bind, ends_get, ends_bind]
  refine (ends_forEachWhile (I := fun is w => w.cluster = c ∧ is = (List.range n).drop w.storeNodeCount ∧
      w.storeNodeCount ≤ n ∧ w.refusals = [] ∧ w.answers = [])
    (Q := fun _ w => w.cluster = c ∧ w.storeNodeCount = n ∧ w.refusals = [] ∧ w.answers = [])
    (fun j is w hI => ?_) (fun w hI => ?_) _ _ ?_).mono (fun _ w hw => by rw [ends_modify]; exact hw) fun _ _ he => he
  · obtain ⟨hcluster, his, hi, hrest⟩ := hI
    have hlt : w.storeNodeCount < n := by
      by_contra hge
      rw [List.drop_of_length_le (by simpa using hge)] at his
      cases his
    rw [List.drop_eq_getElem_cons (by simpa using hlt), List.getElem_range] at his
    obtain ⟨rfl, rfl⟩ := List.cons.inj his
    have hfits : sizeofNetFile * (w.storeNodeCount + 1) ≤ room n := (Nat.mul_le_mul_left _ hlt).trans hroom
    rw [ends_bind, constructNode, ends_bind, ends_modify, ends_bind, ends_storeNetFile, if_neg hfits.not_gt, World.boot,
      if_neg hne]
    exact ⟨hcluster, rfl, hlt, hrest⟩
  · obtain ⟨hcluster, his, hi, hrest⟩ := hI
    have hle : n ≤ w.storeNodeCount := by simpa using List.drop_eq_nil_iff.mp his.symm
    exact ⟨hcluster, le_antisymm hi hle, hrest⟩
  · exact ⟨rfl, rfl, Nat.zero_le n, rfl, rfl⟩

/-- The cluster in which the constructor over `n` nodes and empty metadata stops behind its first `j` writes. -/
def interrupted (room : ℕ → ℕ) (stores : ℕ → StoreImpl) (n j : ℕ) : Cluster :=
  let history := (construct room n (World.boot ⟨stores, .reliable .empty⟩)).2.history
  stoppedAt ⟨stores, .reliable .empty⟩ (history.drop (history.length - j))

theorem interrupted_built (hroom : Connects room n) (stores : ℕ → StoreImpl) (hn : n ≤ 2147483648) {j : ℕ} (hj : j ≤ n) :
    Built j (World.boot (interrupted room stores n j)) := by
  rcases (construct_built hroom stores).outcome with ⟨-, -, -, -, -, -, -, hrec⟩ | ⟨-, -, i, -, hin, hlong⟩
  · have hstop := (hrec.stop _ _ (List.take_append_drop (n - j) _).symm).1
    rw [List.length_drop, hrec.length, Nat.sub_sub_self hj] at hstop
    rw [interrupted, hrec.length]
    exact hstop
  · exact absurd (firstRecord_sound (hin.trans_le hn)).fits hlong.not_ge

/-- With a record there, the second constructor writes none. -/
theorem construct_resumed (hroom : Connects room n) (stores : ℕ → StoreImpl) (hn : n ≤ 2147483648) {j : ℕ} (hj : j ≤ n) :
    (construct room n (World.boot (interrupted room stores n j))).1 = .ok () ∧
      Built (if j = 0 then n else j) (construct room n (World.boot (interrupted room stores n j))).2 := by
  have hbuilt := interrupted_built hroom stores hn hj
  by_cases h0 : j = 0
  · subst h0
    rcases (construct_built hroom stores).outcome with ⟨a, hok, hbuilt, -, -, -, -, hrec⟩ | ⟨-, -, i, -, hin, hlong⟩
    · have hstart : interrupted room stores n 0 = ⟨stores, .reliable .empty⟩ := by
        rw [interrupted, Nat.sub_zero, List.drop_of_length_le le_rfl]
        rfl
      rw [hstart, if_pos rfl]
      exact ⟨hok, hbuilt⟩
    · exact absurd (firstRecord_sound (hin.trans_le hn)).fits hlong.not_ge
  · have hne : (interrupted room stores n j).metaDb.getNum ≠ 0 := by
      obtain ⟨m, hm, hmem⟩ := hbuilt
      rw [DBHandle.getNum_eq, show (interrupted room stores n j).metaDb = .reliable m from hm]
      exact (List.length_pos_of_mem ((hmem _).mpr ⟨0, Nat.pos_of_ne_zero h0, rfl⟩)).ne'
    rw [if_neg h0]
    rcases (construct_kept hroom hne).outcome with ⟨a, hok, hcluster, -⟩ | ⟨-, -, hfalse⟩
    · refine ⟨hok, ?_⟩
      obtain ⟨m, hm, hmem⟩ := hbuilt
      exact ⟨m, by rw [hcluster]; exact hm, hmem⟩
    · exact hfalse.elim

/-- After a constructor that stopped behind `j` writes, a second one ends exactly if the block has room, and then names
every node once exactly if `j` is none or all. -/
theorem construct_resumed_iff (room : ℕ → ℕ) (stores : ℕ → StoreImpl) (hn : n ≤ 2147483648) {j : ℕ} (hj : j ≤ n) :
    let out := construct room n (World.boot (interrupted room stores n j))
    (out.1 = .ok () ↔ Connects room n) ∧
      (out.1 = .ok () ∧ (∀ fd < n, ∃! e, e ∈ out.2.cluster.metaDb.db.entries ∧ NamesNode e fd) ↔
        (j = 0 ∨ j = n) ∧ Connects room n) := by
  intro out
  have hends : out.1 = .ok () ↔ Connects room n := by
    refine ⟨fun hok => ?_, fun hroom => (construct_resumed hroom stores hn hj).1⟩
    rcases (construct_ends room (interrupted room stores n j) n).outcome with ⟨-, -, hc⟩ | ⟨e, herr, -⟩
    · exact hc
    · rw [show out.1 = .error e from herr] at hok
      cases hok
  refine ⟨hends, ?_⟩
  rw [hends, and_comm]
  refine and_congr_left fun hroom => ?_
  obtain ⟨-, hbuilt⟩ := construct_resumed hroom stores hn hj
  have hle : (if j = 0 then n else j) ≤ 2147483648 := by split_ifs <;> omega
  simp only [out, hbuilt.names_iff hle]
  constructor
  · intro hall
    by_contra hj'
    rw [not_or] at hj'
    have hlt := hall j (by omega)
    rw [if_neg hj'.1] at hlt
    exact lt_irrefl j hlt
  · rintro (rfl | rfl) fd hfd
    · rwa [if_pos rfl]
    · split_ifs <;> exact hfd

/-- Stores over empty databases. -/
def emptyStores : ℕ → StoreImpl := fun _ => StoreImpl.start (.reliable .empty) (.reliable .empty)

theorem construct_resumed_three :
    let out := construct gnuRoom 3 (World.boot (interrupted gnuRoom emptyStores 3 2))
    (out.1 = .ok () ↔ Connects gnuRoom 3) ∧
      (out.1 = .ok () ∧ (∀ fd < 3, ∃! e, e ∈ out.2.cluster.metaDb.db.entries ∧ NamesNode e fd) ↔
        (2 = 0 ∨ 2 = 3) ∧ Connects gnuRoom 3) :=
  construct_resumed_iff gnuRoom emptyStores (by decide) (by decide)

/-- The claim that the constructor can be interrupted is false: stopped behind its first write, it leaves a second node
that no later constructor records. -/
theorem construct_interrupted :
    let out := construct gnuRoom 2 (World.boot (interrupted gnuRoom emptyStores 2 1))
    out.1 = .ok () ∧ ∀ e ∈ out.2.cluster.metaDb.db.entries, ¬NamesNode e 1 := by
  unfold NamesNode
  decide +kernel

end DistRocks
