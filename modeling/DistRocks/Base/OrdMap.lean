import Mathlib.Data.List.Find
import Mathlib.Data.List.Pairwise
import Mathlib.Data.List.Sort

/-!
# Finite maps kept in key order

`OrdMap α β` is a list of entries with strictly increasing keys, over any linear order of keys.

* `least? p`, `greatest? p` : the first and the last entry whose key satisfies `p`; the searches of an ordered store
  are `first?`, `last?`, `entryGE?`, `entryGT?`, `entryLE?`, `entryLT?`, and `locate`, the predecessor search
  that falls back to the first entry;
* `get?`, `insert`, `erase` with their membership and lookup laws;
* `ext_mem` : two maps with the same entries are equal;
* `mapVal f` : other values under the same keys;
* `total f` : the sum of a weight over the entries, with what an update makes of it;
* `first?_insert`, `first?_erase_self`, ... : the ends of a map after an update;
* `Cursor` : a position in a snapshot, moved by `seek`, `seekToFirst`, `seekToLast`, `next` and `prev`.
-/

/-- A finite map from `α` to `β` as its entries in key order. -/
@[ext] structure OrdMap (α β : Type*) [LinearOrder α] where
  entries : List (α × β)
  sorted : entries.Pairwise fun a b => a.1 < b.1

namespace OrdMap

variable {α β : Type*} [LinearOrder α]

instance [DecidableEq β] : DecidableEq (OrdMap α β) := fun m m' =>
  decidable_of_iff (m.entries = m'.entries) OrdMap.ext_iff.symm

def empty : OrdMap α β := ⟨[], List.Pairwise.nil⟩

instance : Inhabited (OrdMap α β) := ⟨empty⟩

/-- The first entry whose key satisfies `p`. -/
def least? (m : OrdMap α β) (p : α → Bool) : Option (α × β) := m.entries.find? fun e => p e.1

/-- The last entry whose key satisfies `p`. -/
def greatest? (m : OrdMap α β) (p : α → Bool) : Option (α × β) := m.entries.reverse.find? fun e => p e.1

def first? (m : OrdMap α β) : Option (α × β) := m.least? fun _ => true

def last? (m : OrdMap α β) : Option (α × β) := m.greatest? fun _ => true

def entryGE? (m : OrdMap α β) (k : α) : Option (α × β) := m.least? (k ≤ ·)

def entryGT? (m : OrdMap α β) (k : α) : Option (α × β) := m.least? (k < ·)

def entryLE? (m : OrdMap α β) (k : α) : Option (α × β) := m.greatest? (· ≤ k)

def entryLT? (m : OrdMap α β) (k : α) : Option (α × β) := m.greatest? (· < k)

/-- The predecessor search: the last entry at or below `k`, the first entry when there is none. -/
def locate (m : OrdMap α β) (k : α) : Option (α × β) := (m.entryLE? k).or m.first?

def get? (m : OrdMap α β) (k : α) : Option β := (m.least? (· = k)).map Prod.snd

def insert (m : OrdMap α β) (k : α) (v : β) : OrdMap α β where
  entries := m.entries.filter (fun e => e.1 < k) ++ (k, v) :: m.entries.filter (fun e => k < e.1)
  sorted := by
    rw [List.pairwise_append, List.pairwise_cons]
    refine ⟨m.sorted.filter _, ⟨fun e he => ?_, m.sorted.filter _⟩, fun a ha b hb => ?_⟩
    · simpa using (List.mem_filter.mp he).2
    · have hak : a.1 < k := by simpa using (List.mem_filter.mp ha).2
      rcases List.mem_cons.mp hb with rfl | hb
      · exact hak
      · exact hak.trans (by simpa using (List.mem_filter.mp hb).2)

def erase (m : OrdMap α β) (k : α) : OrdMap α β :=
  ⟨m.entries.filter fun e => e.1 ≠ k, m.sorted.filter _⟩

/-! ## Membership -/

theorem eq_of_key_eq {m : OrdMap α β} {e e' : α × β} (h : e ∈ m.entries) (h' : e' ∈ m.entries)
    (hk : e.1 = e'.1) : e = e' := by
  have hp : m.entries.Pairwise fun a b => a.1 = b.1 → a = b :=
    m.sorted.imp fun hlt heq => absurd heq hlt.ne
  have : Std.Symm fun a b : α × β => a.1 = b.1 → a = b := ⟨fun a b hab heq => (hab heq.symm).symm⟩
  exact hp.forall_of_forall (fun _ _ _ => rfl) h h' hk

theorem eq_of_mem {m : OrdMap α β} {k : α} {v v' : β} (h : (k, v) ∈ m.entries) (h' : (k, v') ∈ m.entries) :
    v = v' := congrArg Prod.snd (eq_of_key_eq h h' rfl)

@[simp] theorem entries_empty : (empty : OrdMap α β).entries = [] := rfl

@[simp] theorem mem_insert {m : OrdMap α β} {k : α} {v : β} {e : α × β} :
    e ∈ (m.insert k v).entries ↔ e = (k, v) ∨ e.1 ≠ k ∧ e ∈ m.entries := by
  simp only [insert, List.mem_append, List.mem_filter, List.mem_cons, decide_eq_true_eq]
  constructor
  · rintro (⟨hm, hlt⟩ | rfl | ⟨hm, hlt⟩)
    · exact Or.inr ⟨hlt.ne, hm⟩
    · exact Or.inl rfl
    · exact Or.inr ⟨hlt.ne', hm⟩
  · rintro (rfl | ⟨hne, hm⟩)
    · exact Or.inr (Or.inl rfl)
    · rcases lt_or_gt_of_ne hne with hlt | hgt
      · exact Or.inl ⟨hm, hlt⟩
      · exact Or.inr (Or.inr ⟨hm, hgt⟩)

theorem insert_ne_nil (m : OrdMap α β) (k : α) (v : β) : (m.insert k v).entries ≠ [] :=
  List.ne_nil_of_mem (mem_insert.mpr (Or.inl rfl))

@[simp] theorem mem_erase {m : OrdMap α β} {k : α} {e : α × β} :
    e ∈ (m.erase k).entries ↔ e.1 ≠ k ∧ e ∈ m.entries := by
  simp [erase, and_comm]

theorem nodup (m : OrdMap α β) : m.entries.Nodup := m.sorted.imp fun hlt heq => hlt.ne (congrArg Prod.fst heq)

/-- A map is determined by its set of entries. -/
theorem ext_mem {m m' : OrdMap α β} (h : ∀ e, e ∈ m.entries ↔ e ∈ m'.entries) : m = m' := by
  have hperm : m.entries.Perm m'.entries := (List.perm_ext_iff_of_nodup m.nodup m'.nodup).mpr h
  exact OrdMap.ext (hperm.eq_of_pairwise (fun a b _ _ hab hba => absurd hab hba.not_gt) m.sorted m'.sorted)

theorem mem_iff_of_entries_eq_map {m : OrdMap α β} {n : ℕ} {f : ℕ → α × β}
    (h : m.entries = (List.range n).map f) (e : α × β) : e ∈ m.entries ↔ ∃ j < n, f j = e := by
  rw [h]; simp

/-- The entries of a map, given as a strictly increasing sequence. -/
theorem entries_eq_map {m : OrdMap α β} {ι : Type*} {l : List ι} {f : ι → α × β}
    (hl : l.Pairwise fun i j => (f i).1 < (f j).1) (h : ∀ e, e ∈ m.entries ↔ ∃ j ∈ l, f j = e) : m.entries = l.map f := by
  have hs : (l.map f).Pairwise fun a b => a.1 < b.1 := List.pairwise_map.mpr hl
  have : m = ⟨_, hs⟩ := ext_mem fun e => by rw [h e, List.mem_map]
  rw [this]

/-! ## Searches -/

section Search
variable {m : OrdMap α β} {p : α → Bool} {e : α × β}

theorem mem_of_least? (h : m.least? p = some e) : e ∈ m.entries := List.mem_of_find?_eq_some h

theorem mem_of_greatest? (h : m.greatest? p = some e) : e ∈ m.entries := by
  simpa using List.mem_of_find?_eq_some h

theorem holds_of_least? (h : m.least? p = some e) : p e.1 := by
  simpa [least?] using List.find?_some h

theorem holds_of_greatest? (h : m.greatest? p = some e) : p e.1 := by
  simpa [greatest?] using List.find?_some h

@[simp] theorem least?_eq_none : m.least? p = none ↔ ∀ e ∈ m.entries, p e.1 = false := by
  simp [least?]

@[simp] theorem greatest?_eq_none : m.greatest? p = none ↔ ∀ e ∈ m.entries, p e.1 = false := by
  simp [greatest?]

theorem greatest?_congr {q : α → Bool} (h : ∀ e ∈ m.entries, p e.1 = q e.1) : m.greatest? p = m.greatest? q :=
  List.find?_congr fun e he => h e (List.mem_reverse.mp he)

omit [LinearOrder α] in
/-- A hit of `find?` in a list ordered by `r` comes before every other match. -/
theorem find?_first {l : List (α × β)} {r : α → α → Prop} (hl : l.Pairwise fun a b => r a.1 b.1)
    (h : l.find? (fun e => p e.1) = some e) : ∀ e' ∈ l, p e'.1 → e' = e ∨ r e.1 e'.1 := by
  obtain ⟨-, as, bs, rfl, has⟩ := List.find?_eq_some_iff_append.mp h
  intro e' he' hp
  rcases List.mem_append.mp he' with ha | hb
  · exact absurd hp (by simpa using has e' ha)
  · rcases List.mem_cons.mp hb with rfl | hb
    · exact Or.inl rfl
    · exact Or.inr (List.rel_of_pairwise_cons (List.pairwise_append.mp hl).2.1 hb)

theorem least?_eq_some :
    m.least? p = some e ↔ e ∈ m.entries ∧ p e.1 ∧ ∀ e' ∈ m.entries, p e'.1 → e.1 ≤ e'.1 := by
  have key : ∀ {e}, m.least? p = some e → ∀ e' ∈ m.entries, p e'.1 → e.1 ≤ e'.1 := fun h e' he' hp => by
    rcases find?_first m.sorted h e' he' hp with rfl | hlt
    · exact le_rfl
    · exact hlt.le
  constructor
  · exact fun h => ⟨mem_of_least? h, holds_of_least? h, key h⟩
  · rintro ⟨hm, hp, hmin⟩
    cases h : m.least? p with
    | none => exact absurd hp (by simpa using least?_eq_none.mp h e hm)
    | some e₀ =>
        have hp₀ : p e₀.1 := holds_of_least? h
        have hk := le_antisymm (key h e hm hp) (hmin e₀ (mem_of_least? h) hp₀)
        rw [eq_of_key_eq (mem_of_least? h) hm hk]

theorem greatest?_eq_some :
    m.greatest? p = some e ↔ e ∈ m.entries ∧ p e.1 ∧ ∀ e' ∈ m.entries, p e'.1 → e'.1 ≤ e.1 := by
  have hrev : m.entries.reverse.Pairwise fun a b => b.1 < a.1 := List.pairwise_reverse.mpr m.sorted
  have key : ∀ {e}, m.greatest? p = some e → ∀ e' ∈ m.entries, p e'.1 → e'.1 ≤ e.1 := fun h e' he' hp => by
    rcases find?_first (r := fun a b => b < a) hrev h e' (List.mem_reverse.mpr he') hp with rfl | hlt
    · exact le_rfl
    · exact hlt.le
  constructor
  · exact fun h => ⟨mem_of_greatest? h, holds_of_greatest? h, key h⟩
  · rintro ⟨hm, hp, hmax⟩
    cases h : m.greatest? p with
    | none => exact absurd hp (by simpa using greatest?_eq_none.mp h e hm)
    | some e₀ =>
        have hp₀ : p e₀.1 := holds_of_greatest? h
        have hk := le_antisymm (hmax e₀ (mem_of_greatest? h) hp₀) (key h e hm hp)
        rw [eq_of_key_eq (mem_of_greatest? h) hm hk]

theorem first?_eq_some : m.first? = some e ↔ e ∈ m.entries ∧ ∀ e' ∈ m.entries, e.1 ≤ e'.1 := by
  simp [first?, least?_eq_some]

theorem last?_eq_some : m.last? = some e ↔ e ∈ m.entries ∧ ∀ e' ∈ m.entries, e'.1 ≤ e.1 := by
  simp [last?, greatest?_eq_some]

theorem first?_eq_none : m.first? = none ↔ m.entries = [] := by
  simp [first?, List.eq_nil_iff_forall_not_mem]

theorem last?_eq_none : m.last? = none ↔ m.entries = [] := by
  simp [last?, List.eq_nil_iff_forall_not_mem]

theorem entryGT?_eq_some {k : α} :
    m.entryGT? k = some e ↔ e ∈ m.entries ∧ k < e.1 ∧ ∀ e' ∈ m.entries, k < e'.1 → e.1 ≤ e'.1 := by
  simp [entryGT?, least?_eq_some]

theorem entryGT?_eq_none {k : α} : m.entryGT? k = none ↔ ∀ e ∈ m.entries, e.1 ≤ k := by
  simp [entryGT?]

theorem entryLT?_eq_some {k : α} :
    m.entryLT? k = some e ↔ e ∈ m.entries ∧ e.1 < k ∧ ∀ e' ∈ m.entries, e'.1 < k → e'.1 ≤ e.1 := by
  simp [entryLT?, greatest?_eq_some]

theorem entryLT?_eq_none {k : α} : m.entryLT? k = none ↔ ∀ e ∈ m.entries, k ≤ e.1 := by
  simp [entryLT?]

theorem entryLE?_eq_some {k : α} :
    m.entryLE? k = some e ↔ e ∈ m.entries ∧ e.1 ≤ k ∧ ∀ e' ∈ m.entries, e'.1 ≤ k → e'.1 ≤ e.1 := by
  simp [entryLE?, greatest?_eq_some]

theorem entryLE?_eq_none {k : α} : m.entryLE? k = none ↔ ∀ e ∈ m.entries, k < e.1 := by
  simp [entryLE?]

/-- Searching from the immediate successor of `k` is searching above `k`. -/
theorem entryGE?_of_succ {k k' : α} (h : ∀ x, k' ≤ x ↔ k < x) : m.entryGE? k' = m.entryGT? k :=
  List.find?_congr fun e _ => decide_eq_decide.mpr (h e.1)

/-- Nothing lies above `k`: the last entry is the last one at or below `k`. -/
theorem last?_of_entryGT?_none {k : α} (h : m.entryGT? k = none) : m.last? = m.entryLE? k :=
  greatest?_congr fun e he => by simp [entryGT?_eq_none.mp h e he]

/-- Before the first entry above `k` stands the last one at or below `k`. -/
theorem entryLT?_of_entryGT? {k : α} (h : m.entryGT? k = some e) : m.entryLT? e.1 = m.entryLE? k := by
  obtain ⟨-, hlt, hmin⟩ := entryGT?_eq_some.mp h
  refine greatest?_congr fun e' he' => ?_
  rcases le_or_gt e'.1 k with hk | hk
  · simp [hk, hk.trans_lt hlt]
  · simp [hk.not_ge, (hmin e' he' hk).not_gt]

end Search

/-! ## Lookups -/

theorem get?_eq_some {m : OrdMap α β} {k : α} {v : β} : m.get? k = some v ↔ (k, v) ∈ m.entries := by
  rw [get?, Option.map_eq_some_iff]
  constructor
  · rintro ⟨⟨k', v'⟩, h, rfl⟩
    have hk : k' = k := by simpa using (least?_eq_some.mp h).2.1
    exact hk ▸ mem_of_least? h
  · intro h
    refine ⟨(k, v), least?_eq_some.mpr ⟨h, by simp, fun e' _ hp => ?_⟩, rfl⟩
    have hk : e'.1 = k := by simpa using hp
    exact hk.ge

theorem get?_eq_none {m : OrdMap α β} {k : α} : m.get? k = none ↔ ∀ v, (k, v) ∉ m.entries := by
  rw [Option.eq_none_iff_forall_ne_some]
  simp [get?_eq_some]

@[simp] theorem get?_empty (k : α) : (empty : OrdMap α β).get? k = none := rfl

theorem get?_insert (m : OrdMap α β) (k k' : α) (v : β) :
    (m.insert k v).get? k' = if k' = k then some v else m.get? k' := by
  apply Option.ext
  intro v'
  rw [get?_eq_some, mem_insert]
  split_ifs with h
  · simp [h, eq_comm]
  · simp [h, get?_eq_some]

theorem get?_erase (m : OrdMap α β) (k k' : α) : (m.erase k).get? k' = if k' = k then none else m.get? k' := by
  apply Option.ext
  intro v'
  rw [get?_eq_some, mem_erase]
  split_ifs with h
  · simp [h]
  · simp [h, get?_eq_some]

theorem ext_get? {m m' : OrdMap α β} (h : ∀ k, m.get? k = m'.get? k) : m = m' :=
  ext_mem fun e => by rw [← get?_eq_some, ← get?_eq_some, h]

theorem insert_of_mem {m : OrdMap α β} {k : α} {v : β} (h : (k, v) ∈ m.entries) : m.insert k v = m := by
  refine ext_mem fun e => ?_
  rw [mem_insert]
  constructor
  · rintro (rfl | ⟨-, he⟩)
    · exact h
    · exact he
  · intro he
    by_cases hk : e.1 = k
    · exact Or.inl (eq_of_key_eq he h hk)
    · exact Or.inr ⟨hk, he⟩

theorem insert_perm (m : OrdMap α β) (k : α) (v : β) : (m.insert k v).entries.Perm ((k, v) :: (m.erase k).entries) := by
  have hnodup : ((k, v) :: (m.erase k).entries).Nodup :=
    List.nodup_cons.mpr ⟨fun hmem => (mem_erase.mp hmem).1 rfl, (m.erase k).nodup⟩
  refine (List.perm_ext_iff_of_nodup (m.insert k v).nodup hnodup).mpr fun e => ?_
  rw [mem_insert, List.mem_cons, mem_erase]

theorem length_erase {m : OrdMap α β} {k : α} {v : β} (h : (k, v) ∈ m.entries) :
    (m.erase k).entries.length + 1 = m.entries.length := by
  have hlen := (m.insert_perm k v).length_eq
  rw [insert_of_mem h] at hlen
  exact hlen.symm

theorem erase_of_notMem {m : OrdMap α β} {k : α} (h : m.get? k = none) : m.erase k = m :=
  ext_get? fun k' => by
    rw [get?_erase]
    split_ifs with hk
    · rw [hk, h]
    · rfl

/-- An entry taken out and put back. -/
theorem insert_erase {m : OrdMap α β} {k : α} {v : β} (h : (k, v) ∈ m.entries) : (m.erase k).insert k v = m :=
  ext_get? fun k' => by
    rw [get?_insert, get?_erase]
    split_ifs with hk
    · rw [hk, get?_eq_some.mpr h]
    · rfl

@[simp] theorem erase_insert (m : OrdMap α β) (k : α) (v : β) : (m.insert k v).erase k = m.erase k :=
  ext_get? fun k' => by
    rw [get?_erase, get?_erase, get?_insert]
    split_ifs <;> rfl

/-! ## Other values -/

section MapVal
variable {γ : Type*} (f : β → γ) (m : OrdMap α β)

/-- Other values under the same keys. -/
def mapVal : OrdMap α γ := ⟨m.entries.map (Prod.map id f), List.pairwise_map.mpr m.sorted⟩

@[simp] theorem mapVal_empty : (empty : OrdMap α β).mapVal f = empty := rfl

theorem mapVal_insert (k : α) (v : β) : (m.insert k v).mapVal f = (m.mapVal f).insert k (f v) := by
  refine OrdMap.ext ?_
  simp only [mapVal, insert, List.map_append, List.map_cons, List.filter_map]
  rfl

theorem mapVal_erase (k : α) : (m.erase k).mapVal f = (m.mapVal f).erase k := by
  refine OrdMap.ext ?_
  simp only [mapVal, erase, List.filter_map]
  rfl

theorem first?_mapVal : (m.mapVal f).first? = m.first?.map (Prod.map id f) := by
  simp only [first?, least?, mapVal, List.find?_map]
  rfl

end MapVal

/-! ## Totals -/

section Total
variable {f : α × β → ℕ} {m : OrdMap α β} {k : α} {v : β}

/-- The sum of `f` over the entries. -/
def total (f : α × β → ℕ) (m : OrdMap α β) : ℕ := m.entries.foldr (fun e sum => f e + sum) 0

@[simp] theorem total_empty (f : α × β → ℕ) : (empty : OrdMap α β).total f = 0 := rfl

theorem total_insert (f : α × β → ℕ) (m : OrdMap α β) (k : α) (v : β) :
    (m.insert k v).total f = f (k, v) + (m.erase k).total f :=
  (m.insert_perm k v).foldr_eq' (f := fun e sum => f e + sum) (fun _ _ _ _ _ => Nat.add_left_comm _ _ _) 0

theorem total_erase (h : (k, v) ∈ m.entries) : m.total f = f (k, v) + (m.erase k).total f := by
  rw [← total_insert, insert_of_mem h]

theorem le_total (h : (k, v) ∈ m.entries) : f (k, v) ≤ m.total f := by
  rw [total_erase h]
  exact Nat.le_add_right _ _

end Total

/-! ## First and last entry of an update -/

section Extremes
variable {m : OrdMap α β} {e : α × β} {k : α}

theorem ends_insert_nil (h : m.entries = []) (k : α) (v : β) :
    (m.insert k v).first? = some (k, v) ∧ (m.insert k v).last? = some (k, v) := by
  have hone : ∀ e' ∈ (m.insert k v).entries, e' = (k, v) := fun e' he' => by
    simpa [h] using mem_insert.mp he'
  have hmem : (k, v) ∈ (m.insert k v).entries := mem_insert.mpr (Or.inl rfl)
  exact ⟨first?_eq_some.mpr ⟨hmem, fun e' he' => by rw [hone e' he']⟩,
    last?_eq_some.mpr ⟨hmem, fun e' he' => by rw [hone e' he']⟩⟩

/-- The first entry after an insertion: the new one, or an old one that stays. -/
theorem first?_insert (h : m.first? = some e) (k : α) (v : β) :
    (m.insert k v).first? = some (if e.1 < k then e else (k, v)) := by
  obtain ⟨hm, hmin⟩ := first?_eq_some.mp h
  refine first?_eq_some.mpr ⟨?_, fun e' he' => ?_⟩
  · split_ifs with hlt
    · exact mem_insert.mpr (Or.inr ⟨hlt.ne, hm⟩)
    · exact mem_insert.mpr (Or.inl rfl)
  · rcases mem_insert.mp he' with rfl | ⟨-, he'⟩
    · split_ifs with hlt
      · exact hlt.le
      · exact le_rfl
    · split_ifs with hlt
      · exact hmin e' he'
      · exact (not_lt.mp hlt).trans (hmin e' he')

theorem last?_insert (h : m.last? = some e) (k : α) (v : β) :
    (m.insert k v).last? = some (if k < e.1 then e else (k, v)) := by
  obtain ⟨hm, hmax⟩ := last?_eq_some.mp h
  refine last?_eq_some.mpr ⟨?_, fun e' he' => ?_⟩
  · split_ifs with hlt
    · exact mem_insert.mpr (Or.inr ⟨hlt.ne', hm⟩)
    · exact mem_insert.mpr (Or.inl rfl)
  · rcases mem_insert.mp he' with rfl | ⟨-, he'⟩
    · split_ifs with hlt
      · exact hlt.le
      · exact le_rfl
    · split_ifs with hlt
      · exact hmax e' he'
      · exact (hmax e' he').trans (not_lt.mp hlt)

theorem first?_erase_self (h : m.first? = some e) : (m.erase e.1).first? = m.entryGT? e.1 := by
  obtain ⟨-, hmin⟩ := first?_eq_some.mp h
  cases hg : m.entryGT? e.1 with
  | none =>
      refine first?_eq_none.mpr (List.eq_nil_iff_forall_not_mem.mpr fun e' he' => ?_)
      obtain ⟨hne, he'⟩ := mem_erase.mp he'
      exact hne (le_antisymm (entryGT?_eq_none.mp hg e' he') (hmin e' he'))
  | some e₂ =>
      obtain ⟨hm, hlt, hle⟩ := entryGT?_eq_some.mp hg
      refine first?_eq_some.mpr ⟨mem_erase.mpr ⟨hlt.ne', hm⟩, fun e' he' => ?_⟩
      obtain ⟨hne, he'⟩ := mem_erase.mp he'
      exact hle e' he' ((hmin e' he').lt_of_ne' hne)

theorem last?_erase_self (h : m.last? = some e) : (m.erase e.1).last? = m.entryLT? e.1 := by
  obtain ⟨-, hmax⟩ := last?_eq_some.mp h
  cases hg : m.entryLT? e.1 with
  | none =>
      refine last?_eq_none.mpr (List.eq_nil_iff_forall_not_mem.mpr fun e' he' => ?_)
      obtain ⟨hne, he'⟩ := mem_erase.mp he'
      exact hne (le_antisymm (hmax e' he') (entryLT?_eq_none.mp hg e' he'))
  | some e₂ =>
      obtain ⟨hm, hlt, hle⟩ := entryLT?_eq_some.mp hg
      refine last?_eq_some.mpr ⟨mem_erase.mpr ⟨hlt.ne, hm⟩, fun e' he' => ?_⟩
      obtain ⟨hne, he'⟩ := mem_erase.mp he'
      exact hle e' he' ((hmax e' he').lt_of_ne hne)

theorem first?_erase_of_ne (h : m.first? = some e) (hne : e.1 ≠ k) : (m.erase k).first? = some e := by
  obtain ⟨hm, hmin⟩ := first?_eq_some.mp h
  exact first?_eq_some.mpr ⟨mem_erase.mpr ⟨hne, hm⟩, fun e' he' => hmin e' (mem_erase.mp he').2⟩

theorem last?_erase_of_ne (h : m.last? = some e) (hne : e.1 ≠ k) : (m.erase k).last? = some e := by
  obtain ⟨hm, hmax⟩ := last?_eq_some.mp h
  exact last?_eq_some.mpr ⟨mem_erase.mpr ⟨hne, hm⟩, fun e' he' => hmax e' (mem_erase.mp he').2⟩

end Extremes

end OrdMap

/-! ## Cursors -/

/-- A position in a snapshot: the entry it stands on, if any. -/
structure Cursor (α β : Type*) [LinearOrder α] where
  snapshot : OrdMap α β
  current : Option (α × β)

namespace Cursor

variable {α β : Type*} [LinearOrder α]

def valid (it : Cursor α β) : Bool := it.current.isSome

/-- To the first entry at or after `k`. -/
def seek (it : Cursor α β) (k : α) : Cursor α β := { it with current := it.snapshot.entryGE? k }

def seekToFirst (it : Cursor α β) : Cursor α β := { it with current := it.snapshot.first? }

def seekToLast (it : Cursor α β) : Cursor α β := { it with current := it.snapshot.last? }

def next (it : Cursor α β) : Cursor α β :=
  { it with current := it.current.bind fun e => it.snapshot.entryGT? e.1 }

def prev (it : Cursor α β) : Cursor α β :=
  { it with current := it.current.bind fun e => it.snapshot.entryLT? e.1 }

end Cursor
