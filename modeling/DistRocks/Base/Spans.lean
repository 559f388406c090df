import DistRocks.Base.OrdMap
import Mathlib.Logic.Function.Basic

/-!
# Tables of disjoint intervals

`Spans α` gives some numbers an interval of a linear order, higher numbers lying above lower ones. `Indexes enc m T`
says that the ordered map `m` is the table `T` filed under the lower ends, the interval of `i` kept as `enc i s`.

* `eq_of_mem` : a point lies in one interval at most;
* `Fits`, `erase`, `set` : take an interval out, put one in the gap around its number (`Indexes.erase`,
  `Indexes.set`); `Indexes.refile_eq_iff` : when two of them taken out and put back leave the map as it was;
* `Indexes.locate_of_mem`, `Indexes.locate` : the predecessor search finds the interval a point lies in, whatever
  intervals are missing, and for any other point one that can be widened to take it in;
* `Indexes.next`, `Indexes.prev` : the neighbours in the map are the neighbours in the table.
-/

/-- Disjoint intervals `[s.1, s.2]`, in the order of their numbers. -/
@[ext] structure Spans (α : Type*) [LinearOrder α] where
  span : ℕ → Option (α × α)
  bounds : ∀ {i s}, span i = some s → s.1 ≤ s.2
  apart : ∀ {i j s t}, i < j → span i = some s → span j = some t → s.2 < t.1

namespace Spans

variable {α β : Type*} [LinearOrder α] {T : Spans α} {i j : ℕ} {s t : α × α} {k : α}

theorem lower_lt (hij : i < j) (hi : T.span i = some s) (hj : T.span j = some t) : s.1 < t.1 :=
  (T.bounds hi).trans_lt (T.apart hij hi hj)

/-- The number of a span is fixed by its lower end. -/
theorem eq_of_lower_eq (hi : T.span i = some s) (hj : T.span j = some t) (h : s.1 = t.1) : i = j := by
  rcases lt_trichotomy i j with hij | hij | hij
  · exact absurd h (lower_lt hij hi hj).ne
  · exact hij
  · exact absurd h (lower_lt hij hj hi).ne'

/-- The number of a span is fixed by any point in it. -/
theorem eq_of_mem (hi : T.span i = some s) (hj : T.span j = some t) (hs : s.1 ≤ k ∧ k ≤ s.2)
    (ht : t.1 ≤ k ∧ k ≤ t.2) : i = j := by
  rcases lt_trichotomy i j with hij | hij | hij
  · exact absurd (ht.1.trans hs.2) (T.apart hij hi hj).not_ge
  · exact hij
  · exact absurd (hs.1.trans ht.2) (T.apart hij hj hi).not_ge

def erase (T : Spans α) (i : ℕ) : Spans α where
  span := Function.update T.span i none
  bounds := fun {j s} h => by
    by_cases hj : j = i
    · simp [hj] at h
    · exact T.bounds (by simpa [hj] using h)
  apart := fun {j l s t} hjl h h' => by
    by_cases hj : j = i
    · simp [hj] at h
    by_cases hl : l = i
    · simp [hl] at h'
    exact T.apart hjl (by simpa [hj] using h) (by simpa [hl] using h')

/-- Room for the interval `s` under number `i`: above the intervals of lower numbers, below those of higher ones. -/
structure Fits (T : Spans α) (i : ℕ) (s : α × α) : Prop where
  bounds : s.1 ≤ s.2
  above : ∀ {j t}, j < i → T.span j = some t → t.2 < s.1
  below : ∀ {j t}, i < j → T.span j = some t → s.2 < t.1

def set (T : Spans α) (i : ℕ) (s : α × α) (h : T.Fits i s) : Spans α where
  span := Function.update T.span i (some s)
  bounds := fun {j u} hu => by
    by_cases hj : j = i
    · obtain rfl : s = u := by simpa [hj] using hu
      exact h.bounds
    · exact T.bounds (by simpa [hj] using hu)
  apart := fun {j l u v} hjl hu hv => by
    by_cases hj : j = i
    · obtain rfl : s = u := by simpa [hj] using hu
      exact h.below (hj ▸ hjl) (by simpa [show l ≠ i by omega] using hv)
    · by_cases hl : l = i
      · obtain rfl : s = v := by simpa [hl] using hv
        exact h.above (hl ▸ hjl) (by simpa [hj] using hu)
      · exact T.apart hjl (by simpa [hj] using hu) (by simpa [hl] using hv)

open Classical in
/-- `set` where the interval fits, and the old table elsewhere. -/
noncomputable def put (T : Spans α) (i : ℕ) (s : α × α) : Spans α :=
  if h : T.Fits i s then T.set i s h else T

theorem put_eq (h : T.Fits i s) : T.put i s = T.set i s h := by
  rw [put, dif_pos h]

@[simp] theorem span_erase_self (T : Spans α) (i : ℕ) : (T.erase i).span i = none := by simp [erase]

@[simp] theorem span_erase_of_ne (T : Spans α) (h : j ≠ i) : (T.erase i).span j = T.span j := by simp [erase, h]

@[simp] theorem span_set_self (h : T.Fits i s) : (T.set i s h).span i = some s := by simp [set]

@[simp] theorem span_set_of_ne (h : T.Fits i s) (hj : j ≠ i) : (T.set i s h).span j = T.span j := by simp [set, hj]

theorem span_put_of_ne (T : Spans α) (s : α × α) (hj : j ≠ i) : (T.put i s).span j = T.span j := by
  unfold put
  split_ifs with h
  · exact span_set_of_ne h hj
  · rfl

theorem span_put_cases (h : (T.put i s).span j = some t) : j = i ∧ t = s ∨ T.span j = some t := by
  unfold put at h
  split_ifs at h with hfit
  · by_cases hj : j = i
    · subst hj
      exact Or.inl ⟨rfl, (Option.some.inj ((span_set_self hfit).symm.trans h)).symm⟩
    · exact Or.inr (by rwa [span_set_of_ne hfit hj] at h)
  · exact Or.inr h

theorem set_erase (h : T.Fits i s) (h' : (T.erase i).Fits i s) : (T.erase i).set i s h' = T.set i s h := by
  ext1; simp [set, erase]

theorem Fits.erase (h : T.Fits i s) : (T.erase i).Fits i s where
  bounds := h.bounds
  above := fun hji hj => h.above hji (by simpa [hji.ne] using hj)
  below := fun hij hj => h.below hij (by simpa [hij.ne'] using hj)

/-- A part of an interval fits where the interval was. -/
theorem fits_of_subset (hi : T.span i = some s) (hlo : s.1 ≤ t.1) (ht : t.1 ≤ t.2) (hhi : t.2 ≤ s.2) :
    T.Fits i t where
  bounds := ht
  above := fun hji hj => (T.apart hji hj hi).trans_le hlo
  below := fun hij hj => hhi.trans_lt (T.apart hij hi hj)

/-- The intervals of a sequence, each below the next. -/
def ofSeq (n : ℕ) (f : ℕ → α × α) (hb : ∀ j < n, (f j).1 ≤ (f j).2) (ha : ∀ j, j + 1 < n → (f j).2 < (f (j + 1)).1) :
    Spans α where
  span j := if j < n then some (f j) else none
  bounds := fun {i s} h => by
    by_cases hi : i < n
    · obtain rfl : f i = s := by simpa [hi] using h
      exact hb i hi
    · simp [hi] at h
  apart := fun {i j s t} hij hs ht => by
    by_cases hj : j < n
    · obtain rfl : f i = s := by simpa [hij.trans hj] using hs
      obtain rfl : f j = t := by simpa [hj] using ht
      clear hs ht
      induction j, hij using Nat.le_induction with
      | base => exact ha i hj
      | succ j hij ih =>
          have hj' : j < n := Nat.lt_of_succ_lt hj
          exact ((ih hj').trans_le (hb j hj')).trans (ha j hj)
    · simp [hj] at ht

theorem span_ofSeq {n : ℕ} {f : ℕ → α × α} (hb ha) : (ofSeq n f hb ha).span j = if j < n then some (f j) else none := rfl

/-! ## The table as an ordered map -/

/-- `m` holds the table `T`, each interval filed under its lower end. -/
def Indexes (enc : ℕ → α × α → β) (m : OrdMap α β) (T : Spans α) : Prop :=
  ∀ e, e ∈ m.entries ↔ ∃ i s, T.span i = some s ∧ e = (s.1, enc i s)

namespace Indexes

variable {enc : ℕ → α × α → β} {m : OrdMap α β}

theorem mem (h : Indexes enc m T) (hi : T.span i = some s) : (s.1, enc i s) ∈ m.entries :=
  (h _).mpr ⟨i, s, hi, rfl⟩

theorem erase (h : Indexes enc m T) (hi : T.span i = some s) : Indexes enc (m.erase s.1) (T.erase i) := by
  intro e
  rw [OrdMap.mem_erase, h e]
  constructor
  · rintro ⟨hne, j, t, hj, rfl⟩
    have hji : j ≠ i := by
      rintro rfl
      exact hne (by rw [Option.some.inj (hi.symm.trans hj)])
    exact ⟨j, t, by simpa [hji] using hj, rfl⟩
  · rintro ⟨j, t, hj, rfl⟩
    by_cases hji : j = i
    · simp [hji] at hj
    · rw [span_erase_of_ne T hji] at hj
      exact ⟨fun heq => hji (eq_of_lower_eq hj hi heq), j, t, hj, rfl⟩

/-- Filing a new interval under a number that has none. -/
theorem set (h : Indexes enc m T) (hnone : T.span i = none) (hfit : T.Fits i s) :
    Indexes enc (m.insert s.1 (enc i s)) (T.set i s hfit) := by
  intro e
  rw [OrdMap.mem_insert, h e]
  constructor
  · rintro (rfl | ⟨-, j, t, hj, rfl⟩)
    · exact ⟨i, s, by simp, rfl⟩
    · have hji : j ≠ i := by
        rintro rfl
        simp [hnone] at hj
      exact ⟨j, t, by simpa [hji] using hj, rfl⟩
  · rintro ⟨j, t, hj, rfl⟩
    by_cases hji : j = i
    · subst hji
      obtain rfl : s = t := by simpa using hj
      exact Or.inl rfl
    · have hj' := hj
      rw [span_set_of_ne hfit hji] at hj'
      exact Or.inr ⟨fun heq => hji (eq_of_lower_eq hj (span_set_self hfit) heq), j, t, hj', rfl⟩

/-- The table in the order of its numbers. -/
theorem entries_eq_map (h : Indexes enc m T) {l : List ℕ} (hl : l.Pairwise (· < ·)) {f : ℕ → α × α}
    (hf : ∀ j ∈ l, T.span j = some (f j)) (hn : ∀ {j s}, T.span j = some s → j ∈ l) :
    m.entries = l.map fun j => ((f j).1, enc j (f j)) := by
  refine OrdMap.entries_eq_map (hl.imp_of_mem fun hi hj hij => lower_lt hij (hf _ hi) (hf _ hj)) fun e => ?_
  rw [h e]
  constructor
  · rintro ⟨j, s, hj, rfl⟩
    obtain rfl := Option.some.inj ((hf j (hn hj)).symm.trans hj)
    exact ⟨j, hn hj, rfl⟩
  · rintro ⟨j, hj, rfl⟩
    exact ⟨j, f j, hf j hj, rfl⟩

theorem of_entries_eq_map {n : ℕ} {f : ℕ → α × α} (hb ha)
    (h : m.entries = (List.range n).map fun j => ((f j).1, enc j (f j))) : Indexes enc m (ofSeq n f hb ha) := by
  intro e
  rw [OrdMap.mem_iff_of_entries_eq_map h]
  constructor
  · rintro ⟨j, hj, rfl⟩
    exact ⟨j, f j, by rw [span_ofSeq, if_pos hj], rfl⟩
  · rintro ⟨j, s, hj, rfl⟩
    by_cases hjn : j < n
    · obtain rfl : f j = s := by simpa [span_ofSeq, hjn] using hj
      exact ⟨j, hjn, rfl⟩
    · simp [span_ofSeq, hjn] at hj

/-- Two intervals refiled in turn: the map is the old one only if both are. -/
theorem refile_eq_iff (h : Indexes enc m T) (hi : T.span i = some s) (hj : T.span j = some t) (hij : i ≠ j)
    (s' t' : α × α) (hs' : ∀ {l u}, T.span l = some u → enc l u = enc i s' → l = i ∧ u = s')
    (ht' : ∀ {l u}, T.span l = some u → enc l u = enc j t' → l = j ∧ u = t') :
    (((m.erase s.1).insert s'.1 (enc i s')).erase t.1).insert t'.1 (enc j t') = m ↔ s' = s ∧ t' = t := by
  have hne : s.1 ≠ t.1 := fun heq => hij (eq_of_lower_eq hi hj heq)
  constructor
  · intro heq
    have hlast : (t'.1, enc j t') ∈ m.entries := by
      rw [← heq]
      exact OrdMap.mem_insert.mpr (Or.inl rfl)
    obtain ⟨l, u, hl, hu⟩ := (h _).mp hlast
    obtain ⟨rfl, rfl⟩ := ht' hl (congrArg Prod.snd hu).symm
    obtain rfl := Option.some.inj (hl.symm.trans hj)
    refine ⟨?_, rfl⟩
    -- the first interval is in the map too, or the old one would be missing
    have hfirst : s'.1 ≠ u.1 := by
      intro hsu
      have hold := h.mem hi
      rw [← heq, OrdMap.mem_insert, OrdMap.mem_erase, OrdMap.mem_insert, OrdMap.mem_erase] at hold
      rcases hold with hold | ⟨-, -, hold | ⟨-, hself, -⟩⟩
      · exact hne (Prod.ext_iff.mp hold).1
      · exact hne ((Prod.ext_iff.mp hold).1.trans hsu)
      · exact hself rfl
    have hmem : (s'.1, enc i s') ∈ m.entries := by
      rw [← heq]
      exact OrdMap.mem_insert.mpr (Or.inr ⟨hfirst, OrdMap.mem_erase.mpr ⟨hfirst, OrdMap.mem_insert.mpr (Or.inl rfl)⟩⟩)
    obtain ⟨l', u', hl', hu'⟩ := (h _).mp hmem
    obtain ⟨rfl, rfl⟩ := hs' hl' (congrArg Prod.snd hu').symm
    exact Option.some.inj (hl'.symm.trans hi)
  · rintro ⟨rfl, rfl⟩
    rw [OrdMap.insert_erase (h.mem hi), OrdMap.insert_erase (h.mem hj)]

/-- The last lower end at or below a point of the interval `i` is that of `i`. -/
theorem floor (h : Indexes enc m T) (hi : T.span i = some s) (hlo : s.1 ≤ k) (hhi : k ≤ s.2) :
    m.entryLE? k = some (s.1, enc i s) := by
  refine OrdMap.entryLE?_eq_some.mpr ⟨h.mem hi, hlo, fun e he hle => ?_⟩
  obtain ⟨j, t, hj, rfl⟩ := (h e).mp he
  rcases lt_trichotomy i j with hij | rfl | hij
  · exact absurd ((T.apart hij hi hj).trans_le hle) hhi.not_gt
  · rw [Option.some.inj (hi.symm.trans hj)]
  · exact (lower_lt hij hj hi).le

theorem locate_of_mem (h : Indexes enc m T) (hi : T.span i = some s) (hlo : s.1 ≤ k) (hhi : k ≤ s.2) :
    m.locate k = some (s.1, enc i s) := by
  rw [OrdMap.locate, h.floor hi hlo hhi, Option.some_or]

/-- The predecessor search in a table that is not empty: it stops at an interval with the point above all lower
intervals and below all higher ones, the last that begins at or below the point, or the first of all. -/
theorem locate (h : Indexes enc m T) (hne : ∃ i s, T.span i = some s) (k : α) :
    ∃ i s, T.span i = some s ∧ m.locate k = some (s.1, enc i s) ∧
      (∀ {j t}, j < i → T.span j = some t → t.2 < k) ∧ (∀ {j t}, i < j → T.span j = some t → k < t.1) ∧
      (s.1 ≤ k ∨ ∀ j < i, T.span j = none) := by
  cases hf : m.entryLE? k with
  | some e =>
      obtain ⟨hm, hle, hmax⟩ := OrdMap.entryLE?_eq_some.mp hf
      obtain ⟨i, s, hi, rfl⟩ := (h e).mp hm
      refine ⟨i, s, hi, by rw [OrdMap.locate, hf, Option.some_or], fun hji hj => ?_, fun hij hj => ?_, Or.inl hle⟩
      · exact (T.apart hji hj hi).trans_le hle
      · by_contra hk
        exact absurd (hmax _ (h.mem hj) (not_lt.mp hk)) (lower_lt hij hi hj).not_ge
  | none =>
      have hlt : ∀ {j t}, T.span j = some t → k < t.1 := fun hj => OrdMap.entryLE?_eq_none.mp hf _ (h.mem hj)
      obtain ⟨i₀, s₀, h₀⟩ := hne
      cases hl : m.first? with
      | none => exact absurd (h.mem h₀) (by simp [OrdMap.first?_eq_none.mp hl])
      | some e =>
          obtain ⟨hm, hmin⟩ := OrdMap.first?_eq_some.mp hl
          obtain ⟨i, s, hi, rfl⟩ := (h e).mp hm
          have hleast : ∀ {j t}, j < i → T.span j ≠ some t := fun hji hj =>
            absurd (hmin _ (h.mem hj)) (lower_lt hji hj hi).not_ge
          exact ⟨i, s, hi, by rw [OrdMap.locate, hf, hl, Option.none_or], fun hji hj => absurd hj (hleast hji),
            fun _ hj => hlt hj, Or.inr fun j hji => Option.eq_none_iff_forall_ne_some.mpr fun t => hleast hji⟩

theorem next (h : Indexes enc m T) (hi : T.span i = some s) (hj : T.span (i + 1) = some t) :
    m.entryGT? s.1 = some (t.1, enc (i + 1) t) := by
  refine OrdMap.entryGT?_eq_some.mpr ⟨h.mem hj, lower_lt (Nat.lt_succ_self i) hi hj, fun e he hlt => ?_⟩
  obtain ⟨l, u, hl, rfl⟩ := (h e).mp he
  rcases lt_trichotomy l (i + 1) with hli | rfl | hli
  · have hge : u.1 ≤ s.1 := by
      rcases Nat.lt_succ_iff_lt_or_eq.mp hli with hli | rfl
      · exact (lower_lt hli hl hi).le
      · rw [Option.some.inj (hi.symm.trans hl)]
    exact absurd hlt hge.not_gt
  · rw [Option.some.inj (hj.symm.trans hl)]
  · exact (lower_lt hli hj hl).le

theorem prev (h : Indexes enc m T) (hi : T.span (i + 1) = some s) (hj : T.span i = some t) :
    m.entryLT? s.1 = some (t.1, enc i t) := by
  refine OrdMap.entryLT?_eq_some.mpr ⟨h.mem hj, lower_lt (Nat.lt_succ_self i) hj hi, fun e he hlt => ?_⟩
  obtain ⟨l, u, hl, rfl⟩ := (h e).mp he
  rcases lt_trichotomy l i with hli | rfl | hli
  · exact (lower_lt hli hl hj).le
  · rw [Option.some.inj (hj.symm.trans hl)]
  · have hge : s.1 ≤ u.1 := by
      rcases Nat.lt_or_eq_of_le hli with hli | hli
      · exact (lower_lt hli hi hl).le
      · subst hli
        rw [Option.some.inj (hi.symm.trans hl)]
    exact absurd hlt hge.not_gt

end Indexes

end Spans
