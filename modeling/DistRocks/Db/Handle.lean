import DistRocks.Base.OrdMap
import DistRocks.Wire.Bytes

/-!
# Databases (`db_handle.cpp`)

RocksDB is a map in bytewise key order whose iterators read a snapshot. A write may return a status that is not ok
and then has no effect; `DBHandle` drops the status, so the outcomes of the writes to come are part of the state.

* `put`, `delete1`, `get`, `getNum`, `getSize`, `storeLessOrEqualOne`,
  `getSmallerOrEqualButAsLargeAsPossible` : the methods of `DB_Handle`;
* `search_current` : the search of the last one is the predecessor search `OrdMap.locate`, and `search_found` : it says
  whether a predecessor is there; `search_predecessor` puts both in terms of the keys;
* `storeLessOrEqualOne_iff` : the early exit counts right.
-/

namespace DistRocks

/-- A database and the outcomes of its next writes, `true` for an ok status; after these every write succeeds. -/
structure DBHandle where
  db : OrdMap Bytes Bytes
  outcomes : List Bool

abbrev Iterator : Type := Cursor Bytes Bytes

namespace DBHandle

/-- A database none of whose writes fails. -/
def reliable (db : OrdMap Bytes Bytes) : DBHandle := ⟨db, []⟩

/-- What the next write returns. -/
def writeOk (h : DBHandle) : Bool := h.outcomes.headD true

def put (h : DBHandle) (key value : Bytes) : DBHandle where
  db := if h.writeOk then h.db.insert key value else h.db
  outcomes := h.outcomes.tail

def delete1 (h : DBHandle) (slice : Bytes) : DBHandle where
  db := if h.writeOk then h.db.erase slice else h.db
  outcomes := h.outcomes.tail

/-- The value of `key`, the empty string when there is none. -/
def get (h : DBHandle) (key : Bytes) : Bytes := (h.db.get? key).getD []

def newIterator (h : DBHandle) : Iterator := ⟨h.db, none⟩

/-- From `SeekToFirst`, `Next` visits the entries in order. -/
def getNum (h : DBHandle) : ℕ := h.db.entries.foldl (fun ret _ => ret + 1) 0

def getSize (h : DBHandle) : ℤ :=
  h.db.entries.foldl (fun ret e =>
    let ret := wrapInt (ret + (wrapInt e.2.length + 1))
    wrapInt (ret + (wrapInt e.1.length + 1))) 0

def storeLessOrEqualOne (h : DBHandle) : Bool := go 0 h.db.entries
where
  go (ret : ℕ) : List (Bytes × Bytes) → Bool
    | [] => true
    | _ :: rest => if ret + 1 ≥ 2 then false else go (ret + 1) rest

/-- The iterator on the largest key not above `key`, or on the smallest key; the answer says which. -/
def getSmallerOrEqualButAsLargeAsPossible (key : Bytes) (it : Iterator) : Iterator × Bool :=
  let it := it.seek (key ++ [0])
  if !it.valid then (it.seekToLast, true)
  else if it.current.map Prod.fst = some key then (it, true)
  else
    let it := it.prev
    if !it.valid then (it.seekToFirst, false) else (it, true)

/-! ## Laws -/

@[simp] theorem put_reliable (db : OrdMap Bytes Bytes) (k v : Bytes) :
    (reliable db).put k v = reliable (db.insert k v) := rfl

@[simp] theorem delete1_reliable (db : OrdMap Bytes Bytes) (k : Bytes) :
    (reliable db).delete1 k = reliable (db.erase k) := rfl

@[simp] theorem db_reliable (db : OrdMap Bytes Bytes) : (reliable db).db = db := rfl

theorem getNum_eq (h : DBHandle) : h.getNum = h.db.entries.length := by
  have count : ∀ (l : List (Bytes × Bytes)) (n : ℕ), l.foldl (fun ret _ => ret + 1) n = n + l.length := by
    intro l
    induction l with
    | nil => intro n; rfl
    | cons e l ih => intro n; rw [List.foldl_cons, ih, List.length_cons]; omega
  rw [getNum, count, Nat.zero_add]

theorem storeLessOrEqualOne_iff (h : DBHandle) : h.storeLessOrEqualOne = true ↔ h.db.entries.length ≤ 1 := by
  unfold storeLessOrEqualOne
  match h.db.entries with
  | [] => simp [storeLessOrEqualOne.go]
  | [_] => simp [storeLessOrEqualOne.go]
  | _ :: _ :: _ => simp [storeLessOrEqualOne.go]

theorem search_snapshot (key : Bytes) (it : Iterator) :
    (getSmallerOrEqualButAsLargeAsPossible key it).1.snapshot = it.snapshot := by
  unfold getSmallerOrEqualButAsLargeAsPossible
  simp only
  split_ifs <;> rfl

/-- `Seek` for the key with a NUL behind it goes to the first key above it. -/
theorem seek_succ (key : Bytes) (it : Iterator) :
    it.seek (key ++ [0]) = { it with current := it.snapshot.entryGT? key } := by
  rw [Cursor.seek, OrdMap.entryGE?_of_succ (append_zero_le_iff key)]

/-- The search is the predecessor search. -/
theorem search_current (key : Bytes) (it : Iterator) :
    (getSmallerOrEqualButAsLargeAsPossible key it).1.current = it.snapshot.locate key := by
  unfold getSmallerOrEqualButAsLargeAsPossible OrdMap.locate
  rw [seek_succ]
  cases hs : it.snapshot.entryGT? key with
  | none =>
      rw [← OrdMap.last?_of_entryGT?_none hs]
      cases hm : it.snapshot.last? with
      | some e => simpa [Cursor.valid, Cursor.seekToLast] using hm
      | none =>
          have hmin := OrdMap.first?_eq_none.mpr (OrdMap.last?_eq_none.mp hm)
          simp [Cursor.valid, Cursor.seekToLast, hm, hmin]
  | some e =>
      have hne : e.1 ≠ key := (OrdMap.entryGT?_eq_some.mp hs).2.1.ne'
      simp only [Cursor.valid, Cursor.prev, Option.isSome_some, Bool.not_true, Option.map_some, Option.some.injEq, hne,
        if_false, Option.bind_some, Bool.false_eq_true, OrdMap.entryLT?_of_entryGT? hs]
      cases it.snapshot.entryLE? key with
      | some e' => rfl
      | none => rfl

/-- The answer of the search says whether some key is not above `key`. -/
theorem search_found {it : Iterator} (hne : it.snapshot.entries ≠ []) (key : Bytes) :
    (getSmallerOrEqualButAsLargeAsPossible key it).2 = (it.snapshot.entryLE? key).isSome := by
  unfold getSmallerOrEqualButAsLargeAsPossible
  rw [seek_succ]
  cases hs : it.snapshot.entryGT? key with
  | none =>
      have hlast : it.snapshot.last? ≠ none := fun hm => hne (OrdMap.last?_eq_none.mp hm)
      rw [← OrdMap.last?_of_entryGT?_none hs, Option.isSome_iff_ne_none.mpr hlast]
      rfl
  | some e =>
      have hne : e.1 ≠ key := (OrdMap.entryGT?_eq_some.mp hs).2.1.ne'
      simp only [Cursor.valid, Cursor.prev, Option.isSome_some, Bool.not_true, Option.map_some, Option.some.injEq, hne,
        if_false, Option.bind_some, Bool.false_eq_true, OrdMap.entryLT?_of_entryGT? hs]
      cases it.snapshot.entryLE? key with
      | some e' => rfl
      | none => rfl

/-- The search ends on the largest key not above `key` and answers `true`, or there is no such key, and it ends on the
smallest key and answers `false`. -/
theorem search_predecessor {it : Iterator} (hne : it.snapshot.entries ≠ []) (key : Bytes) :
    let out := getSmallerOrEqualButAsLargeAsPossible key it
    out.1.snapshot = it.snapshot ∧ ∃ e ∈ it.snapshot.entries, out.1.current = some e ∧
      ((∃ e' ∈ it.snapshot.entries, e'.1 ≤ key) →
        out.2 = true ∧ e.1 ≤ key ∧ ∀ e' ∈ it.snapshot.entries, e'.1 ≤ key → e'.1 ≤ e.1) ∧
      ((∀ e' ∈ it.snapshot.entries, key < e'.1) → out.2 = false ∧ ∀ e' ∈ it.snapshot.entries, e.1 ≤ e'.1) := by
  have hcurrent := search_current key it
  have hfound := search_found hne key
  refine ⟨search_snapshot key it, ?_⟩
  rw [OrdMap.locate] at hcurrent
  cases hle : it.snapshot.entryLE? key with
  | some e =>
      obtain ⟨hmem, hkey, hmax⟩ := OrdMap.entryLE?_eq_some.mp hle
      rw [hle] at hcurrent hfound
      exact ⟨e, hmem, hcurrent, fun _ => ⟨hfound, hkey, hmax⟩, fun hgt => absurd hkey (hgt e hmem).not_ge⟩
  | none =>
      have hgt := OrdMap.entryLE?_eq_none.mp hle
      rw [hle, Option.none_or] at hcurrent
      rw [hle] at hfound
      obtain ⟨e, he⟩ := Option.ne_none_iff_exists'.mp fun hm => hne (OrdMap.first?_eq_none.mp hm)
      obtain ⟨hmem, hmin⟩ := OrdMap.first?_eq_some.mp he
      refine ⟨e, hmem, hcurrent.trans he, ?_, fun _ => ⟨hfound, hmin⟩⟩
      rintro ⟨e', he', hle'⟩
      exact absurd hle' (hgt e' he').not_ge

/-- An iterator on the keys `a` and `ab`. -/
def prefixKeys : Iterator := (reliable ((OrdMap.empty.insert (text "a") []).insert (text "ab") [])).newIterator

/-- A key between two keys one of which is a prefix of the other, with a NUL at its end. -/
theorem search_predecessor_prefixKeys :
    let out := getSmallerOrEqualButAsLargeAsPossible (text "a" ++ [0]) prefixKeys
    out.1.snapshot = prefixKeys.snapshot ∧ ∃ e ∈ prefixKeys.snapshot.entries, out.1.current = some e ∧
      ((∃ e' ∈ prefixKeys.snapshot.entries, e'.1 ≤ text "a" ++ [0]) →
        out.2 = true ∧ e.1 ≤ text "a" ++ [0] ∧ ∀ e' ∈ prefixKeys.snapshot.entries, e'.1 ≤ text "a" ++ [0] → e'.1 ≤ e.1) ∧
      ((∀ e' ∈ prefixKeys.snapshot.entries, text "a" ++ [0] < e'.1) →
        out.2 = false ∧ ∀ e' ∈ prefixKeys.snapshot.entries, e.1 ≤ e'.1) :=
  search_predecessor (by decide) _

end DBHandle

end DistRocks
