import DistRocks.Base.Calls
import DistRocks.Store.Stream

/-!
# The log of a store as one record

The log is documented to hold one record: `clearLog` empties it, `getLog` returns what was written last.

* `StoreLog.latest` : what `getLog` should return after a sequence of calls;
* `records` : what a call makes of the records in the log; `found` : the record that `getLog` takes from them;
* `found_iff`, `found_error_iff` : it takes the bytewise smallest;
* `one_record_iff` : `getLog` returns the latest record at every moment exactly if every call is `Harmless` when it
  comes: no smaller record is there at a write, and no second one at a clearing;
* `getLog_older` : after two writes the older record is returned.
-/

namespace DistRocks

namespace StoreLog

inductive Call
  | write (log : Log)
  | clear
  | get

/-- One call; what `get` returns is not kept. -/
def call (l : StoreLog) : Call → Except Fault StoreLog
  | .write log => l.writeLog log.kind log.key log.value
  | .clear => return l.clearLog
  | .get => do
    let _ ← l.getLog
    return l

/-- The calls on a log over an empty database. -/
def calls (cs : List Call) : Except Fault StoreLog := cs.foldlM call (start (.reliable .empty))

/-- The record that the log should hold after a call. -/
def Call.record (r : Log) : Call → Log
  | .write log => log
  | .clear => { kind := .error }
  | .get => r

/-- The latest record since the log was last cleared. -/
def latest (cs : List Call) : Log := after Call.record { kind := .error } cs

/-- A `PUT` or `DELETE` record without NUL. -/
def Call.Plain : Call → Prop
  | .write log => log.kind ≠ .error ∧ log.NulFree
  | _ => True

/-- A record is not written above others, and the log is cleared of one record at most. -/
def Call.Harmless (m : OrdMap Bytes Bytes) : Call → Prop
  | .write log => ∀ e ∈ m.entries, encLog log ≤ e.1
  | .clear => m.entries.length ≤ 1
  | .get => True

/-! ## The records of a log -/

/-- Every key is a record. -/
def Records (m : OrdMap Bytes Bytes) : Prop := ∀ e ∈ m.entries, ∃ r : Log, r.Storable ∧ e.1 = encLog r

/-- What a call makes of the records. -/
def records (m : OrdMap Bytes Bytes) : Call → OrdMap Bytes Bytes
  | .write log => m.insert (encLog log) []
  | .clear => match m.first? with
    | some e => m.erase e.1
    | none => m
  | .get => m

/-- The record that `getLog` takes. -/
def found (m : OrdMap Bytes Bytes) : Except Fault Log :=
  match m.first? with
  | some e => Log.ofBuff e.1
  | none => .ok { kind := .error }

variable {m : OrdMap Bytes Bytes} {l : StoreLog} {c : Call} {cs : List Call}

theorem getLog_eq (h : l.dbHandle = .reliable m) : l.getLog = found m := by
  rw [getLog, h]
  rfl

theorem clearLog_eq (h : l.dbHandle = .reliable m) : l.clearLog.dbHandle = .reliable (records m .clear) := by
  have hcur : l.dbHandle.newIterator.seekToFirst.current = m.first? := by rw [h]; rfl
  rw [clearLog, records, hcur]
  cases m.first? with
  | none => exact h
  | some e => simp only [h, DBHandle.delete1_reliable]

theorem found_iff (hm : Records m) {r : Log} (hr : r.Storable) :
    found m = .ok r ↔ ∃ value, m.first? = some (encLog r, value) := by
  rw [found]
  cases hfirst : m.first? with
  | none =>
      simp only [Except.ok.injEq, reduceCtorEq, exists_false, iff_false]
      rintro rfl
      exact hr.kind rfl
  | some e =>
      obtain ⟨r', hr', he⟩ := hm e (OrdMap.first?_eq_some.mp hfirst).1
      simp only [he, ofBuff_encLog hr', Except.ok.injEq]
      constructor
      · rintro rfl
        exact ⟨e.2, by rw [← he]⟩
      · rintro ⟨value, heq⟩
        have hread := ofBuff_encLog hr'
        rw [← he, Option.some.inj heq, ofBuff_encLog hr] at hread
        exact (Except.ok.inj hread).symm

theorem found_error_iff (hm : Records m) : found m = .ok { kind := .error } ↔ m.entries = [] := by
  rw [← OrdMap.first?_eq_none, found]
  cases hfirst : m.first? with
  | none => simp
  | some e =>
      obtain ⟨r', hr', he⟩ := hm e (OrdMap.first?_eq_some.mp hfirst).1
      simp only [he, ofBuff_encLog hr', Except.ok.injEq, reduceCtorEq, iff_false]
      rintro rfl
      exact hr'.kind rfl

theorem records_records (hm : Records m) (hc : ∀ r, c = .write r → r.Storable) : Records (records m c) := by
  cases c with
  | write r =>
      intro e he
      rcases OrdMap.mem_insert.mp he with rfl | ⟨-, he⟩
      · exact ⟨r, hc r rfl, rfl⟩
      · exact hm e he
  | clear =>
      rw [records]
      split
      · exact fun e he => hm e (OrdMap.mem_erase.mp he).2
      · exact hm
  | get => exact hm

/-- A record written is the one found exactly if no other is smaller. -/
theorem found_write_iff (hm : Records m) {r : Log} (hr : r.Storable) :
    found (records m (.write r)) = .ok r ↔ ∀ e ∈ m.entries, encLog r ≤ e.1 := by
  rw [found_iff (records_records hm fun r' h => by cases h; exact hr) hr, records]
  constructor
  · rintro ⟨value, hfirst⟩ e he
    by_cases hk : e.1 = encLog r
    · exact hk.ge
    · exact (OrdMap.first?_eq_some.mp hfirst).2 e (OrdMap.mem_insert.mpr (Or.inr ⟨hk, he⟩))
  · intro hle
    refine ⟨[], OrdMap.first?_eq_some.mpr ⟨OrdMap.mem_insert.mpr (Or.inl rfl), fun e he => ?_⟩⟩
    rcases OrdMap.mem_insert.mp he with rfl | ⟨-, he⟩
    · exact le_rfl
    · exact hle e he

/-- Nothing is found after a clearing exactly if there was one record at most. -/
theorem found_clear_iff (hm : Records m) : found (records m .clear) = .ok { kind := .error } ↔ m.entries.length ≤ 1 := by
  rw [found_error_iff (records_records hm fun _ h => by cases h), records]
  cases hfirst : m.first? with
  | none => simp [OrdMap.first?_eq_none.mp hfirst]
  | some e =>
      have hlen := OrdMap.length_erase (k := e.1) (v := e.2) (OrdMap.first?_eq_some.mp hfirst).1
      simp only [← hlen, ← List.length_eq_zero_iff]
      omega

/-! ## Runs -/

/-- A call whose record does not fit overruns the buffer; any other changes the records as `records` says. -/
theorem call_eq (h : l.dbHandle = .reliable m) (hm : Records m) (hc : c.Plain) :
    l.call c = .error .overrun ∨
      (∃ l', l.call c = .ok l' ∧ l'.dbHandle = .reliable (records m c)) ∧ ∀ r, c = .write r → r.Storable := by
  cases c with
  | write r =>
      rw [call, StoreImpl.writeLog_eq]
      rcases l.buff.put_cases (encLog r) with ⟨hlen, b, hb, -⟩ | ⟨-, he⟩
      · refine Or.inr ⟨⟨_, by rw [hb, ok_bind]; rfl, ?_⟩, fun r' hr' => ?_⟩
        · rw [h, DBHandle.put_reliable, records]
        · obtain rfl := Call.write.inj hr'
          exact ⟨hc.1, hc.2, hlen⟩
      · exact Or.inl (by rw [he, error_bind])
  | clear => exact Or.inr ⟨⟨_, rfl, clearLog_eq h⟩, fun _ hr => by cases hr⟩
  | get =>
      have hget : ∃ r, l.getLog = .ok r := by
        rw [getLog_eq h, found]
        cases hfirst : m.first? with
        | none => exact ⟨_, rfl⟩
        | some e =>
            obtain ⟨r, hr, he⟩ := hm e (OrdMap.first?_eq_some.mp hfirst).1
            exact ⟨r, by simp only [he, ofBuff_encLog hr]⟩
      obtain ⟨r, hr⟩ := hget
      exact Or.inr ⟨⟨l, by rw [call, hr]; rfl, h⟩, fun _ hr => by cases hr⟩

theorem foldlM_call_eq (h : l.dbHandle = .reliable m) (hm : Records m) (hcs : ∀ c ∈ cs, c.Plain) :
    cs.foldlM call l = .error .overrun ∨
      (∀ done, done <+: cs → ∃ l', done.foldlM call l = .ok l' ∧ l'.dbHandle = .reliable (after records m done)) ∧
        ∀ r, .write r ∈ cs → r.Storable := by
  induction cs generalizing l m with
  | nil =>
      refine Or.inr ⟨fun done hdone => ?_, fun r hr => absurd hr List.not_mem_nil⟩
      obtain rfl := List.prefix_nil.mp hdone
      exact ⟨l, rfl, h⟩
  | cons c cs ih =>
      rw [List.foldlM_cons, forall_prefix_cons]
      rcases call_eq h hm (hcs c List.mem_cons_self) with herr | ⟨⟨l₁, hok, h₁⟩, hstore⟩
      · exact Or.inl (by rw [herr, error_bind])
      rw [hok, ok_bind]
      refine (ih h₁ (records_records hm hstore) fun c' hc' => hcs c' (List.mem_cons_of_mem _ hc')).imp_right
        fun ⟨hrest, hall⟩ => ⟨⟨⟨l, rfl, h⟩, fun done hdone => ?_⟩, fun r hr => ?_⟩
      · rw [List.foldlM_cons, hok, ok_bind, after_cons]
        exact hrest done hdone
      · rcases List.mem_cons.mp hr with rfl | hr
        · exact hstore r rfl
        · exact hall r hr

/-- `getLog` finds the latest record after a call exactly if the call was harmless. -/
theorem found_record_iff (hm : Records m) {r : Log} (hfound : found m = .ok r) (hc : ∀ r, c = .write r → r.Storable) :
    found (records m c) = .ok (c.record r) ↔ c.Harmless m := by
  cases c with
  | write r' => exact found_write_iff hm (hc r' rfl)
  | clear => exact found_clear_iff hm
  | get => exact iff_of_true hfound trivial

/-- `getLog` returns the latest record at every moment exactly if every call is harmless when it comes. -/
theorem one_record_iff (cs : List Call) (hcs : ∀ c ∈ cs, c.Plain) :
    calls cs = .error .overrun ∨
      ((∀ done l, done <+: cs → calls done = .ok l → l.getLog = .ok (latest done)) ↔
        ∀ done c l, done ++ [c] <+: cs → calls done = .ok l → c.Harmless l.dbHandle.db) := by
  have hempty : Records .empty := fun e he => absurd he List.not_mem_nil
  refine (foldlM_call_eq (l := start (.reliable .empty)) (m := .empty) rfl hempty hcs).imp_right
    fun ⟨hrun, hstore⟩ => ?_
  -- the records beside the record that should be found
  let step : OrdMap Bytes Bytes × Log → Call → OrdMap Bytes Bytes × Log := fun p c => (records p.1 c, c.record p.2)
  have hafter : ∀ done, after step (.empty, { kind := .error }) done = (after records .empty done, latest done) :=
    fun done => after_prod records Call.record .empty { kind := .error }
  have hmoments := moments_iff (s := (.empty, { kind := .error })) (fun p => Records p.1) (fun p => found p.1 = .ok p.2)
    (fun p c => c.Harmless p.1)
    (fun p c hc hm _ hgood => found_record_iff hm hgood fun r hr => hstore r (hr ▸ hc)) rfl fun done hdone => by
      rw [hafter]
      refine after_invariant (fun m c hc hm => records_records hm fun r hr => ?_) hempty
      exact hstore r (hr ▸ hdone.subset hc)
  simp only [hafter] at hmoments
  have hdb : ∀ {done l}, done <+: cs → calls done = .ok l → l.dbHandle = .reliable (after records .empty done) := by
    intro done l hdone hok
    obtain ⟨l', hok', hl⟩ := hrun done hdone
    rw [calls, hok', Except.ok.injEq] at hok
    exact hok ▸ hl
  constructor
  · intro h done c l hdone hok
    rw [hdb ((List.prefix_append done [c]).trans hdone) hok, DBHandle.db_reliable]
    refine hmoments.mp (fun done hdone => ?_) done c hdone
    obtain ⟨l, hok, hl⟩ := hrun done hdone
    rw [← getLog_eq hl]
    exact h done l hdone hok
  · intro h done l hdone hok
    rw [getLog_eq (hdb hdone hok)]
    refine hmoments.mpr (fun done c hdone => ?_) done hdone
    obtain ⟨l, hok, hl⟩ := hrun done ((List.prefix_append done [c]).trans hdone)
    have hc := h done c l hdone hok
    rwa [hl, DBHandle.db_reliable] at hc

/-- Two `PUT` records, the smaller one first. -/
def writeTwice : List Call := [.write ⟨.put, text "a", text "x"⟩, .write ⟨.put, text "b", text "y"⟩]

theorem plain_writeTwice : ∀ c ∈ writeTwice, c.Plain := by
  intro c hc
  rcases List.mem_pair.mp hc with rfl | rfl
  · exact ⟨fun hk => (by cases hk), by decide, by decide⟩
  · exact ⟨fun hk => (by cases hk), by decide, by decide⟩

theorem found_writeTwice : found (after records .empty writeTwice) = .ok ⟨.put, text "a", text "x"⟩ := by decide

/-- After two writes it is the first record that is found, and would be committed. -/
theorem getLog_older : ∃ l, calls writeTwice = .ok l ∧ l.getLog = .ok ⟨.put, text "a", text "x"⟩ ∧
    l.getLog ≠ .ok (latest writeTwice) := by
  obtain ⟨l, hl⟩ : ∃ l, calls writeTwice = .ok l := ⟨_, rfl⟩
  have hempty : Records .empty := fun e he => absurd he List.not_mem_nil
  rcases foldlM_call_eq (l := start (.reliable .empty)) (m := .empty) rfl hempty plain_writeTwice with herr | ⟨hrun, -⟩
  · rw [calls, herr] at hl
    cases hl
  · obtain ⟨l', hok, hdb⟩ := hrun writeTwice List.prefix_rfl
    have hget := (getLog_eq hdb).trans found_writeTwice
    exact ⟨l', hok, hget, by rw [hget]; decide⟩

theorem one_record_writeTwice :
    (∀ done l, done <+: writeTwice → calls done = .ok l → l.getLog = .ok (latest done)) ↔
      ∀ done c l, done ++ [c] <+: writeTwice → calls done = .ok l → c.Harmless l.dbHandle.db := by
  have hfit : calls writeTwice ≠ .error .overrun := fun h => by cases h
  exact (one_record_iff writeTwice plain_writeTwice).resolve_left hfit

end StoreLog

end DistRocks
