import DistRocks.Store.Stream
import DistRocks.Store.Votes

/-!
# Announced bounds

The answer to `LOG` announces the smallest and the largest key that the data will have.

* `ofBuff_nulFree`, `decodeRequest_log` : a record read from a buffer has no NUL;
* `serve_eq_ok` : the parts of a round;
* `logged` : a `LOG` request to a store with an empty log leaves the record there and announces `keyEnds` of the data
  with the record applied;
* `announced_bounds` : the next commit leaves data with these ends.
-/

namespace DistRocks

open ConstValues

/-! ## Records read from a buffer -/

theorem getString_nulFree {buff s rest : Bytes} (h : getStringFromBuff buff = .ok (s, rest)) : NulFree s := by
  rw [getStringFromBuff] at h
  obtain ⟨p, -, h⟩ := bind_eq_ok h
  simp only at h
  split_ifs at h
  obtain ⟨rfl, -⟩ := Prod.mk.inj (Except.ok.inj h)
  exact nulFree_cstr _

theorem ofBuff_nulFree {buff : Bytes} {r : Log} (h : Log.ofBuff buff = .ok r) : r.NulFree := by
  rw [Log.ofBuff] at h
  obtain ⟨p, -, h⟩ := bind_eq_ok h
  obtain ⟨kind, -, h⟩ := bind_eq_ok h
  obtain ⟨q, hkey, h⟩ := bind_eq_ok h
  obtain ⟨q', hvalue, h⟩ := bind_eq_ok h
  obtain rfl := Except.ok.inj h
  exact ⟨getString_nulFree hkey, getString_nulFree hvalue⟩

theorem decodeRequest_log {buff : Bytes} {r : Log} (h : decodeRequest buff = .ok (.log r)) : r.NulFree := by
  rw [decodeRequest] at h
  obtain ⟨p, -, h⟩ := bind_eq_ok h
  -- the branches before `log`, that branch, and those behind it
  rcases ite_eq_iff.mp h with ⟨-, h⟩ | ⟨-, h⟩
  · cases h
  rcases ite_eq_iff.mp h with ⟨-, h⟩ | ⟨-, h⟩
  · obtain ⟨q, -, h⟩ := bind_eq_ok h
    cases h
  rcases ite_eq_iff.mp h with ⟨-, h⟩ | ⟨-, h⟩
  · obtain ⟨r', hr', h⟩ := bind_eq_ok h
    cases h
    exact ofBuff_nulFree hr'
  rcases ite_eq_iff.mp h with ⟨-, h⟩ | ⟨-, h⟩
  · cases h
  rcases ite_eq_iff.mp h with ⟨-, h⟩ | ⟨-, h⟩
  · obtain ⟨q, -, h⟩ := bind_eq_ok h
    cases h
  · split_ifs at h <;> cases h

theorem Log.recorded_nulFree {r : Log} (h : r.NulFree) : r.recorded.NulFree := by
  rw [Log.recorded]
  split_ifs
  · exact ⟨h.key, List.not_mem_nil⟩
  · exact h

theorem Log.kind_recorded (r : Log) : r.recorded.kind = r.kind := by
  rw [Log.recorded]
  split_ifs <;> rfl

namespace StoreImpl

variable {st st' : StoreImpl} {nd : Node} {reply : Option Bytes}

theorem serve_eq_ok {msg : Bytes} {q : Request} (h : st.serve msg = .ok (q, st', reply)) :
    decodeRequest (st.received msg).receiveBuff.bytes = .ok q ∧ (st.received msg).execute q = .ok (st', reply) := by
  rw [serve] at h
  obtain ⟨q', hq, h⟩ := bind_eq_ok h
  obtain ⟨p, hp, h⟩ := bind_eq_ok h
  cases h
  exact ⟨hq, hp⟩

/-- A `LOG` request to a store with an empty log. -/
theorem Reflects.logged (h : st.Reflects nd) (hnone : nd.pending = none) (hkeys : ∀ e ∈ nd.data.entries, e.1 ≠ [])
    {r : Log} (hkind : r.kind ≠ .error) (hkey : r.key ≠ []) (hnul : r.NulFree)
    (hx : st.execute (.log r) = .ok (st', reply)) :
    st'.Reflects { nd with pending := some r.recorded } ∧
      reply = some (Value.vote OK (keyEnds (r.apply nd.data)).1 (keyEnds (r.apply nd.data)).2).message := by
  rw [execute_log st hkind] at hx
  obtain ⟨b, hb, hx⟩ := bind_eq_ok hx
  rw [if_neg (Log.not_strays hkey _)] at hx
  have hfits : (encLog r.recorded).length ≤ MAXLINE := by
    rcases st.storeLog.buff.put_cases (encLog r.recorded) with ⟨hlen, -⟩ | ⟨-, he⟩
    · exact hlen
    · rw [he] at hb
      cases hb
  obtain ⟨hdata, hlog, rfl⟩ := sendReply_eq_ok hx
  have hrec : r.recorded.Storable := ⟨r.kind_recorded.trans_ne hkind, Log.recorded_nulFree hnul, hfits⟩
  have hbounds := Log.bounds_eq hkind hkey (.reliable nd.data) hkeys
  refine ⟨(h.writeLog hnone hrec b).of_eq hdata (congrArg _ hlog), ?_⟩
  rw [h.data, Node.storeData, hbounds]
  rfl

end StoreImpl

/-! ## The bounds after the commit -/

/-- `lo` and `hi` are the smallest and the largest key; both are empty exactly when there is no key. -/
structure IsEnds (m : OrdMap Bytes Bytes) (lo hi : Bytes) : Prop where
  least : m.entries ≠ [] → (∃ e ∈ m.entries, lo = e.1) ∧ ∀ e ∈ m.entries, lo ≤ e.1
  greatest : m.entries ≠ [] → (∃ e ∈ m.entries, hi = e.1) ∧ ∀ e ∈ m.entries, e.1 ≤ hi
  empty : (lo = [] ∧ hi = []) ↔ m.entries = []

theorem isEnds_keyEnds {m : OrdMap Bytes Bytes} (hkeys : ∀ e ∈ m.entries, e.1 ≠ []) :
    IsEnds m (keyEnds m).1 (keyEnds m).2 where
  least h := ⟨(exists_mem_keyEnds h).1, fun _ he => (keyEnds_bounds he).1⟩
  greatest h := ⟨(exists_mem_keyEnds h).2, fun _ he => (keyEnds_bounds he).2⟩
  empty := by
    constructor
    · rintro ⟨hlo, -⟩
      by_contra hne
      exact (keyEnds_of_forall (P := (· ≠ [])) hne hkeys).1 hlo
    · intro h
      rw [keyEnds_empty h]
      exact ⟨rfl, rfl⟩

/-- The bounds that a store announces are the ends of its data after the following commit. -/
theorem announced_bounds {st st' : StoreImpl} {m : OrdMap Bytes Bytes} {msg : Bytes} {r : Log} {reply : Option Bytes}
    (hdata : st.storeData.dbHandle = .reliable m) (hkeys : ∀ e ∈ m.entries, e.1 ≠ [])
    (hlog : st.storeLog.dbHandle = .reliable .empty) (hkind : r.kind ≠ .error) (hkey : r.key ≠ [])
    (h : st.serve msg = .ok (.log r, st', reply)) :
    ∃ new_min new_max st'' reply', reply = some (encStr OK ++ (encStr new_min ++ encStr new_max)) ∧
      st'.serve (encStr COMMIT_LOG) = .ok (.commitLog, st'', reply') ∧
      st''.storeData.dbHandle.db = r.apply m ∧ IsEnds st''.storeData.dbHandle.db new_min new_max := by
  obtain ⟨hdec, hx⟩ := StoreImpl.serve_eq_ok h
  have hnode : (st.received msg).Reflects ⟨m, st.storeData.size, none⟩ :=
    ⟨by rw [StoreImpl.received, Node.storeData, ← hdata], hlog, fun _ hr => by cases hr⟩
  obtain ⟨hlogged, rfl⟩ := hnode.logged rfl hkeys hkind hkey (decodeRequest_log hdec) hx
  have hcommit := hlogged.serve (q := .commitLog) (v := .str OK) (fun _ hq => by cases hq) (by decide)
    (fun _ hq => by cases hq) rfl
  rcases hcommit with ⟨-, st'', hserve, hcommitted⟩ | ⟨hlong, -⟩
  · have hdb : st''.storeData.dbHandle.db = r.apply m := by
      rw [hcommitted.data]
      exact r.apply_recorded m
    refine ⟨_, _, st'', _, rfl, hserve, hdb, ?_⟩
    rw [hdb]
    refine isEnds_keyEnds fun e he => ?_
    rcases Log.mem_apply he with ⟨-, rfl⟩ | he
    · exact hkey
    · exact hkeys e he
  · exact absurd hlong (by decide)

/-- A store with two pairs. -/
def twoPairs : OrdMap Bytes Bytes := (OrdMap.empty.insert (text "a") (text "x")).insert (text "b") (text "y")

/-- The smallest key goes: both bounds are then the other one. -/
theorem announced_bounds_deleteA :
    let st := StoreImpl.start (.reliable twoPairs) (.reliable .empty)
    let r : Log := { kind := .delete, key := text "a" }
    ∃ st' reply, st.serve (Request.log r).message = .ok (.log r, st', reply) ∧
      ∃ new_min new_max st'' reply', reply = some (encStr OK ++ (encStr new_min ++ encStr new_max)) ∧
        st'.serve (encStr COMMIT_LOG) = .ok (.commitLog, st'', reply') ∧
        st''.storeData.dbHandle.db = r.apply twoPairs ∧ IsEnds st''.storeData.dbHandle.db new_min new_max := by
  intro st r
  have hsound : st.storeLog.Sound := fun e he => absurd he List.not_mem_nil
  have hstay : ¬(Request.log r).Strays st.storeData.dbHandle.db := by decide
  rcases StoreImpl.serve_sound hsound (q := .log r) (by decide) hstay with ⟨v, hv, hlong, -⟩ | ⟨st', hserve, -⟩
  · cases hv
    exact absurd hlong (by decide)
  · exact ⟨st', _, hserve, announced_bounds (m := twoPairs) rfl (by decide) rfl (by decide) (by decide) hserve⟩

end DistRocks
