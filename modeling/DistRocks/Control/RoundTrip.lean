import DistRocks.Control.Meta
import DistRocks.Store.Log

/-!
# Records on their way through a buffer

A string field has a length in front of it, which the decoder uses to find the next field, and a NUL behind it, at which
the decoder ends the string.

* `Log.readBuff`, `ControlMeta.readSlice` : the two decoders with the bytes behind the record;
* `readBuff_encLog`, `readSlice_encMeta` : they consume what the encoders wrote and end every string at its first NUL;
* `roundTrip` : written and decoded again; `roundTrip_iff` : a record comes back exactly if its strings have no NUL.
-/

namespace DistRocks

/-! ## The decoders -/

/-- `ofBuff` and the bytes that it leaves. -/
def Log.readBuff (buff : Bytes) : Except Fault (Log × Bytes) := do
  let (log_kind, tmp) ← getIntFromBuff buff
  let kind ← LogKind.ofInt log_kind
  let (key, tmp) ← getStringFromBuff tmp
  let (value, tmp) ← getStringFromBuff tmp
  return ({ kind, key, value }, tmp)

/-- `ofSlice` and the bytes that it leaves. -/
def ControlMeta.readSlice (slice : Bytes) : Except Fault (ControlMeta × Bytes) := do
  let (min_str, buff) ← getStringFromBuff slice
  let (max_str, buff) ← getStringFromBuff buff
  let (virtual_fd, buff) ← getIntFromBuff buff
  return ({ min_str, max_str, virtual_fd }, buff)

theorem Log.ofBuff_eq (buff : Bytes) : ofBuff buff = Prod.fst <$> readBuff buff := by
  simp only [ofBuff, readBuff, map_bind, map_pure]

theorem ControlMeta.ofSlice_eq (slice : Bytes) : ofSlice slice = Prod.fst <$> readSlice slice := by
  simp only [ofSlice, readSlice, map_bind, map_pure]

theorem readBuff_encLog {r : Log} (rest : Bytes) (h : (encLog r).length ≤ MAXLINE) :
    Log.readBuff (encLog r ++ rest) = .ok (r.asRead, rest) := by
  rw [Log.length_encLog] at h
  have hint : wrapInt r.kind.toInt = r.kind.toInt := by
    cases r.kind <;> exact wrapInt_eq (by decide) (by decide)
  rw [encLog, List.append_assoc, List.append_assoc, Log.readBuff, getInt_intToBytes, hint]
  simp only [ok_bind, LogKind.ofInt_toInt, getString_encStr (s := r.key) _ (by omega),
    getString_encStr (s := r.value) _ (by omega)]
  rfl

/-- The record as it reads back. -/
def ControlMeta.asRead (c : ControlMeta) : ControlMeta := { c with min_str := cstr c.min_str, max_str := cstr c.max_str }

theorem readSlice_encMeta {c : ControlMeta} (rest : Bytes) (h : (encMeta c).length ≤ MAXLINE)
    (hfd : -2147483648 ≤ c.virtual_fd ∧ c.virtual_fd < 2147483648) :
    ControlMeta.readSlice (encMeta c ++ rest) = .ok (c.asRead, rest) := by
  rw [ControlMeta.length_encMeta] at h
  rw [encMeta, List.append_assoc, List.append_assoc, ControlMeta.readSlice]
  simp only [ok_bind, getString_encStr (s := c.min_str) _ (by omega), getString_encStr (s := c.max_str) _ (by omega),
    getInt_intToBytes, wrapInt_eq hfd.1 hfd.2]
  rfl

/-! ## Round trips -/

/-- A record written over the buffer `b` and decoded from the slice, with `rest` behind it. -/
def Log.roundTrip (r : Log) (b : Buff) (rest : Bytes) : Except Fault (Log × Bytes) := do
  let (b, size) ← r.toSlice b 0
  readBuff (b.bytes.take size ++ rest)

def ControlMeta.roundTrip (c : ControlMeta) (b : Buff) (rest : Bytes) : Except Fault (ControlMeta × Bytes) := do
  let (b, size) ← c.toSlice b
  readSlice (b.bytes.take size ++ rest)

theorem Log.roundTrip_eq {r : Log} (b : Buff) (rest : Bytes) (h : (encLog r).length ≤ MAXLINE) :
    r.roundTrip b rest = .ok (r.asRead, rest) := by
  obtain ⟨c, hc, -⟩ := Buff.put_eq_ok (b := b) h
  rw [roundTrip, toSlice_zero, hc, ok_bind]
  show readBuff (c.bytes.take (encLog r).length ++ rest) = _
  rw [Buff.take_put hc, readBuff_encLog rest h]

theorem ControlMeta.roundTrip_eq {c : ControlMeta} (b : Buff) (rest : Bytes) (h : (encMeta c).length ≤ MAXLINE)
    (hfd : -2147483648 ≤ c.virtual_fd ∧ c.virtual_fd < 2147483648) : c.roundTrip b rest = .ok (c.asRead, rest) := by
  obtain ⟨b', hb, -⟩ := Buff.put_eq_ok (b := b) h
  rw [roundTrip, toSlice_eq, hb, ok_bind]
  show readSlice (b'.bytes.take (encMeta c).length ++ rest) = _
  rw [Buff.take_put hb, readSlice_encMeta rest h hfd]

theorem Log.asRead_eq_iff {r : Log} : r.asRead = r ↔ r.NulFree := by
  refine ⟨fun h => ⟨?_, ?_⟩, NulFree.asRead_eq⟩
  · exact cstr_eq_iff.mp (congrArg Log.key h)
  · exact cstr_eq_iff.mp (congrArg Log.value h)

theorem ControlMeta.asRead_eq_iff {c : ControlMeta} : c.asRead = c ↔ NulFree c.min_str ∧ NulFree c.max_str := by
  refine ⟨fun h => ⟨?_, ?_⟩, fun h => ?_⟩
  · exact cstr_eq_iff.mp (congrArg min_str h)
  · exact cstr_eq_iff.mp (congrArg max_str h)
  · rw [asRead, h.1.cstr_eq, h.2.cstr_eq]

/-- A record comes back, and the decoder leaves just what follows it, exactly if its strings have no NUL; and two keys
arrive as the same exactly if they are the same up to their first NUL. -/
theorem roundTrip_iff {r r' : Log} {c : ControlMeta} (hr : (encLog r).length ≤ MAXLINE)
    (hr' : (encLog r').length ≤ MAXLINE) (hc : (encMeta c).length ≤ MAXLINE)
    (hfd : -2147483648 ≤ c.virtual_fd ∧ c.virtual_fd < 2147483648) :
    ((∀ b rest, r.roundTrip b rest = .ok (r, rest)) ↔ r.NulFree) ∧
    ((∀ b rest, c.roundTrip b rest = .ok (c, rest)) ↔ NulFree c.min_str ∧ NulFree c.max_str) ∧
    ∀ b b' rest rest', (fun out => out.1.key) <$> r.roundTrip b rest =
      (fun out => out.1.key) <$> r'.roundTrip b' rest' ↔ cstr r.key = cstr r'.key := by
  refine ⟨?_, ?_, fun b b' rest rest' => ?_⟩
  · rw [← Log.asRead_eq_iff]
    constructor
    · intro h
      have hback := h Buff.malloc []
      rw [Log.roundTrip_eq _ _ hr] at hback
      exact congrArg Prod.fst (Except.ok.inj hback)
    · intro h b rest
      rw [Log.roundTrip_eq b rest hr, h]
  · rw [← ControlMeta.asRead_eq_iff]
    constructor
    · intro h
      have hback := h Buff.malloc []
      rw [ControlMeta.roundTrip_eq _ _ hc hfd] at hback
      exact congrArg Prod.fst (Except.ok.inj hback)
    · intro h b rest
      rw [ControlMeta.roundTrip_eq b rest hc hfd, h]
  · rw [Log.roundTrip_eq b rest hr, Log.roundTrip_eq b' rest' hr']
    exact ⟨Except.ok.inj, congrArg Except.ok⟩

theorem roundTrip_iff_sample :
    ((∀ b rest, (Log.mk .put (text "a") (text "b")).roundTrip b rest = .ok (⟨.put, text "a", text "b"⟩, rest)) ↔
        (Log.mk .put (text "a") (text "b")).NulFree) ∧
      ((∀ b rest, (ControlMeta.mk (text "a") (text "b") (-1)).roundTrip b rest =
          .ok (⟨text "a", text "b", -1⟩, rest)) ↔ NulFree (text "a") ∧ NulFree (text "b")) ∧
      ∀ b b' rest rest', (fun out => out.1.key) <$> (Log.mk .put (text "a") (text "b")).roundTrip b rest =
        (fun out => out.1.key) <$> (Log.mk .delete (text "c") []).roundTrip b' rest' ↔
          cstr (text "a") = cstr (text "c") :=
  roundTrip_iff (by decide) (by decide) (by decide) (by decide)

/-- The claim that records of arbitrary bytes come back is false: two keys that differ behind a NUL arrive as one. -/
theorem roundTrip_loses :
    ∃ r r' : Log, (encLog r).length ≤ MAXLINE ∧ (encLog r').length ≤ MAXLINE ∧ r.key ≠ r'.key ∧
      r.roundTrip Buff.malloc [] ≠ .ok (r, []) ∧
      (fun out => out.1.key) <$> r.roundTrip Buff.malloc [] =
        (fun out => out.1.key) <$> r'.roundTrip Buff.malloc [] := by
  refine ⟨⟨.put, [97, 0, 98], [120]⟩, ⟨.put, [97, 0, 99], [120]⟩, by decide, by decide, by decide, fun h => ?_, ?_⟩
  · rw [Log.roundTrip_eq _ _ (by decide)] at h
    cases h
  · rw [Log.roundTrip_eq _ _ (by decide), Log.roundTrip_eq _ _ (by decide)]
    rfl

end DistRocks
