import DistRocks.Wire.HandleBuff

/-!
# Routing records (`control_meta.cpp`)

A record of the metadata database says which interval of keys a node was last known to hold.

* `ControlMeta.toSlice`, `ControlMeta.ofSlice` : the source's encoder and decoder; `encMeta` : the bytes between;
* `Sound` : a record that fits its buffer and whose strings have no NUL; `ofSlice_encMeta` : it reads back.
-/

namespace DistRocks

structure ControlMeta where
  min_str : Bytes
  max_str : Bytes
  virtual_fd : ℤ
  deriving DecidableEq, Repr

namespace ControlMeta

/-- Write the record at the front of `buff`; the answer is the size of the slice. -/
def toSlice (c : ControlMeta) (buff : Buff) : Except Fault (Buff × ℕ) := do
  let (buff, tmp, total_len) ← insertStrToBuff buff 0 c.min_str 0
  let (buff, tmp, total_len) ← insertStrToBuff buff tmp c.max_str total_len
  let (buff, _, total_len) ← insertIntToBuff buff tmp c.virtual_fd total_len
  return (buff, total_len)

def ofSlice (slice : Bytes) : Except Fault ControlMeta := do
  let (min_str, buff) ← getStringFromBuff slice
  let (max_str, buff) ← getStringFromBuff buff
  let (virtual_fd, _) ← getIntFromBuff buff
  return { min_str, max_str, virtual_fd }

end ControlMeta

/-- The bytes of a record. -/
def encMeta (c : ControlMeta) : Bytes := encStr c.min_str ++ (encStr c.max_str ++ intToBytes c.virtual_fd)

namespace ControlMeta

@[simp] theorem length_encMeta (c : ControlMeta) :
    (encMeta c).length = c.min_str.length + c.max_str.length + 14 := by
  simp only [encMeta, List.length_append, length_intToBytes, length_encStr]
  omega

theorem toSlice_eq (c : ControlMeta) (b : Buff) :
    c.toSlice b = (b.put (encMeta c) >>= fun b => pure (b, (encMeta c).length)) := by
  have h₂ := Buff.put_insertStr (b := b) (encStr c.min_str) c.max_str (0 + (encStr c.min_str).length)
  have h₃ := Buff.put_insertInt (b := b) (encStr c.min_str ++ encStr c.max_str) c.virtual_fd
    (0 + (encStr c.min_str).length + (encStr c.max_str).length)
  have hlen : 0 + (encStr c.min_str).length + (encStr c.max_str).length + 4 = (encMeta c).length := by
    rw [length_encMeta, length_encStr, length_encStr]
    omega
  simp only [toSlice]
  rw [Buff.insertStr_zero, bind_assoc]
  simp only [pure_bind]
  rw [← bind_assoc, h₂, bind_assoc]
  simp only [pure_bind]
  rw [← bind_assoc, h₃, bind_assoc]
  simp only [pure_bind, hlen, encMeta, List.append_assoc]

theorem ofSlice_append (c : ControlMeta) (rest : Bytes) (hmin : c.min_str.length < MAXLINE)
    (hmax : c.max_str.length < MAXLINE) :
    ofSlice (encMeta c ++ rest) = .ok ⟨cstr c.min_str, cstr c.max_str, wrapInt c.virtual_fd⟩ := by
  rw [encMeta, List.append_assoc, List.append_assoc, ofSlice]
  simp only [ok_bind, getString_encStr _ hmin, getString_encStr _ hmax, getInt_intToBytes]
  rfl

/-- A record that can be written and comes back from its bytes. -/
structure Sound (c : ControlMeta) : Prop where
  min_str : NulFree c.min_str
  max_str : NulFree c.max_str
  fits : (encMeta c).length ≤ MAXLINE
  virtual_fd : -2147483648 ≤ c.virtual_fd ∧ c.virtual_fd < 2147483648

theorem ofSlice_encMeta {c : ControlMeta} (h : c.Sound) : ofSlice (encMeta c) = .ok c := by
  have hlen := h.fits
  rw [length_encMeta] at hlen
  have hread := ofSlice_append c [] (by omega) (by omega)
  rwa [List.append_nil, h.min_str.cstr_eq, h.max_str.cstr_eq, wrapInt_eq h.virtual_fd.1 h.virtual_fd.2] at hread

end ControlMeta

end DistRocks
