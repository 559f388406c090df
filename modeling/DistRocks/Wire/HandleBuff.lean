import DistRocks.Wire.ConstValues

/-!
# Buffers and the fields written into them (`handle_buff.cpp`)

A buffer is what has been written so far into `MAXLINE` bytes from `malloc`; a `char *` to read from is the list of
bytes from there on; a `char *` to write to is an offset.

* `Buff.write` is `memcpy` into a buffer: a write past `MAXLINE` is the fault `overrun`;
* `insertStrToBuff`, `insertIntToBuff`, `getStringFromBuff`, `getIntFromBuff` : the four field functions;
* `encStr` : the bytes of one string field; `Buff.put b msg` : `b` with `msg` over its first bytes, if it fits;
* `put_insertStr`, `put_insertInt` : an insertion at the end of what was put appends one field;
* `getString_encStr`, `getInt_intToBytes` : reading a field back, whatever follows it.
-/

namespace DistRocks

/-- How a run can go wrong. -/
inductive Fault
  /-- a write past the end of a buffer -/
  | overrun
  /-- any other undefined behaviour: a read of bytes nobody wrote, an iterator that is not valid, no such node -/
  | undefined
  /-- `recv` waits for a reply that no one sends -/
  | blocked
  /-- the model's bound on the rounds of a loop is used up -/
  | exhausted
  deriving DecidableEq, Repr

@[simp] theorem ok_bind {α β : Type} (a : α) (f : α → Except Fault β) : (Except.ok a >>= f) = f a := (rfl)

@[simp] theorem error_bind {α β : Type} (e : Fault) (f : α → Except Fault β) : (Except.error e >>= f) = .error e :=
  (rfl)

/-- The two parts of a computation that ends well. -/
theorem bind_eq_ok {α β : Type} {x : Except Fault α} {f : α → Except Fault β} {b : β} (h : (x >>= f) = .ok b) :
    ∃ a, x = .ok a ∧ f a = .ok b := by
  cases x with
  | error e => cases h
  | ok a => exact ⟨a, rfl, h⟩

/-- The initialised front of a block of `MAXLINE` bytes. -/
structure Buff where
  bytes : Bytes
  fits : bytes.length ≤ MAXLINE

namespace Buff

def malloc : Buff := ⟨[], Nat.zero_le _⟩

/-- `memcpy(buff + start, src, src.length)`. -/
def write (b : Buff) (start : ℕ) (src : Bytes) : Except Fault Buff :=
  if h : start + src.length ≤ MAXLINE then
    .ok { bytes := b.bytes.take start ++ List.replicate (start - b.bytes.length) 0 ++ src ++
            b.bytes.drop (start + src.length)
          fits := by
            have := b.fits
            simp only [List.length_append, List.length_take, List.length_replicate, List.length_drop]
            omega }
  else .error .overrun

/-- The bytes that `recv` stores: at most `MAXLINE`, over the front of the buffer. -/
def receive (b : Buff) (msg : Bytes) : Buff where
  bytes := msg.take MAXLINE ++ b.bytes.drop (msg.take MAXLINE).length
  fits := by
    have := b.fits
    simp only [List.length_append, List.length_take, List.length_drop]
    omega

end Buff

/-! ## The field functions -/

/-- The buffer, the next insertion point and the total length after one more string. -/
def insertStrToBuff (b : Buff) (start : ℕ) (str : Bytes) (total_len : ℕ) : Except Fault (Buff × ℕ × ℕ) := do
  let len := str.length + 1
  let b ← b.write start (intToBytes len)
  let b ← b.write (start + 4) (str ++ [0])
  return (b, start + 4 + len, total_len + (len + 4))

def insertIntToBuff (b : Buff) (start : ℕ) (a : ℤ) (total_len : ℕ) : Except Fault (Buff × ℕ × ℕ) := do
  let b ← b.write start (intToBytes a)
  return (b, start + 4, total_len + 4)

def insertStrSToBuff (b : Buff) (start : ℕ) : List Bytes → ℕ → Except Fault (Buff × ℕ × ℕ)
  | [], total_size => return (b, start, total_size)
  | i :: str_s, total_size => do
    let (b, start, total_size) ← insertStrToBuff b start i total_size
    insertStrSToBuff b start str_s total_size

def getIntFromBuff : Bytes → Except Fault (ℤ × Bytes)
  | b₀ :: b₁ :: b₂ :: b₃ :: rest => .ok (intOfBytes b₀ b₁ b₂ b₃, rest)
  | _ => .error .undefined

/-- `len` bytes are copied to a local array of `MAXLINE` bytes, and the string is what stands there before the first
NUL. -/
def getStringFromBuff (buff : Bytes) : Except Fault (Bytes × Bytes) := do
  let (len, rest) ← getIntFromBuff buff
  if len < 0 ∨ MAXLINE < len ∨ rest.length < len then .error .undefined
  else
    let tmp := rest.take len.toNat
    if 0 ∈ tmp then return (cstr tmp, rest.drop len.toNat) else .error .undefined

/-! ## Encodings -/

/-- The bytes of a string field. -/
def encStr (s : Bytes) : Bytes := intToBytes (s.length + 1 : ℕ) ++ (s ++ [0])

@[simp] theorem length_encStr (s : Bytes) : (encStr s).length = s.length + 5 := by
  simp [encStr]
  omega

namespace Buff

variable {b : Buff}

/-- `b` with `msg` over its first bytes. -/
def put (b : Buff) (msg : Bytes) : Except Fault Buff :=
  if h : msg.length ≤ MAXLINE then
    .ok ⟨msg ++ b.bytes.drop msg.length, by
      have := b.fits
      simp only [List.length_append, List.length_drop]
      omega⟩
  else .error .overrun

@[simp] theorem put_nil : b.put [] = .ok b := by
  simp [put]

theorem put_eq_ok {msg : Bytes} (h : msg.length ≤ MAXLINE) :
    ∃ c : Buff, b.put msg = .ok c ∧ c.bytes = msg ++ b.bytes.drop msg.length := by
  simp [put, h]

theorem put_eq_overrun {msg : Bytes} (h : MAXLINE < msg.length) : b.put msg = .error .overrun := by
  simp [put, h.not_ge]

/-- Either the message fits and stands at the front of the buffer, or the assembly overruns it. -/
theorem put_cases (b : Buff) (msg : Bytes) :
    (msg.length ≤ MAXLINE ∧ ∃ c : Buff, b.put msg = .ok c ∧ c.bytes = msg ++ b.bytes.drop msg.length) ∨
      (MAXLINE < msg.length ∧ b.put msg = .error .overrun) := by
  rcases le_or_gt msg.length MAXLINE with h | h
  · exact Or.inl ⟨h, put_eq_ok h⟩
  · exact Or.inr ⟨h, put_eq_overrun h⟩

theorem take_put {c : Buff} {msg : Bytes} (h : b.put msg = .ok c) : c.bytes.take msg.length = msg := by
  rcases b.put_cases msg with ⟨-, c', hc, hbytes⟩ | ⟨-, he⟩
  · rw [h] at hc
    obtain rfl := Except.ok.inj hc
    rw [hbytes, List.take_left']
    rfl
  · rw [h] at he
    cases he

theorem bytes_receive {msg : Bytes} (h : msg.length ≤ MAXLINE) :
    (b.receive msg).bytes = msg ++ b.bytes.drop msg.length := by
  simp [receive, List.take_of_length_le h]

/-- A write at the end of what was put. -/
theorem put_write (pre src : Bytes) :
    (b.put pre >>= fun c => c.write pre.length src) = b.put (pre ++ src) := by
  by_cases hfit : (pre ++ src).length ≤ MAXLINE
  · have hlen : (pre ++ src).length = pre.length + src.length := List.length_append
    simp only [put, hfit, dif_pos, show pre.length ≤ MAXLINE by omega]
    change write _ _ _ = _
    simp [write, hlen ▸ hfit]
  · rw [put_eq_overrun (not_le.mp hfit)]
    by_cases hpre : pre.length ≤ MAXLINE
    · obtain ⟨c, hc, -⟩ := put_eq_ok (b := b) hpre
      rw [hc]
      change write _ _ _ = _
      rw [List.length_append] at hfit
      simp [write, hfit]
    · rw [put_eq_overrun (not_le.mp hpre)]
      rfl

theorem put_insertStr (pre s : Bytes) (n : ℕ) :
    (b.put pre >>= fun c => insertStrToBuff c pre.length s n) =
      (b.put (pre ++ encStr s) >>= fun c => pure (c, (pre ++ encStr s).length, n + (encStr s).length)) := by
  have h₁ : pre.length + 4 = (pre ++ intToBytes (s.length + 1 : ℕ)).length := by simp
  have h₂ : pre.length + 4 + (s.length + 1) = (pre ++ encStr s).length := by simp; omega
  simp only [insertStrToBuff, h₂]
  rw [h₁, ← bind_assoc, put_write, ← bind_assoc, put_write, List.append_assoc, ← encStr, length_encStr]

theorem put_insertInt (pre : Bytes) (a : ℤ) (n : ℕ) :
    (b.put pre >>= fun c => insertIntToBuff c pre.length a n) =
      (b.put (pre ++ intToBytes a) >>= fun c => pure (c, (pre ++ intToBytes a).length, n + 4)) := by
  simp only [insertIntToBuff]
  rw [← bind_assoc, put_write, List.length_append, length_intToBytes]

/-- The first string of a message. -/
theorem insertStr_zero (b : Buff) (s : Bytes) (n : ℕ) :
    insertStrToBuff b 0 s n =
      (b.put (encStr s) >>= fun c => pure (c, (encStr s).length, n + (encStr s).length)) := by
  have h := put_insertStr (b := b) [] s n
  rw [put_nil] at h
  exact h

theorem insertInt_zero (b : Buff) (a : ℤ) (n : ℕ) :
    insertIntToBuff b 0 a n = (b.put (intToBytes a) >>= fun c => pure (c, 4, n + 4)) := by
  have h := put_insertInt (b := b) [] a n
  rw [put_nil] at h
  exact h

end Buff

/-! ## Reading a field back -/

theorem getInt_intToBytes (x : ℤ) (rest : Bytes) : getIntFromBuff (intToBytes x ++ rest) = .ok (wrapInt x, rest) := by
  simp [intToBytes, getIntFromBuff, intOfBytes_byteOf]

theorem getString_encStr {s : Bytes} (rest : Bytes) (h : s.length < MAXLINE) :
    getStringFromBuff (encStr s ++ rest) = .ok (cstr s, rest) := by
  have hM : MAXLINE = 40960 := rfl
  have hlen : wrapInt (s.length + 1 : ℕ) = (s.length + 1 : ℕ) := wrapInt_eq (by omega) (by omega)
  have htake : (s ++ [0] ++ rest).take (s.length + 1) = s ++ [0] := List.take_left' (by simp)
  have hdrop : (s ++ [0] ++ rest).drop (s.length + 1) = rest := List.drop_left' (by simp)
  rw [getStringFromBuff, encStr, List.append_assoc, getInt_intToBytes, hlen]
  change (if _ then _ else _) = _
  rw [if_neg (by simp only [List.length_append, List.length_singleton]; omega), Int.toNat_natCast]
  simp only [htake, hdrop]
  rw [if_pos (by simp), cstr_append_zero]
  rfl

end DistRocks
