import Mathlib.Data.Fintype.Basic
import Mathlib.Data.List.Lex
import Mathlib.Data.List.TakeWhile
import Mathlib.Tactic.Ring

/-!
# Byte strings and C integers

* `Bytes` : a `std::string`, ordered bytewise as `std::string` and the default RocksDB comparator order it;
  `lt_append_zero_iff` : `k ++ [0]` is the immediate successor of `k`;
* `cstr` : what `std::string(const char *)` keeps of a string, `NulFree` : it keeps all of it;
* `wrapInt` : a number stored in a 32-bit `int`; `intToBytes`, `intOfBytes` : its four bytes in memory, the lowest
  first (`intOfBytes_intToBytes`).
-/

namespace DistRocks

abbrev Byte : Type := Fin 256

instance Byte.neZero : NeZero 256 := ⟨by decide⟩

abbrev Bytes : Type := List Byte

/-- The bytes of an ASCII literal. -/
def text (s : String) : Bytes := s.toList.map fun c => Fin.ofNat 256 c.toNat

/-! ## Order -/

theorem lt_append_zero_iff (x k : Bytes) : x < k ++ [0] ↔ x < k ∨ x = k := by
  induction k generalizing x with
  | nil =>
      cases x with
      | nil => simp
      | cons b x =>
          have h0 : ¬ b < 0 := Nat.not_lt_zero _
          simp only [List.nil_append, List.cons_lt_cons_iff, List.not_lt_nil, h0]
          simp
  | cons a k ih =>
      cases x with
      | nil => simp
      | cons b x =>
          simp only [List.cons_append, List.cons_lt_cons_iff, ih, List.cons.injEq]
          tauto

/-- `k ++ [0]` is the immediate successor of `k`. -/
theorem append_zero_le_iff (k x : Bytes) : k ++ [0] ≤ x ↔ k < x := by
  rw [← not_lt, lt_append_zero_iff, ← le_iff_lt_or_eq, not_le]

/-! ## NUL-terminated strings -/

def NulFree (s : Bytes) : Prop := 0 ∉ s

instance (s : Bytes) : Decidable (NulFree s) := inferInstanceAs (Decidable (0 ∉ s))

/-- The bytes before the first NUL. -/
def cstr (s : Bytes) : Bytes := s.takeWhile (· ≠ 0)

theorem cstr_append_zero (s t : Bytes) : cstr (s ++ 0 :: t) = cstr s := by
  induction s with
  | nil => simp [cstr]
  | cons b s ih =>
      simp only [cstr, List.cons_append, List.takeWhile_cons] at ih ⊢
      split
      · rw [ih]
      · rfl

theorem nulFree_cstr (s : Bytes) : NulFree (cstr s) := fun h => by
  simpa using List.mem_takeWhile_imp h

theorem NulFree.cstr_eq {s : Bytes} (h : NulFree s) : cstr s = s :=
  List.takeWhile_eq_self_iff.mpr fun b hb => by
    have : b ≠ 0 := fun h0 => h (h0 ▸ hb)
    simpa using this

theorem cstr_eq_iff {s : Bytes} : cstr s = s ↔ NulFree s :=
  ⟨fun h => h ▸ nulFree_cstr s, NulFree.cstr_eq⟩

theorem length_cstr_le (s : Bytes) : (cstr s).length ≤ s.length := (List.takeWhile_prefix _).length_le

/-! ## 32-bit integers -/

/-- The value an `int` holds after being assigned `x`. -/
def wrapInt (x : ℤ) : ℤ := (x + 2147483648) % 4294967296 - 2147483648

theorem wrapInt_eq {x : ℤ} (h : -2147483648 ≤ x) (h' : x < 2147483648) : wrapInt x = x := by
  unfold wrapInt
  omega

theorem wrapInt_bounds (x : ℤ) : -2147483648 ≤ wrapInt x ∧ wrapInt x < 2147483648 := by
  unfold wrapInt
  omega

theorem wrapInt_congr {x y : ℤ} (h : (4294967296 : ℤ) ∣ x - y) : wrapInt x = wrapInt y := by
  unfold wrapInt
  omega

theorem dvd_wrapInt_sub (x : ℤ) : (4294967296 : ℤ) ∣ wrapInt x - x := by
  unfold wrapInt
  omega

@[simp] theorem wrapInt_add_left (x y : ℤ) : wrapInt (wrapInt x + y) = wrapInt (x + y) :=
  wrapInt_congr (by simpa using dvd_wrapInt_sub x)

@[simp] theorem wrapInt_add_right (x y : ℤ) : wrapInt (x + wrapInt y) = wrapInt (x + y) :=
  wrapInt_congr (by simpa using dvd_wrapInt_sub y)

@[simp] theorem wrapInt_sub_left (x y : ℤ) : wrapInt (wrapInt x - y) = wrapInt (x - y) :=
  wrapInt_congr (by simpa using dvd_wrapInt_sub x)

@[simp] theorem wrapInt_sub_right (x y : ℤ) : wrapInt (x - wrapInt y) = wrapInt (x - y) :=
  wrapInt_congr (by have h := dvd_wrapInt_sub y; omega)

/-- Digit `i` of `u` in base 256. -/
def byteOf (u i : ℕ) : Byte := Fin.ofNat 256 (u / 256 ^ i)

/-- The four bytes of an `int`. -/
def intToBytes (x : ℤ) : Bytes :=
  let u := (x % 4294967296).toNat
  [byteOf u 0, byteOf u 1, byteOf u 2, byteOf u 3]

def intOfBytes (b₀ b₁ b₂ b₃ : Byte) : ℤ :=
  wrapInt (b₀.val + 256 * b₁.val + 65536 * b₂.val + 16777216 * b₃.val : ℕ)

@[simp] theorem length_intToBytes (x : ℤ) : (intToBytes x).length = 4 := rfl

theorem byteOf_sum {u : ℕ} (h : u < 4294967296) :
    (byteOf u 0).val + 256 * (byteOf u 1).val + 65536 * (byteOf u 2).val + 16777216 * (byteOf u 3).val = u := by
  simp only [byteOf, Fin.val_ofNat, pow_zero, Nat.div_one, pow_one, Nat.reducePow]
  omega

theorem intOfBytes_byteOf (x : ℤ) :
    intOfBytes (byteOf (x % 4294967296).toNat 0) (byteOf (x % 4294967296).toNat 1)
      (byteOf (x % 4294967296).toNat 2) (byteOf (x % 4294967296).toNat 3) = wrapInt x := by
  rw [intOfBytes, byteOf_sum (by omega), Int.toNat_of_nonneg (Int.emod_nonneg _ (by norm_num))]
  unfold wrapInt
  omega

end DistRocks
