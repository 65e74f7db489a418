import Mathlib.Algebra.Order.Ring.Int
import Mathlib.Tactic.Common

/-!
# Conversions between C integer types

The conversions that C inserts where `int`, `uint32_t` and `size_t` meet
(LP64), and their values where nothing is lost: `intToU32` and `intToSize` of
a non-negative `int`, `sizeToInt` of a `size_t` below `2³¹`, and sums of
`int`s that stay in range (`toInt_add`); past the range a sum wraps
(`toInt_add_wrap`), and a negative `int` makes a large `size_t`
(`intToSize_toNat_neg`). `leBytes` are the bytes of a number in memory, least
significant first, `leValue` is the number that they make up.
-/

namespace SharedMem.Word

/-- `int` to `uint32_t`. -/
def intToU32 (x : Int32) : UInt32 := x.toUInt32

/-- `int` to `size_t`: sign-extended. -/
def intToSize (x : Int32) : UInt64 := x.toInt64.toUInt64

/-- `size_t` to `int`: truncated. -/
def sizeToInt (x : UInt64) : Int32 := x.toUInt32.toInt32

theorem toInt_toInt32 {x : UInt32} (h : x.toNat < 2 ^ 31) : x.toInt32.toInt = x.toNat := by
  change x.toBitVec.toInt = x.toBitVec.toNat
  change x.toBitVec.toNat < 2 ^ 31 at h
  rw [BitVec.toInt_eq_toNat_cond]
  split <;> omega

theorem intToU32_toNat {x : Int32} (h : 0 ≤ x.toInt) : (intToU32 x).toNat = x.toInt.toNat := by
  change x.toBitVec.toNat = x.toBitVec.toInt.toNat
  change 0 ≤ x.toBitVec.toInt at h
  rw [BitVec.toInt_eq_toNat_cond] at h ⊢
  split at h <;> split <;> omega

theorem intToSize_toNat {x : Int32} (h : 0 ≤ x.toInt) : (intToSize x).toNat = x.toInt.toNat := by
  have e : x.toInt64.toBitVec.toInt = x.toInt := x.toInt_toInt64
  change x.toInt64.toBitVec.toNat = x.toInt.toNat
  rw [← e] at h ⊢
  rw [BitVec.toInt_eq_toNat_cond] at h ⊢
  split at h <;> split <;> omega

theorem intToSize_toNat_neg {x : Int32} (h : x.toInt < 0) :
    ((intToSize x).toNat : Int) = x.toInt + 2 ^ 64 := by
  have e : x.toInt64.toBitVec.toInt = x.toInt := x.toInt_toInt64
  change (x.toInt64.toBitVec.toNat : Int) = x.toInt + 2 ^ 64
  rw [← e] at h ⊢
  rw [BitVec.toInt_eq_toNat_cond] at h ⊢
  split at h <;> split <;> omega

theorem sizeToInt_toInt {x : UInt64} (h : x.toNat < 2 ^ 31) : (sizeToInt x).toInt = x.toNat := by
  have e : x.toUInt32.toNat = x.toNat := by rw [UInt64.toNat_toUInt32]; omega
  rw [sizeToInt, toInt_toInt32 (by omega), e]

/-- `int` addition that does not overflow. -/
theorem toInt_add {x y : Int32} (h : -2 ^ 31 ≤ x.toInt + y.toInt) (h' : x.toInt + y.toInt < 2 ^ 31) :
    (x + y).toInt = x.toInt + y.toInt := by
  rw [Int32.toInt_add]
  exact Int.bmod_eq_of_le (by omega) (by omega)

/-- `int` addition that overflows, in two's complement. -/
theorem toInt_add_wrap {x y : Int32} (h : 2 ^ 31 ≤ x.toInt + y.toInt) :
    (x + y).toInt = x.toInt + y.toInt - 2 ^ 32 := by
  have hx := x.toInt_lt
  have hy := y.toInt_lt
  rw [Int32.toInt_add, ← Int.sub_bmod_right]
  exact Int.bmod_eq_of_le (by omega) (by omega)

/-- The remainder by a positive `int`, as `uint32_t`. -/
theorem mod_intToU32 {x : UInt32} {n : Int32} (h : 0 < n.toInt) :
    (x % intToU32 n).toNat = x.toNat % n.toInt.toNat := by
  rw [UInt32.toNat_mod, intToU32_toNat (by omega)]

/-! ## Bytes -/

/-- The `k` low bytes of a number. -/
def leBytes : Nat → Nat → List UInt8
  | 0, _ => []
  | k + 1, n => .ofNat n :: leBytes k (n / 256)

/-- The number with these low bytes. -/
def leValue : List UInt8 → Nat
  | [] => 0
  | b :: bs => b.toNat + 256 * leValue bs

@[simp] theorem length_leBytes : ∀ k n, (leBytes k n).length = k
  | 0, _ => rfl
  | k + 1, n => by rw [leBytes, List.length_cons, length_leBytes k]

theorem leValue_leBytes : ∀ k n, leValue (leBytes k n) = n % 256 ^ k
  | 0, n => by rw [Nat.pow_zero, Nat.mod_one]; rfl
  | k + 1, n => by
    rw [leBytes, leValue, leValue_leBytes k, Nat.pow_succ', Nat.mod_mul, UInt8.toNat_ofNat']

/-- A `uint64_t` read back from its bytes. -/
theorem ofNat_leValue_leBytes (x : UInt64) : UInt64.ofNat (leValue (leBytes 8 x.toNat)) = x := by
  rw [leValue_leBytes, show (256 : Nat) ^ 8 = 2 ^ 64 by rfl, Nat.mod_eq_of_lt x.toNat_lt,
    UInt64.ofNat_toNat]

end SharedMem.Word
