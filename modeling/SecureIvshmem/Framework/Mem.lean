import Mathlib.Data.List.Basic
import Mathlib.Algebra.Order.Ring.Int
import Mathlib.Tactic.Common

/-!
# Byte memories

A memory maps offsets from some base pointer, of either sign, to bytes.
`memcpy(p + a, q + b, n)` is `store p a (bytesAt q b n)`: what a store
changes (`bytesAt_store_eq`, `store_of_outside`, `bytesAt_store_disjoint`)
is all that the proofs use. `pieces` cuts a range into consecutive pieces, as
a loop that copies a message piece by piece does.
-/

namespace SharedMem

/-- A memory, by offset from a base pointer. -/
abbrev Mem (β : Type*) := Int → β

variable {β : Type*}

/-- The `n` bytes from offset `a` on. -/
def bytesAt (m : Mem β) (a : Int) (n : Nat) : List β := (List.range n).map fun i : Nat => m (a + i)

/-- The memory with `bs` written from offset `a` on. -/
def store (m : Mem β) (a : Int) (bs : List β) : Mem β := fun x =>
  if a ≤ x then bs[(x - a).toNat]?.getD (m x) else m x

@[simp] theorem length_bytesAt (m : Mem β) (a : Int) (n : Nat) : (bytesAt m a n).length = n := by
  simp [bytesAt]

@[simp] theorem bytesAt_zero (m : Mem β) (a : Int) : bytesAt m a 0 = [] := rfl

theorem getElem_bytesAt (m : Mem β) (a : Int) {n i : Nat} (hi : i < (bytesAt m a n).length) :
    (bytesAt m a n)[i] = m (a + i) := by
  simp [bytesAt]

theorem bytesAt_congr {m m' : Mem β} {a a' : Int} {n : Nat}
    (h : ∀ i : Nat, i < n → m (a + i) = m' (a' + i)) : bytesAt m a n = bytesAt m' a' n :=
  List.map_congr_left fun i hi => h i (List.mem_range.mp hi)

/-- Equal bytes are equal one by one. -/
theorem apply_of_bytesAt_eq {m m' : Mem β} {a a' : Int} {n : Nat}
    (h : bytesAt m a n = bytesAt m' a' n) {i : Nat} (hi : i < n) : m (a + i) = m' (a' + i) := by
  have hm : (bytesAt m a n)[i]? = some (m (a + i)) := by simp [bytesAt, hi]
  have hm' : (bytesAt m' a' n)[i]? = some (m' (a' + i)) := by simp [bytesAt, hi]
  rw [h, hm'] at hm
  exact (Option.some.inj hm).symm

theorem bytesAt_add (m : Mem β) (a : Int) (n k : Nat) :
    bytesAt m a (n + k) = bytesAt m a n ++ bytesAt m (a + n) k := by
  simp only [bytesAt, List.range_add, List.map_append, List.map_map]
  congr 1
  exact List.map_congr_left fun i _ => by simp [Int.add_assoc]

theorem take_bytesAt (m : Mem β) (a : Int) {n k : Nat} (h : k ≤ n) :
    (bytesAt m a n).take k = bytesAt m a k := by
  obtain ⟨j, rfl⟩ := Nat.exists_eq_add_of_le h
  rw [bytesAt_add, List.take_left' (length_bytesAt ..)]

/-! ## Stores -/

theorem store_of_outside {m : Mem β} {a x : Int} {bs : List β} (h : x < a ∨ a + bs.length ≤ x) :
    store m a bs x = m x := by
  simp only [store]
  split
  · rw [List.getElem?_eq_none (by omega), Option.getD_none]
  · rfl

theorem store_of_inside {m : Mem β} {a : Int} {bs : List β} {i : Nat} (h : i < bs.length) :
    store m a bs (a + i) = bs[i] := by
  have hi : (a + i - a).toNat = i := by omega
  simp only [store, hi, show a ≤ a + i by omega, ↓reduceIte, List.getElem?_eq_getElem h, Option.getD_some]

@[simp] theorem store_nil (m : Mem β) (a : Int) : store m a [] = m := by
  funext x
  exact store_of_outside (by simp only [List.length_nil]; omega)

/-- The same store keeps two memories in agreement. -/
theorem store_congr {m m' : Mem β} {x : Int} (h : m x = m' x) (a : Int) (bs : List β) :
    store m a bs x = store m' a bs x := by
  simp only [store, h]

theorem bytesAt_store_self (m : Mem β) (a : Int) (bs : List β) :
    bytesAt (store m a bs) a bs.length = bs := by
  refine List.ext_getElem (length_bytesAt ..) fun i hi hi' => ?_
  rw [getElem_bytesAt, store_of_inside hi']

theorem bytesAt_store_eq (m : Mem β) (a : Int) {bs : List β} {n : Nat} (h : bs.length = n) :
    bytesAt (store m a bs) a n = bs :=
  h ▸ bytesAt_store_self m a bs

/-- Bytes that a store does not reach. -/
theorem bytesAt_store_disjoint {m : Mem β} {a b : Int} {bs : List β} {n : Nat}
    (h : b + n ≤ a ∨ a + bs.length ≤ b) : bytesAt (store m a bs) b n = bytesAt m b n :=
  bytesAt_congr fun i hi => store_of_outside (by omega)

/-- A prefix extended by the bytes stored after it. -/
theorem bytesAt_store_append (m : Mem β) (a : Int) (n : Nat) (bs : List β) :
    bytesAt (store m (a + n) bs) a (n + bs.length) = bytesAt m a n ++ bs := by
  rw [bytesAt_add, bytesAt_store_disjoint (by omega), bytesAt_store_self]

/-- Two stores, one right after the other. -/
theorem store_append (m : Mem β) (a : Int) (bs cs : List β) :
    store (store m a bs) (a + bs.length) cs = store m a (bs ++ cs) := by
  funext x
  by_cases hx : x < a + bs.length
  · rw [store_of_outside (.inl hx)]
    simp only [store]
    split
    · rw [List.getElem?_append_left (by omega)]
    · rfl
  · have he : (x - a).toNat - bs.length = (x - (a + bs.length)).toNat := by omega
    simp only [store, if_pos (show a ≤ x by omega), if_pos (show a + bs.length ≤ x by omega)]
    have hn : bs[(x - a).toNat]? = none := List.getElem?_eq_none (by omega)
    rw [List.getElem?_append_right (by omega), hn, he, Option.getD_none]

/-! ## Pieces -/

/-- `k` consecutive pieces from offset `d` on, the one at offset `e` of length
`len e`. -/
def pieces (len : Nat → Nat) (m : Mem β) : Nat → Nat → List (List β)
  | _, 0 => []
  | d, k + 1 => bytesAt m d (len d) :: pieces len m (d + len d) k

@[simp] theorem pieces_zero (len : Nat → Nat) (m : Mem β) (d : Nat) : pieces len m d 0 = [] := rfl

theorem pieces_succ (len : Nat → Nat) (m : Mem β) (d k : Nat) :
    pieces len m d (k + 1) = bytesAt m d (len d) :: pieces len m (d + len d) k := rfl

end SharedMem
