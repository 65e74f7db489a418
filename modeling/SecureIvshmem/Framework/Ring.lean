import Mathlib.Data.List.Basic
import Mathlib.Data.Nat.ModEq
import Mathlib.Tactic.Common

/-!
# Ring buffers with one slot kept free

A ring of `n` slots whose items stand in the slots `tail`, `tail + 1`, …,
`head - 1`, taken modulo `n`; it is empty if `head = tail`, and full when
`n - 1` slots are in use. As a queue: filling the slot at `head` and then
advancing `head` appends the item (`items_push`), advancing `tail` drops the
first (`items_pop`), and the slot at `head` of a ring that is not full holds
no item (`head_notMem_window`), so writing it changes none.
-/

namespace SharedMem.Ring

variable {α : Type*} {n head tail : Nat}

/-- The slot after `i`. -/
def next (n i : Nat) : Nat := (i + 1) % n

/-- How many slots are in use. -/
def used (n tail head : Nat) : Nat := (head + n - tail) % n

/-- The slots in use, from `tail` on. -/
def window (n tail head : Nat) : List Nat := (List.range (used n tail head)).map fun k => (tail + k) % n

/-- The items in the slots in use, first to last. -/
def items (slots : Nat → α) (n tail head : Nat) : List α := (window n tail head).map slots

theorem next_lt (hn : 0 < n) (i : Nat) : next n i < n := Nat.mod_lt _ hn

theorem next_eq {i : Nat} (hi : i < n) : next n i = if i + 1 < n then i + 1 else 0 := by
  unfold next
  split
  · rename_i h; exact Nat.mod_eq_of_lt h
  · rw [show i + 1 = n by omega, Nat.mod_self]

theorem index_eq {k : Nat} (ht : tail < n) (hk : k < n) :
    (tail + k) % n = if tail + k < n then tail + k else tail + k - n := by
  split
  · rename_i h; exact Nat.mod_eq_of_lt h
  · rw [Nat.mod_eq_sub_mod (by omega), Nat.mod_eq_of_lt (by omega)]

theorem used_lt (hn : 0 < n) : used n tail head < n := Nat.mod_lt _ hn

theorem used_eq (hh : head < n) (ht : tail < n) :
    used n tail head = if tail ≤ head then head - tail else head + n - tail := by
  unfold used
  split
  · rw [show head + n - tail = head - tail + n by omega, Nat.add_mod_right, Nat.mod_eq_of_lt (by omega)]
  · exact Nat.mod_eq_of_lt (by omega)

theorem used_self : used n tail tail = 0 := by
  unfold used
  rw [Nat.add_sub_cancel_left, Nat.mod_self]

@[simp] theorem length_window : (window n tail head).length = used n tail head := by simp [window]

@[simp] theorem length_items (slots : Nat → α) :
    (items slots n tail head).length = used n tail head := by
  simp [items]

theorem used_eq_zero (hh : head < n) (ht : tail < n) : used n tail head = 0 ↔ head = tail := by
  rw [used_eq hh ht]; split <;> omega

/-- The full test of a ring that keeps one slot free. -/
theorem used_eq_full (hh : head < n) (ht : tail < n) :
    used n tail head + 1 = n ↔ head + 1 = tail ∨ head + 1 = n ∧ tail = 0 := by
  rw [used_eq hh ht]; split <;> omega

theorem used_push (hh : head < n) (ht : tail < n) (hf : used n tail head + 1 < n) :
    used n tail (next n head) = used n tail head + 1 := by
  rw [used_eq hh ht] at hf
  rw [used_eq hh ht, used_eq (next_lt (by omega) _) ht, next_eq hh]
  by_cases hw : head + 1 < n
  · simp only [hw, ↓reduceIte]
    split at hf <;> split <;> omega
  · simp only [hw, ↓reduceIte]
    split at hf <;> split <;> omega

theorem used_pop (hh : head < n) (ht : tail < n) (he : head ≠ tail) :
    used n (next n tail) head + 1 = used n tail head := by
  rw [used_eq hh ht, used_eq hh (next_lt (by omega) _), next_eq ht]
  by_cases hw : tail + 1 < n
  · simp only [hw, ↓reduceIte]
    split <;> split <;> omega
  · simp only [hw, ↓reduceIte]
    split <;> split <;> omega

theorem mem_window {i : Nat} : i ∈ window n tail head ↔ ∃ k < used n tail head, (tail + k) % n = i := by
  simp [window]

theorem lt_of_mem_window (hn : 0 < n) {i : Nat} (hi : i ∈ window n tail head) : i < n := by
  obtain ⟨k, -, rfl⟩ := mem_window.mp hi
  exact Nat.mod_lt _ hn

/-- The slots in use of a ring that is not wrapped. -/
theorem mem_window_of_le (hh : head < n) (h : tail ≤ head) {i : Nat} :
    i ∈ window n tail head ↔ tail ≤ i ∧ i < head := by
  rw [mem_window, used_eq hh (by omega), if_pos h]
  constructor
  · rintro ⟨k, hk, rfl⟩
    rw [Nat.mod_eq_of_lt (by omega)]
    omega
  · rintro ⟨hi, hi'⟩
    exact ⟨i - tail, by omega, by rw [Nat.add_sub_cancel' hi, Nat.mod_eq_of_lt (by omega)]⟩

/-- The last slot of a ring that is wrapped is in use. -/
theorem last_mem_window (ht : tail < n) (h : head < tail) : n - 1 ∈ window n tail head := by
  rw [mem_window, used_eq (by omega) ht, if_neg (by omega)]
  exact ⟨n - 1 - tail, by omega, by rw [Nat.add_sub_cancel' (by omega), Nat.mod_eq_of_lt (by omega)]⟩

/-- The slot at `head` of a ring that is not full is free. -/
theorem head_notMem_window (hh : head < n) (ht : tail < n) : head ∉ window n tail head := by
  intro h
  obtain ⟨k, hk, e⟩ := mem_window.mp h
  have hlt : used n tail head < n := used_lt (by omega)
  rw [index_eq ht (by omega)] at e
  rw [used_eq hh ht] at hk
  split at e <;> split at hk <;> omega

theorem index_used (hh : head < n) (ht : tail < n) : (tail + used n tail head) % n = head := by
  rw [index_eq ht (used_lt (by omega)), used_eq hh ht]
  split <;> split <;> omega

theorem window_push (hh : head < n) (ht : tail < n) (hf : used n tail head + 1 < n) :
    window n tail (next n head) = window n tail head ++ [head] := by
  simp only [window, used_push hh ht hf, List.range_succ, List.map_append, List.map_cons, List.map_nil,
    index_used hh ht]

theorem window_pop (hh : head < n) (ht : tail < n) (he : head ≠ tail) :
    window n tail head = tail :: window n (next n tail) head := by
  simp only [window, ← used_pop hh ht he, List.range_succ_eq_map, List.map_cons, Nat.add_zero,
    Nat.mod_eq_of_lt ht, List.map_map]
  refine congrArg (tail :: ·) (List.map_congr_left fun k _ => ?_)
  simp only [Function.comp, next, Nat.mod_add_mod]
  congr 1
  omega

/-- Filling the slot at `head` and advancing `head` appends. -/
theorem items_push (slots : Nat → α) (hh : head < n) (ht : tail < n) (hf : used n tail head + 1 < n) :
    items slots n tail (next n head) = items slots n tail head ++ [slots head] := by
  simp only [items, window_push hh ht hf, List.map_append, List.map_cons, List.map_nil]

/-- Advancing `tail` drops the first item. -/
theorem items_pop (slots : Nat → α) (hh : head < n) (ht : tail < n) (he : head ≠ tail) :
    items slots n tail head = slots tail :: items slots n (next n tail) head := by
  simp only [items, window_pop hh ht he, List.map_cons]

theorem items_congr {slots slots' : Nat → α} (h : ∀ i ∈ window n tail head, slots i = slots' i) :
    items slots n tail head = items slots' n tail head := List.map_congr_left h

/-! ## Resizing -/

/-- `d` slots are in use just if `head` is the `d`-th slot after `tail`. -/
theorem used_eq_iff {d : Nat} (hh : head < n) (ht : tail < n) (hd : d < n) :
    used n tail head = d ↔ (tail + d) % n = head := by
  rw [used_eq hh ht, index_eq ht hd]
  split <;> split <;> omega

/-- A ring whose indices are reduced to a new size, and whose items fit in
it, keeps their number just if it is not wrapped or the new size divides the
old. -/
theorem used_resize {n' : Nat} (hh : head < n) (ht : tail < n) (hroom : used n tail head < n') :
    used n' (tail % n') (head % n') = used n tail head ↔ tail ≤ head ∨ n' ∣ n := by
  have hn' : 0 < n' := by omega
  rw [used_eq_iff (Nat.mod_lt _ hn') (Nat.mod_lt _ hn') hroom, Nat.mod_add_mod]
  rw [used_eq hh ht] at hroom ⊢
  split
  · rename_i hle
    rw [Nat.add_sub_cancel' hle]
    simp [hle]
  · rename_i hlt
    rw [show tail + (head + n - tail) = head + n by omega]
    have hd : (head + n) % n' = head % n' ↔ n' ∣ n := Nat.add_modEq_left_iff
    simp [hlt, hd]

/-- The slots in use after such a resizing. -/
theorem window_resize {n' : Nat} (hh : head < n) (ht : tail < n) (hroom : used n tail head < n')
    (h : tail ≤ head ∨ n' ∣ n) :
    window n' (tail % n') (head % n') = (window n tail head).map (· % n') := by
  simp only [window, (used_resize hh ht hroom).mpr h, List.map_map]
  refine List.map_congr_left fun k hk => ?_
  have hk := List.mem_range.mp hk
  simp only [Function.comp, Nat.mod_add_mod]
  rcases h with h | h
  · rw [used_eq hh ht, if_pos h] at hk
    rw [Nat.mod_eq_of_lt (a := tail + k) (b := n) (by omega)]
  · rw [Nat.mod_mod_of_dvd _ h]

end SharedMem.Ring
