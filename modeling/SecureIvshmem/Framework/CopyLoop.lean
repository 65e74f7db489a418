import Mathlib.Data.List.Basic
import Mathlib.Algebra.Order.Ring.Int
import Mathlib.Tactic.Common

/-!
# Loops that copy a buffer range by range

A loop with a counter that in each turn waits, returns, or copies the range
its counter stands for and goes on to the next; what it finds in the shared
memory at its turns is any sequence `ms`. `CopyLoop.run_inv` is the induction
on its turns, and `CopyLoop.exists_returns` its end where it does not wait for
ever. That the ranges cover a buffer in order, without gaps or overlaps, is
`Tiles`.
-/

namespace SharedMem

/-! ## Ranges -/

/-- Ranges, by start and length, that follow one another from `a` to `b`. -/
def Tiles : Int → List (Int × Nat) → Int → Prop
  | a, [], b => a = b
  | a, r :: rs, b => r.1 = a ∧ Tiles (a + r.2) rs b

@[simp] theorem tiles_nil {a b : Int} : Tiles a [] b ↔ a = b := .rfl

theorem tiles_concat {r : Int × Nat} {b : Int} :
    ∀ {a : Int} {rs : List (Int × Nat)}, Tiles a (rs ++ [r]) b ↔ Tiles a rs r.1 ∧ r.1 + r.2 = b
  | a, [] => by
    refine ⟨fun ⟨h, h'⟩ => ⟨h.symm, ?_⟩, fun ⟨h, h'⟩ => ⟨h.symm, ?_⟩⟩
    · rw [h]
      exact h'
    · rw [tiles_nil] at h ⊢
      rw [h]
      exact h'
  | a, s :: rs => by
    rw [List.cons_append, Tiles, Tiles, tiles_concat, and_assoc]

/-- The end of the ranges is their start and their lengths. -/
theorem Tiles.end_eq {b : Int} :
    ∀ {a : Int} {rs : List (Int × Nat)}, Tiles a rs b → b = a + (rs.map Prod.snd).sum
  | a, [], h => by
    rw [tiles_nil] at h
    simp [h]
  | a, r :: rs, ⟨_, h⟩ => by
    rw [h.end_eq, List.map_cons, List.sum_cons, Int.natCast_add, Int.add_assoc]

/-- No range starts before the first. -/
theorem Tiles.le_start {b : Int} :
    ∀ {a : Int} {rs : List (Int × Nat)}, Tiles a rs b → ∀ r ∈ rs, a ≤ r.1
  | a, r :: rs, ⟨hr, h⟩, s, hs => by
    obtain rfl | hs := List.mem_cons.mp hs
    · exact Int.le_of_eq hr.symm
    · have := h.le_start s hs
      omega

/-! ## Loops -/

/-- What a turn of a loop does. -/
inductive Outcome where
  | waits
  | copies
  | returns
  deriving DecidableEq

/-- A loop with counter `C` on memories `M`. -/
structure CopyLoop (M C : Type*) where
  outcome : M → C → Outcome
  range : C → Int × Nat
  next : C → C

namespace CopyLoop

variable {M C : Type*} (L : CopyLoop M C) (c : C) (ms : Nat → M)

/-- The counter before turn `k`. -/
def counter : Nat → C
  | 0 => c
  | k + 1 => if L.outcome (ms k) (counter k) = .copies then L.next (counter k) else counter k

/-- The ranges copied by the first `k` turns. -/
def ranges : Nat → List (Int × Nat)
  | 0 => []
  | k + 1 =>
    if L.outcome (ms k) (L.counter c ms k) = .copies then ranges k ++ [L.range (L.counter c ms k)]
    else ranges k

theorem counter_succ (k : Nat) : L.counter c ms (k + 1) =
    if L.outcome (ms k) (L.counter c ms k) = .copies then L.next (L.counter c ms k)
    else L.counter c ms k := rfl

theorem ranges_succ (k : Nat) : L.ranges c ms (k + 1) =
    if L.outcome (ms k) (L.counter c ms k) = .copies then L.ranges c ms k ++ [L.range (L.counter c ms k)]
    else L.ranges c ms k := rfl

/-- Turn `k` returns. -/
def ReturnsAt (k : Nat) : Prop := L.outcome (ms k) (L.counter c ms k) = .returns

section

variable {L c} {I : List (Int × Nat) → C → Prop} (h0 : I [] c)
  (hcopy : ∀ m rs c, I rs c → L.outcome m c = .copies → I (rs ++ [L.range c]) (L.next c))
include h0 hcopy

/-- An invariant of every copy holds after every turn. -/
theorem run_inv : ∀ k, I (L.ranges c ms k) (L.counter c ms k)
  | 0 => h0
  | k + 1 => by
    have ih := run_inv k
    rw [ranges_succ, counter_succ]
    by_cases h : L.outcome (ms k) (L.counter c ms k) = .copies
    · rw [if_pos h, if_pos h]
      exact hcopy _ _ _ ih h
    · rw [if_neg h, if_neg h]
      exact ih

/-- A loop that again and again need not wait, and whose copies lower a
measure, comes to its end. -/
theorem exists_returns {μ : C → Nat} (hgo : ∀ k, ∃ j, k ≤ j ∧ ∀ c, L.outcome (ms j) c ≠ .waits)
    (hμ : ∀ m rs c, I rs c → L.outcome m c = .copies → μ (L.next c) < μ c) : ∃ k, L.ReturnsAt c ms k := by
  by_contra hno
  have hno := not_exists.mp hno
  -- the measure never rises, and falls in each turn that need not wait
  have le : ∀ k, μ (L.counter c ms (k + 1)) ≤ μ (L.counter c ms k) := fun k => by
    rw [counter_succ]
    split
    · rename_i h
      exact Nat.le_of_lt (hμ _ _ _ (run_inv ms h0 hcopy k) h)
    · exact Nat.le_refl _
  have mono : ∀ k d, μ (L.counter c ms (k + d)) ≤ μ (L.counter c ms k) := fun k d => by
    induction d with
    | zero => exact Nat.le_refl _
    | succ d ih => exact Nat.le_trans (le (k + d)) ih
  have falls : ∀ k, ∃ j, μ (L.counter c ms j) < μ (L.counter c ms k) := fun k => by
    obtain ⟨j, hj, hgo⟩ := hgo k
    obtain ⟨d, rfl⟩ := Nat.exists_eq_add_of_le hj
    have hcopies : L.outcome (ms (k + d)) (L.counter c ms (k + d)) = .copies := by
      cases e : L.outcome (ms (k + d)) (L.counter c ms (k + d)) with
      | waits => exact absurd e (hgo _)
      | copies => rfl
      | returns => exact absurd e (hno _)
    refine ⟨k + d + 1, Nat.lt_of_lt_of_le ?_ (mono k d)⟩
    rw [counter_succ, if_pos hcopies]
    exact hμ _ _ _ (run_inv ms h0 hcopy _) hcopies
  have below : ∀ n, ∃ k, μ (L.counter c ms k) + n ≤ μ (L.counter c ms 0) := fun n => by
    induction n with
    | zero => exact ⟨0, Nat.le_refl _⟩
    | succ n ih =>
      obtain ⟨k, hk⟩ := ih
      obtain ⟨j, hj⟩ := falls k
      exact ⟨j, by omega⟩
  obtain ⟨k, hk⟩ := below (μ (L.counter c ms 0) + 1)
  omega

end

end CopyLoop

end SharedMem
