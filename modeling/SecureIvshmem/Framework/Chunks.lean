import Mathlib.Data.List.Basic
import Mathlib.Tactic.Common

/-!
# Chunks of a list

`chunks n l` is `l` cut into pieces of `n`, of which the last may be shorter.
Lists cut one by one give the chunks of their concatenation just if each
before a nonempty one is of whole chunks (`flatMap_chunks_eq_iff`).
-/

namespace SharedMem

variable {α : Type*}

/-- `l` cut into chunks of `n`. -/
def chunks (n : Nat) (l : List α) : List (List α) :=
  if l.length = 0 ∨ n = 0 then [] else l.take n :: chunks n (l.drop n)
termination_by l.length
decreasing_by simp only [List.length_drop]; omega

@[simp] theorem chunks_nil (n : Nat) : chunks n ([] : List α) = [] := by rw [chunks, if_pos (.inl rfl)]

variable {n : Nat} (hn : 0 < n)
include hn

theorem chunks_of_ne_nil {l : List α} (hl : l ≠ []) : chunks n l = l.take n :: chunks n (l.drop n) := by
  have hlen := List.length_pos_iff.mpr hl
  rw [chunks, if_neg (by omega)]

/-- A first chunk that is full, or the only one. -/
theorem chunks_append {c l : List α} (hc : c ≠ []) (hlen : c.length = min (c.length + l.length) n) :
    chunks n (c ++ l) = c :: chunks n l := by
  rw [chunks_of_ne_nil hn (List.append_ne_nil_of_left_ne_nil hc l)]
  by_cases hl : l = []
  · rw [hl, List.length_nil, Nat.add_zero] at hlen
    have hle : c.length ≤ n := hlen ▸ Nat.min_le_right _ _
    rw [hl, List.append_nil, List.take_of_length_le hle, List.drop_eq_nil_of_le hle]
  · have hpos := List.length_pos_iff.mpr hl
    have hfull : c.length = n := by omega
    rw [List.take_left' hfull, List.drop_left' hfull]

/-- Chunks make up the list. -/
theorem flatten_chunks (l : List α) : (chunks n l).flatten = l := by
  by_cases hl : l = []
  · rw [hl, chunks_nil, List.flatten_nil]
  · have hlen := List.length_pos_iff.mpr hl
    rw [chunks_of_ne_nil hn hl, List.flatten_cons, flatten_chunks, List.take_append_drop]
termination_by l.length
decreasing_by simp only [List.length_drop]; omega

theorem flatten_flatMap_chunks : ∀ ls : List (List α), (ls.flatMap (chunks n)).flatten = ls.flatten
  | [] => rfl
  | l :: ls => by
    rw [List.flatMap_cons, List.flatten_append, flatten_chunks hn, flatten_flatMap_chunks ls,
      List.flatten_cons]

/-- The chunks of `l` and then `xs` are those of all that they hold just if
`l` is of whole chunks, where there is more, and `xs` are chunks. -/
theorem chunks_append_eq_iff (l : List α) (xs : List (List α)) :
    chunks n l ++ xs = chunks n (l ++ xs.flatten) ↔
      (xs.flatten ≠ [] → n ∣ l.length) ∧ xs = chunks n xs.flatten := by
  by_cases hl : l = []
  · simp only [hl, chunks_nil, List.nil_append, List.length_nil, Nat.dvd_zero, implies_true, true_and]
  have hlen := List.length_pos_iff.mpr hl
  rw [chunks_of_ne_nil hn hl, chunks_of_ne_nil hn (List.append_ne_nil_of_left_ne_nil hl _),
    List.cons_append, List.cons.injEq]
  obtain hlt | hle := Nat.lt_or_ge l.length n
  · rw [List.take_of_length_le (Nat.le_of_lt hlt), List.drop_eq_nil_of_le (Nat.le_of_lt hlt),
      chunks_nil, List.nil_append]
    by_cases hxs : xs.flatten = []
    · simp only [hxs, List.append_nil, List.take_of_length_le (Nat.le_of_lt hlt),
        List.drop_eq_nil_of_le (Nat.le_of_lt hlt), chunks_nil, ne_eq, not_true_eq_false,
          false_implies, true_and]
    · -- the chunk is not full
      have hndvd : ¬ n ∣ l.length := Nat.not_dvd_of_pos_of_lt hlen hlt
      refine iff_of_false (fun ⟨e, _⟩ => ?_) fun h => hndvd (h.1 hxs)
      have hxlen := List.length_pos_iff.mpr hxs
      have := congrArg List.length e
      rw [List.length_take, List.length_append] at this
      omega
  · -- a whole chunk is off
    rw [List.take_append_of_le_length hle, List.drop_append_of_le_length hle, eq_self, true_and,
      chunks_append_eq_iff (l.drop n) xs, List.length_drop, Nat.dvd_sub_iff_left hle (Nat.dvd_refl n)]
termination_by l.length
decreasing_by simp only [List.length_drop]; omega

/-- Lists cut one by one give the chunks of their concatenation just if each
before a nonempty one is of whole chunks. -/
theorem flatMap_chunks_eq_iff : ∀ ls : List (List α),
    ls.flatMap (chunks n) = chunks n ls.flatten ↔ ls.Pairwise fun l l' => l' ≠ [] → n ∣ l.length
  | [] => by simp
  | l :: ls => by
    have hxs := chunks_append_eq_iff hn l (ls.flatMap (chunks n))
    rw [flatten_flatMap_chunks hn] at hxs
    rw [List.flatMap_cons, List.flatten_cons, hxs, flatMap_chunks_eq_iff ls, List.pairwise_cons, ne_eq,
      List.flatten_eq_nil_iff, not_forall]
    refine and_congr_left' ⟨fun h l' hl' hne => h ⟨l', fun e => hne (e hl')⟩, fun h ⟨l', hne⟩ => ?_⟩
    obtain ⟨hmem, hne⟩ := Classical.not_imp.mp hne
    exact h l' hmem hne

end SharedMem
