import SecureIvshmem.Framework.Run

/-!
# Parties that take turns

A system where one party at a time can do anything, and a step of any other is
a wait: `state` has the states of a sequential machine, `next`, in those of the
system, and `turn` is whose step takes it further. Every schedule is then the
run of this machine, as far as it goes (`TakesTurns.run_eq`), and a fair one
gets to all that the machine reaches (`TakesTurns.exists_of_reaches`).
-/

namespace SharedMem

variable {S L P A : Type*}

/-- In `state a` it is the turn of `turn a`, who takes the step to
`state (next a)`. -/
structure TakesTurns (step : S → L → S) (party : L → P) (state : A → S) (turn : A → P)
    (next : A → A) : Prop where
  waits : ∀ a l, party l ≠ turn a → step (state a) l = state a
  moves : ∀ a l, party l = turn a → step (state a) l = state (next a)

namespace TakesTurns

variable {step : S → L → S} {party : L → P} {state : A → S} {turn : A → P} {next : A → A}
  (h : TakesTurns step party state turn next)
include h

/-- Every schedule leads to where some number of moves does. -/
theorem run_eq : ∀ (ls : List L) (a : A), ∃ n ≤ ls.length, run step (state a) ls = state (next^[n] a)
  | [], a => ⟨0, Nat.le_refl _, rfl⟩
  | l :: ls, a => by
    by_cases hl : party l = turn a
    · obtain ⟨n, hn, e⟩ := run_eq ls (next a)
      refine ⟨n + 1, Nat.succ_le_succ hn, ?_⟩
      rw [run_cons, h.moves a l hl, e, Function.iterate_succ_apply]
    · obtain ⟨n, hn, e⟩ := run_eq ls a
      exact ⟨n, Nat.le_succ_of_le hn, by rw [run_cons, h.waits a l hl, e]⟩

/-- The next move of a schedule whose step `n + d` is that of the party whose
turn it is. -/
theorem exists_next {s : S} {a : A} {σ : Nat → L} : ∀ (d n : Nat), runSeq step s σ n = state a →
    party (σ (n + d)) = turn a → ∃ k, runSeq step s σ k = state (next a)
  | 0, n, e, hd => ⟨n + 1, by rw [runSeq_succ, e, h.moves a (σ n) hd]⟩
  | d + 1, n, e, hd => by
    by_cases hl : party (σ n) = turn a
    · exact ⟨n + 1, by rw [runSeq_succ, e, h.moves a (σ n) hl]⟩
    · refine exists_next d (n + 1) (by rw [runSeq_succ, e, h.waits a (σ n) hl]) ?_
      rwa [Nat.add_assoc, Nat.add_comm 1]

/-- A fair schedule gets to all that the moves lead to. -/
theorem exists_of_reaches {a a' : A} (ha : Reaches next a a') {σ : Nat → L} (hσ : Fair party σ) :
    ∃ k, runSeq step (state a) σ k = state a' := by
  obtain ⟨n, rfl⟩ := ha
  induction n with
  | zero => exact ⟨0, rfl⟩
  | succ n ih =>
    obtain ⟨k, e⟩ := ih
    obtain ⟨d, hd⟩ := hσ (turn (next^[n] a)) k
    rw [Function.iterate_succ_apply']
    exact h.exists_next d k e hd

end TakesTurns

end SharedMem
