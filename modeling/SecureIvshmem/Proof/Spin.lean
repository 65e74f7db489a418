import SecureIvshmem.Proof.UioHook

/-!
# The lock of the hook

What is left behind by the calls of the hooked function: nothing. The spin
lock is taken and released in turn, each time by one call (`SpinPaired`), a
call that holds it releases it within its next three steps
(`unlock_mem_events`), and wherever `is_locked` is set some call has yet to
clear it (`FlagOwed`).
-/

namespace Ivshmem

open SharedMem

/-- What a step does with the spin lock. -/
inductive SpinOp where
  | lock
  | unlock
  deriving DecidableEq

/-- The steps that a call at `pc` takes with the spin lock held, the release
included. -/
def MmapPc.held : MmapPc → Nat
  | .setLocked => 3
  | .guards | .originClear | .dummyClear => 2
  | .release _ | .originRelease | .dummyRelease => 1
  | _ => 0

theorem MmapPc.held_le (pc : MmapPc) : pc.held ≤ 3 := by cases pc <;> simp [MmapPc.held]

/-- Whether a call is to clear `is_locked` before it returns. At
`originRelease` it has just done so for the innermost
`__ivshmem_origin_mmap`. -/
def MmapCall.owes (t : MmapCall) : Bool :=
  match t.pc with
  | .guards | .release _ | .originAcquire | .originClear | .dummyAcquire | .dummyClear => true
  | .originRelease => 2 ≤ t.depth
  | .returned _ => false
  | _ => 1 ≤ t.depth

/-- A call that has taken its first step and has not returned. -/
def MmapCall.InProgress (t : MmapCall) : Prop := t ≠ ⟨.test, 0⟩ ∧ ∀ ret, t.pc ≠ .returned ret

theorem held_of_not_inProgress {t : MmapCall} (h : ¬ t.InProgress) : t.pc.held = 0 ∧ t.owes = false := by
  simp only [MmapCall.InProgress, not_and, not_forall, not_not] at h
  by_cases ht : t = ⟨.test, 0⟩
  · rw [ht]
    exact ⟨rfl, rfl⟩
  · obtain ⟨ret, e⟩ := h ht
    simp only [MmapCall.owes, e, MmapPc.held, and_self]

variable {ι : Type*} [DecidableEq ι] {limit : UInt64} {req : ι → MmapRequest} {s : Mmaps ι}

/-- What a step does with the spin lock, and who does it. -/
def spinOps (s : Mmaps ι) (turn : ι × Int32) : List (ι × SpinOp) :=
  match (s.call turn.1).pc with
  | .acquire | .originAcquire | .dummyAcquire => if s.spin then [] else [(turn.1, .lock)]
  | .release _ | .originRelease | .dummyRelease => [(turn.1, .unlock)]
  | _ => []

/-- A step leaves the spin lock alone, takes it while it is free, or is the
release of the call that makes it. -/
theorem mmapStep_spin (limit : UInt64) (req : ι → MmapRequest) (s : Mmaps ι) (turn : ι × Int32) :
    let s' := mmapStep limit req s turn
    let k := (s.call turn.1).pc.held
    let k' := (s'.call turn.1).pc.held
    (spinOps s turn = [] ∧ s'.spin = s.spin ∧ k ≠ 1 ∧ k' = k - 1) ∨
    (spinOps s turn = [(turn.1, .lock)] ∧ s.spin = false ∧ s'.spin = true ∧ k = 0 ∧ 0 < k') ∨
    (spinOps s turn = [(turn.1, .unlock)] ∧ s'.spin = false ∧ k = 1 ∧ k' = 0) := by
  obtain ⟨i, ret⟩ := turn
  intro s' k k'
  simp only [s', k, k', spinOps, mmapStep]
  cases e : (s.call i).pc <;> simp only
  case test => cases hl : s.isLocked <;> simp [Mmaps.goto, MmapPc.held]
  case acquire | originAcquire | dummyAcquire =>
    cases hs : s.spin <;> simp [Mmaps.goto, MmapPc.held, e, hs]
  case release refused => cases refused <;> simp [Mmaps.goto, MmapPc.held]
  case body | originRelease | dummyRelease =>
    simp only [MmapCall.leave, Function.update_self]
    split <;> simp [MmapPc.held]
  all_goals simp [Mmaps.goto, MmapPc.held, e]

/-! ## The spin lock -/

/-- A spin lock taken and released by each call of a list in turn. -/
def spinPairs (is : List ι) : List (ι × SpinOp) := is.flatMap fun i => [(i, .lock), (i, .unlock)]

omit [DecidableEq ι] in
theorem spinPairs_concat (is : List ι) (i : ι) :
    spinPairs (is ++ [i]) = spinPairs is ++ [(i, .lock)] ++ [(i, .unlock)] := by
  simp [spinPairs]

/-- The spin lock is free, taken and released in turn so far, or was last
taken by the one call that holds it. -/
def SpinPaired (s : Mmaps ι) (ops : List (ι × SpinOp)) : Prop :=
  (s.spin = false ∧ (∀ i, (s.call i).pc.held = 0) ∧ ∃ is, ops = spinPairs is) ∨
  ∃ k, s.spin = true ∧ (∀ i, 0 < (s.call i).pc.held ↔ i = k) ∧ ∃ is, ops = spinPairs is ++ [(k, .lock)]

theorem SpinPaired.step {ops : List (ι × SpinOp)} (h : SpinPaired s ops) (turn : ι × Int32) :
    SpinPaired (mmapStep limit req s turn) (ops ++ spinOps s turn) := by
  have hne : ∀ {j}, j ≠ turn.1 → (mmapStep limit req s turn).call j = s.call j := mmapStep_call_of_ne
  obtain ⟨hs, hfree, is, rfl⟩ | ⟨k, hs, hheld, is, rfl⟩ := h <;>
    obtain ⟨eop, hs', hk, hk'⟩ | ⟨eop, hs0, hs', -, hk'⟩ | ⟨eop, hs', hk, hk'⟩ :=
      mmapStep_spin limit req s turn
  · refine .inl ⟨hs'.trans hs, fun j => ?_, is, by rw [eop, List.append_nil]⟩
    by_cases hj : j = turn.1
    · rw [hj, hk', hfree]
    · rw [hne hj, hfree]
  · refine .inr ⟨turn.1, hs', fun j => ?_, is, by rw [eop]⟩
    by_cases hj : j = turn.1
    · simp only [hj, hk']
    · simp only [hne hj, hfree, hj, Nat.lt_irrefl]
  · exact absurd (hfree turn.1) (by omega)
  · refine .inr ⟨k, hs'.trans hs, fun j => ?_, is, by rw [eop, List.append_nil]⟩
    by_cases hj : j = turn.1
    · rw [hj, hk', ← hheld turn.1]
      omega
    · rw [hne hj, hheld]
  · exact absurd (hs.symm.trans hs0) Bool.true_eq_false.mp
  · obtain rfl := (hheld turn.1).mp (by omega)
    refine .inl ⟨hs', fun j => ?_, is ++ [turn.1], by rw [eop, spinPairs_concat]⟩
    by_cases hj : j = turn.1
    · rw [hj, hk']
    · rw [hne hj]
      have := mt (hheld j).mp hj
      omega

/-- A call that holds the spin lock releases it once it has taken the steps
left to it, whatever the others do. -/
theorem unlock_mem_events {i : ι} : ∀ {s : Mmaps ι} (turns : List (ι × Int32)), 0 < (s.call i).pc.held →
    (s.call i).pc.held ≤ (turns.filter fun turn => turn.1 = i).length →
    (i, .unlock) ∈ events (mmapStep limit req) spinOps s turns
  | s, [], hpos, hle => absurd hle (Nat.not_le.mpr hpos)
  | s, turn :: turns, hpos, hle => by
    rw [events_cons, List.mem_append]
    by_cases hi : turn.1 = i
    · subst hi
      simp only [List.filter_cons, decide_true, ↓reduceIte, List.length_cons] at hle
      obtain ⟨-, -, hk, hk'⟩ | ⟨-, -, -, hk, -⟩ | ⟨eop, -, -, -⟩ := mmapStep_spin limit req s turn
      · exact .inr (unlock_mem_events turns (by omega) (by omega))
      · omega
      · exact .inl (by rw [eop]; exact List.mem_singleton_self _)
    · have hcall : (mmapStep limit req s turn).call i = s.call i := mmapStep_call_of_ne (Ne.symm hi)
      simp only [List.filter_cons, hi, decide_false, Bool.false_eq_true, ↓reduceIte] at hle
      exact .inr (unlock_mem_events turns (by rwa [hcall]) (by rwa [hcall]))

/-! ## `is_locked` -/

/-- Where `is_locked` is set, some call is to clear it. -/
def FlagOwed (s : Mmaps ι) : Prop := s.isLocked = true → ∃ i, (s.call i).owes = true

/-- A step after which `is_locked` is set leaves its call to clear it, or has
nothing to do with that. -/
theorem mmapStep_isLocked {turn : ι × Int32} (h : (mmapStep limit req s turn).isLocked = true) :
    ((mmapStep limit req s turn).call turn.1).owes = true ∨
      s.isLocked = true ∧ (s.call turn.1).owes = false := by
  obtain ⟨i, ret⟩ := turn
  simp only [mmapStep] at h ⊢
  cases e : (s.call i).pc <;> simp only [e] at h ⊢
  case test =>
    by_cases hd : 1 ≤ (s.call i).depth
    · left
      cases s.isLocked <;> simp [Mmaps.goto, MmapCall.owes, hd]
    · exact .inr ⟨h, by simp [MmapCall.owes, e, hd]⟩
  case acquire =>
    by_cases hd : 1 ≤ (s.call i).depth
    · left
      cases s.spin <;> simp [Mmaps.goto, MmapCall.owes, e, hd]
    · refine .inr ⟨?_, by simp [MmapCall.owes, e, hd]⟩
      cases hs : s.spin <;> simpa [hs, Mmaps.goto] using h
  case originAcquire | dummyAcquire => left; cases s.spin <;> simp [Mmaps.goto, MmapCall.owes, e]
  case release refused => left; cases refused <;> simp [Mmaps.goto, MmapCall.owes]
  case setLocked | guards => left; simp [Mmaps.goto, MmapCall.owes]
  case originClear | dummyClear => cases h
  case body | dummyRelease =>
    by_cases hd : (s.call i).depth = 0
    · exact .inr ⟨h, by simp [MmapCall.owes, e, hd]⟩
    · left
      simp [MmapCall.leave, MmapCall.owes, hd]
  case originRelease =>
    by_cases hd : (s.call i).depth - 1 = 0
    · exact .inr ⟨h, by simp only [MmapCall.owes, e, decide_eq_false_iff_not]; omega⟩
    · left
      simp [MmapCall.leave, MmapCall.owes, hd]
  case returned => exact .inr ⟨h, by simp [MmapCall.owes, e]⟩

theorem FlagOwed.step (h : FlagOwed s)
    (turn : ι × Int32) : FlagOwed (mmapStep limit req s turn) := fun hl => by
  obtain ho | ⟨hl', ho⟩ := mmapStep_isLocked hl
  · exact ⟨turn.1, ho⟩
  · obtain ⟨k, hk⟩ := h hl'
    have hne : k ≠ turn.1 := by
      rintro rfl
      exact Bool.false_ne_true (ho.symm.trans hk)
    exact ⟨k, by rw [mmapStep_call_of_ne hne]; exact hk⟩

omit [DecidableEq ι] in
theorem FlagOwed.clear (h : FlagOwed s) (hq : ∀ i, ¬ (s.call i).InProgress) : s.isLocked = false := by
  rw [← Bool.not_eq_true]
  intro hl
  obtain ⟨i, hi⟩ := h hl
  exact Bool.false_ne_true ((held_of_not_inProgress (hq i)).2.symm.trans hi)

/-! ## Every run -/

/-- Any number of calls, of any names, offsets and lengths, in any
interleaving. The spin lock is taken and released in turn, each time by one
call; a call that has taken it last releases it within its next three steps,
whatever the others do; and where no call is in progress `is_locked` is clear
and the spin lock free. -/
theorem nothing_left_locked (limit : UInt64) (req : ι → MmapRequest) (turns : List (ι × Int32)) :
    let s := run (mmapStep limit req) .start turns
    let ops := events (mmapStep limit req) spinOps .start turns
    ((s.spin = false ∧ ∃ is, ops = spinPairs is) ∨
      ∃ k is, s.spin = true ∧ ops = spinPairs is ++ [(k, .lock)] ∧
        ∀ turns', 3 ≤ (turns'.filter fun turn => turn.1 = k).length →
          (k, .unlock) ∈ events (mmapStep limit req) spinOps s turns') ∧
    ((∀ i, ¬ (s.call i).InProgress) → s.isLocked = false ∧ s.spin = false) := by
  intro s ops
  have hpaired : SpinPaired s ops :=
    run_inv_events (I := SpinPaired) (fun _ turn _ h => h.step turn)
      (.inl ⟨rfl, fun _ => rfl, [], rfl⟩) turns
  have howed : FlagOwed s := run_inv (fun _ turn h => h.step turn) (fun h => nomatch h) turns
  obtain ⟨hs, -, his⟩ | ⟨k, hs, hheld, is, hops⟩ := hpaired
  · exact ⟨.inl ⟨hs, his⟩, fun hq => ⟨howed.clear hq, hs⟩⟩
  · have hk : 0 < (s.call k).pc.held := (hheld k).mpr rfl
    refine ⟨.inr ⟨k, is, hs, hops, fun turns' hle => ?_⟩, fun hq => ?_⟩
    · exact unlock_mem_events turns' hk (Nat.le_trans (s.call k).pc.held_le hle)
    · exact absurd (held_of_not_inProgress (hq k)).1 (Nat.pos_iff_ne_zero.mp hk)

end Ivshmem
