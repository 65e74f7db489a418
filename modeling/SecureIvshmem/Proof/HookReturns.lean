import Mathlib.Algebra.Order.BigOperators.Group.Finset
import Mathlib.Data.Fintype.Basic
import SecureIvshmem.Proof.Spin

/-!
# Calls of the hooked function return

A call may go through the hook again and again, once for each time that
another one clears `is_locked` under it. But it never goes back into the hook
once it has come to the original body or to `__ivshmem_dummy_mmap`, so of
finitely many calls each returns at some time. `Mmaps.work` is the measure:
the calls in the hook, then the times that the others are still to clear
`is_locked`, then the steps to go until one of these changes
(`mmapStep_work`).
-/

namespace Ivshmem

open SharedMem

/-! ## The work left to a call -/

/-- Whether a call is in the hook. -/
def MmapPc.inHook : MmapPc → Bool
  | .test | .acquire | .setLocked | .guards | .release _ => true
  | _ => false

/-- The times that a call which has left the hook is to clear `is_locked`. -/
def MmapCall.clearsDue (t : MmapCall) : Nat :=
  match t.pc with
  | .body | .dummyRelease => t.depth
  | .originAcquire | .originClear => t.depth - 1 + 1
  | .originRelease => t.depth - 1
  | .dummyAcquire | .dummyClear => t.depth + 1
  | _ => 0

/-- A bound on the steps of a call until it leaves the hook, if nobody clears
`is_locked`, and else until it clears it or returns. -/
def MmapPc.toGo (isLocked : Bool) : MmapPc → Nat
  | .test => if isLocked then 4 else 9
  | .acquire => 8
  | .setLocked => 7
  | .guards => 6
  | .release _ => 5
  | .body | .originRelease | .dummyRelease => 3
  | .originAcquire | .dummyAcquire => 2
  | .originClear | .dummyClear => 1
  | .returned _ => 0

/-- Less is to do while `is_locked` is set. -/
theorem MmapPc.toGo_le {isLocked isLocked' : Bool} (h : isLocked = true → isLocked' = true)
    (pc : MmapPc) :
    pc.toGo isLocked' ≤ pc.toGo isLocked := by
  cases pc <;> simp only [MmapPc.toGo, Nat.le_refl]
  cases isLocked <;> cases isLocked' <;> simp_all

/-- A call that is to take the spin lock next. -/
def MmapPc.acquires : MmapPc → Bool
  | .acquire | .originAcquire | .dummyAcquire => true
  | _ => false

/-- `is_locked` is set while a call is between the step that sets it and the
release of the spin lock. -/
def SetInside {ι : Type*} (s : Mmaps ι) : Prop :=
  ∀ i, (s.call i).pc = .guards ∨ (∃ refused, (s.call i).pc = .release refused) → s.isLocked = true

variable {ι : Type*} {limit : UInt64} {req : ι → MmapRequest} {s : Mmaps ι}

theorem SpinPaired.eq_of_held {ops : List (ι × SpinOp)} (h : SpinPaired s ops) {i j : ι}
    (hi : 0 < (s.call i).pc.held) (hj : 0 < (s.call j).pc.held) : i = j := by
  obtain ⟨-, hfree, -⟩ | ⟨k, -, hheld, -⟩ := h
  · exact absurd (hfree i) (Nat.pos_iff_ne_zero.mp hi)
  · exact ((hheld i).mp hi).trans ((hheld j).mp hj).symm

variable [DecidableEq ι]

/-- `is_locked` is cleared by the call that holds the spin lock. -/
theorem mmapStep_clears {turn : ι × Int32} (hl : s.isLocked = true)
    (hl' : (mmapStep limit req s turn).isLocked = false) : 1 < (s.call turn.1).pc.held := by
  obtain ⟨i, ret⟩ := turn
  have hne {b : Bool} (h : b = false) (h' : b = true) : False := Bool.false_ne_true (h.symm.trans h')
  simp only [mmapStep] at hl' ⊢
  cases e : (s.call i).pc <;> simp only [e] at hl' ⊢
  case originClear | dummyClear => simp [MmapPc.held]
  case setLocked => cases hl'
  case acquire | originAcquire | dummyAcquire =>
    cases hs : s.spin <;> rw [hs] at hl' <;> exact (hne hl' hl).elim
  case release refused => cases refused <;> exact (hne hl' hl).elim
  all_goals exact (hne hl' hl).elim

/-- The steps between `setLocked` and the release of the spin lock. -/
theorem mmapStep_inside {turn : ι × Int32}
    (h : ((mmapStep limit req s turn).call turn.1).pc = .guards ∨
      ∃ refused, ((mmapStep limit req s turn).call turn.1).pc = .release refused) :
    (mmapStep limit req s turn).isLocked = true ∨
      (s.call turn.1).pc = .guards ∧ (mmapStep limit req s turn).isLocked = s.isLocked := by
  obtain ⟨i, ret⟩ := turn
  simp only [mmapStep] at h ⊢
  cases e : (s.call i).pc <;> simp only [e] at h ⊢
  case setLocked => exact .inl trivial
  case guards => exact .inr ⟨trivial, rfl⟩
  case test => cases hl : s.isLocked <;> simp [hl, Mmaps.goto] at h
  case acquire | originAcquire | dummyAcquire => cases hs : s.spin <;> simp [hs, Mmaps.goto, e] at h
  case release refused => cases refused <;> simp [Mmaps.goto] at h
  case body | originRelease | dummyRelease =>
    simp only [MmapCall.leave, Function.update_self] at h
    split at h <;> simp at h
  all_goals simp [Mmaps.goto] at h

theorem SetInside.step {ops : List (ι × SpinOp)} (h : SetInside s) (hp : SpinPaired s ops)
    (turn : ι × Int32) :
    SetInside (mmapStep limit req s turn) := fun i hi => by
  by_cases hit : i = turn.1
  · subst hit
    obtain hl | ⟨hg, e⟩ := mmapStep_inside hi
    · exact hl
    · rw [e]
      exact h _ (.inl hg)
  · rw [mmapStep_call_of_ne hit] at hi
    have hl : s.isLocked = true := h i hi
    by_contra hl'
    have hc := mmapStep_clears hl ((Bool.not_eq_true _).mp hl')
    refine hit (hp.eq_of_held ?_ (Nat.lt_of_succ_lt hc))
    rcases hi with e | ⟨_, e⟩ <;> rw [e] <;> simp [MmapPc.held]

/-- A step of a call that waits for the spin lock or has returned is none, and
any other one takes the call out of the hook, clears `is_locked` once it is
out, or is a step on the way to this. -/
theorem mmapStep_call_descends (limit : UInt64) (req : ι → MmapRequest) (h : SetInside s)
    (turn : ι × Int32) :
    let s' := mmapStep limit req s turn
    let t := s.call turn.1
    let t' := s'.call turn.1
    (s' = s ∧ ((∃ ret, t.pc = .returned ret) ∨ s.spin = true ∧ t.pc.acquires = true)) ∨
    (t.pc.inHook = true ∧ t'.pc.inHook = false) ∨
    (t'.pc.inHook = t.pc.inHook ∧ t'.clearsDue < t.clearsDue) ∨
    (t'.pc.inHook = t.pc.inHook ∧ t'.clearsDue = t.clearsDue ∧ (s.isLocked = true → s'.isLocked = true) ∧
      t'.pc.toGo s'.isLocked < t.pc.toGo s.isLocked) := by
  obtain ⟨i, ret⟩ := turn
  intro s' t t'
  have hin := h i
  simp only [s', t, t', mmapStep]
  cases e : (s.call i).pc <;> simp only [e] at hin ⊢
  case test =>
    cases hl : s.isLocked <;> simp [Mmaps.goto, MmapPc.inHook, MmapPc.toGo, MmapCall.clearsDue, e, hl]
  case acquire =>
    cases hs : s.spin <;>
      simp [Mmaps.goto, MmapPc.inHook, MmapPc.toGo, MmapPc.acquires, MmapCall.clearsDue, e, hs]
  case originAcquire | dummyAcquire =>
    cases hs : s.spin <;>
      simp [Mmaps.goto, MmapPc.inHook, MmapPc.toGo, MmapPc.acquires, MmapCall.clearsDue, e, hs]
  case release refused =>
    have hl : s.isLocked = true := hin (.inr ⟨refused, rfl⟩)
    cases refused <;> simp [Mmaps.goto, MmapPc.inHook, MmapPc.toGo, MmapCall.clearsDue, e, hl]
  case body | dummyRelease =>
    simp only [MmapCall.leave, Function.update_self]
    by_cases hd : (s.call i).depth = 0
    · simp [MmapPc.inHook, MmapPc.toGo, MmapCall.clearsDue, e, hd]
    · have hd' : (s.call i).depth - 1 + 1 = (s.call i).depth := Nat.succ_pred_eq_of_ne_zero hd
      simp [MmapPc.inHook, MmapPc.toGo, MmapCall.clearsDue, e, hd, hd']
  case originRelease =>
    simp only [MmapCall.leave, Function.update_self]
    by_cases hd : (s.call i).depth - 1 = 0
    · simp [MmapPc.inHook, MmapPc.toGo, MmapCall.clearsDue, e, hd]
    · have hd' : (s.call i).depth - 1 - 1 + 1 = (s.call i).depth - 1 := Nat.succ_pred_eq_of_ne_zero hd
      simp [MmapPc.inHook, MmapPc.toGo, MmapCall.clearsDue, e, hd, hd']
  case returned => exact .inl ⟨trivial, .inl ⟨_, rfl⟩⟩
  all_goals simp [Mmaps.goto, MmapPc.inHook, MmapPc.toGo, MmapCall.clearsDue, e]

/-! ## The work left to all calls -/

section

variable [Fintype ι]

/-- How many calls are in the hook, how often those that have left it are to
clear `is_locked`, and the steps to go until one of these numbers is less. -/
def Mmaps.work (s : Mmaps ι) : Nat × Nat × Nat :=
  (∑ i, (s.call i).pc.inHook.toNat, ∑ i, (s.call i).clearsDue, ∑ i, (s.call i).pc.toGo s.isLocked)

/-- Less work. -/
def LessWork : Nat × Nat × Nat → Nat × Nat × Nat → Prop := Prod.Lex (· < ·) (Prod.Lex (· < ·) (· < ·))

theorem lessWork_wf : WellFounded LessWork :=
  WellFounded.prod_lex Nat.lt_wfRel.wf (WellFounded.prod_lex Nat.lt_wfRel.wf Nat.lt_wfRel.wf)

/-- A sum where one call lowers its part, and no other raises its own. -/
theorem sum_lt_of_step {f f' : ι → Nat} {i : ι} (hne : ∀ j, j ≠ i → f' j ≤ f j) (hi : f' i < f i) :
    ∑ j, f' j < ∑ j, f j := by
  refine Finset.sum_lt_sum (fun j _ => ?_) ⟨i, Finset.mem_univ i, hi⟩
  by_cases hj : j = i
  · rw [hj]
    exact Nat.le_of_lt hi
  · exact hne j hj

theorem sum_eq_of_step {f f' : ι → Nat} {i : ι} (hne : ∀ j, j ≠ i → f' j = f j) (hi : f' i = f i) :
    ∑ j, f' j = ∑ j, f j := by
  refine Finset.sum_congr rfl fun j _ => ?_
  by_cases hj : j = i
  · rw [hj, hi]
  · exact hne j hj

/-- A step leaves less work, unless its call waits for the spin lock or has
returned. -/
theorem mmapStep_work (limit : UInt64) (req : ι → MmapRequest) (h : SetInside s) (turn : ι × Int32) :
    LessWork (mmapStep limit req s turn).work s.work ∨
      mmapStep limit req s turn = s ∧
        ((∃ ret, (s.call turn.1).pc = .returned ret) ∨ s.spin = true ∧
          (s.call turn.1).pc.acquires = true) := by
  have hne {j : ι} (hj : j ≠ turn.1) : (mmapStep limit req s turn).call j = s.call j :=
    mmapStep_call_of_ne hj
  obtain hw | ⟨hk, hk'⟩ | ⟨hk, hc⟩ | ⟨hk, hc, hl, hg⟩ := mmapStep_call_descends limit req h turn
  · exact .inr hw
  · refine .inl (.left _ _ (sum_lt_of_step (i := turn.1) (fun j hj => by rw [hne hj]) ?_))
    rw [hk, hk']
    exact Nat.zero_lt_one
  all_goals
    have ehook : ∑ i, ((mmapStep limit req s turn).call i).pc.inHook.toNat =
      ∑ i, (s.call i).pc.inHook.toNat :=
      sum_eq_of_step (i := turn.1) (fun j hj => by rw [hne hj]) (by rw [hk])
    left
    simp only [Mmaps.work, ehook, LessWork]
    refine .right _ ?_
  · exact .left _ _ (sum_lt_of_step (i := turn.1) (fun j hj => by rw [hne hj]) hc)
  · have eclears : ∑ i, ((mmapStep limit req s turn).call i).clearsDue = ∑ i, (s.call i).clearsDue :=
      sum_eq_of_step (i := turn.1) (fun j hj => by rw [hne hj]) hc
    rw [eclears]
    refine .right _ (sum_lt_of_step (i := turn.1) (fun j hj => ?_) hg)
    rw [hne hj]
    exact MmapPc.toGo_le hl _

end

/-- Every call has returned. -/
def AllReturned (s : Mmaps ι) : Prop := ∀ i, ∃ ret, (s.call i).pc = .returned ret

/-- What the runs of the calls keep. -/
structure GuardInv (s : Mmaps ι) : Prop where
  paired : ∃ ops, SpinPaired s ops
  inside : SetInside s
  owed : FlagOwed s

omit [DecidableEq ι] in
theorem guardInv_start : GuardInv (ι := ι) .start where
  paired := ⟨[], .inl ⟨rfl, fun _ => rfl, [], rfl⟩⟩
  inside i hi := by rcases hi with e | ⟨_, e⟩ <;> cases e
  owed h := nomatch h

theorem GuardInv.step (h : GuardInv s) (turn : ι × Int32) : GuardInv (mmapStep limit req s turn) := by
  obtain ⟨⟨ops, hp⟩, hin, ho⟩ := h
  exact ⟨⟨_, hp.step turn⟩, hin.step hp turn, ho.step turn⟩

omit [DecidableEq ι] in
/-- Where all have returned, nothing is left locked. -/
theorem GuardInv.free (h : GuardInv s) (hall : AllReturned s) : s.isLocked = false ∧ s.spin = false := by
  have hq : ∀ i, ¬ (s.call i).InProgress := fun i hi => by
    obtain ⟨ret, e⟩ := hall i
    exact hi.2 ret e
  refine ⟨h.owed.clear hq, ?_⟩
  obtain ⟨ops, ⟨hs, -⟩ | ⟨k, -, hheld, -⟩⟩ := h.paired
  · exact hs
  · exact absurd (held_of_not_inProgress (hq k)).1 (Nat.pos_iff_ne_zero.mp ((hheld k).mpr rfl))

/-- While some call has yet to return, some call can take a step: the one that
holds the spin lock, or any if it is free. -/
theorem GuardInv.exists_moves [Fintype ι] (h : GuardInv s) (limit : UInt64) (req : ι → MmapRequest)
    (hall : ¬ AllReturned s) :
    ∃ i, ∀ turn : ι × Int32, turn.1 = i → LessWork (mmapStep limit req s turn).work s.work := by
  obtain ⟨ops, ⟨hs, -⟩ | ⟨k, -, hheld, -⟩⟩ := h.paired
  · obtain ⟨i, hi⟩ := not_forall.mp hall
    refine ⟨i, fun turn e => (mmapStep_work limit req h.inside turn).resolve_right ?_⟩
    rintro ⟨-, hret | ⟨hs', -⟩⟩
    · exact hi (e ▸ hret)
    · exact Bool.false_ne_true (hs.symm.trans hs')
  · have hk : 0 < (s.call k).pc.held := (hheld k).mpr rfl
    refine ⟨k, fun turn e => (mmapStep_work limit req h.inside turn).resolve_right ?_⟩
    subst e
    rintro ⟨-, ⟨ret, e⟩ | ⟨-, e⟩⟩
    · rw [e] at hk
      exact Nat.lt_irrefl 0 hk
    · cases epc : (s.call turn.1).pc <;> rw [epc] at e hk <;> simp [MmapPc.acquires, MmapPc.held] at e hk

end Ivshmem
