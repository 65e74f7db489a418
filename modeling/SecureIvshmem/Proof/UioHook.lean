import Mathlib.Order.Interval.Set.LinearOrder
import SecureIvshmem.Impl.UioHook

/-!
# The `mmap` guard

The guards of the hook refuse just the requests that the control section, the
data section and the limit forbid (`refused_iff_forbidden`), so the hook lets
those pass that stay in one of the two sections and below the limit
(`ftraceHookFunc_redirects`). But a call that
finds `is_locked` set passes the hook unguarded, whoever set it.
`bodies_allowed_iff` says that this is the only way around the guards.
-/

namespace Ivshmem

open SharedMem

/-! ## The guards -/

/-- A request that starts in the control section and ends past it, ends past
the data section, or is longer than the limit. -/
def MmapRequest.Forbidden (limit : UInt64) (r : MmapRequest) : Prop :=
  r.isHooked = true ∧
    (r.vmPgoff.toNat * 4096 < minValidOffset ∧ minValidOffset < r.vmPgoff.toNat * 4096 + r.length.toNat ∨
      maxAllowedMmapSize < r.vmPgoff.toNat * 4096 + r.length.toNat ∨ limit.toNat < r.length.toNat)

section

variable (r : MmapRequest)

/-- `offset`, read as unsigned. -/
theorem offset_toNat : r.offset.toUInt64.toNat = r.vmPgoff.toNat * 4096 := by
  have hfits := r.fits
  simp only [MmapRequest.offset, UInt64.toUInt64_toInt64, UInt64.toNat_shiftLeft, Nat.shiftLeft_eq]
  exact Nat.mod_eq_of_lt (Nat.lt_of_le_of_lt (Nat.le_add_right _ _) hfits)

/-- `offset`, from 2⁶³ on negative. -/
theorem offset_toInt :
    r.offset.toInt = if 2 * (r.vmPgoff.toNat * 4096) < UInt64.size then (r.vmPgoff.toNat * 4096 : Int)
      else r.vmPgoff.toNat * 4096 - UInt64.size := by
  have h := offset_toNat r
  have e : r.offset.toBitVec.toNat = r.vmPgoff.toNat * 4096 := h
  rw [← Int64.toInt_toBitVec, BitVec.toInt_eq_toNat_cond, e]
  simp

/-- The end of a request, which does not wrap. -/
theorem end_toNat : (r.offset.toUInt64 + r.length).toNat = r.vmPgoff.toNat * 4096 + r.length.toNat := by
  rw [UInt64.toNat_add, offset_toNat]
  exact Nat.mod_eq_of_lt r.fits

/-- The guards together refuse the forbidden requests and no others: the
guard of the data section lets those pass that start in the control section,
but these end past it. -/
theorem refused_iff_forbidden (limit : UInt64) : r.refused limit = true ↔ r.Forbidden limit := by
  have hoff := offset_toInt r
  have hend := end_toNat r
  have hfits := r.fits
  have emin : (Int64.ofNat minValidOffset).toInt = minValidOffset := by decide
  have emin' : (UInt64.ofNat minValidOffset).toNat = minValidOffset := by decide
  have emax : (UInt64.ofNat maxAllowedMmapSize).toNat = maxAllowedMmapSize := by decide
  simp only [MmapRequest.refused, MmapRequest.Forbidden, MmapRequest.controlGuard, MmapRequest.dataGuard,
    MmapRequest.limitGuard, Bool.and_eq_true, Bool.or_eq_true, decide_eq_true_eq, Int64.lt_iff_toInt_lt,
    Int64.le_iff_toInt_le, UInt64.lt_iff_toNat_lt, hend, emin, emin', emax]
  refine and_congr_right fun _ => ?_
  rw [hoff]
  simp only [minValidOffset, maxAllowedMmapSize, MmapRequest.length, UInt64.size] at *
  split <;> omega

@[simp] theorem mmapGuard_true (s : HookState) :
    mmapGuard true s = (-einval, { s with ip := .dummyMmap, spin := false }) := rfl

@[simp] theorem mmapGuard_false (s : HookState) : mmapGuard false s = (0, s) := rfl

/-- The guards in the order of the source come to the one test of the model by
steps. -/
theorem ftraceHookFunc_of_clear (limit : UInt64) {s : HookState} (h : s.isLocked = false) :
    ftraceHookFunc limit r s = ⟨true, false, if r.refused limit then .dummyMmap else .originMmap⟩ := by
  have hneg : (-einval : Int32) < 0 := by decide
  by_cases hh : r.isHooked = true
  · by_cases hc : r.controlGuard = true
    · simp [ftraceHookFunc, MmapRequest.refused, h, hh, hc, hneg]
    by_cases hd : r.dataGuard = true
    · simp [ftraceHookFunc, MmapRequest.refused, h, hh, hc, hd, hneg]
    by_cases hl : r.limitGuard limit = true <;>
      simp [ftraceHookFunc, MmapRequest.refused, h, hh, hc, hd, hl, hneg]
  · simp [ftraceHookFunc, MmapRequest.refused, h, hh]

/-- The bytes of the device that a request asks for. -/
def MmapRequest.window : Set Nat :=
  Set.Ico (r.vmPgoff.toNat * 4096) (r.vmPgoff.toNat * 4096 + r.length.toNat)

/-- A request for at least a byte is let through just if it is for no more
than the limit and stays in one of the two sections. -/
theorem refused_eq_false_iff (limit : UInt64) (hooked : r.isHooked = true) (pos : r.vmStart < r.vmEnd) :
    r.refused limit = false ↔ r.length ≤ limit ∧
      (r.window ⊆ Set.Ico 0 minValidOffset ∨ r.window ⊆ Set.Ico minValidOffset maxAllowedMmapSize) := by
  have hlen : 0 < r.length.toNat := by
    rw [MmapRequest.length, UInt64.toNat_sub_of_le _ _ (UInt64.le_of_lt pos)]
    exact Nat.sub_pos_of_lt (UInt64.lt_iff_toNat_lt.mp pos)
  have hne : r.vmPgoff.toNat * 4096 < r.vmPgoff.toNat * 4096 + r.length.toNat :=
    Nat.lt_add_of_pos_right hlen
  rw [← Bool.not_eq_true, refused_iff_forbidden, MmapRequest.Forbidden, MmapRequest.window,
    Set.Ico_subset_Ico_iff hne, Set.Ico_subset_Ico_iff hne, UInt64.le_iff_toNat_le]
  simp only [hooked, true_and, minValidOffset, maxAllowedMmapSize]
  omega

/-- For a request on a hooked file that finds `is_locked` clear, the hook goes
on in `__ivshmem_origin_mmap` just if the request is for no more than the
limit and stays in one of the two sections, and else in
`__ivshmem_dummy_mmap`. -/
theorem ftraceHookFunc_redirects (limit : UInt64) (s : HookState) (hooked : r.isHooked = true)
    (pos : r.vmStart < r.vmEnd) (clear : s.isLocked = false) :
    ((ftraceHookFunc limit r s).ip = .originMmap ↔ r.length ≤ limit ∧
      (r.window ⊆ Set.Ico 0 minValidOffset ∨ r.window ⊆ Set.Ico minValidOffset maxAllowedMmapSize)) ∧
    ((ftraceHookFunc limit r s).ip ≠ .originMmap → (ftraceHookFunc limit r s).ip = .dummyMmap) := by
  rw [← refused_eq_false_iff r limit hooked pos, ftraceHookFunc_of_clear r limit clear]
  cases r.refused limit <;> simp

end

/-- A request for the first page of the data section. -/
def firstDataPage : MmapRequest := ⟨some hookDname, 1, 0x7000, 0x8000, by decide⟩

theorem ftraceHookFunc_redirects_firstDataPage :
    (ftraceHookFunc 0x1000 firstDataPage ⟨false, false, .hooked⟩).ip = .originMmap := by
  refine (ftraceHookFunc_redirects firstDataPage 0x1000 ⟨false, false, .hooked⟩ (by decide) (by decide)
    rfl).1.mpr ⟨by decide, .inr ?_⟩
  exact Set.Ico_subset_Ico (by decide) (by decide)

/-! ## Calls -/

/-- On the way to `__ivshmem_dummy_mmap`, or through it. -/
def MmapPc.redirected : MmapPc → Bool
  | .release false | .body | .originAcquire | .originClear | .originRelease => false
  | _ => true

variable {ι : Type*} [DecidableEq ι] {limit : UInt64} {req : ι → MmapRequest} {s : Mmaps ι}

/-- No original body for a forbidden request. -/
def BodiesAllowed (limit : UInt64) (req : ι → MmapRequest) (s : Mmaps ι) : Prop :=
  ∀ i, (req i).Forbidden limit → (s.call i).pc ≠ .body ∧ i ∉ s.ran

/-- A call with a forbidden request tests `is_locked` only while it is
clear. -/
def TestsClear (limit : UInt64) (req : ι → MmapRequest) (s : Mmaps ι) (turn : ι × Int32) : Prop :=
  (req turn.1).Forbidden limit → (s.call turn.1).pc = .test → s.isLocked = false

/-- The invariant of runs with `TestsClear` steps. -/
structure HookInv (limit : UInt64) (req : ι → MmapRequest) (s : Mmaps ι) : Prop where
  call : ∀ i, (req i).Forbidden limit → (s.call i).depth = 0 ∧ (s.call i).pc.redirected = true
  ran : ∀ i, (req i).Forbidden limit → i ∉ s.ran

omit [DecidableEq ι] in
theorem hookInv_start : HookInv limit req .start := ⟨fun _ _ => ⟨rfl, rfl⟩, fun _ _ => List.not_mem_nil⟩

omit [DecidableEq ι] in
theorem HookInv.allowed (h : HookInv limit req s) : BodiesAllowed limit req s := fun i hi => by
  refine ⟨fun e => ?_, h.ran i hi⟩
  have := (h.call i hi).2
  rw [e] at this
  cases this

/-- A step of a call is a step of that call only. -/
theorem mmapStep_call_of_ne {turn : ι × Int32} {k : ι} (hk : k ≠ turn.1) :
    (mmapStep limit req s turn).call k = s.call k := by
  obtain ⟨i, ret⟩ := turn
  unfold mmapStep
  cases e : (s.call i).pc <;> simp only [e]
  case acquire | originAcquire | dummyAcquire =>
    cases s.spin <;> simp [Mmaps.goto, Function.update_of_ne hk]
  case release refused => cases refused <;> simp [Mmaps.goto, Function.update_of_ne hk]
  all_goals simp [Mmaps.goto, Function.update_of_ne hk]

/-- A body is run at `body` only. -/
theorem mmapStep_ran {turn : ι × Int32} {k : ι} (hk : k ∈ (mmapStep limit req s turn).ran) :
    k ∈ s.ran ∨ k = turn.1 ∧ (s.call k).pc = .body := by
  obtain ⟨i, ret⟩ := turn
  unfold mmapStep at hk
  cases e : (s.call i).pc <;> simp only [e] at hk
  case acquire | originAcquire | dummyAcquire => cases hs : s.spin <;> rw [hs] at hk <;> exact .inl hk
  case release refused => cases refused <;> exact .inl hk
  case body =>
    obtain hk | hk := List.mem_append.mp hk
    · exact .inl hk
    · obtain rfl := List.mem_singleton.mp hk
      exact .inr ⟨rfl, e⟩
  all_goals exact .inl hk

/-- A call with a forbidden request stays on its way to
`__ivshmem_dummy_mmap`. -/
theorem HookInv.call_step (h : HookInv limit req s) {turn : ι × Int32} (hg : TestsClear limit req s turn)
    (hi : (req turn.1).Forbidden limit) :
    ((mmapStep limit req s turn).call turn.1).depth = 0 ∧
      ((mmapStep limit req s turn).call turn.1).pc.redirected = true := by
  obtain ⟨i, ret⟩ := turn
  have hg := hg hi
  obtain ⟨hd, hr⟩ := h.call i hi
  unfold mmapStep
  cases e : (s.call i).pc <;> rw [e] at hr <;> simp only [e] at hg ⊢
  case test => simp [Mmaps.goto, hg, hd, MmapPc.redirected]
  case acquire | dummyAcquire => cases s.spin <;> simp [Mmaps.goto, hd, e, MmapPc.redirected]
  case guards => simp [Mmaps.goto, hd, (refused_iff_forbidden _ limit).mpr hi, MmapPc.redirected]
  case release refused =>
    cases refused
    · cases hr
    · simp [Mmaps.goto, hd, MmapPc.redirected]
  case dummyRelease => simp [MmapCall.leave, hd, MmapPc.redirected]
  case body | originAcquire | originClear | originRelease => cases hr
  all_goals simp [Mmaps.goto, hd, MmapPc.redirected]

theorem HookInv.step (h : HookInv limit req s) {turn : ι × Int32} (hg : TestsClear limit req s turn) :
    HookInv limit req (mmapStep limit req s turn) := by
  refine ⟨fun k hk => ?_, fun k hk hran => ?_⟩
  · by_cases hki : k = turn.1
    · subst hki
      exact h.call_step hg hk
    · rw [mmapStep_call_of_ne hki]
      exact h.call k hk
  · obtain hran | ⟨-, e⟩ := mmapStep_ran hran
    · exact h.ran k hk hran
    · exact (h.allowed k hk).1 e

/-- A forbidden request that finds `is_locked` set has its body run next. -/
theorem testsClear_of_allowed {turn : ι × Int32}
    (h : BodiesAllowed limit req (mmapStep limit req s turn)) :
    TestsClear limit req s turn := fun hi hpc => by
  obtain ⟨i, ret⟩ := turn
  by_contra hl
  refine (h i hi).1 ?_
  simp only [mmapStep, hpc, Mmaps.goto, Function.update_self, (Bool.not_eq_false _).mp hl, ↓reduceIte]

/-- Any number of calls, with any offsets, lengths and names, in any
interleaving. No original body runs for a forbidden request just if every
call with such a request finds `is_locked` clear. -/
theorem bodies_allowed_iff (limit : UInt64) (req : ι → MmapRequest) (turns : List (ι × Int32)) :
    (∀ turns', turns' <+: turns → BodiesAllowed limit req (run (mmapStep limit req) .start turns')) ↔
      Guarded (mmapStep limit req) (TestsClear limit req) .start turns :=
  (guarded_iff (I := HookInv limit req) (fun _ _ h hg => h.step hg) (fun _ h => h.allowed)
    (fun _ _ _ h => testsClear_of_allowed h) hookInv_start).symm

/-- A page of the data section, or all of it and more. -/
def pageOrAll (all : Bool) : MmapRequest :=
  if all then ⟨some (hookDname ++ ['0']), 0, 0, 0x400000, by decide⟩
  else ⟨some (hookDname ++ ['0']), 1, 0, 0x1000, by decide⟩

/-- While a call for a page is in the hook, a call for 4 MiB has its body
run. -/
theorem not_bodies_allowed :
    let s :=
        run (mmapStep 0x1000 pageOrAll) .start [(false, 0), (false, 0), (false, 0), (true, 0), (true, 0)]
    (pageOrAll true).refused 0x1000 = true ∧ (s.call true).pc = .returned 0 ∧ s.ran = [true] ∧
      ¬ BodiesAllowed 0x1000 pageOrAll s := by
  intro s
  have hr : (pageOrAll true).refused 0x1000 = true := by decide
  have hran : s.ran = [true] := by decide
  refine ⟨hr, by decide, hran, fun h => (h true ((refused_iff_forbidden _ _).mp hr)).2 ?_⟩
  rw [hran]
  exact List.mem_singleton_self true

end Ivshmem
