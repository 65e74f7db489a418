import SecureIvshmem.Proof.Myshm

/-!
# The driver behind the hook

A call of `myshm_mmap` that the hook forwards runs it once, inside
`__ivshmem_origin_mmap`, and returns 0 whatever it returned
(`hookedMmap_of_clear`), so the hook is transparent just for the requests that
the driver carries out in full (`hook_transparent_iff`).
-/

namespace Ivshmem

open SharedMem

variable {limit : UInt64} {r : MmapRequest} {body : Option MmapResult} {s : HookState}

/-- A call that finds `is_locked` set is one of the original body. -/
theorem hookedMmap_of_locked (h : s.isLocked = true) (depth : Nat) :
    hookedMmap limit body r (depth + 1) s = body.map fun res => (res, { s with ip := .hooked }) := by
  simp only [hookedMmap, ftraceHookFunc, h, ↓reduceIte]

/-- A call that finds `is_locked` clear is refused, or runs the original body
once and drops what it returned. The lock is free after it. -/
theorem hookedMmap_of_clear (h : s.isLocked = false) (depth : Nat) :
    hookedMmap limit body r (depth + 2) s =
      if r.refused limit then some (⟨-einval, []⟩, ⟨false, false, .dummyMmap⟩)
      else body.map fun res => (⟨0, res.calls⟩, ⟨false, false, .hooked⟩) := by
  rw [hookedMmap, ftraceHookFunc_of_clear r limit (s := { s with ip := .hooked }) h]
  cases r.refused limit with
  | true => rfl
  | false =>
    simp only [Bool.false_eq_true, ↓reduceIte]
    rw [hookedMmap_of_locked rfl]
    cases body <;> rfl

/-- For a request of whole pages that the hook forwards, whatever the calls of
`remap_pfn_range` return: what the caller of `mmap` receives and the pages are
those of the driver alone just if the call finds `is_locked` set, or the
window is in the buffer and all its pages are mapped. -/
theorem hook_transparent_iff (limit : UInt64) (dev : MyshmDevice) (remap : Nat → Int32) {r : MmapRequest}
    (h : r.Pages) (fwd : r.isHooked = true → r.length ≤ limit ∧
      (r.window ⊆ Set.Ico 0 minValidOffset ∨ r.window ⊆ Set.Ico minValidOffset maxAllowedMmapSize))
    {fuel : Nat} (hfuel : r.numPages < fuel) (s : HookState) (depth : Nat) :
    let alone := myshmMmap dev remap fuel r
    (hookedMmap limit alone r (depth + 2) s).map Prod.fst = alone ↔
      s.isLocked = true ∨ (r.vmPgoff.toNat * 4096 + r.length.toNat ≤ memSize ∧
        ∀ i < r.length.toNat / vmPageSize, remap i = 0) := by
  intro alone
  have hrefused : r.refused limit = false := by
    by_cases hh : r.isHooked = true
    · exact (refused_eq_false_iff r limit hh h.pos).mpr (fwd hh)
    · simp only [MmapRequest.refused, hh, Bool.false_and]
  by_cases hl : s.isLocked = true
  · rw [hookedMmap_of_locked hl, Option.map_map]
    exact iff_of_true Option.map_id' (.inl hl)
  · have key (res : MmapResult) (hres : alone = some res) :
        (hookedMmap limit alone r (depth + 2) s).map Prod.fst = alone ↔ res.ret = 0 := by
      rw [hookedMmap_of_clear ((Bool.not_eq_true _).mp hl), hrefused, hres]
      cases res
      simp [eq_comm]
    obtain ⟨hlt, e⟩ | ⟨hle, ⟨k, hk, hr, -, e⟩ | ⟨hall, e⟩⟩ := myshmMmap_cases h hfuel
    all_goals rw [key _ e]
    · refine iff_of_false (by decide : (-einval : Int32) ≠ 0) ?_
      rintro (hl' | ⟨hle, -⟩)
      · exact hl hl'
      · exact absurd hlt (Nat.not_lt.mpr hle)
    · refine iff_of_false (by decide : (-eagain : Int32) ≠ 0) ?_
      rintro (hl' | ⟨-, hall⟩)
      · exact hl hl'
      · exact hr (hall k hk)
    · exact iff_of_true rfl (.inr ⟨hle, hall⟩)

/-- A page that the hook forwards and the driver maps. -/
theorem hook_transparent_firstDataPage :
    (hookedMmap 0x1000 (myshmMmap ⟨0, id⟩ (fun _ => 0) 2 firstDataPage) firstDataPage 2
      ⟨false, false, .hooked⟩).map Prod.fst =
      myshmMmap ⟨0, id⟩ (fun _ => 0) 2 firstDataPage := by
  refine (hook_transparent_iff 0x1000 ⟨0, id⟩ (fun _ => 0) firstDataPage_pages
    (fun _ => ⟨by decide, .inr ?_⟩) (by decide) ⟨false, false, .hooked⟩ 0).mpr
    (.inr ⟨by decide, fun _ _ => rfl⟩)
  exact Set.Ico_subset_Ico (by decide) (by decide)

/-- The same page where `remap_pfn_range` fails: the driver returns `-EAGAIN`,
and `mmap` through the hook returns 0. -/
theorem hook_hides_failure :
    let alone := myshmMmap ⟨0, id⟩ (fun _ => -12) 2 firstDataPage
    firstDataPage.refused 0x1000 = false ∧ alone = some ⟨-eagain, [⟨0x7000, 0x1000, -12⟩]⟩ ∧
      (hookedMmap 0x1000 alone firstDataPage 2 ⟨false, false, .hooked⟩).map Prod.fst =
        some ⟨0, [⟨0x7000, 0x1000, -12⟩]⟩ := by
  decide

/-! ## The steps of a call -/

variable {ι : Type*} [DecidableEq ι] {req : ι → MmapRequest}

/-- The steps of a call with no other in between, where the original body
returns what `res` has, come to the whole call. -/
theorem reaches_hookedMmap {s : Mmaps ι} {i : ι} (hcall : s.call i = ⟨.test, 0⟩) (hl : s.isLocked = false)
    (hs : s.spin = false) (res : MmapResult) :
    ∃ out, hookedMmap limit (some res) (req i) 2 ⟨s.isLocked, s.spin, .hooked⟩ = some out ∧
      ∃ ran, Reaches (fun s => mmapStep limit req s (i, res.ret)) s
        ⟨out.2.isLocked, out.2.spin, Function.update s.call i ⟨.returned out.1.ret, 0⟩, ran⟩ := by
  obtain ⟨isLocked, spin, call, ran⟩ := s
  subst hl hs
  rw [hookedMmap_of_clear rfl]
  have hcall : call i = ⟨.test, 0⟩ := hcall
  cases hr : (req i).refused limit with
  | true =>
    refine ⟨_, rfl, ran, 8, ?_⟩
    simp [mmapStep, Mmaps.goto, MmapCall.leave, hcall, hr]
  | false =>
    refine ⟨_, rfl, ran ++ [i], 10, ?_⟩
    simp [mmapStep, Mmaps.goto, MmapCall.leave, hcall, hr]

end Ivshmem
