import SecureIvshmem.Impl.Myshm
import SecureIvshmem.Proof.UioHook

/-!
# The window that the driver maps

`myshm_mmap` runs its loop for the pages of the request in turn, and stops at
the first one that cannot be mapped (`myshmMmap_cases`), so what it maps is
the requested window of the buffer (`myshmMmap_maps_window`).
-/

namespace Ivshmem

open SharedMem

/-- A request for whole pages, at least one. -/
structure MmapRequest.Pages (r : MmapRequest) : Prop where
  start : vmPageSize ∣ r.vmStart.toNat
  stop : vmPageSize ∣ r.vmEnd.toNat
  pos : r.vmStart < r.vmEnd

namespace MmapRequest

variable (r : MmapRequest)

/-- The pages of a request. -/
def numPages : Nat := r.length.toNat / vmPageSize

/-- The call of `remap_pfn_range` for page `i`. -/
def pageCall (dev : MyshmDevice) (remap : Nat → Int32) (i : Nat) : RemapCall where
  vaddr := r.vmStart + .ofNat (i * vmPageSize)
  pfn := dev.vmallocToPfn (dev.deviceBuffer + (r.vmPgoff <<< 12 + .ofNat (i * vmPageSize)))
  ret := remap i

variable {r}

theorem Pages.length_toNat (h : r.Pages) : r.length.toNat = r.vmEnd.toNat - r.vmStart.toNat :=
  UInt64.toNat_sub_of_le _ _ (UInt64.le_of_lt h.pos)

theorem Pages.length_eq (h : r.Pages) : r.length.toNat = r.numPages * vmPageSize := by
  refine (Nat.div_mul_cancel ?_).symm
  rw [h.length_toNat]
  exact Nat.dvd_sub h.stop h.start

end MmapRequest

section

variable {dev : MyshmDevice} {remap : Nat → Int32} {r : MmapRequest}

theorem ofNat_page_succ (x : UInt64) (i : Nat) :
    x + .ofNat (i * vmPageSize) + .ofNat vmPageSize = x + .ofNat ((i + 1) * vmPageSize) := by
  rw [Nat.succ_mul, UInt64.ofNat_add, UInt64.add_assoc]

/-- The loop from page `i` on stops after the first page that cannot be
mapped, or after the last one. -/
theorem myshmLoop_cases {n : Nat} : ∀ (fuel i : Nat) (size : UInt64), i ≤ n → n - i < fuel →
    size.toNat = (n - i) * vmPageSize →
    let res := myshmLoop dev remap fuel (r.vmStart + .ofNat (i * vmPageSize))
      (r.vmPgoff <<< 12 + .ofNat (i * vmPageSize)) size ((List.range i).map (r.pageCall dev remap))
    (∃ k, i ≤ k ∧ k < n ∧ remap k ≠ 0 ∧ (∀ j, i ≤ j → j < k → remap j = 0) ∧
      res = some ⟨-eagain, (List.range (k + 1)).map (r.pageCall dev remap)⟩) ∨
    (∀ j, i ≤ j → j < n → remap j = 0) ∧ res = some ⟨0, (List.range n).map (r.pageCall dev remap)⟩
  | 0, i, size, _, hfuel, _ => absurd hfuel (Nat.not_lt_zero _)
  | fuel + 1, i, size, hi, hfuel, hsize => by
    intro res
    simp only [res, myshmLoop, UInt64.lt_iff_toNat_lt, hsize, UInt64.toNat_zero, List.length_map,
      List.length_range]
    obtain rfl | hlt := Nat.eq_or_lt_of_le hi
    · rw [Nat.sub_self, Nat.zero_mul, if_neg (Nat.lt_irrefl 0)]
      exact .inr ⟨fun j hj hj' => absurd hj (Nat.not_le.mpr hj'), rfl⟩
    have hcalls : (List.range i).map (r.pageCall dev remap) ++ [r.pageCall dev remap i] =
        (List.range (i + 1)).map (r.pageCall dev remap) := by
      rw [List.range_succ, List.map_append, List.map_singleton]
    simp only [MmapRequest.pageCall] at hcalls
    rw [if_pos (Nat.mul_pos (by omega) (by decide)), hcalls]
    by_cases hr : remap i = 0
    · have hsize' : (size - .ofNat vmPageSize).toNat = (n - (i + 1)) * vmPageSize := by
        have hpage : (UInt64.ofNat vmPageSize).toNat = vmPageSize := by decide
        have hge : vmPageSize ≤ (n - i) * vmPageSize := Nat.le_mul_of_pos_left _ (by omega)
        rw [UInt64.toNat_sub_of_le _ _
          (UInt64.le_iff_toNat_le.mpr (by rw [hpage, hsize]; exact hge)), hsize, hpage,
          Nat.sub_add_eq, Nat.sub_mul _ 1, Nat.one_mul]
      rw [if_neg (not_not.mpr hr), ofNat_page_succ, ofNat_page_succ]
      obtain ⟨k, hk, hkn, hrk, hbefore, e⟩ | ⟨hall, e⟩ :=
        myshmLoop_cases fuel (i + 1) _ hlt (by omega) hsize'
      · refine .inl ⟨k, by omega, hkn, hrk, fun j hj hj' => ?_, e⟩
        obtain rfl | hj := Nat.eq_or_lt_of_le hj
        · exact hr
        · exact hbefore j hj hj'
      · refine .inr ⟨fun j hj hj' => ?_, e⟩
        obtain rfl | hj := Nat.eq_or_lt_of_le hj
        · exact hr
        · exact hall j hj hj'
    · rw [if_pos hr]
      exact .inl ⟨i, Nat.le_refl i, hlt, hr, fun j hj hj' => absurd hj (Nat.not_le.mpr hj'), rfl⟩

/-- What a call of `myshm_mmap` comes to with the fuel for its pages: it
refuses a window that ends past the buffer, and else tries to map its pages in
turn, up to the first that fails. -/
theorem myshmMmap_cases (h : r.Pages) {fuel : Nat} (hfuel : r.numPages < fuel) :
    let res := myshmMmap dev remap fuel r
    (memSize < r.vmPgoff.toNat * 4096 + r.length.toNat ∧ res = some ⟨-einval, []⟩) ∨
    (r.vmPgoff.toNat * 4096 + r.length.toNat ≤ memSize ∧
      ((∃ k < r.numPages, remap k ≠ 0 ∧ (∀ j < k, remap j = 0) ∧
        res = some ⟨-eagain, (List.range (k + 1)).map (r.pageCall dev remap)⟩) ∨
      (∀ j < r.numPages, remap j = 0) ∧
        res = some ⟨0, (List.range r.numPages).map (r.pageCall dev remap)⟩)) := by
  intro res
  have hmem : (UInt64.ofNat memSize).toNat = memSize := by decide
  have hend : (r.vmPgoff <<< 12 + (r.vmEnd - r.vmStart)).toNat =
    r.vmPgoff.toNat * 4096 + r.length.toNat := end_toNat r
  simp only [res, myshmMmap, UInt64.lt_iff_toNat_lt, hend, hmem]
  by_cases hle : memSize < r.vmPgoff.toNat * 4096 + r.length.toNat
  · rw [if_pos hle]
    exact .inl ⟨hle, rfl⟩
  · rw [if_neg hle]
    have hloop :=
      @myshmLoop_cases dev remap r r.numPages fuel 0 r.length (Nat.zero_le _) hfuel h.length_eq
    have h0 (x : UInt64) : x + .ofNat 0 = x := UInt64.add_zero x
    simp only [Nat.zero_mul, h0, List.range_zero, List.map_nil, Nat.zero_le, forall_const,
      true_and] at hloop
    exact .inr ⟨Nat.not_lt.mp hle, hloop⟩

/-! ## The pages -/

theorem pageCall_vaddr (h : r.Pages) {i : Nat} (hi : i < r.numPages) :
    (r.pageCall dev remap i).vaddr.toNat = r.vmStart.toNat + i * vmPageSize := by
  have hend := r.vmEnd.toNat_lt
  have hlen := h.length_toNat
  have heq := h.length_eq
  have hpage : (i + 1) * vmPageSize ≤ r.numPages * vmPageSize := Nat.mul_le_mul_right _ hi
  rw [Nat.succ_mul] at hpage
  have hpos : 0 < vmPageSize := by decide
  have hlt : r.vmStart.toNat + i * vmPageSize < 2 ^ 64 := by omega
  rw [MmapRequest.pageCall, UInt64.toNat_add, UInt64.toNat_ofNat',
    Nat.mod_eq_of_lt (a := i * vmPageSize) (by omega), Nat.mod_eq_of_lt hlt]

theorem pageCall_pfn {i : Nat} : (r.pageCall dev remap i).pfn =
    dev.vmallocToPfn (dev.deviceBuffer + .ofNat (r.vmPgoff.toNat * 4096 + i * vmPageSize)) := by
  have hoff : r.vmPgoff <<< 12 = .ofNat (r.vmPgoff.toNat * 4096) := by
    refine UInt64.toNat_inj.mp ?_
    have hfits := r.fits
    rw [UInt64.toNat_ofNat', Nat.mod_eq_of_lt (Nat.lt_of_le_of_lt (Nat.le_add_right _ _) hfits)]
    exact offset_toNat r
  rw [MmapRequest.pageCall, hoff, ← UInt64.ofNat_add]

/-- A page of a request ends in it. -/
theorem pageOffset_le (h : r.Pages) {i : Nat} (hi : i < r.numPages) :
    r.vmPgoff.toNat * 4096 + i * vmPageSize + vmPageSize ≤ r.vmPgoff.toNat * 4096 + r.length.toNat :=
  calc r.vmPgoff.toNat * 4096 + i * vmPageSize + vmPageSize
      = r.vmPgoff.toNat * 4096 + (i + 1) * vmPageSize := by rw [Nat.succ_mul, Nat.add_assoc]
    _ ≤ r.vmPgoff.toNat * 4096 + r.numPages * vmPageSize :=
      Nat.add_le_add_left (Nat.mul_le_mul_right _ hi) _
    _ = r.vmPgoff.toNat * 4096 + r.length.toNat := by rw [h.length_eq]

/-- An address is in a page of the calls just if they mapped it. -/
def Mapped (calls : List RemapCall) (a : Nat) : Prop :=
  ∃ c ∈ calls, c.ret = 0 ∧ c.vaddr.toNat ≤ a ∧ a < c.vaddr.toNat + vmPageSize

/-- Every address of the request is in one of its pages. -/
theorem mapped_of_forall (h : r.Pages) (hall : ∀ j < r.numPages, remap j = 0) {a : Nat}
    (ha : r.vmStart.toNat ≤ a) (ha' : a < r.vmEnd.toNat) :
    Mapped ((List.range r.numPages).map (r.pageCall dev remap)) a := by
  have hlen := h.length_toNat
  have heq := h.length_eq
  have hdm := Nat.div_add_mod (a - r.vmStart.toNat) vmPageSize
  have hm := Nat.mod_lt (a - r.vmStart.toNat) (by decide : 0 < vmPageSize)
  have hi : (a - r.vmStart.toNat) / vmPageSize < r.numPages :=
    Nat.div_lt_of_lt_mul (by rw [Nat.mul_comm, ← heq]; omega)
  refine ⟨r.pageCall dev remap ((a - r.vmStart.toNat) / vmPageSize),
    List.mem_map_of_mem (List.mem_range.mpr hi), hall _ hi, ?_, ?_⟩ <;>
  · rw [pageCall_vaddr h hi, Nat.mul_comm]
    omega

/-- The page whose call failed is not mapped by any other one. -/
theorem not_mapped_of_fails (h : r.Pages) {k : Nat} (hk : k < r.numPages) (hr : remap k ≠ 0) :
    ¬ Mapped ((List.range (k + 1)).map (r.pageCall dev remap)) (r.vmStart.toNat + k * vmPageSize) := by
  rintro ⟨c, hc, hret, hle, hlt⟩
  obtain ⟨j, hj, rfl⟩ := List.mem_map.mp hc
  have hj : j < k + 1 := List.mem_range.mp hj
  rw [pageCall_vaddr h (by omega)] at hle hlt
  have hjk : k * vmPageSize < (j + 1) * vmPageSize := by rw [Nat.succ_mul]; omega
  have hkj : k < j + 1 := Nat.lt_of_mul_lt_mul_right hjk
  obtain rfl : j = k := by omega
  exact hr hret

/-- The calls for the first pages of a window that the buffer has room for. -/
theorem pageCalls_spec (h : r.Pages) (hle : r.vmPgoff.toNat * 4096 + r.length.toNat ≤ memSize) {m : Nat}
    (hm : m ≤ r.numPages) {i : Nat} {c : RemapCall}
    (hc : ((List.range m).map (r.pageCall dev remap))[i]? = some c) :
    c.vaddr.toNat = r.vmStart.toNat + i * vmPageSize ∧
      c.pfn = dev.vmallocToPfn (dev.deviceBuffer + .ofNat (r.vmPgoff.toNat * 4096 + i * vmPageSize)) ∧
      r.vmPgoff.toNat * 4096 + (i + 1) * vmPageSize ≤ memSize ∧ c.ret = remap i := by
  obtain ⟨hi, e⟩ := List.getElem?_eq_some_iff.mp hc
  rw [List.length_map, List.length_range] at hi
  rw [List.getElem_map, List.getElem_range] at e
  have hpage : (i + 1) * vmPageSize ≤ r.numPages * vmPageSize :=
    Nat.mul_le_mul_right _ (Nat.lt_of_lt_of_le hi hm)
  have hlen := h.length_eq
  subst e
  exact ⟨pageCall_vaddr h (Nat.lt_of_lt_of_le hi hm), pageCall_pfn, by omega, rfl⟩

/-- `myshm_mmap`, for any request of whole pages and whatever the calls of
`remap_pfn_range` return: it refuses a window that ends past the buffer, and
else tries to map its pages in turn, each to its page of the buffer, and
returns 0 just if it has mapped all. -/
theorem myshmMmap_maps_window (dev : MyshmDevice) (remap : Nat → Int32) {r : MmapRequest}
    (h : r.Pages) {fuel : Nat} (hfuel : r.numPages < fuel) :
    let offset := r.vmPgoff.toNat * 4096
    ∃ res, myshmMmap dev remap fuel r = some res ∧
      (res = ⟨-einval, []⟩ ↔ memSize < offset + r.length.toNat) ∧
      (offset + r.length.toNat ≤ memSize →
        res.calls.length ≤ r.length.toNat / vmPageSize ∧
        (∀ i c, res.calls[i]? = some c → c.vaddr.toNat = r.vmStart.toNat + i * vmPageSize ∧
          c.pfn = dev.vmallocToPfn (dev.deviceBuffer + .ofNat (offset + i * vmPageSize)) ∧
          offset + (i + 1) * vmPageSize ≤ memSize ∧ c.ret = remap i) ∧
        (res.ret = 0 ↔ ∀ a, r.vmStart.toNat ≤ a → a < r.vmEnd.toNat → Mapped res.calls a)) := by
  intro offset
  obtain ⟨hlt, e⟩ | ⟨hle, ⟨k, hk, hr, -, e⟩ | ⟨hall, e⟩⟩ := myshmMmap_cases h hfuel
  · exact ⟨_, e, ⟨fun _ => hlt, fun _ => rfl⟩, fun hle => absurd hlt (Nat.not_lt.mpr hle)⟩
  · have hret : (-eagain : Int32) ≠ -einval := by decide
    have hret' : (-eagain : Int32) ≠ 0 := by decide
    refine ⟨_, e,
      ⟨fun e' => absurd (congrArg MmapResult.ret e') hret, fun hlt => absurd hle (Nat.not_le.mpr hlt)⟩,
      fun _ => ⟨?_, fun i c hc => pageCalls_spec h hle hk hc, fun e' => absurd e' hret',
        fun hmapped => ?_⟩⟩
    · rw [List.length_map, List.length_range]
      exact hk
    · refine absurd (hmapped (r.vmStart.toNat + k * vmPageSize) (Nat.le_add_right _ _) ?_)
        (not_mapped_of_fails h hk hr)
      have hpage : k * vmPageSize < r.numPages * vmPageSize := Nat.mul_lt_mul_of_pos_right hk (by decide)
      have hlen := h.length_toNat
      have heq := h.length_eq
      omega
  · have hret : (0 : Int32) ≠ -einval := by decide
    refine ⟨_, e,
      ⟨fun e' => absurd (congrArg MmapResult.ret e') hret, fun hlt => absurd hle (Nat.not_le.mpr hlt)⟩,
      fun _ => ⟨?_, fun i c hc => pageCalls_spec h hle (Nat.le_refl _) hc,
        fun _ a ha ha' => mapped_of_forall h hall ha ha', fun _ => rfl⟩⟩
    rw [List.length_map, List.length_range]
    exact Nat.le_refl _

end

theorem firstDataPage_pages : firstDataPage.Pages := ⟨by decide, by decide, by decide⟩

/-- The last byte of a page that is mapped. -/
theorem myshmMmap_maps_firstDataPage : Mapped [⟨0x7000, 0x1000, 0⟩] 0x7fff := by
  have hfuel : firstDataPage.numPages < 2 := by decide
  obtain ⟨res, e, -, h⟩ := myshmMmap_maps_window ⟨0, id⟩ (fun _ => 0) firstDataPage_pages hfuel
  have hres : myshmMmap ⟨0, id⟩ (fun _ => 0) 2 firstDataPage = some ⟨0, [⟨0x7000, 0x1000, 0⟩]⟩ := by
    decide
  obtain rfl := Option.some.inj (e.symm.trans hres)
  exact (h (by decide)).2.2.mp rfl 0x7fff (by decide) (by decide)

end Ivshmem
