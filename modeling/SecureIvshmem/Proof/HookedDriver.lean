import SecureIvshmem.Proof.HookReturns
import SecureIvshmem.Proof.Myshm

/-!
# The driver behind the hook, in every interleaving

The steps of `driverStep` are those of `mmapStep`, where the original body
returns what `myshm_mmap` does (`driverStep_cases`). Every call runs the driver
once if it is not refused, and returns what the driver has returned or, through
`__ivshmem_origin_mmap`, 0 (`CallTraced`); of finitely many calls, every one
comes to this (`mmaps_return`). While `is_locked` is clear where a forbidden
request tests it, what the driver maps stays in one section
(`mappings_confined`).
-/

namespace Ivshmem

open SharedMem

variable {ι : Type*} [DecidableEq ι] {limit : UInt64} {dev : MyshmDevice} {req : ι → MmapRequest}
  {s : DriverRuns ι}

omit [DecidableEq ι] in
/-- A request for whole pages is one that `myshm_mmap` comes to an end for. -/
theorem driverBody_isSome (dev : MyshmDevice) (hreq : ∀ i, (req i).Pages) (i : ι) (remap : Nat → Int32) :
    ∃ res, driverBody dev req i remap = some res := by
  obtain ⟨-, e⟩ | ⟨-, ⟨_, -, -, -, e⟩ | ⟨-, e⟩⟩ :=
    @myshmMmap_cases dev remap (req i) (hreq i) _ (Nat.lt_succ_self (req i).numPages)
  all_goals exact ⟨_, e⟩

/-- A step is one of `mmapStep`; a step of the original body adds a result. -/
theorem driverStep_cases (limit : UInt64) (dev : MyshmDevice) (hreq : ∀ i, (req i).Pages)
    (s : DriverRuns ι) (turn : ι × (Nat → Int32)) :
    (∃ res, (s.mmaps.call turn.1).pc = .body ∧ driverBody dev req turn.1 turn.2 = some res ∧
      driverStep limit dev req s turn =
        ⟨mmapStep limit req s.mmaps (turn.1, res.ret), s.results ++ [(turn.1, res)]⟩) ∨
    ((s.mmaps.call turn.1).pc ≠ .body ∧
      driverStep limit dev req s turn = ⟨mmapStep limit req s.mmaps (turn.1, 0), s.results⟩) := by
  obtain ⟨i, remap⟩ := turn
  obtain ⟨res, hres⟩ := driverBody_isSome dev hreq i remap
  simp only [driverStep]
  by_cases e : (s.mmaps.call i).pc = .body
  · refine .inl ⟨res, e, hres, ?_⟩
    rw [e]
    simp only [hres]
  · refine .inr ⟨e, ?_⟩
    cases hpc : (s.mmaps.call i).pc
    case body => exact absurd hpc e
    all_goals rfl

/-- The step of the calls that a step comes to. -/
theorem driverStep_mmaps (limit : UInt64) (dev : MyshmDevice) (hreq : ∀ i, (req i).Pages)
    (s : DriverRuns ι) (turn : ι × (Nat → Int32)) :
    ∃ ret, (driverStep limit dev req s turn).mmaps = mmapStep limit req s.mmaps (turn.1, ret) := by
  obtain ⟨res, -, -, e⟩ | ⟨-, e⟩ := driverStep_cases limit dev hreq s turn <;> exact ⟨_, by rw [e]⟩

/-! ## What a call comes to -/

/-- What the runs of the original body have come to for call `i`. -/
def DriverRuns.resultsOf (s : DriverRuns ι) (i : ι) : List MmapResult :=
  (s.results.filter fun result => result.1 = i).map Prod.snd

theorem resultsOf_concat (mmaps : Mmaps ι) (i : ι) (res : MmapResult) (k : ι) :
    DriverRuns.resultsOf ⟨mmaps, s.results ++ [(i, res)]⟩ k = s.resultsOf k ++ if i = k then
      [res] else [] := by
  rw [DriverRuns.resultsOf, List.filter_append, List.map_append]
  by_cases h : i = k <;> simp [DriverRuns.resultsOf, h]

/-- What a call at `t` for a request that the guards refuse or not has come
to, when its runs of the original body have come to `results`. -/
def CallTraced (refused : Bool) (t : MmapCall) (results : List MmapResult) : Prop :=
  match t.pc with
  | .release b => b = refused ∧ results = [] ∧ (refused = true → t.depth = 0)
  | .originAcquire | .originClear | .originRelease =>
    refused = false ∧ 0 < t.depth ∧ ∃ res, results = [res]
  | .dummyAcquire | .dummyClear | .dummyRelease => refused = true ∧ t.depth = 0 ∧ results = []
  | .returned ret =>
    (refused = true ∧ ret = -einval ∧ results = []) ∨
      ∃ res, results = [res] ∧ (ret = res.ret ∨ refused = false ∧ ret = 0)
  | _ => results = [] ∧ (refused = true → t.depth = 0)

/-- What one step of a call does, where the original body comes to `res`. -/
theorem CallTraced.step {m : Mmaps ι} {i : ι} {results : List MmapResult}
    (h : CallTraced ((req i).refused limit) (m.call i) results) (res : MmapResult) :
    CallTraced ((req i).refused limit) ((mmapStep limit req m (i, res.ret)).call i)
      (if (m.call i).pc = .body then results ++ [res] else results) := by
  simp only [mmapStep]
  cases e : (m.call i).pc <;> simp only [CallTraced, e] at h <;> simp only [reduceCtorEq, ↓reduceIte]
  case test => cases m.isLocked <;> simpa [Mmaps.goto, CallTraced] using h
  case acquire | originAcquire | dummyAcquire =>
    cases m.spin <;> simpa [Mmaps.goto, CallTraced, e] using h
  case release refused =>
    obtain ⟨rfl, h, hd⟩ := h
    cases hr : (req i).refused limit with
    | true => simpa [Mmaps.goto, CallTraced, hr] using And.intro (hd hr) h
    | false => simpa [CallTraced, hr] using h
  case body =>
    obtain ⟨rfl, hd⟩ := h
    by_cases h0 : (m.call i).depth = 0
    · simp [MmapCall.leave, CallTraced, h0]
    · have hr : (req i).refused limit = false := (Bool.not_eq_true _).mp (mt hd h0)
      simp [MmapCall.leave, CallTraced, h0, hr, Nat.pos_of_ne_zero h0]
  case originRelease =>
    obtain ⟨hr, hd, res', rfl⟩ := h
    by_cases h0 : (m.call i).depth - 1 = 0
    · simp [MmapCall.leave, CallTraced, h0, hr]
    · simp [MmapCall.leave, CallTraced, h0, hr, Nat.pos_of_ne_zero h0]
  case dummyRelease =>
    simp only [MmapCall.leave, h.2.1, Function.update_self, ↓reduceIte]
    exact .inl ⟨h.1, rfl, h.2.2⟩
  all_goals simpa [Mmaps.goto, CallTraced, e] using h

/-- What the runs of the calls keep, with the driver. -/
structure DriverInv (limit : UInt64) (dev : MyshmDevice) (req : ι → MmapRequest)
    (s : DriverRuns ι) : Prop where
  guard : GuardInv s.mmaps
  traced : ∀ i, CallTraced ((req i).refused limit) (s.mmaps.call i) (s.resultsOf i)
  ran : ∀ i, ∀ res ∈ s.resultsOf i, ∃ remap, driverBody dev req i remap = some res

theorem driverInv_start : DriverInv limit dev req .start where
  guard := guardInv_start
  traced _ := ⟨rfl, fun _ => rfl⟩
  ran _ _ hres := absurd hres List.not_mem_nil

theorem DriverInv.step (h : DriverInv limit dev req s) (hreq : ∀ i, (req i).Pages)
    (turn : ι × (Nat → Int32)) :
    DriverInv limit dev req (driverStep limit dev req s turn) := by
  have hne {k : ι} (hk : k ≠ turn.1) (ret : Int32) : (mmapStep limit req s.mmaps (turn.1,
    ret)).call k = s.mmaps.call k :=
    mmapStep_call_of_ne hk
  obtain ⟨res, hpc, hres, e⟩ | ⟨hpc, e⟩ := driverStep_cases limit dev hreq s turn <;> rw [e]
  · refine ⟨h.guard.step (turn.1, res.ret), fun k => ?_, fun k => ?_⟩ <;> rw [resultsOf_concat]
    · by_cases hk : turn.1 = k
      · subst hk
        have ht := (h.traced turn.1).step res
        rw [if_pos hpc] at ht
        rw [if_pos rfl]
        exact ht
      · rw [hne (Ne.symm hk), if_neg hk, List.append_nil]
        exact h.traced k
    · by_cases hk : turn.1 = k
      · subst hk
        rw [if_pos rfl, List.forall_mem_append, List.forall_mem_singleton]
        exact ⟨h.ran _, _, hres⟩
      · rw [if_neg hk, List.append_nil]
        exact h.ran k
  · refine ⟨h.guard.step (turn.1, 0), fun k => ?_, h.ran⟩
    by_cases hk : turn.1 = k
    · subst hk
      have ht := (h.traced turn.1).step ⟨0, []⟩
      rwa [if_neg hpc] at ht
    · rw [hne (Ne.symm hk)]
      exact h.traced k

theorem driverStep_work [Fintype ι] (h : DriverInv limit dev req s) (hreq : ∀ i, (req i).Pages)
    (turn : ι × (Nat → Int32)) : driverStep limit dev req s turn = s ∨
      LessWork (driverStep limit dev req s turn).mmaps.work s.mmaps.work := by
  obtain ⟨res, hpc, -, e⟩ | ⟨hpc, e⟩ := driverStep_cases limit dev hreq s turn <;> rw [e]
  · refine .inr ((mmapStep_work limit req h.guard.inside (turn.1, res.ret)).resolve_right ?_)
    rintro ⟨-, ⟨ret, e'⟩ | ⟨-, e'⟩⟩ <;> simp only [hpc, MmapPc.acquires] at e' <;> cases e'
  · obtain hw | ⟨hw, -⟩ := mmapStep_work limit req h.guard.inside (turn.1, 0)
    · exact .inr hw
    · exact .inl (by rw [hw])

/-- What a call has come to where it has returned. -/
theorem DriverInv.returned (h : DriverInv limit dev req s) {i : ι} {ret : Int32}
    (e : (s.mmaps.call i).pc = .returned ret) :
    ((req i).refused limit = true ∧ ret = -einval ∧ s.resultsOf i = []) ∨
      ∃ res remap, s.resultsOf i = [res] ∧ driverBody dev req i remap = some res ∧
        (ret = res.ret ∨ (req i).refused limit = false ∧ ret = 0) := by
  have ht := h.traced i
  simp only [CallTraced, e] at ht
  refine ht.imp_right ?_
  rintro ⟨res, hres, hret⟩
  obtain ⟨remap, hremap⟩ := h.ran i res (by rw [hres]; exact List.mem_singleton_self res)
  exact ⟨res, remap, hres, hremap, hret⟩

/-- Of finitely many calls for whole pages, with any names, offsets and
lengths, any outcomes of `remap_pfn_range` and after any interleaving of their
first steps, all return in every fair schedule, which leaves `is_locked` clear
and the spin lock free. A refused call returns `-EINVAL` and has not run the
driver; any other call has run it once, and returns what the driver did, or 0;
and so does a refused one that found `is_locked` set, with what the driver
did. -/
theorem mmaps_return [Fintype ι] (limit : UInt64) (dev : MyshmDevice) {req : ι → MmapRequest}
    (hreq : ∀ i, (req i).Pages) (turns : List (ι × (Nat → Int32))) {σ : Nat → ι × (Nat → Int32)}
    (hσ : Fair Prod.fst σ) :
    ∃ n, let s := runSeq (driverStep limit dev req) (run (driverStep limit dev req) .start turns) σ n
      s.mmaps.isLocked = false ∧ s.mmaps.spin = false ∧
      ∀ i, ∃ ret, (s.mmaps.call i).pc = .returned ret ∧
        (((req i).refused limit = true ∧ ret = -einval ∧ s.resultsOf i = []) ∨
          ∃ res remap, s.resultsOf i = [res] ∧ driverBody dev req i remap = some res ∧
            (ret = res.ret ∨ (req i).refused limit = false ∧ ret = 0)) := by
  have inv : ∀ s turn, DriverInv limit dev req s →
    DriverInv limit dev req (driverStep limit dev req s turn) :=
    fun s turn h => h.step hreq turn
  have hs : DriverInv limit dev req (run (driverStep limit dev req) .start turns) :=
    run_inv inv driverInv_start turns
  have hmove : ∀ s, DriverInv limit dev req s → ¬ AllReturned s.mmaps →
      ∃ i, ∀ turn, Prod.fst turn = i →
      LessWork (driverStep limit dev req s turn).mmaps.work s.mmaps.work := by
    intro s h hall
    obtain ⟨i, hi⟩ := h.guard.exists_moves limit req hall
    refine ⟨i, fun turn e => ?_⟩
    obtain ⟨ret, e'⟩ := driverStep_mmaps limit dev hreq s turn
    rw [e']
    exact hi _ e
  obtain ⟨n, hn⟩ := exists_done_of_descends (μ := fun s => s.mmaps.work) lessWork_wf inv
    (fun s turn h => driverStep_work h hreq turn) hmove hσ hs
  have h : DriverInv limit dev req
    (runSeq (driverStep limit dev req) (run (driverStep limit dev req) .start turns) σ n) :=
    runSeq_inv (G := fun _ _ => True) (fun s turn h _ => inv s turn h) hs (fun _ => trivial) n
  refine ⟨n, (h.guard.free hn).1, (h.guard.free hn).2, fun i => ?_⟩
  obtain ⟨ret, e⟩ := hn i
  exact ⟨ret, e, h.returned e⟩

theorem pageOrAll_pages : ∀ all, (pageOrAll all).Pages
  | false => ⟨by decide, by decide, by decide⟩
  | true => ⟨by decide, by decide, by decide⟩

/-- The calls in turn, where all pages can be mapped. -/
def mmapsInTurn (n : Nat) : Bool × (Nat → Int32) := (n % 2 == 0, fun _ => 0)

theorem fair_mmapsInTurn : Fair Prod.fst mmapsInTurn := fun all n => by
  rcases Nat.mod_two_eq_zero_or_one n with h | h
  · cases all
    · exact ⟨1, by simp [mmapsInTurn, Nat.add_mod, h]⟩
    · exact ⟨0, by simp [mmapsInTurn, h]⟩
  · cases all
    · exact ⟨0, by simp [mmapsInTurn, h]⟩
    · exact ⟨1, by simp [mmapsInTurn, Nat.add_mod, h]⟩

/-- A call for a page and one for 4 MiB, step by step in turn. -/
theorem mmaps_return_inTurn : ∃ n,
    let s := runSeq (driverStep 0x1000 ⟨0, id⟩ pageOrAll) .start mmapsInTurn n
    s.mmaps.isLocked = false ∧ s.mmaps.spin = false := by
  obtain ⟨n, hl, hs, -⟩ := mmaps_return 0x1000 ⟨0, id⟩ pageOrAll_pages [] fair_mmapsInTurn
  exact ⟨n, hl, hs⟩

/-! ## What the driver maps -/

/-- A call with a forbidden request tests `is_locked` only while it is
clear. -/
def DriverTestsClear (limit : UInt64) (req : ι → MmapRequest) (s : DriverRuns ι)
    (turn : ι × (Nat → Int32)) : Prop :=
  (req turn.1).Forbidden limit → (s.mmaps.call turn.1).pc = .test → s.mmaps.isLocked = false

instance (limit : UInt64) (r : MmapRequest) : Decidable (r.Forbidden limit) :=
  inferInstanceAs (Decidable (_ ∧ _))

instance (limit : UInt64) (req : ι → MmapRequest) (s : DriverRuns ι) (turn : ι × (Nat → Int32)) :
    Decidable (DriverTestsClear limit req s turn) :=
  inferInstanceAs (Decidable (_ → _ → _))

/-- The pages that the driver has tried to map are no more than the limit
allows, and each is one of the request and, in the buffer, of one of the two
sections, the same for all. -/
def Confined (limit : UInt64) (dev : MyshmDevice) (r : MmapRequest) (res : MmapResult) : Prop :=
  res.calls.length * vmPageSize ≤ limit.toNat ∧
    ∃ sec : Set Nat, (sec = Set.Ico 0 minValidOffset ∨ sec = Set.Ico minValidOffset maxAllowedMmapSize) ∧
      ∀ (k : Nat) (c : RemapCall), res.calls[k]? = some c →
      ∃ o, Set.Ico o (o + vmPageSize) ⊆ r.window ∩ sec ∧
        c.vaddr.toNat + r.vmPgoff.toNat * 4096 = r.vmStart.toNat + o ∧
        c.pfn = dev.vmallocToPfn (dev.deviceBuffer + .ofNat o)

/-- What the driver comes to for a request that the guards let pass. -/
theorem confined_of_not_refused {r : MmapRequest} (h : r.Pages) (hooked : r.isHooked = true)
    (hr : r.refused limit = false) {remap : Nat → Int32} {fuel : Nat} (hfuel : r.numPages < fuel)
    {res : MmapResult} (hres : myshmMmap dev remap fuel r = some res) : Confined limit dev r res := by
  obtain ⟨hlen, hsec⟩ := (refused_eq_false_iff r limit hooked h.pos).mp hr
  have heq := h.length_eq
  have hpos : 0 < r.length.toNat := by
    rw [h.length_toNat]
    exact Nat.sub_pos_of_lt (UInt64.lt_iff_toNat_lt.mp h.pos)
  have hle : r.vmPgoff.toNat * 4096 + r.length.toNat ≤ memSize := by
    have hne : r.vmPgoff.toNat * 4096 < r.vmPgoff.toNat * 4096 + r.length.toNat :=
      Nat.lt_add_of_pos_right hpos
    simp only [MmapRequest.window, Set.Ico_subset_Ico_iff hne, minValidOffset, maxAllowedMmapSize] at hsec
    simp only [memSize]
    omega
  -- all pages are in the window, and so in the section
  have pages {m : Nat} (hm : m ≤ r.numPages) (e : res.calls = (List.range m).map (r.pageCall dev remap)) :
      Confined limit dev r res := by
    have key (sec : Set Nat) (hsub : r.window ⊆ sec) (k : Nat) (c : RemapCall)
      (hc : res.calls[k]? = some c) :
        ∃ o, Set.Ico o (o + vmPageSize) ⊆ r.window ∩ sec ∧
          c.vaddr.toNat + r.vmPgoff.toNat * 4096 = r.vmStart.toNat + o ∧
          c.pfn = dev.vmallocToPfn (dev.deviceBuffer + .ofNat o) := by
      rw [e] at hc
      obtain ⟨hv, hp, -, -⟩ := pageCalls_spec h hle hm hc
      have hk : k < m := by
        have hk := (List.getElem?_eq_some_iff.mp hc).1
        rwa [List.length_map, List.length_range] at hk
      have hin : Set.Ico (r.vmPgoff.toNat * 4096 + k * vmPageSize)
        (r.vmPgoff.toNat * 4096 + k * vmPageSize + vmPageSize) ⊆
          r.window :=
        Set.Ico_subset_Ico (Nat.le_add_right _ _) (pageOffset_le h (Nat.lt_of_lt_of_le hk hm))
      exact ⟨_, Set.subset_inter hin (hin.trans hsub), by omega, hp⟩
    refine ⟨?_, ?_⟩
    · rw [e, List.length_map, List.length_range]
      calc m * vmPageSize ≤ r.numPages * vmPageSize := Nat.mul_le_mul_right _ hm
        _ = r.length.toNat := heq.symm
        _ ≤ limit.toNat := UInt64.le_iff_toNat_le.mp hlen
    · obtain hsub | hsub := hsec
      · exact ⟨_, .inl rfl, key _ hsub⟩
      · exact ⟨_, .inr rfl, key _ hsub⟩
  obtain ⟨hlt, -⟩ | ⟨-, ⟨k, hk, -, -, e⟩ | ⟨-, e⟩⟩ := @myshmMmap_cases dev remap r h fuel hfuel
  · exact absurd hle (Nat.not_le.mpr hlt)
  · obtain rfl := Option.some.inj (hres.symm.trans e)
    exact pages hk rfl
  · obtain rfl := Option.some.inj (hres.symm.trans e)
    exact pages (Nat.le_refl _) rfl

/-- The invariant of runs with `DriverTestsClear` steps. -/
structure ConfinedInv (limit : UInt64) (dev : MyshmDevice) (req : ι → MmapRequest)
    (s : DriverRuns ι) : Prop where
  hook : HookInv limit req s.mmaps
  results : ∀ i res, (i, res) ∈ s.results → (req i).isHooked = true → Confined limit dev (req i) res

theorem ConfinedInv.step (h : ConfinedInv limit dev req s) (hreq : ∀ i, (req i).Pages)
    {turn : ι × (Nat → Int32)} (hg : DriverTestsClear limit req s turn) :
    ConfinedInv limit dev req (driverStep limit dev req s turn) := by
  have hg' (ret : Int32) : TestsClear limit req s.mmaps (turn.1, ret) := hg
  obtain ⟨res, hpc, hres, e⟩ | ⟨-, e⟩ := driverStep_cases limit dev hreq s turn <;> rw [e]
  · refine ⟨h.hook.step (hg' _), fun i res' hmem hooked => ?_⟩
    obtain hmem | hmem := List.mem_append.mp hmem
    · exact h.results i res' hmem hooked
    · obtain ⟨rfl, rfl⟩ := Prod.mk.inj (List.mem_singleton.mp hmem)
      refine confined_of_not_refused (hreq _) hooked ?_ (Nat.lt_succ_self _) hres
      -- a forbidden request does not get to the original body
      rw [← Bool.not_eq_true, refused_iff_forbidden]
      exact fun hi => (h.hook.allowed _ hi).1 hpc
  · exact ⟨h.hook.step (hg' _), h.results⟩

/-- Any number of calls for whole pages, with any names, offsets and lengths
and any outcomes of `remap_pfn_range`, in any interleaving where every
forbidden request finds `is_locked` clear. For a request on a hooked file the
driver has at no time mapped a page that is not one of the request, and in the
same section of the device as all the others of it. -/
theorem mappings_confined (limit : UInt64) (dev : MyshmDevice) {req : ι → MmapRequest}
    (hreq : ∀ i, (req i).Pages) {turns : List (ι × (Nat → Int32))}
    (h : Guarded (driverStep limit dev req) (DriverTestsClear limit req) .start turns) :
    ∀ i res, (i, res) ∈ (run (driverStep limit dev req) .start turns).results → (req i).isHooked = true →
      Confined limit dev (req i) res :=
  (h.run_inv (I := ConfinedInv limit dev req) (fun _ _ h hg => h.step hreq hg)
    ⟨hookInv_start, fun _ _ hmem => absurd hmem List.not_mem_nil⟩).results

/-- A call for a page, to its end, and then the first step of one for
4 MiB. -/
theorem mappings_confined_page : Confined 0x1000 ⟨0, id⟩ (pageOrAll false) ⟨0, [⟨0, 0x1000, 0⟩]⟩ :=
  have h : Guarded (driverStep 0x1000 ⟨0, id⟩ pageOrAll) (DriverTestsClear 0x1000 pageOrAll) .start
    (List.replicate 10 (false, fun _ => 0) ++ [(true, fun _ => 0)]) := by decide
  mappings_confined 0x1000 ⟨0, id⟩ pageOrAll_pages h false _ (by decide) (by decide)

end Ivshmem
