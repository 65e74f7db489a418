import SecureIvshmem.Impl.MyshmModule
import SecureIvshmem.Proof.Myshm

/-!
# What the driver holds

A load of `myshm` acquires its resources in order, and a load that fails
releases what it has acquired in the reverse order (`myshmInit_cases`), so an
unloaded module holds nothing. What it can miss is the device node: the error
pointer of a failed `device_create` is not null, and the load goes on. The
buffer of a mapping outlives it (`mappings_held`), since a mapping holds its
file, and a file the module.
-/

namespace Ivshmem

open SharedMem

/-- A load that returns 0. -/
def MyshmOutcome.Loads (o : MyshmOutcome) : Prop :=
  ¬ o.allocChrdevRegion < 0 ∧ ¬ o.cdevAdd < 0 ∧ o.classCreate = .ptr ∧ o.deviceCreate ≠ .null ∧
    o.vmalloc = true

/-- What a load that has created a device node or not holds before it
allocates the buffer. -/
def registrations (node : Bool) (n : Nat) : List MyshmHandle :=
  [.region n, .cdev n, .cls n] ++ if node then [.device n] else []

/-- What load `n` holds. -/
def myshmResources (node : Bool) (n : Nat) : List MyshmHandle := registrations node n ++ [.buffer n]

theorem registrations_nodup (node : Bool) (n : Nat) : (registrations node n).Nodup := by
  cases node <;> simp [registrations]

theorem device_mem_myshmResources {node : Bool} {n : Nat} :
    .device n ∈ myshmResources node n ↔ node = true := by
  cases node <;> simp [myshmResources, registrations]

/-! ## Tearing down -/

namespace MyshmKernel

variable {k : MyshmKernel} {node : Bool} {n : Nat}

/-- The statics of load `n`, and what it holds before it allocates the
buffer. -/
structure Registered (k : MyshmKernel) (node : Bool) (n : Nat) : Prop where
  held : k.held.Holds (registrations node n)
  devNumber : k.devNumber = n
  mmapClass : k.mmapClass = some n

/-- `device_destroy` passes over a node that is not there. -/
theorem Registered.deviceDestroy (h : k.Registered node n) : k.deviceDestroy.Registered false n := by
  have hmem : .device k.devNumber ∈ k.held.live ↔ node = true := by
    rw [h.held.live, h.devNumber, List.mem_toFinset]
    cases node <;> simp [registrations]
  rw [MyshmKernel.deviceDestroy]
  cases node with
  | true =>
    rw [if_pos (hmem.mpr rfl)]
    refine ⟨?_, h.devNumber, h.mmapClass⟩
    have hheld : k.held.Holds (registrations false n ++ [.device k.devNumber]) := h.devNumber ▸ h.held
    exact hheld.releaseAll
  | false =>
    rw [if_neg fun hd => Bool.false_ne_true (hmem.mp hd)]
    exact h

/-- The rest of a teardown. -/
theorem Registered.destroy (h : k.Registered false n) :
    (k.classDestroy.cdevDel.unregisterChrdevRegion).held.Holds [] := by
  have hheld : k.held.Holds ([.region n, .cdev n] ++ [.cls n]) := h.held
  have hcls : (k.held.release (.cls n)).Holds ([.region n] ++ [.cdev n]) := hheld.releaseAll
  have hcdev : ((k.held.release (.cls n)).release (.cdev n)).Holds ([] ++ [.region n]) := hcls.releaseAll
  have hregion : (((k.held.release (.cls n)).release (.cdev n)).release (.region n)).Holds [] :=
    hcdev.releaseAll
  simpa only [classDestroy, h.mmapClass, cdevDel, unregisterChrdevRegion, release,
    h.devNumber] using hregion

theorem Registered.exit (h : k.Registered node n) :
    (k.deviceDestroy.classDestroy.cdevDel.unregisterChrdevRegion).held.Holds [] :=
  h.deviceDestroy.destroy

/-- The kernel while load `n` is in place. -/
structure Loaded (k : MyshmKernel) (node : Bool) (n : Nat) : Prop where
  held : k.held.Holds (myshmResources node n)
  devNumber : k.devNumber = n
  mmapClass : k.mmapClass = some n
  deviceBuffer : k.deviceBuffer = some n

/-- The buffer is the last to be acquired. -/
theorem Registered.loaded (h : k.Registered node n) :
    { k.acquire (.buffer n) with deviceBuffer := some n }.Loaded node n := by
  refine ⟨h.held.acquireAll (List.nodup_singleton _) fun x hx => ?_, h.devNumber, h.mmapClass, rfl⟩
  rw [List.mem_singleton.mp hx, h.held.live, List.mem_toFinset]
  cases node <;> simp [registrations]

theorem Loaded.exit (h : k.Loaded node n) : (myshmExit k).held.Holds [] := by
  have hreg : (k.release (.buffer n)).Registered node n := ⟨h.held.releaseAll, h.devNumber, h.mmapClass⟩
  simp only [myshmExit, vfreeBuffer, h.deviceBuffer]
  exact hreg.exit

end MyshmKernel

/-! ## Loads -/

section

variable {k : MyshmKernel} (h : k.held.Holds [])
include h

/-- What is acquired where nothing is held. -/
theorem holds_acquireAll {new : List MyshmHandle} (hnew : new.Nodup) :
    (k.held.acquireAll new).Holds new :=
  h.acquireAll hnew fun x _ => by
    rw [h.live]
    exact Finset.notMem_empty x

theorem registered_acquireAll (node : Bool) : MyshmKernel.Registered
    ⟨k.next + 1, k.held.acquireAll (registrations node k.next), k.next, some k.next,
      k.deviceBuffer⟩ node k.next :=
  ⟨holds_acquireAll h (registrations_nodup node k.next), rfl, rfl⟩

/-- A load whose registrations are there, with a device node just if
`device_create` has returned a pointer: the rest of it depends on `vmalloc`. -/
theorem myshmInit_registered {o : MyshmOutcome} (halloc : ¬ o.allocChrdevRegion < 0)
    (hcdev : ¬ o.cdevAdd < 0) (hclass : o.classCreate = .ptr) (hdevice : o.deviceCreate ≠ .null) :
    ∃ k' : MyshmKernel, k'.Registered (o.deviceCreate = .ptr) k.next ∧ myshmInit o k =
      if o.vmalloc then (0, { k'.acquire (.buffer k.next) with deviceBuffer := some k.next })
      else (-enomem, k'.deviceDestroy.classDestroy.cdevDel.unregisterChrdevRegion) := by
  cases e : o.deviceCreate with
  | null => exact absurd e hdevice
  | err code neg =>
    refine ⟨_, registered_acquireAll h false, ?_⟩
    simp only [myshmInit, if_neg halloc, if_neg hcdev, hclass, e, reduceCtorEq, ↓reduceIte]
    rfl
  | ptr =>
    refine ⟨_, registered_acquireAll h true, ?_⟩
    simp only [myshmInit, if_neg halloc, if_neg hcdev, hclass, e, ↓reduceIte]
    rfl

/-- A load where nothing is held succeeds and holds its resources, with the
device node just if `device_create` has returned a pointer, or fails and holds
nothing. -/
theorem myshmInit_cases (o : MyshmOutcome) :
    (o.Loads ∧ (myshmInit o k).1 = 0 ∧ (myshmInit o k).2.Loaded (o.deviceCreate = .ptr) k.next) ∨
      (¬ o.Loads ∧ (myshmInit o k).1 < 0 ∧ (myshmInit o k).2.held.Holds []) := by
  by_cases halloc : o.allocChrdevRegion < 0
  · refine .inr ⟨fun hl => hl.1 halloc, ?_⟩
    simp only [myshmInit, if_pos halloc]
    exact ⟨halloc, h⟩
  by_cases hcdev : o.cdevAdd < 0
  · refine .inr ⟨fun hl => hl.2.1 hcdev, ?_⟩
    simp only [myshmInit, if_neg halloc, if_pos hcdev]
    have hregion : (k.held.acquireAll [.region k.next]).Holds ([] ++ [.region k.next]) :=
      holds_acquireAll h (List.nodup_singleton _)
    exact ⟨hcdev, hregion.releaseAll⟩
  cases hclass : o.classCreate with
  | null => exact absurd hclass o.classNonnull
  | err code neg =>
    refine .inr ⟨fun hl => (nomatch hclass.symm.trans hl.2.2.1), ?_⟩
    simp only [myshmInit, if_neg halloc, if_neg hcdev, hclass]
    have hboth : (k.held.acquireAll [.region k.next, .cdev k.next]).Holds
      ([.region k.next] ++ [.cdev k.next]) :=
      holds_acquireAll h (by simp)
    have hregion : ((k.held.acquireAll [.region k.next, .cdev k.next]).release (.cdev k.next)).Holds
      ([] ++ [.region k.next]) := hboth.releaseAll
    exact ⟨neg, hregion.releaseAll⟩
  | ptr =>
    by_cases hdevice : o.deviceCreate = .null
    · refine .inr ⟨fun hl => hl.2.2.2.1 hdevice, ?_⟩
      simp only [myshmInit, if_neg halloc, if_neg hcdev, hclass, hdevice]
      exact ⟨by decide, (registered_acquireAll h false).destroy⟩
    · obtain ⟨k', hreg, e⟩ := myshmInit_registered h halloc hcdev hclass hdevice
      have hneg : (-enomem : Int32) < 0 := by decide
      rw [e]
      cases hbuffer : o.vmalloc with
      | false =>
        exact .inr ⟨fun hl => Bool.false_ne_true (hbuffer.symm.trans hl.2.2.2.2), hneg, hreg.exit⟩
      | true => exact .inl ⟨⟨halloc, hcdev, hclass, hdevice, hbuffer⟩, rfl, hreg.loaded⟩

end

/-! ## Runs -/

/-- The buffer of a mapping is held, and every page of the mapping is one of
it. -/
def MyshmMapping.Backed (dev : Nat → MyshmDevice) (k : MyshmKernel) (m : MyshmMapping) : Prop :=
  ∃ n, m.buffer = some n ∧ .buffer n ∈ k.held.live ∧ ∀ c ∈ m.pages, c.ret = 0 ∧
    ∃ o, o + vmPageSize ≤ memSize ∧ c.pfn = (dev n).vmallocToPfn ((dev n).deviceBuffer + .ofNat o)

/-- The pages of a call of `myshm_mmap` that returns 0. -/
theorem pages_of_ret {dev : MyshmDevice} {remap : Nat → Int32} {r : MmapRequest} (h : r.Pages)
    {res : MmapResult} (hres : myshmMmap dev remap (r.length.toNat / vmPageSize + 1) r = some res)
    (hret : res.ret = 0) :
    ∀ c ∈ res.calls, c.ret = 0 ∧
      ∃ o, o + vmPageSize ≤ memSize ∧ c.pfn = dev.vmallocToPfn (dev.deviceBuffer + .ofNat o) := by
  obtain ⟨-, e⟩ | ⟨hle, ⟨k, -, -, -, e⟩ | ⟨hall, e⟩⟩ :=
    @myshmMmap_cases dev remap r h _ (Nat.lt_succ_self r.numPages)
  all_goals obtain rfl := Option.some.inj (hres.symm.trans e)
  · exact absurd hret (by decide : (-einval : Int32) ≠ 0)
  · exact absurd hret (by decide : (-eagain : Int32) ≠ 0)
  · intro c hc
    obtain ⟨i, hi, rfl⟩ := List.mem_map.mp hc
    have hi : i < r.numPages := List.mem_range.mp hi
    exact ⟨hall i hi, r.vmPgoff.toNat * 4096 + i * vmPageSize,
      Nat.le_trans (pageOffset_le h hi) hle, pageCall_pfn⟩

structure MyshmInv (dev : Nat → MyshmDevice) (s : MyshmModule) : Prop where
  idle : s.loaded = false → s.kernel.held.Holds [] ∧ s.files = []
  loaded : s.loaded = true → ∃ node n, s.kernel.Loaded node n
  backed : ∀ f ∈ s.files, ∀ m ∈ f.maps, m.Backed dev s.kernel

theorem myshmInv_start {dev : Nat → MyshmDevice} : MyshmInv dev .start where
  idle _ := ⟨⟨rfl, List.nodup_nil, rfl⟩, rfl⟩
  loaded h := nomatch h
  backed _ hf := absurd hf List.not_mem_nil

section

variable {dev : Nat → MyshmDevice} {s : MyshmModule} (h : MyshmInv dev s)
include h

/-- A change of one file that leaves its mappings backed. -/
theorem MyshmInv.onFile {g : MyshmFile → MyshmFile}
    (hg : ∀ f ∈ s.files, ∀ m ∈ (g f).maps, m.Backed dev s.kernel) (i : Nat) :
    MyshmInv dev (s.onFile i g) where
  idle hl := by
    refine ⟨(h.idle hl).1, ?_⟩
    rw [MyshmModule.onFile, (h.idle hl).2]
    simp
  loaded hl := h.loaded hl
  backed f hf := by
    obtain ⟨j, hj⟩ := List.mem_iff_getElem?.mp (List.mem_filter.mp hf).1
    rw [List.getElem?_modify] at hj
    obtain ⟨f', hf', rfl⟩ := Option.map_eq_some_iff.mp hj
    have hmem : f' ∈ s.files := List.mem_iff_getElem?.mpr ⟨j, hf'⟩
    split
    · exact hg f' hmem
    · exact h.backed f' hmem

/-- A load that gets to the module. -/
theorem MyshmInv.load (hl : s.loaded = false) (o : MyshmOutcome) :
    let s' := myshmStep dev s (.load o)
    s'.files = [] ∧
      ((o.Loads ∧ s'.loaded = true ∧ s'.kernel.Loaded (o.deviceCreate = .ptr) s.kernel.next) ∨
      (¬ o.Loads ∧ s'.loaded = false ∧ s'.kernel.held.Holds [])) := by
  obtain ⟨hheld, hfiles⟩ := h.idle hl
  have hfresh : s.kernel.fresh.held.Holds [] := hheld
  simp only [myshmStep, hl, Bool.false_eq_true, ↓reduceIte]
  refine ⟨hfiles, ?_⟩
  obtain ⟨ho, hret, hloaded⟩ | ⟨ho, hret, hnone⟩ := myshmInit_cases hfresh o
  · exact .inl ⟨ho, by rw [hret]; rfl, hloaded⟩
  · exact .inr ⟨ho, by rw [decide_eq_true hret]; rfl, hnone⟩

theorem MyshmInv.step {call : MyshmCall} (hcall : ∀ i r remap, call = .mmap i r remap → r.Pages) :
    MyshmInv dev (myshmStep dev s call) := by
  cases call with
  | load o =>
    cases hl : s.loaded with
    | true =>
      simp only [myshmStep, hl, ↓reduceIte]
      exact h
    | false =>
      obtain ⟨hfiles, ⟨-, hl', hloaded⟩ | ⟨-, hl', hnone⟩⟩ := h.load hl o
      · refine ⟨fun e => absurd (hl'.symm.trans e) Bool.true_eq_false.mp, fun _ => ⟨_, _, hloaded⟩,
          fun f hf => ?_⟩
        rw [hfiles] at hf
        exact absurd hf List.not_mem_nil
      · refine ⟨fun _ => ⟨hnone, hfiles⟩, fun e => absurd (hl'.symm.trans e) Bool.false_ne_true,
          fun f hf => ?_⟩
        rw [hfiles] at hf
        exact absurd hf List.not_mem_nil
  | unload =>
    simp only [myshmStep]
    split
    · rename_i hu
      obtain ⟨node, n, hloaded⟩ := h.loaded hu.1
      refine ⟨fun _ => ⟨hloaded.exit, hu.2⟩, nofun, fun f hf => ?_⟩
      rw [hu.2] at hf
      exact absurd hf List.not_mem_nil
    · exact h
  | openFile =>
    simp only [myshmStep]
    split
    · rename_i hl
      refine ⟨fun e => absurd (hl.symm.trans e) Bool.true_eq_false.mp, h.loaded, fun f hf => ?_⟩
      obtain hf | hf := List.mem_append.mp hf
      · exact h.backed f hf
      · rw [List.mem_singleton.mp hf]
        exact fun m hm => absurd hm List.not_mem_nil
    · exact h
  | close i => exact h.onFile (g := .closed) h.backed i
  | munmap i j => exact h.onFile (fun f hf m hm => h.backed f hf m (List.mem_of_mem_eraseIdx hm)) i
  | mmap i r remap =>
    cases hbuffer : s.kernel.deviceBuffer with
    | none =>
      simp only [myshmStep, hbuffer]
      exact h
    | some n =>
      cases hres : myshmMmap (dev n) remap (r.length.toNat / vmPageSize + 1) r with
      | none =>
        simp only [myshmStep, hbuffer, hres]
        exact h
      | some res =>
        simp only [myshmStep, hbuffer, hres]
        refine h.onFile (fun f hf m hm => ?_) i
        simp only [MyshmFile.mapped] at hm
        split at hm
        · rename_i hret
          obtain hm | hm := List.mem_append.mp hm
          · exact h.backed f hf m hm
          · -- the module is loaded, as it has a file
            have hl : s.loaded = true := by
              by_contra hl
              rw [(h.idle ((Bool.not_eq_true _).mp hl)).2] at hf
              exact List.not_mem_nil hf
            obtain ⟨node, n', hloaded⟩ := h.loaded hl
            obtain rfl := Option.some.inj (hbuffer.symm.trans hloaded.deviceBuffer)
            rw [List.mem_singleton.mp hm]
            refine ⟨n, rfl, ?_, pages_of_ret (hcall i r remap rfl) hres hret.2⟩
            rw [hloaded.held.live, List.mem_toFinset]
            exact List.mem_append_right _ (List.mem_singleton_self _)
        · exact h.backed f hf m hm

end

/-- Any sequence of loads, with any failures, unloads, opens, closes, calls of
`mmap` for whole pages, with any outcomes of `remap_pfn_range`, and unmappings.
Nothing is released that is not held. An unloaded module holds nothing; a loaded
one holds its device number, registrations and buffer, and a device node or
not. The buffer of every mapping is held, and all pages are in it. And a load
that gets to the module succeeds just if `device_create` does not return null
and no other call fails, with a device node just if `device_create` has not
failed. -/
theorem mappings_held (dev : Nat → MyshmDevice) {calls : List MyshmCall}
    (hcalls : ∀ i r remap, MyshmCall.mmap i r remap ∈ calls → r.Pages) :
    let s := run (myshmStep dev) .start calls
    s.kernel.held.stray = [] ∧ (s.loaded = false → s.kernel.held.live = ∅ ∧ s.files = []) ∧
    (s.loaded = true → ∃ node n, s.kernel.deviceBuffer = some n ∧
      s.kernel.held.live = (myshmResources node n).toFinset) ∧
    (∀ f ∈ s.files, ∀ m ∈ f.maps, m.Backed dev s.kernel) ∧
    ∀ o, s.loaded = false → let s' := myshmStep dev s (.load o)
      (s'.loaded = true ↔ o.Loads) ∧
        (o.Loads → (.device s'.kernel.devNumber ∈ s'.kernel.held.live ↔ o.deviceCreate = .ptr)) := by
  intro s
  have hguard : Guarded (myshmStep dev) (fun _ call => ∀ i r remap, call = .mmap i r remap →
    r.Pages) .start calls :=
    .of_forall_mem fun call hmem i r remap e => hcalls i r remap (e ▸ hmem)
  have h : MyshmInv dev s := hguard.run_inv (fun _ _ h hcall => h.step hcall) myshmInv_start
  refine ⟨?_, fun hl => ⟨(h.idle hl).1.live, (h.idle hl).2⟩, fun hl => ?_, h.backed, fun o hl => ?_⟩
  · cases hl : s.loaded with
    | false => exact (h.idle hl).1.stray
    | true =>
      obtain ⟨node, n, hloaded⟩ := h.loaded hl
      exact hloaded.held.stray
  · obtain ⟨node, n, hloaded⟩ := h.loaded hl
    exact ⟨node, n, hloaded.deviceBuffer, hloaded.held.live⟩
  · obtain ⟨-, ⟨ho, hl', hloaded⟩ | ⟨ho, hl', -⟩⟩ := h.load hl o
    · refine ⟨iff_of_true hl' ho, fun _ => ?_⟩
      rw [hloaded.held.live, hloaded.devNumber, List.mem_toFinset, device_mem_myshmResources,
        decide_eq_true_iff]
    · exact ⟨iff_of_false (fun e => Bool.false_ne_true (hl'.symm.trans e)) ho, fun ho' => absurd ho' ho⟩

theorem ptr_ne_null : KernelPtr.ptr ≠ .null := by decide

/-- A load, and a file whose descriptor is closed while a page is mapped. -/
def mapAndClose : List MyshmCall :=
  [.load ⟨0, 0, .ptr, ptr_ne_null, .ptr, true⟩, .openFile, .mmap 0 firstDataPage fun _ => 0,
    .close 0, .unload]

/-- The mapping keeps the module from being unloaded. -/
theorem mappings_held_mapAndClose :
    let s := run (myshmStep fun _ => ⟨0, id⟩) .start mapAndClose
    s.files = [⟨false, [⟨some 0, [⟨0x7000, 0x1000, 0⟩]⟩]⟩] ∧ .buffer 0 ∈ s.kernel.held.live := by
  intro s
  have hfiles : s.files = [⟨false, [⟨some 0, [⟨0x7000, 0x1000, 0⟩]⟩]⟩] := by decide
  have hcalls : ∀ i r remap, MyshmCall.mmap i r remap ∈ mapAndClose → r.Pages := by
    intro i r remap hmem
    simp only [mapAndClose, List.mem_cons, MyshmCall.mmap.injEq, reduceCtorEq, List.not_mem_nil,
      or_false, false_or] at hmem
    rw [hmem.2.1]
    exact firstDataPage_pages
  obtain ⟨n, e, hn, -⟩ :=
    (mappings_held (fun _ => ⟨0, id⟩) hcalls).2.2.2.1 _ (hfiles ▸ List.mem_singleton_self _) _
    (List.mem_singleton_self _)
  obtain rfl := Option.some.inj e
  exact ⟨hfiles, hn⟩

end Ivshmem
