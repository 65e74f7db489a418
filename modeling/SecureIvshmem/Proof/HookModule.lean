import SecureIvshmem.Framework.Run
import SecureIvshmem.Impl.HookModule

/-!
# Loads of the hook that fail

`__ivshmem_uio_hook_exit` tears down a context that is complete
(`hookExit_eq`), but a load also runs it on one without `ops` and `lock`,
which are uninitialised until both are there, and on one whose filter or
`ftrace_ops` is not registered. A load is clean just if it succeeds or fails
before the context exists (`loadClean_iff`).
-/

namespace Ivshmem

open SharedMem

/-- A handle of an acquisition before the `n`-th. -/
def HookHandle.Below (n : Nat) : HookHandle → Prop
  | .mem k | .kprobe k | .filter k | .ftrace k => k < n

theorem HookHandle.Below.mono {n m : Nat} (hnm : n ≤ m) : ∀ {h : HookHandle}, h.Below n → h.Below m
  | .mem _, h | .kprobe _, h | .filter _, h | .ftrace _, h => Nat.lt_of_lt_of_le h hnm

/-- What a loaded hook has acquired, in the order in which
`__ivshmem_uio_hook_exit` releases it. -/
def hookResources (ctx kprobe ops lock spin : Nat) : List HookHandle :=
  [.kprobe kprobe, .ftrace ops, .filter ops, .mem spin, .mem lock, .mem ops, .mem ctx]

/-- A context whose fields are set, and `kp` registered. -/
structure HookCtx.Complete (ctx : HookCtx) (k : HookKernel) (kprobe ops lock spin : Nat) : Prop where
  kp : k.kp = some kprobe
  ops : ctx.ops = some ops
  targetAddr : ctx.targetAddr.isSome = true
  lock : ctx.lock = some ⟨lock, some false, some (some spin)⟩

/-- The teardown of a complete context. -/
theorem hookExit_eq {ctx : HookCtx} {k : HookKernel} {kprobe ops lock spin : Nat}
    (h : ctx.Complete k kprobe ops lock spin) : hookExit (some ctx) k =
      .ok { k with kp := none,
                   held := k.held.releaseAll (hookResources ctx.addr kprobe ops lock spin) } := by
  obtain ⟨a, ha⟩ := Option.isSome_iff_exists.mp h.targetAddr
  simp only [hookExit, HookKernel.unregisterKprobe, h.kp, h.ops, h.lock, ha, readField, lockDestroy,
    opsDestroy, ctxDestroy,
    HookKernel.ptrFree, HookKernel.release, hookResources, Ledger.releaseAll_cons,
    Ledger.releaseAll_nil, bind, Except.bind, pure, Except.pure]

/-! ## Loads -/

/-- The hook is in place, with all that it needs. -/
structure HookInstalled (k : HookKernel) (ctx : HookCtx) (kprobe ops lock spin : Nat) : Prop where
  gCtx : k.gCtx = some ctx
  complete : ctx.Complete k kprobe ops lock spin
  nodup : (hookResources ctx.addr kprobe ops lock spin).Nodup
  live : ∀ h ∈ hookResources ctx.addr kprobe ops lock spin, h ∈ k.held.live

/-- A load is defined and releases only what it holds. It returns 0 with the
hook in place, or a negative code with nothing acquired and `g_ctx` null. -/
def LoadClean (o : LoadOutcome) (k : HookKernel) : Prop :=
  ∃ ret k', uioHookInit o k = .ok (ret, k') ∧ k'.held.stray = k.held.stray ∧
    ((ret = 0 ∧ ∃ ctx kprobe ops lock spin, HookInstalled k' ctx kprobe ops lock spin ∧
        k'.held.live = k.held.live ∪ (hookResources ctx.addr kprobe ops lock spin).toFinset) ∨
      (ret < 0 ∧ k'.held.live = k.held.live ∧ k'.gCtx = none))

/-- A load succeeds, or fails before the context exists. -/
def LoadOutcome.WholeOrEarly (o : LoadOutcome) : Prop :=
  o.kmallocCtx = false ∨ o.registerKprobe < 0 ∨
    (o.kpAddr ≠ 0 ∧ o.kmallocOps = true ∧ o.kmallocLock = true ∧ o.kmallocSpin = true ∧
      ¬ o.setFilterIp < 0 ∧ ¬ o.registerFtrace < 0)

section

variable {o : LoadOutcome} {k : HookKernel} (hg : k.gCtx = none)
  (hbelow : ∀ h ∈ k.held.live, h.Below k.next)

/-- What `__ivshmem_ctx_create` returns if it succeeds, and the kernel after
it. -/
theorem ctxCreate_eq (hctx : o.kmallocCtx = true) (hkp : ¬ o.registerKprobe < 0) (haddr : o.kpAddr ≠ 0) :
    ctxCreate o k = (some ⟨k.next, some o.kpAddr, some 0x1000, none, none⟩,
      { k with
        next := k.next + 2
        held := k.held.acquireAll [.mem k.next, .kprobe (k.next + 1)]
        kp := some (k.next + 1) }) := by
  simp only [ctxCreate, HookKernel.kmalloc, hctx, ↓reduceIte, hkp, haddr]
  rfl

/-- The context that a load of `o` has built when it sets the filter. -/
def builtCtx (o : LoadOutcome) (k : HookKernel) : HookCtx :=
  ⟨k.next, some o.kpAddr, some 0x1000, some (k.next + 2),
    some ⟨k.next + 3, some false, some (some (k.next + 4))⟩⟩

/-- The kernel by then. -/
def builtKernel (k : HookKernel) : HookKernel :=
  { k with
    next := k.next + 5
    held := k.held.acquireAll
      [.mem k.next, .kprobe (k.next + 1), .mem (k.next + 2), .mem (k.next + 3), .mem (k.next + 4)]
    kp := some (k.next + 1) }

theorem builtCtx_complete (held : Ledger HookHandle) :
    (builtCtx o k).Complete { builtKernel k with held := held }
    (k.next + 1) (k.next + 2) (k.next + 3) (k.next + 4) :=
  ⟨rfl, rfl, rfl, rfl⟩

include hg

/-- A load whose `kmalloc` and `register_kprobe` all succeed. -/
theorem uioHookInit_built (hctx : o.kmallocCtx = true) (hkp : ¬ o.registerKprobe < 0)
    (haddr : o.kpAddr ≠ 0) (hops : o.kmallocOps = true) (hlock : o.kmallocLock = true)
    (hspin : o.kmallocSpin = true) :
    uioHookInit o k =
      if o.setFilterIp < 0 then
        do return (o.setFilterIp, ← hookExit (some (builtCtx o k)) (builtKernel k))
      else if o.registerFtrace < 0 then do
        return (o.registerFtrace,
          ← hookExit (some (builtCtx o k)) ((builtKernel k).acquire (.filter (k.next + 2))))
      else .ok (0, { ((builtKernel k).acquire (.filter (k.next + 2))).acquire (.ftrace (k.next + 2)) with
        gCtx := some (builtCtx o k) }) := by
  simp only [uioHookInit, hg, Option.isSome_none, Bool.false_eq_true, ↓reduceIte,
    ctxCreate_eq hctx hkp haddr, opsCreate,
    HookKernel.kmalloc, hops, lockCreate, hlock, hspin, bind, Except.bind, pure, Except.pure,
    HookKernel.acquire, builtKernel, builtCtx, Ledger.acquireAll, List.foldl_cons, List.foldl_nil,
      Nat.add_assoc, Nat.reduceAdd]

/-- A load without `ops`, lock or spin lock tears down a context without
`ops`. -/
theorem uioHookInit_unset (hctx : o.kmallocCtx = true) (hkp : ¬ o.registerKprobe < 0)
    (haddr : o.kpAddr ≠ 0) (h : ¬ (o.kmallocOps = true ∧ o.kmallocLock = true ∧ o.kmallocSpin = true)) :
    uioHookInit o k = .error .uninitialised := by
  simp only [uioHookInit, hg, Option.isSome_none, Bool.false_eq_true, ↓reduceIte,
    ctxCreate_eq hctx hkp haddr, opsCreate, HookKernel.kmalloc, lockCreate, lockDestroy]
  by_cases hops : o.kmallocOps = true
  · by_cases hlock : o.kmallocLock = true
    · have hspin : ¬ o.kmallocSpin = true := fun hspin => h ⟨hops, hlock, hspin⟩
      simp only [hops, hlock, hspin, Bool.false_eq_true, ↓reduceIte, bind, Except.bind, pure,
        Except.pure, readField, hookExit]
    · simp only [hops, hlock, Bool.false_eq_true, ↓reduceIte, bind, Except.bind, readField, hookExit]
  · simp only [hops, Bool.false_eq_true, ↓reduceIte, bind, Except.bind, readField, hookExit]

include hbelow

/-- A load that fails before the context exists leaves what is held as it
was. -/
theorem uioHookInit_early (h : o.kmallocCtx = false ∨ o.registerKprobe < 0) :
    ∃ k', uioHookInit o k = .ok (-enomem, k') ∧ k'.held = k.held ∧ k.next ≤ k'.next ∧ k'.gCtx = none := by
  have hmem : .mem k.next ∉ k.held.live := fun hmem => Nat.lt_irrefl _ (hbelow _ hmem)
  simp only [uioHookInit, hg, Option.isSome_none, Bool.false_eq_true, ↓reduceIte, ctxCreate,
    HookKernel.kmalloc]
  by_cases hctx : o.kmallocCtx = true
  · have hkp : o.registerKprobe < 0 := h.resolve_left (by rw [hctx]; exact Bool.true_eq_false.mp)
    simp only [hctx, hkp, ↓reduceIte, ctxDestroy, HookKernel.ptrFree, HookKernel.release,
      HookKernel.acquire, Ledger.release_acquire hmem]
    exact ⟨_, rfl, rfl, Nat.le_succ _, hg⟩
  · simp only [hctx, Bool.false_eq_true, ↓reduceIte]
    exact ⟨k, rfl, rfl, Nat.le_refl _, hg⟩

/-- A load that finds no address leaves `kp` registered. -/
theorem uioHookInit_noAddr (hctx : o.kmallocCtx = true) (hkp : ¬ o.registerKprobe < 0)
    (haddr : o.kpAddr = 0) :
    ∃ k', uioHookInit o k = .ok (-enomem, k') ∧ k'.held.live ≠ k.held.live := by
  have hnot : .kprobe (k.next + 1) ∉ k.held.live :=
    fun hmem => absurd (hbelow _ hmem) (Nat.not_lt.mpr (Nat.le_succ _))
  simp only [uioHookInit, hg, Option.isSome_none, Bool.false_eq_true, ↓reduceIte, ctxCreate,
    HookKernel.kmalloc, hctx, hkp, haddr, ctxDestroy]
  refine ⟨_, rfl, fun e => hnot (e ▸ ?_)⟩
  simp [HookKernel.ptrFree, HookKernel.release, HookKernel.registerKprobe, HookKernel.acquire,
    Ledger.release_live]

omit hg in
/-- The ledger of a context that is not registered yet does not have its
registration. -/
theorem built_stray {held : Ledger HookHandle}
    (hheld : held.live ⊆ insert (.filter (k.next + 2)) (builtKernel k).held.live) :
    (held.releaseAll
      (hookResources k.next (k.next + 1) (k.next + 2) (k.next + 3) (k.next + 4))).stray ≠ held.stray := by
  rw [ne_eq, Ledger.releaseAll_stray]
  rintro ⟨-, hall⟩
  have hmem := hheld (hall (.ftrace (k.next + 2)) (by simp [hookResources]))
  simp only [builtKernel, Ledger.acquireAll_live, Finset.mem_insert, Finset.mem_union,
    List.mem_toFinset, List.mem_cons, List.not_mem_nil, reduceCtorEq, or_false, false_or] at hmem
  exact absurd (hbelow _ hmem) (Nat.not_lt.mpr (Nat.le_add_right _ _))

/-- A load whose filter or registration is refused tears down what is not
registered. -/
theorem uioHookInit_unregistered (hctx : o.kmallocCtx = true) (hkp : ¬ o.registerKprobe < 0)
    (haddr : o.kpAddr ≠ 0) (hops : o.kmallocOps = true) (hlock : o.kmallocLock = true)
    (hspin : o.kmallocSpin = true) (h : o.setFilterIp < 0 ∨ o.registerFtrace < 0) :
    ∃ ret k', uioHookInit o k = .ok (ret, k') ∧ k'.held.stray ≠ k.held.stray := by
  rw [uioHookInit_built hg hctx hkp haddr hops hlock hspin]
  by_cases hfilter : o.setFilterIp < 0
  · rw [if_pos hfilter, hookExit_eq (builtCtx_complete (builtKernel k).held)]
    refine ⟨_, _, rfl, fun e => built_stray hbelow (Finset.subset_insert _ _) (e.trans ?_)⟩
    exact (Ledger.acquireAll_stray _ _).symm
  · rw [if_neg hfilter, if_pos (h.resolve_left hfilter),
      hookExit_eq (k := (builtKernel k).acquire (.filter (k.next + 2))) (builtCtx_complete _)]
    have hheld : ((builtKernel k).acquire (.filter (k.next + 2))).held.live ⊆
      insert (.filter (k.next + 2)) (builtKernel k).held.live := Finset.Subset.refl _
    refine ⟨_, _, rfl, fun e => built_stray hbelow hheld (e.trans ?_)⟩
    exact (Ledger.acquireAll_stray _ _).symm

omit hbelow in
/-- A load that succeeds. -/
theorem uioHookInit_whole (hctx : o.kmallocCtx = true) (hkp : ¬ o.registerKprobe < 0)
    (haddr : o.kpAddr ≠ 0) (hops : o.kmallocOps = true) (hlock : o.kmallocLock = true)
    (hspin : o.kmallocSpin = true) (hfilter : ¬ o.setFilterIp < 0) (hftrace : ¬ o.registerFtrace < 0) :
    ∃ k', uioHookInit o k = .ok (0, k') ∧ k'.held.stray = k.held.stray ∧ k'.next = k.next + 5 ∧
      HookInstalled k' (builtCtx o k) (k.next + 1) (k.next + 2) (k.next + 3) (k.next + 4) ∧
      k'.held.live = k.held.live ∪
        (hookResources k.next (k.next + 1) (k.next + 2) (k.next + 3) (k.next + 4)).toFinset := by
  have hlive : (k.held.acquireAll [.mem k.next, .kprobe (k.next + 1), .mem (k.next + 2),
      .mem (k.next + 3), .mem (k.next + 4), .filter (k.next + 2), .ftrace (k.next + 2)]).live =
      k.held.live ∪
        (hookResources k.next (k.next + 1) (k.next + 2) (k.next + 3) (k.next + 4)).toFinset := by
    rw [Ledger.acquireAll_live]
    refine congrArg (k.held.live ∪ ·) (Finset.ext fun x => ?_)
    simp only [hookResources, List.mem_toFinset, List.mem_cons, List.not_mem_nil, or_false]
    tauto
  rw [uioHookInit_built hg hctx hkp haddr hops hlock hspin, if_neg hfilter, if_neg hftrace]
  refine ⟨_, rfl, Ledger.acquireAll_stray _ _, rfl, ⟨rfl, ⟨rfl, rfl, rfl, rfl⟩, ?_, fun x hx => ?_⟩,
    hlive⟩
  · simp [hookResources, builtCtx]
  · exact hlive ▸ Finset.mem_union_right _ (List.mem_toFinset.mpr hx)

/-- A load is clean just if it succeeds, or fails before the context
exists. -/
theorem loadClean_iff : LoadClean o k ↔ o.WholeOrEarly := by
  have hneg : (-enomem : Int32) < 0 := by decide
  by_cases hearly : o.kmallocCtx = false ∨ o.registerKprobe < 0
  · obtain ⟨k', e, hheld, -, hg'⟩ := uioHookInit_early hg hbelow hearly
    refine iff_of_true ⟨_, _, e, by rw [hheld], .inr ⟨hneg, by rw [hheld], hg'⟩⟩ ?_
    exact hearly.imp_right .inl
  obtain ⟨hctx, hkp⟩ := not_or.mp hearly
  have hctx : o.kmallocCtx = true := (Bool.not_eq_false _).mp hctx
  have hwhole : o.WholeOrEarly ↔ o.kpAddr ≠ 0 ∧ o.kmallocOps = true ∧ o.kmallocLock = true ∧
    o.kmallocSpin = true ∧
      ¬ o.setFilterIp < 0 ∧ ¬ o.registerFtrace < 0 := by
    simp only [LoadOutcome.WholeOrEarly, hctx, hkp, Bool.true_eq_false, false_or]
  rw [hwhole]
  by_cases haddr : o.kpAddr = 0
  · obtain ⟨k', e, hlive⟩ := uioHookInit_noAddr hg hbelow hctx hkp haddr
    refine iff_of_false ?_ fun h => h.1 haddr
    rintro ⟨ret, k'', e', -, ⟨rfl, -⟩ | ⟨-, hlive', -⟩⟩
    · have hret : (-enomem : Int32) = 0 := congrArg Prod.fst (Except.ok.inj (e.symm.trans e'))
      exact absurd hret (by decide)
    · obtain rfl := congrArg Prod.snd (Except.ok.inj (e.symm.trans e'))
      exact hlive hlive'
  by_cases hset : o.kmallocOps = true ∧ o.kmallocLock = true ∧ o.kmallocSpin = true
  · obtain ⟨hops, hlock, hspin⟩ := hset
    by_cases hreg : o.setFilterIp < 0 ∨ o.registerFtrace < 0
    · obtain ⟨ret, k', e, hstray⟩ :=
        uioHookInit_unregistered hg hbelow hctx hkp haddr hops hlock hspin hreg
      refine iff_of_false ?_ fun ⟨_, _, _, _, hf, hr⟩ => hreg.elim hf hr
      rintro ⟨ret', k'', e', hstray', -⟩
      obtain rfl := congrArg Prod.snd (Except.ok.inj (e.symm.trans e'))
      exact hstray hstray'
    · obtain ⟨hfilter, hftrace⟩ := not_or.mp hreg
      obtain ⟨k', e, hstray, -, hinst, hlive⟩ :=
        uioHookInit_whole hg hctx hkp haddr hops hlock hspin hfilter hftrace
      exact iff_of_true ⟨_, _, e, hstray, .inl ⟨rfl, _, _, _, _, _, hinst, hlive⟩⟩
        ⟨haddr, hops, hlock, hspin, hfilter, hftrace⟩
  · refine iff_of_false ?_ fun ⟨_, hops, hlock, hspin, _⟩ => hset ⟨hops, hlock, hspin⟩
    rintro ⟨ret, k', e, -⟩
    rw [uioHookInit_unset hg hctx hkp haddr hset] at e
    cases e

end

/-- What a load acquires is new. -/
theorem hookResources_below (n : Nat) :
    ∀ h ∈ hookResources n (n + 1) (n + 2) (n + 3) (n + 4), h.Below (n + 5) := by
  simp only [hookResources, List.forall_mem_cons, List.not_mem_nil, false_implies, implies_true, and_true,
    HookHandle.Below]
  omega

/-! ## Every run -/

/-- An unload releases everything that the hook has, once, and nothing
else. -/
def UnloadClean (k : HookKernel) : Prop :=
  ∃ ctx kprobe ops lock spin, HookInstalled k ctx kprobe ops lock spin ∧
    ∃ k', uioHookExit k = .ok k' ∧ k'.held.stray = k.held.stray ∧
      k'.held.live = k.held.live \ (hookResources ctx.addr kprobe ops lock spin).toFinset

/-- A call that gets to the module is clean. -/
def HookCallClean (s : HookModule) (call : HookCall) : Prop :=
  match call with
  | .load o => s.loaded = false → LoadClean o s.kernel.fresh
  | .unload => s.loaded = true → UnloadClean s.kernel

/-- A load that gets to the module succeeds, or fails before the context
exists. -/
def LoadsWholeOrEarly (s : HookModule) (call : HookCall) : Prop :=
  ∀ o, call = .load o → s.loaded = false → o.WholeOrEarly

structure HookModuleInv (s : HookModule) : Prop where
  below : ∀ h ∈ s.kernel.held.live, h.Below s.kernel.next
  loaded : s.loaded = true → ∃ ctx kprobe ops lock spin, HookInstalled s.kernel ctx kprobe ops lock spin

/-- The unload of a hook that is in place. -/
theorem HookInstalled.exit {k : HookKernel} {ctx : HookCtx} {kprobe ops lock spin : Nat}
    (h : HookInstalled k ctx kprobe ops lock spin) : ∃ k', uioHookExit k = .ok k' ∧ k'.next = k.next ∧
      k'.held.stray = k.held.stray ∧
      k'.held.live = k.held.live \ (hookResources ctx.addr kprobe ops lock spin).toFinset := by
  rw [uioHookExit, h.gCtx, hookExit_eq h.complete]
  exact ⟨_, rfl, rfl, (Ledger.releaseAll_stray _ _).mpr ⟨h.nodup, h.live⟩, Ledger.releaseAll_live _ _⟩

theorem HookModuleInv.callClean_iff {s : HookModule} (h : HookModuleInv s) (call : HookCall) :
    HookCallClean s call ↔ LoadsWholeOrEarly s call := by
  cases call with
  | load o =>
    have hload : LoadClean o s.kernel.fresh ↔ o.WholeOrEarly := loadClean_iff rfl h.below
    simp only [HookCallClean, LoadsWholeOrEarly, hload, HookCall.load.injEq, forall_eq']
  | unload =>
    refine iff_of_true (fun hl => ?_) nofun
    obtain ⟨ctx, kprobe, ops, lock, spin, hinst⟩ := h.loaded hl
    obtain ⟨k', e, -, hstray, hlive⟩ := hinst.exit
    exact ⟨ctx, kprobe, ops, lock, spin, hinst, k', e, hstray, hlive⟩

theorem HookModuleInv.step {s : HookModule} (h : HookModuleInv s) {call : HookCall}
    (hc : LoadsWholeOrEarly s call) :
    HookModuleInv (hookStep s call) := by
  cases call with
  | load o =>
    cases hl : s.loaded with
    | true =>
      simp only [hookStep, hl, ↓reduceIte]
      exact h
    | false =>
      have early : o.kmallocCtx = false ∨ o.registerKprobe < 0 →
        HookModuleInv (hookStep s (.load o)) := fun hearly => by
        obtain ⟨k', e, hheld, hnext, -⟩ := uioHookInit_early (k := s.kernel.fresh) rfl h.below hearly
        have hneg : (-enomem : Int32) < 0 := by decide
        simp only [hookStep, hl, Bool.false_eq_true, ↓reduceIte, e, hneg, decide_true, Bool.not_true]
        exact ⟨fun x hx => (h.below x (by rwa [hheld] at hx)).mono hnext, nofun⟩
      obtain hctx | hkp | ⟨haddr, hops, hlock, hspin, hfilter, hftrace⟩ := hc o rfl hl
      · exact early (.inl hctx)
      · exact early (.inr hkp)
      · by_cases hearly : o.kmallocCtx = false ∨ o.registerKprobe < 0
        · exact early hearly
        obtain ⟨hctx, hkp⟩ := not_or.mp hearly
        obtain ⟨k', e, -, hnext, hinst, hlive⟩ :=
          uioHookInit_whole (k := s.kernel.fresh) rfl ((Bool.not_eq_false _).mp hctx)
          hkp haddr hops hlock hspin hfilter hftrace
        simp only [hookStep, hl, Bool.false_eq_true, ↓reduceIte, e]
        refine ⟨fun x hx => ?_, fun _ => ⟨_, _, _, _, _, hinst⟩⟩
        rw [hlive, Finset.mem_union, List.mem_toFinset] at hx
        rw [hnext]
        exact hx.elim (fun hx => (h.below x hx).mono (Nat.le_add_right _ _)) (hookResources_below _ x)
  | unload =>
    cases hl : s.loaded with
    | true =>
      obtain ⟨ctx, kprobe, ops, lock, spin, hinst⟩ := h.loaded hl
      obtain ⟨k', e, hnext, -, hlive⟩ := hinst.exit
      simp only [hookStep, hl, ↓reduceIte, e]
      refine ⟨fun x hx => ?_, nofun⟩
      rw [hlive] at hx
      rw [hnext]
      exact h.below x (Finset.mem_sdiff.mp hx).1
    | false =>
      simp only [hookStep, hl, Bool.false_eq_true, ↓reduceIte]
      exact h

theorem hookModuleInv_start : HookModuleInv .start where
  below := fun _ hx => absurd hx (Finset.notMem_empty _)
  loaded := nofun

/-- In every run: all loads and unloads are clean just if every load succeeds,
or fails before the context exists. -/
theorem hook_clean_iff (calls : List HookCall) :
    Guarded hookStep HookCallClean .start calls ↔ Guarded hookStep LoadsWholeOrEarly .start calls :=
  guarded_congr (I := HookModuleInv) (fun _ call h => h.callClean_iff call)
    (fun _ call h hclean => h.step ((h.callClean_iff call).mp hclean)) hookModuleInv_start

/-- A load whose `register_ftrace_function` fails: it unregisters the
`ftrace_ops` that was not registered. -/
theorem not_hook_clean :
    let o : LoadOutcome := ⟨true, 0, 0x1000, true, true, true, 0, -enomem⟩
    (run hookStep .start [.load o]).kernel.held.stray = [.ftrace 2] ∧
      ¬ Guarded hookStep HookCallClean .start [.load o] := by
  intro o
  refine ⟨by decide, fun ⟨hclean, _⟩ => ?_⟩
  obtain ⟨ret, k', e, hstray, -⟩ := hclean rfl
  have hinit : (uioHookInit o HookModule.start.kernel.fresh).map (fun r => r.2.held.stray) =
    .ok [.ftrace 2] := by rfl
  rw [e] at hinit
  exact List.cons_ne_nil _ _ ((Except.ok.inj hinit).symm.trans hstray)

end Ivshmem
