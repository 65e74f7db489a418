import SecureIvshmem.Impl.Device
import SecureIvshmem.Framework.Run

/-!
# The device context over its life

`ivshmem_close_dev` releases what the context names (`closeDev_eq`), which is
held unless a pointer is `MAP_FAILED` (`BarsInv`): an open whose `mmap` fails
closes the descriptor and leaves both handles in the context. An open loses
what the context names and is held (`openDev_loses`), as that of two BARs that
fails at the second leaves the first held. A run is clean just if no close and
no open meets either (`device_clean_iff`).
-/

namespace Ivshmem

open SharedMem

/-! ## What a context names -/

/-- What `munmap` of a pointer releases. -/
def MapPtr.handles : MapPtr → List DeviceHandle
  | .null => []
  | .mapFailed => [.mapFailed]
  | .mapped n => [.map n]

/-- The descriptor and the mapping of a BAR. -/
structure Bar where
  fd : Option Nat
  ptr : MapPtr

def Bar.handles (b : Bar) : List DeviceHandle := b.ptr.handles ++ b.fd.toList.map .fd

namespace DeviceContext

variable (ctx : DeviceContext)

def bar0 : Bar := ⟨ctx.bar0Fd, ctx.pReg⟩

def bar2 : Bar := ⟨ctx.bar2Fd, ctx.pShmem⟩

/-- What `ivshmem_close_dev` releases, in order. -/
def handles : List DeviceHandle := ctx.bar0.handles ++ ctx.bar2.handles

/-- The context with nothing of either BAR. -/
def cleared : DeviceContext := { ctx with bar0Fd := none, pReg := .null, bar2Fd := none, pShmem := .null }

end DeviceContext

/-- `ivshmem_close_dev` releases what the context names, and clears it. -/
theorem closeDev_eq (ctx : DeviceContext) (p : Process) :
    closeDev ctx p = (ctx.cleared, { p with held := p.held.releaseAll ctx.handles }) := by
  obtain ⟨vmId, bar0Fd, pReg, bar2Fd, pShmem, ioFd, epfdsIrq, irqFd, isOpened⟩ := ctx
  cases pReg <;> cases bar0Fd <;> cases pShmem <;> cases bar2Fd <;>
    simp [closeDev, DeviceContext.cleared, DeviceContext.handles, DeviceContext.bar0,
      DeviceContext.bar2, Bar.handles, MapPtr.handles, Process.sysMunmap, Process.sysClose]

/-! ## The invariant -/

/-- A handle that a call before the `n`-th returned, or `MAP_FAILED`. -/
def DeviceHandle.Below (n : Nat) : DeviceHandle → Prop
  | .fd k | .map k => k < n
  | .mapFailed => True

theorem DeviceHandle.Below.mono {n m : Nat} (hnm : n ≤ m) : ∀ {h : DeviceHandle}, h.Below n → h.Below m
  | .fd _, h | .map _, h => Nat.lt_of_lt_of_le h hnm
  | .mapFailed, _ => trivial

/-- The BARs of a context name what is held, but for a BAR whose `mmap`
failed, and nothing twice. -/
structure BarsInv (b b' : Bar) (p : Process) : Prop where
  held : b.ptr ≠ .mapFailed → ∀ h ∈ b.handles, h ∈ p.held.live
  held' : b'.ptr ≠ .mapFailed → ∀ h ∈ b'.handles, h ∈ p.held.live
  distinct : ∀ h ∈ b.handles, h ∈ b'.handles → h = .mapFailed
  below : ∀ h ∈ b.handles, h.Below p.next
  below' : ∀ h ∈ b'.handles, h.Below p.next
  live : ∀ h ∈ p.held.live, h.Below p.next ∧ h ≠ .mapFailed

theorem BarsInv.symm {b b' : Bar} {p : Process} (h : BarsInv b b' p) : BarsInv b' b p :=
  ⟨h.held', h.held, fun x hx hx' => h.distinct x hx' hx, h.below', h.below, h.live⟩

/-- The BAR and the process after the `open` and the `mmap` of a BAR, and
whether both succeed. -/
inductive BarOpened (p : Process) (b : Bar) : Bar → Process → Bool → Prop
  | openFailed : BarOpened p b ⟨none, b.ptr⟩ p false
  | mmapFailed : BarOpened p b ⟨some p.next, .mapFailed⟩
      ⟨p.next + 1, (p.held.acquire (.fd p.next)).release (.fd p.next)⟩ false
  | mapped : BarOpened p b ⟨some p.next, .mapped (p.next + 1)⟩
      ⟨p.next + 2, (p.held.acquire (.fd p.next)).acquire (.map (p.next + 1))⟩ true

/-- Opening a BAR keeps the invariant and releases nothing that is not held,
whatever the BAR was. -/
theorem BarsInv.opened {b b' c : Bar} {p p' : Process} {ok : Bool} (h : BarsInv b c p)
    (ho : BarOpened p b b' p' ok) :
    BarsInv b' c p' ∧ p'.held.stray = p.held.stray := by
  have hfd : .fd p.next ∉ p.held.live := fun hmem => Nat.lt_irrefl _ (h.live _ hmem).1
  have hfdc : .fd p.next ∉ c.handles := fun hmem => Nat.lt_irrefl _ (h.below' _ hmem)
  have hmapc : .map (p.next + 1) ∉ c.handles :=
    fun hmem => absurd (h.below' _ hmem) (Nat.not_lt.mpr (Nat.le_succ _))
  cases ho with
  | openFailed =>
    have hsub : ∀ x ∈ (⟨none, b.ptr⟩ : Bar).handles, x ∈ b.handles := fun x hx => by
      simp only [Bar.handles, Option.toList_none, List.map_nil, List.append_nil] at hx
      exact List.mem_append_left _ hx
    exact ⟨
      { held := fun hp x hx => h.held hp x (hsub x hx)
        held' := h.held'
        distinct := fun x hx => h.distinct x (hsub x hx)
        below := fun x hx => h.below x (hsub x hx)
        below' := h.below'
        live := h.live }, rfl⟩
  | mmapFailed =>
    rw [Ledger.release_acquire hfd]
    have hmem : ∀ x ∈ (⟨some p.next, .mapFailed⟩ : Bar).handles, x = .mapFailed ∨
      x = .fd p.next := fun x hx => by
      simpa [Bar.handles, MapPtr.handles] using hx
    refine ⟨
      { held := fun hp => absurd rfl hp
        held' := h.held'
        distinct := fun x hx hxc => (hmem x hx).resolve_right fun e => hfdc (e ▸ hxc)
        below := fun x hx => ?_
        below' := fun x hx => (h.below' x hx).mono (Nat.le_succ _)
        live := fun x hx => ⟨(h.live x hx).1.mono (Nat.le_succ _), (h.live x hx).2⟩ }, rfl⟩
    obtain rfl | rfl := hmem x hx
    · trivial
    · exact Nat.lt_succ_self _
  | mapped =>
    have hmem : ∀ x ∈ (⟨some p.next, .mapped (p.next + 1)⟩ : Bar).handles, x = .map (p.next + 1) ∨
      x = .fd p.next :=
      fun x hx => by simpa [Bar.handles, MapPtr.handles] using hx
    have hle : p.next ≤ p.next + 2 := Nat.le_add_right _ _
    refine ⟨
      { held := fun _ x hx => ?_
        held' := fun hp x hx => ?_
        distinct := fun x hx hxc => ?_
        below := fun x hx => ?_
        below' := fun x hx => (h.below' x hx).mono hle
        live := fun x hx => ?_ }, rfl⟩
    · simp only [Ledger.acquire_live, Finset.mem_insert]
      exact (hmem x hx).imp_right .inl
    · simp only [Ledger.acquire_live, Finset.mem_insert]
      exact .inr (.inr (h.held' hp x hx))
    · obtain rfl | rfl := hmem x hx
      · exact absurd hxc hmapc
      · exact absurd hxc hfdc
    · obtain rfl | rfl := hmem x hx
      · exact Nat.lt_succ_self _
      · exact Nat.lt_succ_of_lt (Nat.lt_succ_self _)
    · simp only [Ledger.acquire_live, Finset.mem_insert] at hx
      obtain rfl | rfl | hx := hx
      · exact ⟨Nat.lt_succ_self _, fun e => by cases e⟩
      · exact ⟨Nat.lt_succ_of_lt (Nat.lt_succ_self _), fun e => by cases e⟩
      · exact ⟨(h.live x hx).1.mono hle, (h.live x hx).2⟩

section

variable {b b' : Bar} {p p' : Process} {ok : Bool} (ho : BarOpened p b b' p' ok)
include ho

theorem BarOpened.next_le : p.next ≤ p'.next := by
  cases ho with
  | openFailed => exact Nat.le_refl _
  | mmapFailed => exact Nat.le_succ _
  | mapped => exact Nat.le_add_right _ _

/-- A BAR that opens adds its handles to what is held, and one that does not
adds nothing. -/
theorem BarOpened.live (hlive : ∀ h ∈ p.held.live, h.Below p.next) :
    p'.held.live = p.held.live ∪ if ok then b'.handles.toFinset else ∅ := by
  cases ho with
  | openFailed => exact (Finset.union_empty _).symm
  | mmapFailed =>
    have hfd : .fd p.next ∉ p.held.live := fun hmem => Nat.lt_irrefl _ (hlive _ hmem)
    rw [Ledger.release_acquire hfd]
    exact (Finset.union_empty _).symm
  | mapped =>
    ext x
    simp only [Ledger.acquire_live, Bar.handles, MapPtr.handles, ↓reduceIte, Finset.mem_insert,
      Finset.mem_union, List.mem_toFinset, List.mem_append, List.mem_singleton, Option.toList_some,
        List.map_cons, List.map_nil]
    tauto

/-- A BAR that opens names its descriptor. -/
theorem BarOpened.fd (hok : ok = true) : ∃ n, b'.fd = some n ∧ .fd n ∈ b'.handles := by
  cases ho with
  | openFailed => cases hok
  | mmapFailed => cases hok
  | mapped => exact ⟨_, rfl, by simp [Bar.handles]⟩

/-- Whether it opens or not, a BAR no longer names a descriptor from before. -/
theorem BarOpened.fd_notMem {n : Nat} (hn : n < p.next) : .fd n ∉ b'.handles := by
  have hptr : ∀ ptr : MapPtr, .fd n ∉ ptr.handles := fun ptr => by cases ptr <;> simp [MapPtr.handles]
  cases ho with
  | openFailed => simpa [Bar.handles] using hptr b.ptr
  | mmapFailed => simpa [Bar.handles, MapPtr.handles] using Nat.ne_of_lt hn
  | mapped => simpa [Bar.handles, MapPtr.handles] using Nat.ne_of_lt hn

end

/-! ## Opening -/

/-- The context with its second BAR changed. -/
def DeviceContext.setBar2 (ctx : DeviceContext) (b : Bar) : DeviceContext :=
  { ctx with bar2Fd := b.fd, pShmem := b.ptr }

/-- The context with its first BAR changed. -/
def DeviceContext.setBar0 (ctx : DeviceContext) (b : Bar) : DeviceContext :=
  { ctx with bar0Fd := b.fd, pReg := b.ptr }

theorem openBar2_cases (o : OpenOutcome) (ctx : DeviceContext) (p : Process) :
    ∃ b p' ok, BarOpened p ctx.bar2 b p' ok ∧
    openBar2 o ctx p = (if ok then 0 else -1, ctx.setBar2 b, p') := by
  simp only [openBar2, Process.sysOpen, Process.sysMmap]
  cases o.open2 with
  | false => exact ⟨_, _, _, .openFailed, rfl⟩
  | true =>
    cases o.mmap2 with
    | false => exact ⟨_, _, _, .mmapFailed, rfl⟩
    | true => exact ⟨_, _, _, .mapped, rfl⟩

/-- `ivshmem_open_dev` of two BARs fails at the first one, or goes on to the
second. -/
theorem openDev_qemu_cases (o : OpenOutcome) (ctx : DeviceContext) (p : Process) :
    ∃ b p' ok, BarOpened p ctx.bar0 b p' ok ∧ openDev .qemu o ctx p =
      if ok then openBar2 o (ctx.setBar0 b) p' else (-1, ctx.setBar0 b, p') := by
  simp only [openDev, Process.sysOpen, Process.sysMmap]
  cases o.open0 with
  | false => exact ⟨_, _, _, .openFailed, rfl⟩
  | true =>
    cases o.mmap0 with
    | false => exact ⟨_, _, _, .mmapFailed, rfl⟩
    | true => exact ⟨_, _, _, .mapped, rfl⟩

/-- The descriptors that no call touches. -/
structure SameOthers (ctx ctx' : DeviceContext) : Prop where
  ioFd : ctx'.ioFd = ctx.ioFd
  epfdsIrq : ctx'.epfdsIrq = ctx.epfdsIrq
  irqFd : ctx'.irqFd = ctx.irqFd

theorem BarsInv.cleared {b b' : Bar} {p : Process} (h : BarsInv b b' p) : BarsInv ⟨none, .null⟩ b' p where
  held _ _ hx := absurd hx List.not_mem_nil
  held' := h.held'
  distinct _ hx := absurd hx List.not_mem_nil
  below _ hx := absurd hx List.not_mem_nil
  below' := h.below'
  live := h.live

theorem openBar2_inv (o : OpenOutcome) {ctx : DeviceContext} {p : Process}
    (h : BarsInv ctx.bar0 ctx.bar2 p) :
    let r := openBar2 o ctx p
    BarsInv r.2.1.bar0 r.2.1.bar2 r.2.2 ∧ r.2.2.held.stray = p.held.stray ∧ SameOthers ctx r.2.1 := by
  obtain ⟨b, p', ok, ho, e⟩ := openBar2_cases o ctx p
  obtain ⟨hinv, hstray⟩ := h.symm.opened ho
  rw [e]
  exact ⟨hinv.symm, hstray, rfl, rfl, rfl⟩

/-- `ivshmem_open_dev` keeps the invariant, and releases nothing that is not
held. -/
theorem openDev_inv (build : DeviceBuild) (o : OpenOutcome) {ctx : DeviceContext} {p : Process}
    (h : BarsInv ctx.bar0 ctx.bar2 p) :
    let r := openDev build o ctx p
    BarsInv r.2.1.bar0 r.2.1.bar2 r.2.2 ∧ r.2.2.held.stray = p.held.stray ∧ SameOthers ctx r.2.1 := by
  cases build with
  | shm =>
    have hbars : BarsInv (ctx.setBar0 ⟨none, .null⟩).bar0 (ctx.setBar0 ⟨none, .null⟩).bar2 p := h.cleared
    obtain ⟨hinv, hstray, hsame⟩ := openBar2_inv o hbars
    exact ⟨hinv, hstray, hsame.ioFd, hsame.epfdsIrq, hsame.irqFd⟩
  | qemu =>
    obtain ⟨b, p', ok, ho, e⟩ := openDev_qemu_cases o ctx p
    obtain ⟨hinv, hstray⟩ := h.opened ho
    rw [e]
    cases ok with
    | false => exact ⟨hinv, hstray, rfl, rfl, rfl⟩
    | true =>
      have hbars : BarsInv (ctx.setBar0 b).bar0 (ctx.setBar0 b).bar2 p' := hinv
      obtain ⟨hinv', hstray', hsame⟩ := openBar2_inv o hbars
      exact ⟨hinv', hstray'.trans hstray, hsame.ioFd, hsame.epfdsIrq, hsame.irqFd⟩

/-! ## What an open loses -/

/-- The BAR that an open starts with. -/
def DeviceContext.firstBar (build : DeviceBuild) (ctx : DeviceContext) : Bar :=
  match build with
  | .shm => ctx.bar2
  | .qemu => ctx.bar0

/-- A context names all that is held, and if that is anything the descriptor
of its first BAR. -/
structure Named (build : DeviceBuild) (ctx : DeviceContext) (p : Process) : Prop where
  live : ∀ h ∈ p.held.live, h ∈ ctx.handles
  first : p.held.live.Nonempty → ∃ n, (ctx.firstBar build).fd = some n ∧ .fd n ∈ p.held.live

theorem Named.of_empty {build : DeviceBuild} {ctx : DeviceContext} {p : Process} (h : p.held.live = ∅) :
    Named build ctx p where
  live x hx := absurd (h ▸ hx) (Finset.notMem_empty x)
  first hne := absurd h hne.ne_empty

section

variable (o : OpenOutcome) {ctx : DeviceContext} {p : Process} (h : BarsInv ctx.bar0 ctx.bar2 p)
include h

/-- An open that finds nothing held leaves nothing held that the context does
not name. -/
theorem openDev_named (build : DeviceBuild) (hp : p.held.live = ∅) :
    Named build (openDev build o ctx p).2.1 (openDev build o ctx p).2.2 := by
  cases build with
  | shm =>
    obtain ⟨b, p', ok, ho, e⟩ := openBar2_cases o (ctx.setBar0 ⟨none, .null⟩) p
    have hlive := ho.live fun x hx => (h.live x hx).1
    have e' : openDev .shm o ctx p = openBar2 o (ctx.setBar0 ⟨none, .null⟩) p := rfl
    rw [e', e]
    rw [hp, Finset.empty_union] at hlive
    cases ok with
    | false => exact .of_empty hlive
    | true =>
      obtain ⟨n, hn, hmem⟩ := ho.fd rfl
      simp only [↓reduceIte] at hlive
      refine ⟨fun x hx => List.mem_append_right _ ?_, fun _ => ⟨n, hn, ?_⟩⟩
      · rw [hlive, List.mem_toFinset] at hx
        exact hx
      · rw [hlive, List.mem_toFinset]
        exact hmem
  | qemu =>
    obtain ⟨b, p', ok, ho, e⟩ := openDev_qemu_cases o ctx p
    have hlive := ho.live fun x hx => (h.live x hx).1
    rw [e]
    rw [hp, Finset.empty_union] at hlive
    cases ok with
    | false => exact .of_empty hlive
    | true =>
      obtain ⟨n, hn, hmem⟩ := ho.fd rfl
      simp only [↓reduceIte] at hlive ⊢
      obtain ⟨b₂, p₂, ok₂, ho₂, e₂⟩ := openBar2_cases o (ctx.setBar0 b) p'
      have hlive₂ := ho₂.live fun x hx => ((h.opened ho).1.live x hx).1
      rw [e₂]
      rw [hlive] at hlive₂
      refine ⟨fun x hx => ?_, fun _ => ⟨n, hn, ?_⟩⟩
      · rw [hlive₂, Finset.mem_union, List.mem_toFinset] at hx
        refine List.mem_append.mpr (hx.imp_right fun hx => ?_)
        cases ok₂ with
        | false => exact absurd hx (Finset.notMem_empty x)
        | true => exact List.mem_toFinset.mp hx
      · rw [hlive₂]
        exact Finset.mem_union_left _ (List.mem_toFinset.mpr hmem)

/-- An open loses the descriptor of its first BAR, where that is held. -/
theorem openDev_loses (build : DeviceBuild) {n : Nat} (hn : (ctx.firstBar build).fd = some n)
    (hmem : .fd n ∈ p.held.live) :
    .fd n ∈ (openDev build o ctx p).2.2.held.live ∧ .fd n ∉ (openDev build o ctx p).2.1.handles := by
  have hbelow : n < p.next := (h.live _ hmem).1
  cases build with
  | shm =>
    obtain ⟨b, p', ok, ho, e⟩ := openBar2_cases o (ctx.setBar0 ⟨none, .null⟩) p
    have e' : openDev .shm o ctx p = openBar2 o (ctx.setBar0 ⟨none, .null⟩) p := rfl
    rw [e', e]
    refine ⟨?_, fun hx => (List.mem_append.mp hx).elim List.not_mem_nil (ho.fd_notMem hbelow)⟩
    rw [ho.live fun x hx => (h.live x hx).1]
    exact Finset.mem_union_left _ hmem
  | qemu =>
    obtain ⟨b, p', ok, ho, e⟩ := openDev_qemu_cases o ctx p
    have hmem' : .fd n ∈ p'.held.live := by
      rw [ho.live fun x hx => (h.live x hx).1]
      exact Finset.mem_union_left _ hmem
    rw [e]
    cases ok with
    | false =>
      refine ⟨hmem', fun hx => (List.mem_append.mp hx).elim (ho.fd_notMem hbelow) fun hx => ?_⟩
      have hfirst : .fd n ∈ ctx.bar0.handles :=
        List.mem_append_right _ (List.mem_map.mpr ⟨n, Option.mem_toList.mpr hn, rfl⟩)
      cases h.distinct _ hfirst hx
    | true =>
      simp only [↓reduceIte]
      obtain ⟨b₂, p₂, ok₂, ho₂, e₂⟩ := openBar2_cases o (ctx.setBar0 b) p'
      rw [e₂]
      refine ⟨?_, fun hx => (List.mem_append.mp hx).elim (ho.fd_notMem hbelow)
        (ho₂.fd_notMem (Nat.lt_of_lt_of_le hbelow ho.next_le))⟩
      rw [ho₂.live fun x hx => ((h.opened ho).1.live x hx).1]
      exact Finset.mem_union_left _ hmem'

end

/-! ## Closing -/

/-- What a context names is distinct and held just if no pointer is
`MAP_FAILED`. -/
theorem BarsInv.handles_iff {ctx : DeviceContext} {p : Process} (h : BarsInv ctx.bar0 ctx.bar2 p) :
    (ctx.handles.Nodup ∧ ∀ x ∈ ctx.handles, x ∈ p.held.live) ↔ ctx.pReg ≠ .mapFailed ∧
    ctx.pShmem ≠ .mapFailed := by
  have hnot : .mapFailed ∉ p.held.live := fun hmem => (h.live _ hmem).2 rfl
  constructor
  · rintro ⟨-, hall⟩
    refine ⟨fun e => hnot (hall _ ?_), fun e => hnot (hall _ ?_)⟩
    · simp [DeviceContext.handles, Bar.handles, DeviceContext.bar0, e, MapPtr.handles]
    · simp [DeviceContext.handles, Bar.handles, DeviceContext.bar2, e, MapPtr.handles]
  · rintro ⟨hreg, hshmem⟩
    have hlive : ∀ x ∈ ctx.handles, x ∈ p.held.live := fun x hx =>
      (List.mem_append.mp hx).elim (h.held hreg x) (h.held' hshmem x)
    refine ⟨?_, hlive⟩
    have hnodup : ∀ b : Bar, b.handles.Nodup := fun b => by
      obtain ⟨fd, ptr⟩ := b
      cases fd <;> cases ptr <;> simp [Bar.handles, MapPtr.handles]
    refine List.Nodup.append (hnodup _) (hnodup _) fun x hx hx' => ?_
    exact hnot (h.distinct x hx hx' ▸ h.held hreg x hx)

/-! ## Every run -/

/-- The invariant of a context; the descriptors that no call touches are
-1. -/
structure DeviceInv (s : Device) : Prop where
  bars : BarsInv s.ctx.bar0 s.ctx.bar2 s.proc
  others : SameOthers initDevCtx s.ctx

/-- Bars that name nothing. -/
theorem BarsInv.of_null {p : Process} (h : ∀ x ∈ p.held.live, x.Below p.next ∧ x ≠ .mapFailed) :
    BarsInv ⟨none, .null⟩ ⟨none, .null⟩ p where
  held _ _ hx := absurd hx List.not_mem_nil
  held' _ _ hx := absurd hx List.not_mem_nil
  distinct _ hx := absurd hx List.not_mem_nil
  below _ hx := absurd hx List.not_mem_nil
  below' _ hx := absurd hx List.not_mem_nil
  live := h

theorem deviceInv_start : DeviceInv .start where
  bars := .of_null fun _ hx => absurd hx (Finset.notMem_empty _)
  others := ⟨rfl, rfl, rfl⟩

theorem DeviceInv.step {s : Device} (h : DeviceInv s) (build : DeviceBuild) (call : DeviceCall) :
    DeviceInv (deviceStep build s call) := by
  cases call with
  | openDev o =>
    obtain ⟨hinv, -, hsame⟩ := openDev_inv build o h.bars
    exact ⟨hinv, hsame.ioFd.trans h.others.ioFd, hsame.epfdsIrq.trans h.others.epfdsIrq,
      hsame.irqFd.trans h.others.irqFd⟩
  | closeDev =>
    simp only [deviceStep, closeDev_eq]
    refine ⟨.of_null fun x hx => ?_, h.others.ioFd, h.others.epfdsIrq, h.others.irqFd⟩
    rw [Ledger.releaseAll_live] at hx
    exact h.bars.live x (Finset.mem_sdiff.mp hx).1

/-- Descriptors are -1 and pointers to mappings null. -/
structure DeviceContext.Closed (ctx : DeviceContext) : Prop where
  bar0Fd : ctx.bar0Fd = none
  bar2Fd : ctx.bar2Fd = none
  others : SameOthers initDevCtx ctx
  pReg : ctx.pReg = .null
  pShmem : ctx.pShmem = .null

/-- A call releases only what is held, a close leaves the context closed and
nothing held, and nothing would be held after a close that follows the
call. -/
def CallClean (build : DeviceBuild) (s : Device) (call : DeviceCall) : Prop :=
  let s' := deviceStep build s call
  s'.proc.held.stray = s.proc.held.stray ∧ (call = .closeDev → s'.ctx.Closed ∧ s'.proc.held.live = ∅) ∧
    (deviceStep build s' .closeDev).proc.held.live = ∅

/-- An open finds nothing held, and a close no `MAP_FAILED` in the context. -/
def FindsSound (s : Device) (call : DeviceCall) : Prop :=
  (call ≠ .closeDev → s.proc.held.live = ∅) ∧
    (call = .closeDev → s.ctx.pReg ≠ .mapFailed ∧ s.ctx.pShmem ≠ .mapFailed)

/-- A close leaves held what the context does not name. -/
theorem closeDev_live (build : DeviceBuild) (s : Device) :
    (deviceStep build s .closeDev).proc.held.live = s.proc.held.live \ s.ctx.handles.toFinset := by
  simp only [deviceStep, closeDev_eq, Ledger.releaseAll_live]

theorem closeDev_live_eq_empty (build : DeviceBuild) (s : Device) :
    (deviceStep build s .closeDev).proc.held.live = ∅ ↔ ∀ x ∈ s.proc.held.live, x ∈ s.ctx.handles := by
  rw [closeDev_live, Finset.sdiff_eq_empty_iff_subset]
  exact forall₂_congr fun _ _ => List.mem_toFinset

section

variable {build : DeviceBuild} {s : Device} (h : DeviceInv s) (hnamed : Named build s.ctx s.proc)
include h hnamed

/-- An open is clean just if nothing is held. -/
theorem DeviceInv.openClean_iff (o : OpenOutcome) :
    CallClean build s (.openDev o) ↔ s.proc.held.live = ∅ := by
  constructor
  · rintro ⟨-, -, hclose⟩
    by_contra hne
    obtain ⟨n, hn, hmem⟩ := hnamed.first (Finset.nonempty_iff_ne_empty.mpr hne)
    obtain ⟨hlive, hnot⟩ := openDev_loses o h.bars build hn hmem
    exact hnot ((closeDev_live_eq_empty build _).mp hclose _ hlive)
  · intro hp
    have hopen : DeviceCall.openDev o ≠ .closeDev := fun e => by cases e
    exact ⟨(openDev_inv build o h.bars).2.1, fun e => absurd e hopen,
      (closeDev_live_eq_empty build _).mpr (openDev_named o h.bars build hp).live⟩

/-- A close is clean just if no pointer is `MAP_FAILED`. -/
theorem DeviceInv.closeClean_iff :
    CallClean build s .closeDev ↔ s.ctx.pReg ≠ .mapFailed ∧ s.ctx.pShmem ≠ .mapFailed := by
  have hclosed : (deviceStep build s .closeDev).ctx.Closed := by
    simp only [deviceStep, closeDev_eq]
    exact ⟨rfl, rfl, ⟨h.others.ioFd, h.others.epfdsIrq, h.others.irqFd⟩, rfl, rfl⟩
  have hempty : (deviceStep build s .closeDev).proc.held.live = ∅ :=
    (closeDev_live_eq_empty build s).mpr hnamed.live
  have hagain : (deviceStep build (deviceStep build s .closeDev) .closeDev).proc.held.live = ∅ := by
    rw [closeDev_live, hempty, Finset.empty_sdiff]
  have hstray : (deviceStep build s .closeDev).proc.held.stray = s.proc.held.stray ↔
      s.ctx.pReg ≠ .mapFailed ∧ s.ctx.pShmem ≠ .mapFailed := by
    simp only [deviceStep, closeDev_eq, Ledger.releaseAll_stray, h.bars.handles_iff]
  exact ⟨fun hclean => hstray.mp hclean.1,
    fun hptr => ⟨hstray.mpr hptr, fun _ => ⟨hclosed, hempty⟩, hagain⟩⟩

theorem DeviceInv.callClean_iff (call : DeviceCall) : CallClean build s call ↔ FindsSound s call := by
  cases call with
  | openDev o =>
    rw [h.openClean_iff hnamed o]
    exact ⟨fun hp => ⟨fun _ => hp, fun e => by cases e⟩, fun hs => hs.1 fun e => by cases e⟩
  | closeDev =>
    rw [h.closeClean_iff hnamed]
    exact ⟨fun hptr => ⟨fun hne => absurd rfl hne, fun _ => hptr⟩, fun hs => hs.2 rfl⟩

/-- A clean call leaves nothing held that the context does not name. -/
theorem Named.step {call : DeviceCall} (hclean : CallClean build s call) :
    Named build (deviceStep build s call).ctx (deviceStep build s call).proc := by
  cases call with
  | openDev o => exact openDev_named o h.bars build ((h.openClean_iff hnamed o).mp hclean)
  | closeDev => exact .of_empty (hclean.2.1 rfl).2

end

/-- In every run of either build: all calls release only what is held, all
closes leave the context closed and nothing held, and so would a close after
any call, just if no open finds anything held and no close finds `MAP_FAILED`
in the context. -/
theorem device_clean_iff (build : DeviceBuild) (calls : List DeviceCall) :
    Guarded (deviceStep build) (CallClean build) .start calls ↔
      Guarded (deviceStep build) FindsSound .start calls :=
  guarded_congr (I := fun s => DeviceInv s ∧ Named build s.ctx s.proc)
    (fun _ call h => h.1.callClean_iff h.2 call)
    (fun _ call h hclean => ⟨h.1.step build call, h.2.step h.1 hclean⟩)
    ⟨deviceInv_start, .of_empty rfl⟩

/-- An open is made on a context that is closed or whose last open failed. -/
def OpensClosed (s : Device) (call : DeviceCall) : Prop := call ≠ .closeDev → s.status ≠ .opened

instance (s : Device) (call : DeviceCall) : Decidable (OpensClosed s call) :=
  inferInstanceAs (Decidable (_ → _))

/-- An open whose `mmap` of the one BAR fails, and a close: the descriptor is
closed twice, and `MAP_FAILED` is unmapped. -/
theorem not_device_clean :
    let calls := [.openDev ⟨true, true, true, false⟩, .closeDev]
    Guarded (deviceStep .shm) OpensClosed .start calls ∧
      (run (deviceStep .shm) .start calls).proc.held.stray = [.mapFailed, .fd 0] ∧
      ¬ Guarded (deviceStep .shm) (CallClean .shm) .start calls := by
  intro calls
  have hstray :
      (deviceStep .shm (deviceStep .shm .start (.openDev ⟨true, true, true, false⟩))
        .closeDev).proc.held.stray ≠
      (deviceStep .shm .start (.openDev ⟨true, true, true, false⟩)).proc.held.stray := by decide
  exact ⟨by decide, by decide, fun h => hstray h.2.1.1⟩

/-- An open of two BARs that fails at the second, one that succeeds, and a
close: the descriptor and the mapping of the first open are held for good. -/
example :
    (run (deviceStep .qemu) .start [.openDev ⟨true, true, false, true⟩, .openDev ⟨true, true, true, true⟩,
      .closeDev]).proc.held.live = {.fd 0, .map 1} := by decide

end Ivshmem
