import SecureIvshmem.Framework.Ledger

/-!
# The device context

`src/ivshmem_lib.c`, in both builds. A descriptor or a mapping is named by the
call of `open` or `mmap` that returned it, so that one that is released twice
is told from a new one with the same number. Whether those calls succeed is an
argument.
-/

namespace Ivshmem

open SharedMem

/-- `IVSHMEM_MAX_IRQ`. -/
abbrev maxIrq : Nat := 8

/-- The builds: `IVSHMEM_RUNNING_OS` 1 maps one BAR, the others two. -/
inductive DeviceBuild where
  | shm
  | qemu
  deriving DecidableEq

/-- What the process can release, by the call that returned it; `MAP_FAILED`
is what an `mmap` that failed returned. -/
inductive DeviceHandle where
  | fd (n : Nat)
  | map (n : Nat)
  | mapFailed
  deriving DecidableEq

/-- A pointer to a mapping. -/
inductive MapPtr where
  | null
  | mapFailed
  | mapped (n : Nat)
  deriving DecidableEq

/-- `struct IvshmemDeviceContext`. A descriptor of `none` is -1. -/
structure DeviceContext where
  vmId : Int32
  bar0Fd : Option Nat
  pReg : MapPtr
  bar2Fd : Option Nat
  pShmem : MapPtr
  ioFd : Option Nat
  epfdsIrq : Fin maxIrq → Option Nat
  irqFd : Fin maxIrq → Option Nat
  isOpened : Bool

/-- `get_vm_id`. -/
def getVmId : Int32 := 1

/-- `ivshmem_init_dev_ctx`. -/
def initDevCtx : DeviceContext where
  vmId := getVmId
  bar0Fd := none
  pReg := .null
  bar2Fd := none
  pShmem := .null
  ioFd := none
  epfdsIrq := fun _ => none
  irqFd := fun _ => none
  isOpened := false

/-! ## The process -/

/-- The next call to return something, and what the process holds. -/
structure Process where
  next : Nat
  held : Ledger DeviceHandle

namespace Process

variable (p : Process)

/-- `open`. -/
def sysOpen (ok : Bool) : Option Nat × Process :=
  if ok then (some p.next, ⟨p.next + 1, p.held.acquire (.fd p.next)⟩) else (none, p)

/-- `mmap`. -/
def sysMmap (ok : Bool) : MapPtr × Process :=
  if ok then (.mapped p.next, ⟨p.next + 1, p.held.acquire (.map p.next)⟩) else (.mapFailed, p)

/-- `close`. -/
def sysClose (fd : Nat) : Process := { p with held := p.held.release (.fd fd) }

/-- `munmap`, of a pointer that is not null. -/
def sysMunmap (ptr : MapPtr) : Process :=
  match ptr with
  | .null => p
  | .mapFailed => { p with held := p.held.release .mapFailed }
  | .mapped n => { p with held := p.held.release (.map n) }

end Process

/-- Which of the calls of `ivshmem_open_dev` succeed. -/
structure OpenOutcome where
  open0 : Bool
  mmap0 : Bool
  open2 : Bool
  mmap2 : Bool
  deriving DecidableEq

/-- `ivshmem_open_dev` from the `open` of BAR 2 on. -/
def openBar2 (o : OpenOutcome) (ctx : DeviceContext) (p : Process) : Int32 × DeviceContext × Process :=
  let (fd, p) := p.sysOpen o.open2
  let ctx := { ctx with bar2Fd := fd }
  match fd with
  | none => (-1, ctx, p)
  | some fd =>
    let (ptr, p) := p.sysMmap o.mmap2
    let ctx := { ctx with pShmem := ptr }
    if ptr = .mapFailed then (-1, ctx, p.sysClose fd) else (0, ctx, p)

/-- `ivshmem_open_dev`. -/
def openDev (build : DeviceBuild) (o : OpenOutcome) (ctx : DeviceContext) (p : Process) :
    Int32 × DeviceContext × Process :=
  match build with
  | .shm => openBar2 o { ctx with bar0Fd := none, pReg := .null } p
  | .qemu =>
    let (fd, p) := p.sysOpen o.open0
    let ctx := { ctx with bar0Fd := fd }
    match fd with
    | none => (-1, ctx, p)
    | some fd =>
      let (ptr, p) := p.sysMmap o.mmap0
      let ctx := { ctx with pReg := ptr }
      if ptr = .mapFailed then (-1, ctx, p.sysClose fd) else openBar2 o ctx p

/-- `ivshmem_close_dev`. -/
def closeDev (ctx : DeviceContext) (p : Process) : DeviceContext × Process :=
  let (ctx, p) :=
    if ctx.pReg ≠ .null then ({ ctx with pReg := .null }, p.sysMunmap ctx.pReg) else (ctx, p)
  let (ctx, p) :=
    match ctx.bar0Fd with
    | some fd => ({ ctx with bar0Fd := none }, p.sysClose fd)
    | none => (ctx, p)
  let (ctx, p) :=
    if ctx.pShmem ≠ .null then ({ ctx with pShmem := .null }, p.sysMunmap ctx.pShmem) else (ctx, p)
  match ctx.bar2Fd with
  | some fd => ({ ctx with bar2Fd := none }, p.sysClose fd)
  | none => (ctx, p)

/-! ## Runs -/

/-- What the last call on a context was. -/
inductive DeviceStatus where
  | closed
  | opened
  | failed
  deriving DecidableEq

structure Device where
  ctx : DeviceContext
  proc : Process
  status : DeviceStatus

/-- A context prepared by `ivshmem_init_dev_ctx`. -/
def Device.start : Device := ⟨initDevCtx, ⟨0, .empty⟩, .closed⟩

/-- A call on the context. -/
inductive DeviceCall where
  | openDev (o : OpenOutcome)
  | closeDev
  deriving DecidableEq

def deviceStep (build : DeviceBuild) (s : Device) (call : DeviceCall) : Device :=
  match call with
  | .openDev o =>
    let (ret, ctx, p) := openDev build o s.ctx s.proc
    ⟨ctx, p, if ret = 0 then .opened else .failed⟩
  | .closeDev =>
    let (ctx, p) := closeDev s.ctx s.proc
    ⟨ctx, p, .closed⟩

end Ivshmem
