import SecureIvshmem.Framework.Ledger
import SecureIvshmem.Impl.UioHook

/-!
# Loading and unloading the hook

`kernel_module/ivshmem_uio_hook.c`, from `ivshmem_uio_hook_init` to
`ivshmem_uio_hook_exit`. What a load acquires is named in the order of the
acquisitions, which can fail at any call. Memory from `kmalloc` is
uninitialised, so a field is an option; what a read of an uninitialised one
leads to is undefined, and ends the model's run of the function.
-/

namespace Ivshmem

open SharedMem

/-- `ENOMEM`. -/
abbrev enomem : Int32 := 12

/-- What a load can acquire: memory, the registration of `kp`, the filter of
an `ftrace_ops` and its registration. -/
inductive HookHandle where
  | mem (n : Nat)
  | kprobe (n : Nat)
  | filter (ops : Nat)
  | ftrace (ops : Nat)
  deriving DecidableEq

/-- A read of an uninitialised field. -/
inductive HookFault where
  | uninitialised
  deriving DecidableEq

/-- `struct ivshmem_lock`, at `addr`. -/
structure HookLock where
  addr : Nat
  isLocked : Option Bool
  /-- The spin lock, which may be null. -/
  spin : Option (Option Nat)

/-- `struct ivshmem_context`, at `addr`, with the lock that it points to. -/
structure HookCtx where
  addr : Nat
  targetAddr : Option UInt64
  limitMapSize : Option UInt64
  ops : Option Nat
  lock : Option HookLock

/-- The kernel, with the statics `kp` (its registration) and `g_ctx` of the
module. -/
structure HookKernel where
  next : Nat
  held : Ledger HookHandle
  kp : Option Nat
  gCtx : Option HookCtx

/-- What the calls of a load return, where `kmalloc` succeeds or fails;
`kpAddr` is `kp.addr` after `register_kprobe`. -/
structure LoadOutcome where
  kmallocCtx : Bool
  registerKprobe : Int32
  kpAddr : UInt64
  kmallocOps : Bool
  kmallocLock : Bool
  kmallocSpin : Bool
  setFilterIp : Int32
  registerFtrace : Int32
  deriving DecidableEq

/-- The value of a field. -/
def readField {α : Type} (field : Option α) : Except HookFault α :=
  match field with
  | some x => .ok x
  | none => .error .uninitialised

namespace HookKernel

variable (k : HookKernel)

def acquire (h : HookHandle) : HookKernel := { k with held := k.held.acquire h }

def release (h : HookHandle) : HookKernel := { k with held := k.held.release h }

/-- `kmalloc`. -/
def kmalloc (ok : Bool) : Option Nat × HookKernel :=
  if ok then (some k.next, { k.acquire (.mem k.next) with next := k.next + 1 }) else (none, k)

/-- `PTR_FREE`. -/
def ptrFree (ptr : Option Nat) : HookKernel :=
  match ptr with
  | some n => k.release (.mem n)
  | none => k

/-- A `register_kprobe` of `kp` that succeeds. -/
def registerKprobe : HookKernel :=
  { k.acquire (.kprobe k.next) with next := k.next + 1, kp := some k.next }

/-- `unregister_kprobe` of `kp`. -/
def unregisterKprobe : HookKernel :=
  match k.kp with
  | some n => { k.release (.kprobe n) with kp := none }
  | none => k

end HookKernel

/-! ## Tearing down -/

/-- `__ivshmem_lock_destroy`. -/
def lockDestroy (lock : HookLock) (k : HookKernel) : Except HookFault HookKernel := do
  let spin ← readField lock.spin
  return (k.ptrFree spin).ptrFree (some lock.addr)

/-- `__ivshmem_ops_destroy`. -/
def opsDestroy (ops : Nat) (k : HookKernel) : HookKernel := k.ptrFree (some ops)

/-- `__ivshmem_ctx_destroy`. -/
def ctxDestroy (ctx : HookCtx) (k : HookKernel) : HookKernel := k.ptrFree (some ctx.addr)

/-- `__ivshmem_uio_hook_exit`. -/
def hookExit (ctx : Option HookCtx) (k : HookKernel) : Except HookFault HookKernel :=
  match ctx with
  | none => .ok k
  | some ctx => do
    let k := k.unregisterKprobe
    let ops ← readField ctx.ops
    let k := k.release (.ftrace ops)
    let _ ← readField ctx.targetAddr
    let k := k.release (.filter ops)
    let lock ← readField ctx.lock
    let k ← lockDestroy lock k
    return ctxDestroy ctx (opsDestroy ops k)

/-- `ivshmem_uio_hook_exit`. -/
def uioHookExit (k : HookKernel) : Except HookFault HookKernel := hookExit k.gCtx k

/-! ## Setting up -/

/-- `__ivshmem_ctx_create`. -/
def ctxCreate (o : LoadOutcome) (k : HookKernel) : Option HookCtx × HookKernel :=
  let (new, k) := k.kmalloc o.kmallocCtx
  match new with
  | none => (none, k)
  | some addr =>
    let new : HookCtx := ⟨addr, none, none, none, none⟩
    if o.registerKprobe < 0 then (none, ctxDestroy new k)
    else
      let k := k.registerKprobe
      let new := { new with targetAddr := some o.kpAddr }
      if o.kpAddr = 0 then (none, ctxDestroy new k)
      else (some { new with limitMapSize := some 0x1000 }, k)

/-- `__ivshmem_ops_create`. -/
def opsCreate (o : LoadOutcome) (k : HookKernel) : Option Nat × HookKernel := k.kmalloc o.kmallocOps

/-- `__ivshmem_lock_create`. -/
def lockCreate (o : LoadOutcome) (k : HookKernel) : Except HookFault (Option HookLock × HookKernel) :=
  let (new, k) := k.kmalloc o.kmallocLock
  match new with
  | none => .ok (none, k)
  | some addr =>
    let (spin, k) := k.kmalloc o.kmallocSpin
    let new : HookLock := ⟨addr, some false, some spin⟩
    match spin with
    | none => do return (none, ← lockDestroy new k)
    | some _ => .ok (some new, k)

/-- `ivshmem_uio_hook_init`. -/
def uioHookInit (o : LoadOutcome) (k : HookKernel) : Except HookFault (Int32 × HookKernel) :=
  if k.gCtx.isSome then .ok (-einval, k)
  else
    match ctxCreate o k with
    | (none, k) => .ok (-enomem, k)
    | (some ctx, k) =>
      match opsCreate o k with
      | (none, k) => do return (-enomem, ← hookExit (some ctx) k)
      | (some ops, k) => do
        match ← lockCreate o k with
        | (none, k) => return (-enomem, ← hookExit (some ctx) k)
        | (some lock, k) =>
          let ctx := { ctx with ops := some ops, lock := some lock }
          if o.setFilterIp < 0 then return (o.setFilterIp, ← hookExit (some ctx) k)
          else
            let k := k.acquire (.filter ops)
            if o.registerFtrace < 0 then return (o.registerFtrace, ← hookExit (some ctx) k)
            else
              let k := k.acquire (.ftrace ops)
              return (0, { k with gCtx := some ctx })

/-! ## Runs -/

/-- The module, which the kernel loads only while it is not loaded, and keeps
if its init function does not fail. -/
structure HookModule where
  kernel : HookKernel
  loaded : Bool
  /-- Whether a run of a function was undefined. -/
  fault : Bool

/-- Before the first load. -/
def HookModule.start : HookModule := ⟨⟨0, .empty, none, none⟩, false, false⟩

/-- The kernel with the statics of a module that has just been read in. -/
def HookKernel.fresh (k : HookKernel) : HookKernel := { k with kp := none, gCtx := none }

inductive HookCall where
  | load (o : LoadOutcome)
  | unload
  deriving DecidableEq

def hookStep (s : HookModule) (call : HookCall) : HookModule :=
  match call with
  | .load o =>
    if s.loaded then s
    else
      match uioHookInit o s.kernel.fresh with
      | .ok (ret, k) => { s with kernel := k, loaded := !decide (ret < 0) }
      | .error _ => { s with fault := true }
  | .unload =>
    if s.loaded then
      match uioHookExit s.kernel with
      | .ok k => { s with kernel := k, loaded := false }
      | .error _ => { s with loaded := false, fault := true }
    else s

end Ivshmem
