import Mathlib.Logic.Function.Basic
import SecureIvshmem.Framework.Run

/-!
# The `mmap` hook

`kernel_module/ivshmem_uio_hook.c`, on calls of the hooked function. A call
goes through `__ivshmem_ftrace_hook_func` and from there into
`__ivshmem_origin_mmap`, which calls the hooked function again, into
`__ivshmem_dummy_mmap`, or, where the hook returns without a redirection, into
the original body. `is_locked` and the spin lock are shared by all calls.
`ftraceHookFunc` is a call of the hook with no other in between, `mmapStep` a
step of any call.
-/

namespace Ivshmem

/-- `MIN_VALID_OFFSET`, the end of the control section. -/
abbrev minValidOffset : Nat := 0x1000

/-- `MAX_ALLOWED_MMAP_SIZE`. -/
abbrev maxAllowedMmapSize : Nat := 0x200000

/-- `EINVAL`. -/
abbrev einval : Int32 := 22

/-- `HOOK_DNAME`. -/
def hookDname : List Char := ['m', 'y', 's', 'h', 'm']

/-- The arguments of a call: the name in the file's `dentry`, if it has one,
and the fields of `vma`. The bytes asked for end below 2⁶⁴. -/
structure MmapRequest where
  dname : Option (List Char)
  vmPgoff : UInt64
  vmStart : UInt64
  vmEnd : UInt64
  fits : vmPgoff.toNat * 4096 + (vmEnd - vmStart).toNat < UInt64.size

namespace MmapRequest

/-- The test of the name by `strncmp`. -/
def isHooked (r : MmapRequest) : Bool := r.dname.any fun dname => hookDname.isPrefixOf dname

/-- `offset`, an `off_t`. -/
def offset (r : MmapRequest) : Int64 := (r.vmPgoff <<< 12).toInt64

def length (r : MmapRequest) : UInt64 := r.vmEnd - r.vmStart

/-- The guard of the control section. -/
def controlGuard (r : MmapRequest) : Bool :=
  r.offset < .ofNat minValidOffset && .ofNat minValidOffset < r.offset.toUInt64 + r.length

/-- The guard of the data section. -/
def dataGuard (r : MmapRequest) : Bool :=
  .ofNat minValidOffset ≤ r.offset && .ofNat maxAllowedMmapSize < r.offset.toUInt64 + r.length

/-- The guard of `limit_map_size`. -/
def limitGuard (limit : UInt64) (r : MmapRequest) : Bool := limit < r.length

/-- Whether the hook redirects a call to `__ivshmem_dummy_mmap`. -/
def refused (limit : UInt64) (r : MmapRequest) : Bool :=
  r.isHooked && (r.controlGuard || r.dataGuard || r.limitGuard limit)

end MmapRequest

/-! ## The hook, by whole calls -/

/-- Where a call goes on when the hook returns: in the hooked function, or in
the one that `instruction_pointer_set` names. -/
inductive MmapTarget where
  | hooked
  | originMmap
  | dummyMmap
  deriving DecidableEq

/-- What the hook reads and writes: `struct ivshmem_lock`, with whether the
spin lock is held, and the instruction pointer. -/
structure HookState where
  isLocked : Bool
  spin : Bool
  ip : MmapTarget

/-- `__ivshmem_mmap_guard`, whose `mmap_data` names `__ivshmem_dummy_mmap`. -/
def mmapGuard (condition : Bool) (s : HookState) : Int32 × HookState :=
  if condition then (-einval, { s with ip := .dummyMmap, spin := false }) else (0, s)

/-- `__ivshmem_ftrace_hook_func`, where none of its pointers is null. -/
def ftraceHookFunc (limit : UInt64) (r : MmapRequest) (s : HookState) : HookState :=
  if s.isLocked then s
  else
    let s := { s with spin := true, isLocked := true }
    if r.isHooked then
      let (ret, s) := mmapGuard r.controlGuard s
      if ret < 0 then s
      else
        let (ret, s) := mmapGuard r.dataGuard s
        if ret < 0 then s
        else
          let (ret, s) := mmapGuard (r.limitGuard limit) s
          if ret < 0 then s else { s with ip := .originMmap, spin := false }
    else { s with ip := .originMmap, spin := false }

/-! ## Calls, by steps -/

/-- Where a call is: in the hook, in the original body, in
`__ivshmem_origin_mmap` after its call, or in `__ivshmem_dummy_mmap`. -/
inductive MmapPc where
  | test
  | acquire
  | setLocked
  | guards
  | release (refused : Bool)
  | body
  | originAcquire
  | originClear
  | originRelease
  | dummyAcquire
  | dummyClear
  | dummyRelease
  | returned (ret : Int32)
  deriving DecidableEq

/-- A call of the hooked function. -/
structure MmapCall where
  pc : MmapPc
  /-- The calls of `__ivshmem_origin_mmap` that have yet to return. -/
  depth : Nat

/-- A return with `ret` to `__ivshmem_origin_mmap`, which drops it, or to the
caller. -/
def MmapCall.leave (t : MmapCall) (ret : Int32) : MmapCall :=
  { t with pc := if t.depth = 0 then .returned ret else .originAcquire }

/-- Any number of calls, named by `ι`. -/
structure Mmaps (ι : Type*) where
  isLocked : Bool
  /-- Whether the spin lock is held. -/
  spin : Bool
  call : ι → MmapCall
  /-- The calls for which the original body has run. -/
  ran : List ι

variable {ι : Type*}

/-- Before the first call. -/
def Mmaps.start : Mmaps ι := ⟨false, false, fun _ => ⟨.test, 0⟩, []⟩

variable [DecidableEq ι]

/-- The calls with `i` at `pc`. -/
def Mmaps.goto (s : Mmaps ι) (i : ι) (pc : MmapPc) : Mmaps ι :=
  { s with call := Function.update s.call i { s.call i with pc := pc } }

/-- One step of call `i` for `req i`, where the original body returns
`ret`. -/
def mmapStep (limit : UInt64) (req : ι → MmapRequest) (s : Mmaps ι) (turn : ι × Int32) : Mmaps ι :=
  let (i, ret) := turn
  let t := s.call i
  match t.pc with
  | .test => s.goto i (if s.isLocked then .body else .acquire)
  | .acquire => if s.spin then s else { s.goto i .setLocked with spin := true }
  | .setLocked => { s.goto i .guards with isLocked := true }
  | .guards => s.goto i (.release ((req i).refused limit))
  | .release true => { s.goto i .dummyAcquire with spin := false }
  | .release false =>
    { s with spin := false, call := Function.update s.call i ⟨.test, t.depth + 1⟩ }
  | .body => { s with ran := s.ran ++ [i], call := Function.update s.call i (t.leave ret) }
  | .originAcquire => if s.spin then s else { s.goto i .originClear with spin := true }
  | .originClear => { s.goto i .originRelease with isLocked := false }
  | .originRelease =>
    { s with spin := false, call := Function.update s.call i (MmapCall.leave ⟨t.pc, t.depth - 1⟩ 0) }
  | .dummyAcquire => if s.spin then s else { s.goto i .dummyClear with spin := true }
  | .dummyClear => { s.goto i .dummyRelease with isLocked := false }
  | .dummyRelease => { s with spin := false, call := Function.update s.call i (t.leave (-einval)) }
  | .returned _ => s

end Ivshmem
