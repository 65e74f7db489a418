import SecureIvshmem.Impl.UioHook

/-!
# The driver

`dev_shm/myshm.c`: `myshm_mmap`, which maps the device buffer page by page.
The calls of `remap_pfn_range` are recorded with what they return, which is an
argument, as `vmalloc_to_pfn` is.
-/

namespace Ivshmem

/-- `MEM_SIZE`. -/
abbrev memSize : Nat := 4 * 1024 * 1024

/-- `PAGE_SIZE`. -/
abbrev vmPageSize : Nat := 4096

/-- `EAGAIN`. -/
abbrev eagain : Int32 := 11

/-- The buffer of the device, and `vmalloc_to_pfn`. -/
structure MyshmDevice where
  deviceBuffer : UInt64
  vmallocToPfn : UInt64 → UInt64

/-- A call of `remap_pfn_range`, for `PAGE_SIZE` bytes, and what it
returned. -/
structure RemapCall where
  vaddr : UInt64
  pfn : UInt64
  ret : Int32
  deriving DecidableEq

/-- What a call of `mmap` returns, and the pages it tried to map. -/
structure MmapResult where
  ret : Int32
  calls : List RemapCall
  deriving DecidableEq

/-- The loop of `myshm_mmap` after `calls`, where call `i` of
`remap_pfn_range` returns `remap i`. -/
def myshmLoop (dev : MyshmDevice) (remap : Nat → Int32) :
    Nat → UInt64 → UInt64 → UInt64 → List RemapCall → Option MmapResult
  | 0, _, _, _, _ => none
  | fuel + 1, curVaddr, offset, size, calls =>
    if 0 < size then
      let curPfn := dev.vmallocToPfn (dev.deviceBuffer + offset)
      let ret := remap calls.length
      let calls := calls ++ [⟨curVaddr, curPfn, ret⟩]
      if ret ≠ 0 then some ⟨-eagain, calls⟩
      else
        myshmLoop dev remap fuel (curVaddr + .ofNat vmPageSize) (offset + .ofNat vmPageSize)
          (size - .ofNat vmPageSize) calls
    else some ⟨0, calls⟩

/-- `myshm_mmap`; out of fuel it returns nothing. -/
def myshmMmap (dev : MyshmDevice) (remap : Nat → Int32) (fuel : Nat) (r : MmapRequest) :
    Option MmapResult :=
  let offset := r.vmPgoff <<< 12
  let size := r.vmEnd - r.vmStart
  if .ofNat memSize < offset + size then some ⟨-einval, []⟩
  else myshmLoop dev remap fuel r.vmStart offset size []

/-! ## The driver behind the hook -/

/-- `__ivshmem_dummy_mmap`. -/
def dummyMmap (s : HookState) : MmapResult × HookState :=
  (⟨-einval, []⟩, { s with isLocked := false, spin := false })

/-- `__ivshmem_origin_mmap` after its call of the hooked function, which left
`res`: the value returned is dropped. -/
def originMmap (res : MmapResult) (s : HookState) : MmapResult × HookState :=
  (⟨0, res.calls⟩, { s with isLocked := false, spin := false })

/-- A call of the hooked function with no other in between, where the original
body comes to `body`; `__ivshmem_origin_mmap` calls it again, to a depth of
the fuel. -/
def hookedMmap (limit : UInt64) (body : Option MmapResult) (r : MmapRequest) :
    Nat → HookState → Option (MmapResult × HookState)
  | 0, _ => none
  | fuel + 1, s =>
    let s := ftraceHookFunc limit r { s with ip := .hooked }
    match s.ip with
    | .hooked => body.map fun res => (res, s)
    | .dummyMmap => some (dummyMmap s)
    | .originMmap => (hookedMmap limit body r fuel s).map fun (res, s) => originMmap res s

/-! ## The driver behind the hook, by steps -/

/-- The calls, with what their runs of the original body have come to, in the
order of the runs. -/
structure DriverRuns (ι : Type*) where
  mmaps : Mmaps ι
  results : List (ι × MmapResult)

variable {ι : Type*}

/-- Before the first call. -/
def DriverRuns.start : DriverRuns ι := ⟨.start, []⟩

/-- What `myshm_mmap` comes to for call `i`. -/
def driverBody (dev : MyshmDevice) (req : ι → MmapRequest) (i : ι) (remap : Nat → Int32) :
    Option MmapResult :=
  myshmMmap dev remap ((req i).length.toNat / vmPageSize + 1) (req i)

/-- One step of a call, where `remap_pfn_range` returns what the turn has if
the step is the original body. -/
def driverStep [DecidableEq ι] (limit : UInt64) (dev : MyshmDevice) (req : ι → MmapRequest)
    (s : DriverRuns ι) (turn : ι × (Nat → Int32)) : DriverRuns ι :=
  let (i, remap) := turn
  match (s.mmaps.call i).pc with
  | .body =>
    match driverBody dev req i remap with
    | some res => ⟨mmapStep limit req s.mmaps (i, res.ret), s.results ++ [(i, res)]⟩
    | none => s
  | _ => { s with mmaps := mmapStep limit req s.mmaps (i, 0) }

end Ivshmem
