import SecureIvshmem.Impl.HookModule
import SecureIvshmem.Impl.Myshm

/-!
# Loading, opening and unloading the driver

`dev_shm/myshm.c`, from `myshm_init` to `myshm_exit`, with the files that are
open in between. What a load acquires has the number of the load. The module
is the owner of its files, so the kernel refuses to unload it while one is in
use: by a descriptor, or by a mapping. A load or unload is one step.
-/

namespace Ivshmem

open SharedMem

/-- What a load can acquire: the device number, the registrations of
`my_cdev` and of the class, the device node, and the buffer. -/
inductive MyshmHandle where
  | region (n : Nat)
  | cdev (n : Nat)
  | cls (n : Nat)
  | device (n : Nat)
  | buffer (n : Nat)
  deriving DecidableEq

/-- What `class_create` and `device_create` return: a pointer to what they have
created, an error pointer, or null. -/
inductive KernelPtr where
  | ptr
  | err (code : Int32) (neg : code < 0)
  | null
  deriving DecidableEq

/-- What the calls of a load return, where `vmalloc` succeeds or fails;
`class_create` never returns null. -/
structure MyshmOutcome where
  allocChrdevRegion : Int32
  cdevAdd : Int32
  classCreate : KernelPtr
  classNonnull : classCreate ≠ .null
  deviceCreate : KernelPtr
  vmalloc : Bool
  deriving DecidableEq

/-- The kernel, with the statics `dev_number`, `mmap_class` and
`device_buffer`. -/
structure MyshmKernel where
  next : Nat
  held : Ledger MyshmHandle
  devNumber : Nat
  mmapClass : Option Nat
  deviceBuffer : Option Nat

namespace MyshmKernel

variable (k : MyshmKernel)

def acquire (h : MyshmHandle) : MyshmKernel := { k with held := k.held.acquire h }

def release (h : MyshmHandle) : MyshmKernel := { k with held := k.held.release h }

/-- `unregister_chrdev_region`. -/
def unregisterChrdevRegion : MyshmKernel := k.release (.region k.devNumber)

/-- `cdev_del`. -/
def cdevDel : MyshmKernel := k.release (.cdev k.devNumber)

/-- `class_destroy`, which passes over null. -/
def classDestroy : MyshmKernel :=
  match k.mmapClass with
  | some n => k.release (.cls n)
  | none => k

/-- `device_destroy`, which passes over a device that is not there. -/
def deviceDestroy : MyshmKernel :=
  if .device k.devNumber ∈ k.held.live then k.release (.device k.devNumber) else k

/-- `vfree` of `device_buffer`, if it is not null. -/
def vfreeBuffer : MyshmKernel :=
  match k.deviceBuffer with
  | some n => k.release (.buffer n)
  | none => k

/-- The kernel with the statics of a module that has just been read in. -/
def fresh : MyshmKernel := { k with devNumber := 0, mmapClass := none, deviceBuffer := none }

end MyshmKernel

/-- `myshm_init`. -/
def myshmInit (o : MyshmOutcome) (k : MyshmKernel) : Int32 × MyshmKernel :=
  let n := k.next
  let k := { k with next := n + 1 }
  if o.allocChrdevRegion < 0 then (o.allocChrdevRegion, k)
  else
    let k := { k.acquire (.region n) with devNumber := n }
    if o.cdevAdd < 0 then (o.cdevAdd, k.unregisterChrdevRegion)
    else
      let k := k.acquire (.cdev n)
      match o.classCreate with
      | .err code _ => (code, k.cdevDel.unregisterChrdevRegion)
      | _ =>
        let k := { k.acquire (.cls n) with mmapClass := some n }
        match o.deviceCreate with
        | .null => (-1, k.classDestroy.cdevDel.unregisterChrdevRegion)
        | device =>
          -- an error pointer passes the test against null
          let k := if device = .ptr then k.acquire (.device n) else k
          if o.vmalloc then (0, { k.acquire (.buffer n) with deviceBuffer := some n })
          else (-enomem, k.deviceDestroy.classDestroy.cdevDel.unregisterChrdevRegion)

/-- `myshm_exit`. -/
def myshmExit (k : MyshmKernel) : MyshmKernel :=
  k.vfreeBuffer.deviceDestroy.classDestroy.cdevDel.unregisterChrdevRegion

/-! ## Runs -/

/-- Pages that `myshm_mmap` has mapped, while `device_buffer` was `buffer`. -/
structure MyshmMapping where
  buffer : Option Nat
  pages : List RemapCall
  deriving DecidableEq

/-- A file of the device: whether a descriptor is open, and its mappings. -/
structure MyshmFile where
  fd : Bool
  maps : List MyshmMapping
  deriving DecidableEq

/-- The kernel calls `myshm_release` for a file, and lets go of the module,
when nothing uses it. -/
def MyshmFile.used (f : MyshmFile) : Bool := f.fd || !f.maps.isEmpty

/-- The module, with the files that the kernel holds it for. -/
structure MyshmModule where
  kernel : MyshmKernel
  loaded : Bool
  files : List MyshmFile

/-- Before the first load. -/
def MyshmModule.start : MyshmModule := ⟨⟨0, .empty, 0, none, none⟩, false, []⟩

/-- File `i`, changed by `g`, goes when nothing uses it any more. -/
def MyshmModule.onFile (s : MyshmModule) (i : Nat) (g : MyshmFile → MyshmFile) : MyshmModule :=
  { s with files := (s.files.modify i g).filter MyshmFile.used }

/-- The end of the descriptor. -/
def MyshmFile.closed (f : MyshmFile) : MyshmFile := { f with fd := false }

/-- What a call of `mmap` that has come to `res` leaves: the kernel takes the
pages of one that fails away. -/
def MyshmFile.mapped (buffer : Option Nat) (res : MmapResult) (f : MyshmFile) : MyshmFile :=
  if f.fd ∧ res.ret = 0 then { f with maps := f.maps ++ [⟨buffer, res.calls⟩] } else f

/-- The end of mapping `j`. -/
def MyshmFile.unmapped (j : Nat) (f : MyshmFile) : MyshmFile := { f with maps := f.maps.eraseIdx j }

inductive MyshmCall where
  | load (o : MyshmOutcome)
  | unload
  | openFile
  | close (i : Nat)
  | mmap (i : Nat) (r : MmapRequest) (remap : Nat → Int32)
  | munmap (i j : Nat)

/-- One call, where `dev n` is the buffer of load `n`. -/
def myshmStep (dev : Nat → MyshmDevice) (s : MyshmModule) (call : MyshmCall) : MyshmModule :=
  match call with
  | .load o =>
    if s.loaded then s
    else
      let (ret, k) := myshmInit o s.kernel.fresh
      { s with kernel := k, loaded := !decide (ret < 0) }
  | .unload =>
    if s.loaded ∧ s.files = [] then { s with kernel := myshmExit s.kernel, loaded := false } else s
  | .openFile => if s.loaded then { s with files := s.files ++ [⟨true, []⟩] } else s
  | .close i => s.onFile i .closed
  | .mmap i r remap =>
    match s.kernel.deviceBuffer with
    | some n =>
      match myshmMmap (dev n) remap (r.length.toNat / vmPageSize + 1) r with
      | some res => s.onFile i (.mapped s.kernel.deviceBuffer res)
      | none => s
    | none => s
  | .munmap i j => s.onFile i (.unmapped j)

end Ivshmem
