import SecureIvshmem.Impl.Parties
import SecureIvshmem.Impl.Trusted

/-!
# `ivshmem_trusted_rebalancing`, statement by statement

One step is one statement of the source that accesses the shared memory;
`memcpy`, `memset` and a structure assignment are one statement each.
`Balancing` is a rebalancing process with any number of clients.
-/

namespace Ivshmem

open SharedMem.Word

/-- The assignments of one turn of the loop, in order. -/
inductive EntryWrite where
  | entry
  | bufOffset
  | bufSize
  | freeStart
  | tail
  | head
  | numPage
  | headTouch
  deriving DecidableEq

/-- Where a rebalancing is. -/
inductive RebalancePc where
  | idle
  | lock
  | share
  | compare
  | malloc
  | snapshot
  | clearFree
  | test (i : Nat)
  | write (w : EntryWrite) (i : Fin maxChannels)
  | setActive (cnt : Nat)
  | clear (cnt : Nat)
  | unlock
  | fault (e : Fault)
  deriving DecidableEq

/-- The trusted process that rebalances. -/
structure Rebalancer where
  pc : RebalancePc
  numPage : Int32
  /-- `allocated_buffer_size`. -/
  size : UInt64
  /-- `p_chan_tmp`. -/
  tmp : Fin maxChannels → Channel
  /-- What its calls have returned. -/
  returned : List Int32

/-- A rebalancer before its first call. -/
def Rebalancer.start : Rebalancer := ⟨.idle, 0, 0, fun _ => .zero, []⟩

/-- The effect of an assignment of the loop, for entry `i`. -/
def writeEntry (t : Rebalancer) (c : ControlSection) (i : Fin maxChannels) : EntryWrite → ControlSection
  | .entry => c.modify i fun _ => t.tmp i
  | .bufOffset => c.modify i fun ch => { ch with bufOffset := c.freeStartOffset }
  | .bufSize => c.modify i fun ch => { ch with bufSize := t.size }
  | .freeStart => { c with freeStartOffset := c.freeStartOffset + t.size }
  | .tail => c.modify i fun ch => { ch with tail := (t.tmp i).tail % intToU32 t.numPage }
  | .head => c.modify i fun ch => { ch with head := (t.tmp i).head % intToU32 t.numPage }
  | .numPage => c.modify i fun ch => { ch with numPage := t.numPage }
  | .headTouch => c.modify i fun ch => { ch with headTouch := 0 }

/-- The statement after an assignment of the loop. -/
def EntryWrite.next (i : Fin maxChannels) : EntryWrite → RebalancePc
  | .entry => .write .bufOffset i
  | .bufOffset => .write .bufSize i
  | .bufSize => .write .freeStart i
  | .freeStart => .write .tail i
  | .tail => .write .head i
  | .head => .write .numPage i
  | .numPage => .write .headTouch i
  | .headTouch => .test (i.val + 1)

/-- One step of a rebalancing; `malloc` says whether a call of it would
succeed. -/
def rebalanceStep (malloc : Bool) (c : ControlSection) (t : Rebalancer) : ControlSection × Rebalancer :=
  match t.pc with
  | .idle =>
    if c.numActiveChannels ≤ 0 then (c, { t with returned := t.returned ++ [0] })
    else (c, { t with pc := .lock })
  | .lock => ({ c with controlMutex := 1 }, { t with pc := .share })
  | .share =>
    (c, { t with
      pc := .compare
      numPage := rebalancedNumPage c.numActiveChannels
      size := allocatedBufferSize c.numActiveChannels })
  | .compare => (c, { t with pc := if t.size = (c.channels 0).bufSize then .unlock else .malloc })
  | .malloc =>
    if malloc then (c, { t with pc := .snapshot })
    else (c, { t with pc := .idle, returned := t.returned ++ [-1] })
  | .snapshot =>
    if .ofNat maxChannels < c.numActiveChannels then (c, { t with pc := .fault .outOfBounds })
    else (c, { t with pc := .clearFree, tmp := c.channels })
  | .clearFree => ({ c with freeStartOffset := 0 }, { t with pc := .test 0 })
  | .test i =>
    if i < (intToU32 c.numActiveChannels).toNat then
      if h : i < maxChannels then (c, { t with pc := .write .entry ⟨i, h⟩ })
      else (c, { t with pc := .fault .outOfBounds })
    else (c, { t with pc := .setActive i })
  | .write w i =>
    if (w = .tail ∨ w = .head) ∧ t.numPage = 0 then (c, { t with pc := .fault .divisionByZero })
    else (writeEntry t c i w, { t with pc := w.next i })
  | .setActive cnt => ({ c with numActiveChannels := .ofNat cnt }, { t with pc := .clear cnt })
  | .clear cnt => (clearFrom c (.ofNat cnt), { t with pc := .unlock })
  | .unlock => ({ c with controlMutex := 0 }, { t with pc := .idle, returned := t.returned ++ [0] })
  | .fault _ => (c, t)

/-- A rebalancer and any number of clients, named by `ι`. -/
structure Balancing (ι : Type*) where
  shm : Shm
  client : ι → Client
  trusted : Rebalancer

/-- Who takes a step, and what `time(NULL)` or `malloc` returns there. -/
inductive BalancingTurn (ι : Type*) where
  | client (i : ι) (now : Int64)
  | trusted (malloc : Bool)

variable {ι : Type*} [DecidableEq ι]

/-- All of them before their first calls. -/
def Balancing.start (m : Shm) (parties : ι → Party) : Balancing ι :=
  ⟨m, fun i => (parties i).start, .start⟩

/-- One step of a rebalancer and its clients. -/
def balancingStep (s : Balancing ι) : BalancingTurn ι → Balancing ι
  | .client i now =>
    { s with
      shm := (clientStep now s.shm (s.client i)).1
      client := Function.update s.client i (clientStep now s.shm (s.client i)).2 }
  | .trusted malloc =>
    { s with
      shm := { s.shm with ctr := (rebalanceStep malloc s.shm.ctr s.trusted).1 }
      trusted := (rebalanceStep malloc s.shm.ctr s.trusted).2 }

end Ivshmem
