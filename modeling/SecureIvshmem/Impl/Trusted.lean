import SecureIvshmem.Impl.Control

/-!
# The trusted side, by whole calls

`src/ivshmem_trusted.c`. A function that C leaves undefined on some content
of the shared memory returns a `Fault` there, and the value it returns and
the new control section elsewhere; none of them touches the data section
(`p_data` is not read). Whether `malloc` succeeds is an argument.
-/

namespace Ivshmem

open SharedMem.Word

/-- Behaviour that C leaves undefined. -/
inductive Fault where
  /-- An access outside `channels`. -/
  | outOfBounds
  /-- A remainder by zero. -/
  | divisionByZero
  deriving DecidableEq, Repr

/-- The slot with index `n` of `channels`. -/
def slot (n : Int32) : Except Fault (Fin maxChannels) :=
  if h : 0 ≤ n.toInt ∧ n.toInt < maxChannels then .ok ⟨n.toInt.toNat, by omega⟩ else .error .outOfBounds

/-- `ivshmem_check_is_control_requested`. -/
def checkIsControlRequested (c : ControlSection) : Int32 := if c.hasChannelCandidate then 1 else 0

/-- `ivshmem_init_channel`: every field of the slot is written. -/
def initChannel (c : ControlSection) (key : ChannelKey) : Channel where
  id := c.lastChannelId
  key := key
  bufOffset := c.freeStartOffset
  bufSize := .ofNat channelInitSize
  dataSize := 0
  tail := 0
  head := 0
  numPage := .ofNat (channelInitSize / pageSize)
  headTouch := 0
  lastSentAt := 0

/-- `ivshmem_create_channel`. -/
def createChannel (c : ControlSection) (key : ChannelKey) : Except Fault (Int32 × ControlSection) :=
  if .ofNat maxChannels ≤ c.numActiveChannels then .ok (-1, c)
  else if .ofNat dataSectionSize < c.freeStartOffset + .ofNat channelInitSize then .ok (-1, c)
  else do
    let i ← slot c.numActiveChannels
    let c' := c.modify i fun _ => initChannel c key
    return (0,
      { c' with
        lastChannelId := c.lastChannelId + 1
        freeStartOffset := c.freeStartOffset + .ofNat channelInitSize
        numActiveChannels := c.numActiveChannels + 1 })

/-- `ivshmem_trusted_control`. -/
def trustedControl (c : ControlSection) : Except Fault (Int32 × ControlSection) :=
  if !c.hasChannelCandidate then .ok (0, c)
  else do
    let c := { c with controlMutex := 1 }
    let (ret, c) ← createChannel c c.channelCandidate
    return (ret, { c with hasChannelCandidate := false, controlMutex := 0 })

/-- `ivshmem_find_or_create_channel`. -/
def findOrCreateChannel (c : ControlSection) (key : ChannelKey) :
    Except Fault (Option (Fin maxChannels) × ControlSection) :=
  match findChannel c key with
  | some i => .ok (some i, c)
  | none => do
    let (ret, c) ← createChannel c key
    if ret ≠ 0 then return (none, c)
    let i ← slot (c.numActiveChannels - 1)
    return (some i, c)

/-! ## Rebalancing -/

/-- `num_page` of a rebalancing of `n` channels: the pages of an even share. -/
def rebalancedNumPage (n : Int32) : Int32 :=
  sizeToInt ((.ofNat dataSectionSize - .ofNat channelInitSize - 1) / intToSize n / .ofNat pageSize)

/-- `allocated_buffer_size` of a rebalancing of `n` channels. -/
def allocatedBufferSize (n : Int32) : UInt64 := intToSize (rebalancedNumPage n * .ofNat pageSize)

/-- The entry written for a channel that was `ch`. -/
def rebalanceChannel (numPage : Int32) (size offset : UInt64) (ch : Channel) : Channel :=
  { ch with
    bufOffset := offset
    bufSize := size
    tail := ch.tail % intToU32 numPage
    head := ch.head % intToU32 numPage
    numPage := numPage
    headTouch := 0 }

/-- One turn of the loop of `ivshmem_trusted_rebalancing`: `tmp` is the copy
of the table. -/
def rebalanceTurn (numPage : Int32) (size : UInt64) (tmp : Fin maxChannels → Channel)
    (c : ControlSection) (i : Fin maxChannels) : ControlSection :=
  let c' := c.modify i fun _ => rebalanceChannel numPage size c.freeStartOffset (tmp i)
  { c' with freeStartOffset := c.freeStartOffset + size }

/-- The `memset` of the slots from `n` on. -/
def clearFrom (c : ControlSection) (n : Int32) : ControlSection :=
  { c with channels := fun i => if (i.val : Int) < n.toInt then c.channels i else .zero }

/-- `ivshmem_trusted_rebalancing`. Where `malloc` fails it returns with
`control_mutex` set. -/
def trustedRebalancing (malloc : Bool) (c : ControlSection) : Except Fault (Int32 × ControlSection) :=
  if c.numActiveChannels ≤ 0 then .ok (0, c)
  else
    let n := c.numActiveChannels
    let numPage := rebalancedNumPage n
    let size := allocatedBufferSize n
    let c := { c with controlMutex := 1 }
    if size = (c.channels 0).bufSize then .ok (0, { c with controlMutex := 0 })
    else if !malloc then .ok (-1, c)
    else if .ofNat maxChannels < n then .error .outOfBounds
    else if numPage = 0 then .error .divisionByZero
    else
      let c' := ((List.finRange maxChannels).take n.toInt.toNat).foldl
        (rebalanceTurn numPage size c.channels) { c with freeStartOffset := 0 }
      .ok (0, { clearFrom c' n with controlMutex := 0 })

end Ivshmem
