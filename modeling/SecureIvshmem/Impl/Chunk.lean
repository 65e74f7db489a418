import SecureIvshmem.Impl.Parties

/-!
# Chunk mode

`src/ivshmem_secure.c` and the channels of `include/ivshmem_secure.h` with
`IVSHMEM_TYPE` 1: a channel holds one chunk at a time, whose length is in
`data_size`, and `ref_count` says whether it is there. One step is one access
to the shared memory, as in page mode; `MIN` reads a shared operand once to
compare it and once more for its value.
-/

namespace Ivshmem

open SharedMem SharedMem.Word

/-- `struct IvshmemChannel`. -/
structure ChunkChannel where
  id : UInt32
  key : ChannelKey
  bufOffset : UInt64
  bufSize : UInt64
  dataSize : UInt64
  refCount : Int32
  sentCount : Int32
  lastSentAt : Int64
  deriving DecidableEq, Repr

/-- `struct IvshmemControlSection`. -/
structure ChunkSection where
  freeStartOffset : UInt64
  numActiveChannels : Int32
  lastChannelId : UInt32
  channels : Fin maxChannels → ChunkChannel
  controlMutex : UInt8
  hasChannelCandidate : Bool
  channelCandidate : ChannelKey

/-- The control section and the data section after it. -/
structure ChunkShm where
  ctr : ChunkSection
  data : Mem UInt8

namespace ChunkSection

/-- The section with channel `i` changed by `f`. -/
def modify (c : ChunkSection) (i : Fin maxChannels) (f : ChunkChannel → ChunkChannel) : ChunkSection :=
  { c with channels := Function.update c.channels i (f (c.channels i)) }

/-- The section as page mode has it, for the functions that are the same in
both modes and use none of the fields that differ. -/
def common (c : ChunkSection) : ControlSection where
  freeStartOffset := c.freeStartOffset
  numActiveChannels := c.numActiveChannels
  lastChannelId := c.lastChannelId
  channels i :=
    let ch := c.channels i
    { Channel.zero with id := ch.id, key := ch.key, bufOffset := ch.bufOffset, bufSize := ch.bufSize }
  controlMutex := c.controlMutex
  hasChannelCandidate := c.hasChannelCandidate
  channelCandidate := c.channelCandidate

end ChunkSection

/-- One step of `ivshmem_request_channel`. -/
def chunkRequestStep (key : ChannelKey) (c : ChunkSection) (pc : RequestPc) : ChunkSection × RequestPc :=
  let r := requestStep key c.common pc
  ({ c with hasChannelCandidate := r.1.hasChannelCandidate,
            channelCandidate := r.1.channelCandidate }, r.2)

/-! ## `ivshmem_send_buffer` -/

/-- Where a call of `ivshmem_send_buffer` is. -/
inductive ChunkSendPc where
  | request (pc : RequestPc)
  | mutex
  | refCount
  | bufSize
  | bufSizeAgain
  | copyOffset (toSent : UInt64)
  | copy (toSent bufOffset : UInt64)
  | setRefCount (toSent : UInt64)
  | addSize (toSent : UInt64)
  | stamp
  deriving DecidableEq

/-- A process that sends the messages `calls` in order, the first of them by
the call under way. -/
structure ChunkSender where
  key : ChannelKey
  calls : List Message
  pc : ChunkSendPc
  /-- `p_chan`. -/
  chan : Fin maxChannels
  dataSent : UInt64
  /-- The chunks for which it has set `ref_count`, in order. -/
  published : List (List UInt8)
  /-- What its calls have returned. -/
  returned : List Int32

/-- A sender before its first call. -/
def ChunkSender.start (key : ChannelKey) (calls : List Message) : ChunkSender :=
  ⟨key, calls, .request .find, 0, 0, [], []⟩

/-- The step of a sender in its call for `msg`, with `rest` the later ones. -/
def chunkSendCallStep (now : Int64) (m : ChunkShm) (t : ChunkSender) (msg : Message)
    (rest : List Message) :
    ChunkShm × ChunkSender :=
  let ch := m.ctr.channels t.chan
  match t.pc with
  | .request pc =>
    let (c, pc) := chunkRequestStep t.key m.ctr pc
    let m := { m with ctr := c }
    match pc with
    | .returned (some i) => (m, { t with pc := .mutex, chan := i })
    | .returned none =>
      (m, { t with pc := .request .find, calls := rest, returned := t.returned ++ [-1] })
    | pc => (m, { t with pc := .request pc })
  | .mutex =>
    if m.ctr.controlMutex ≠ 0 then (m, t)
    else if msg.size ≤ t.dataSent then
      (m, { t with pc := .request .find, calls := rest, dataSent := 0, returned := t.returned ++ [0] })
    else (m, { t with pc := .refCount })
  | .refCount => (m, { t with pc := if 0 < ch.refCount then .mutex else .bufSize })
  | .bufSize =>
    (m, { t with
      pc := if msg.size - t.dataSent < ch.bufSize then .copyOffset (msg.size - t.dataSent)
        else .bufSizeAgain })
  | .bufSizeAgain => (m, { t with pc := .copyOffset ch.bufSize })
  | .copyOffset toSent => (m, { t with pc := .copy toSent ch.bufOffset })
  | .copy toSent bufOffset =>
    ({ m with data := store m.data bufOffset.toNat (bytesAt msg.buffer t.dataSent.toNat toSent.toNat) },
      { t with pc := .setRefCount toSent })
  | .setRefCount toSent =>
    ({ m with ctr := m.ctr.modify t.chan fun ch => { ch with refCount := 1 } },
      { t with
        pc := .addSize toSent
        dataSent := t.dataSent + toSent
        published := t.published ++ [bytesAt msg.buffer t.dataSent.toNat toSent.toNat] })
  | .addSize toSent =>
    ({ m with ctr := m.ctr.modify t.chan fun ch => { ch with dataSize := ch.dataSize + toSent } },
      { t with pc := .stamp })
  | .stamp =>
    ({ m with ctr := m.ctr.modify t.chan fun ch => { ch with lastSentAt := now } },
      { t with pc := .mutex })

/-- One step of a sender; `now` is what `time(NULL)` returns. -/
def chunkSendStep (now : Int64) (m : ChunkShm) (t : ChunkSender) : ChunkShm × ChunkSender :=
  match t.calls with
  | [] => (m, t)
  | msg :: rest => chunkSendCallStep now m t msg rest

/-! ## `ivshmem_recv_buffer` -/

/-- Where a call of `ivshmem_recv_buffer` is. -/
inductive ChunkRecvPc where
  | find
  | mutex
  | refCount
  | dataSize
  | dataSizeAgain
  | copyOffset (toReceive : Int32)
  | copy (toReceive : Int32) (bufOffset : UInt64)
  | clearSize
  | readRefCount
  | writeRefCount (refCount : Int32)
  deriving DecidableEq

/-- A process that receives by `calls` in order; the first of them is under
way and holds what its `p_buffer` has become. -/
structure ChunkReceiver where
  key : ChannelKey
  calls : List RecvCall
  pc : ChunkRecvPc
  /-- `p_chan`. -/
  chan : Fin maxChannels
  dataReceived : Int32
  /-- What it has copied out of the channel, in order. -/
  copied : List (List UInt8)
  /-- What its calls have returned, each with its `p_buffer` on return. -/
  returned : List (Int32 × Mem UInt8)

/-- A receiver before its first call. -/
def ChunkReceiver.start (key : ChannelKey) (calls : List RecvCall) : ChunkReceiver :=
  ⟨key, calls, .find, 0, 0, [], []⟩

/-- The step of a receiver in its call `call`, with `rest` the later ones. -/
def chunkRecvCallStep (m : ChunkShm) (t : ChunkReceiver) (call : RecvCall) (rest : List RecvCall) :
    ChunkShm × ChunkReceiver :=
  let ch := m.ctr.channels t.chan
  match t.pc with
  | .find =>
    match findChannel m.ctr.common t.key with
    | some i => (m, { t with pc := .mutex, chan := i })
    | none => (m, { t with calls := rest, returned := t.returned ++ [(-1, call.buffer)] })
  | .mutex =>
    if m.ctr.controlMutex ≠ 0 then (m, t)
    else if call.size ≤ intToSize t.dataReceived then
      (m, { t with pc := .find, calls := rest, dataReceived := 0,
                   returned := t.returned ++ [(0, call.buffer)] })
    else (m, { t with pc := .refCount })
  | .refCount => (m, { t with pc := if ch.refCount = 0 then .mutex else .dataSize })
  | .dataSize =>
    let left := call.size - intToSize t.dataReceived
    (m, { t with pc := if left < ch.dataSize then .copyOffset (sizeToInt left) else .dataSizeAgain })
  | .dataSizeAgain => (m, { t with pc := .copyOffset (sizeToInt ch.dataSize) })
  | .copyOffset toReceive => (m, { t with pc := .copy toReceive ch.bufOffset })
  | .copy toReceive bufOffset =>
    let bytes := bytesAt m.data bufOffset.toNat (intToSize toReceive).toNat
    (m, { t with
      pc := .clearSize
      calls := ⟨store call.buffer t.dataReceived.toInt bytes, call.size⟩ :: rest
      dataReceived := t.dataReceived + toReceive
      copied := t.copied ++ [bytes] })
  | .clearSize =>
    ({ m with ctr := m.ctr.modify t.chan fun ch => { ch with dataSize := 0 } },
      { t with pc := .readRefCount })
  | .readRefCount => (m, { t with pc := .writeRefCount ch.refCount })
  | .writeRefCount refCount =>
    ({ m with ctr := m.ctr.modify t.chan fun ch => { ch with refCount := refCount - 1 } },
      { t with pc := .mutex })

/-- One step of a receiver. -/
def chunkRecvStep (m : ChunkShm) (t : ChunkReceiver) : ChunkShm × ChunkReceiver :=
  match t.calls with
  | [] => (m, t)
  | call :: rest => chunkRecvCallStep m t call rest

/-! ## A sender and a receiver -/

/-- A sender and a receiver. -/
structure ChunkLink where
  shm : ChunkShm
  sender : ChunkSender
  receiver : ChunkReceiver

/-- Both before their first calls. -/
def ChunkLink.start (m : ChunkShm) (sk : ChannelKey) (msgs : List Message) (rk : ChannelKey)
    (calls : List RecvCall) :
    ChunkLink :=
  ⟨m, .start sk msgs, .start rk calls⟩

/-- One step of a sender and a receiver. -/
def chunkLinkStep (l : ChunkLink) : Turn → ChunkLink
  | .sender now =>
    { l with shm := (chunkSendStep now l.shm l.sender).1, sender := (chunkSendStep now l.shm l.sender).2 }
  | .receiver =>
    { l with shm := (chunkRecvStep l.shm l.receiver).1, receiver := (chunkRecvStep l.shm l.receiver).2 }

end Ivshmem
