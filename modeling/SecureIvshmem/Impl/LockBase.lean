import SecureIvshmem.Framework.Run
import SecureIvshmem.Impl.Secure

/-!
# The lock-based transport

`src/ivshmem_lock_base.c`: one buffer for everyone, handed over by
`ref_count` and guarded by `mutex`. One step is one access to the shared
memory; the work on local variables is done together with an access next to
it.
-/

namespace Ivshmem

open SharedMem SharedMem.Word

/-- `sizeof(struct IvshmemLockControlSection)`. -/
abbrev lockControlSectionSize : Nat := 32

/-- `DATA_SECTION_SIZE` of `ivshmem_lock_base.h`. -/
abbrev lockDataSectionSize : Nat := ivshmemSize - lockControlSectionSize

/-- `struct IvshmemLockKey`. -/
structure LockKey where
  senderVm : UInt32
  senderPid : UInt32
  receiverVm : UInt32
  deriving DecidableEq, Repr

/-- `struct IvshmemLockControlSection` and the data section after it. -/
structure LockShm where
  refCount : Int32
  mutex : Bool
  key : LockKey
  dataSize : UInt64
  data : Mem UInt8

/-- `ivshmem_lock_init_control_section`. -/
def lockInitControlSection (m : LockShm) : LockShm :=
  { m with mutex := false, key := ⟨0, 0, 0⟩, dataSize := 0, refCount := 0 }

/-- `to_sent`. -/
def lockToSent (size dataSent : UInt64) : UInt64 := minSize (size - dataSent) (.ofNat lockDataSectionSize)

/-- `to_receive`. -/
def lockToReceive (size : UInt64) (dataReceived : Int32) : Int32 :=
  sizeToInt (minSize (size - intToSize dataReceived) (.ofNat lockDataSectionSize))

/-! ## `ivshmem_lock_send_buffer` -/

/-- Where a call of `ivshmem_lock_send_buffer` is. -/
inductive LockSendPc where
  | loop
  | mutex
  | setMutex
  | copy
  | keyPid
  | keyReceiver
  | keySender
  | dataSize
  | refCount
  | clearMutex
  deriving DecidableEq

/-- A process that sends the messages `calls` in order, the first of them by
the call under way. -/
structure LockSender where
  key : LockKey
  calls : List Message
  pc : LockSendPc
  dataSent : UInt64
  toSent : UInt64
  /-- How often this process has set `ref_count`. -/
  published : Nat
  /-- What its calls have returned. -/
  returned : List Int32

/-- A sender before its first call. -/
def LockSender.start (key : LockKey) (calls : List Message) : LockSender :=
  ⟨key, calls, .loop, 0, 0, 0, []⟩

/-- The step of a sender in its call for `msg`, with `rest` the later ones. -/
def lockSendCallStep (m : LockShm) (t : LockSender) (msg : Message) (rest : List Message) :
    LockShm × LockSender :=
  match t.pc with
  | .loop =>
    if msg.size ≤ t.dataSent then
      (m, { t with calls := rest, dataSent := 0, returned := t.returned ++ [0] })
    else (m, { t with pc := if 0 < m.refCount then .loop else .mutex })
  | .mutex => (m, { t with pc := if m.mutex then .loop else .setMutex })
  | .setMutex => ({ m with mutex := true }, { t with pc := .copy })
  | .copy =>
    let n := lockToSent msg.size t.dataSent
    ({ m with data := store m.data 0 (bytesAt msg.buffer t.dataSent.toNat n.toNat) },
      { t with pc := .keyPid, dataSent := t.dataSent + n, toSent := n })
  | .keyPid =>
    ({ m with key := { m.key with senderPid := t.key.senderPid } }, { t with pc := .keyReceiver })
  | .keyReceiver =>
    ({ m with key := { m.key with receiverVm := t.key.receiverVm } }, { t with pc := .keySender })
  | .keySender =>
    ({ m with key := { m.key with senderVm := t.key.senderVm } }, { t with pc := .dataSize })
  | .dataSize => ({ m with dataSize := t.toSent }, { t with pc := .refCount })
  | .refCount => ({ m with refCount := 1 }, { t with pc := .clearMutex, published := t.published + 1 })
  | .clearMutex => ({ m with mutex := false }, { t with pc := .loop })

/-- One step of a sender. -/
def lockSendStep (m : LockShm) (t : LockSender) : LockShm × LockSender :=
  match t.calls with
  | [] => (m, t)
  | msg :: rest => lockSendCallStep m t msg rest

/-! ## `ivshmem_lock_recv_buffer` -/

/-- Where a call of `ivshmem_lock_recv_buffer` is; the entry test reads from
left to right. -/
inductive LockRecvPc where
  | loop
  | keySender
  | keyPid
  | refCount
  | mutex
  | setMutex
  | copy
  | readRefCount
  | writeRefCount (refCount : Int32)
  | clearMutex
  deriving DecidableEq

/-- A process that receives by `calls` in order; the first of them is under
way and holds what its `p_buffer` has become. -/
structure LockReceiver where
  key : LockKey
  calls : List RecvCall
  pc : LockRecvPc
  dataReceived : Int32
  /-- How often this process has copied out of the data section. -/
  copied : Nat
  /-- What its calls have returned, each with its `p_buffer` on return. -/
  returned : List (Int32 × Mem UInt8)

/-- A receiver before its first call. -/
def LockReceiver.start (key : LockKey) (calls : List RecvCall) : LockReceiver :=
  ⟨key, calls, .loop, 0, 0, []⟩

/-- The step of a receiver in its call `call`, with `rest` the later ones. -/
def lockRecvCallStep (m : LockShm) (t : LockReceiver) (call : RecvCall) (rest : List RecvCall) :
    LockShm × LockReceiver :=
  match t.pc with
  | .loop =>
    if call.size ≤ intToSize t.dataReceived then
      (m, { t with calls := rest, dataReceived := 0, returned := t.returned ++ [(0, call.buffer)] })
    else (m, { t with pc := if m.key.receiverVm ≠ t.key.receiverVm then .loop else .keySender })
  | .keySender =>
    (m, { t with
      pc := if m.key.senderVm ≠ t.key.senderVm then .loop else if t.key.senderPid ≠ 0 then .keyPid
        else .refCount })
  | .keyPid => (m, { t with pc := if m.key.senderPid ≠ t.key.senderPid then .loop else .refCount })
  | .refCount => (m, { t with pc := if m.refCount ≤ 0 then .loop else .mutex })
  | .mutex => (m, { t with pc := if m.mutex then .loop else .setMutex })
  | .setMutex => ({ m with mutex := true }, { t with pc := .copy })
  | .copy =>
    let bytes := bytesAt m.data 0 (intToSize (lockToReceive call.size t.dataReceived)).toNat
    (m, { t with
      pc := .readRefCount
      copied := t.copied + 1
      calls := ⟨store call.buffer t.dataReceived.toInt bytes, call.size⟩ :: rest })
  | .readRefCount => (m, { t with pc := .writeRefCount m.refCount })
  | .writeRefCount refCount =>
    ({ m with refCount := refCount - 1 },
      { t with pc := .clearMutex,
               dataReceived := t.dataReceived + lockToReceive call.size t.dataReceived })
  | .clearMutex => ({ m with mutex := false }, { t with pc := .loop })

/-- One step of a receiver. -/
def lockRecvStep (m : LockShm) (t : LockReceiver) : LockShm × LockReceiver :=
  match t.calls with
  | [] => (m, t)
  | call :: rest => lockRecvCallStep m t call rest

/-! ## A sender and a receiver -/

/-- A sender and a receiver on one memory. -/
structure LockLink where
  shm : LockShm
  sender : LockSender
  receiver : LockReceiver

/-- Both before their first calls. -/
def LockLink.start (m : LockShm) (key : LockKey) (msgs : List Message) (key' : LockKey)
    (calls : List RecvCall) :
    LockLink :=
  ⟨m, .start key msgs, .start key' calls⟩

/-- Who takes a step. -/
inductive LockTurn where
  | sender
  | receiver

/-- One step of a sender and a receiver. -/
def lockLinkStep (l : LockLink) : LockTurn → LockLink
  | .sender =>
    { l with shm := (lockSendStep l.shm l.sender).1, sender := (lockSendStep l.shm l.sender).2 }
  | .receiver =>
    { l with shm := (lockRecvStep l.shm l.receiver).1, receiver := (lockRecvStep l.shm l.receiver).2 }

end Ivshmem
