import SecureIvshmem.Framework.CopyLoop
import SecureIvshmem.Impl.LockBase

/-!
# Turns of the loops

What a turn of the loops of `ivshmem_send_buffer`, `ivshmem_recv_buffer` and
`ivshmem_lock_recv_buffer` does with its buffer: whether it waits, copies or
returns, and the range that it copies. `data_sent` and `data_received` are all
that one turn leaves to the next.
-/

namespace Ivshmem

open SharedMem SharedMem.Word

/-! ## `ivshmem_send_buffer` -/

/-- What a turn of the sender's loop on channel `i` does. -/
def sendOutcome (i : Fin maxChannels) (size : UInt64) (m : Shm) (dataSent : UInt64) : Outcome :=
  if m.ctr.controlMutex ≠ 0 then .waits
  else if size ≤ dataSent then .returns
  else if channelFull (m.ctr.channels i) then .waits
  else .copies

/-- The sender's loop for a message of `size` bytes. -/
def sendTurns (i : Fin maxChannels) (size : UInt64) : CopyLoop Shm UInt64 where
  outcome := sendOutcome i size
  range dataSent := (dataSent.toNat, (toSent size).toNat)
  next dataSent := dataSent + toSent size

/-! ## `ivshmem_recv_buffer` -/

/-- What a turn of the receiver's loop on channel `i` does. -/
def recvOutcome (i : Fin maxChannels) (size : UInt64) (m : Shm) (dataReceived : Int32) : Outcome :=
  if m.ctr.controlMutex ≠ 0 then .waits
  else if size ≤ intToSize dataReceived then .returns
  else if channelEmpty (m.ctr.channels i) then .waits
  else .copies

/-- The receiver's loop for `size` bytes. -/
def recvTurns (i : Fin maxChannels) (size : UInt64) : CopyLoop Shm Int32 where
  outcome := recvOutcome i size
  range dataReceived := (dataReceived.toInt, (intToSize (toReceive size dataReceived)).toNat)
  next dataReceived := dataReceived + toReceive size dataReceived

/-! ## `ivshmem_lock_recv_buffer` -/

/-- The entry test: nothing is there for `key`. -/
def lockNothingFor (key : LockKey) (m : LockShm) : Bool :=
  m.key.receiverVm != key.receiverVm || m.key.senderVm != key.senderVm ||
    (key.senderPid != 0 && m.key.senderPid != key.senderPid) || decide (m.refCount ≤ 0)

/-- One turn of the receiver's loop: the memory, `p_buffer` and
`data_received` after it. -/
def lockRecvIteration (key : LockKey) (size : UInt64) (buffer : Mem UInt8) (dataReceived : Int32)
    (m : LockShm) :
    LockShm × Mem UInt8 × Int32 :=
  if size ≤ intToSize dataReceived then (m, buffer, dataReceived)
  else if lockNothingFor key m then (m, buffer, dataReceived)
  else if m.mutex then (m, buffer, dataReceived)
  else
    let n := lockToReceive size dataReceived
    ({ m with refCount := m.refCount - 1, mutex := false },
      store buffer dataReceived.toInt (bytesAt m.data 0 (intToSize n).toNat), dataReceived + n)

/-- What a turn of the receiver's loop does. -/
def lockRecvOutcome (key : LockKey) (size : UInt64) (m : LockShm) (dataReceived : Int32) : Outcome :=
  if size ≤ intToSize dataReceived then .returns
  else if lockNothingFor key m then .waits
  else if m.mutex then .waits
  else .copies

/-- The receiver's loop for `size` bytes. -/
def lockRecvTurns (key : LockKey) (size : UInt64) : CopyLoop LockShm Int32 where
  outcome := lockRecvOutcome key size
  range dataReceived := (dataReceived.toInt, (intToSize (lockToReceive size dataReceived)).toNat)
  next dataReceived := dataReceived + lockToReceive size dataReceived

end Ivshmem
