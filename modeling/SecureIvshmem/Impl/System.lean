import SecureIvshmem.Framework.Run
import SecureIvshmem.Impl.Trusted
import SecureIvshmem.Impl.Secure

/-!
# The system, by whole operations

The operations of the trusted side and the clients, each taken as one step of
the shared memory (`Op.exec`): whole calls of the trusted functions, a
client's request, whole turns of the page loops, and single advances of
`head` and `tail`. A client reaches a channel through a pointer it was given,
so its operations act on active channels only.
-/

namespace Ivshmem

open SharedMem

/-- An operation. -/
inductive Op where
  /-- A client raises the flag with its key as the candidate. -/
  | request (key : ChannelKey)
  | trustedControl
  | createChannel (key : ChannelKey)
  | findOrCreateChannel (key : ChannelKey)
  | trustedRebalancing (malloc : Bool)
  | advanceHead (i : Fin maxChannels)
  | advanceTail (i : Fin maxChannels)
  | send (now : Int64) (i : Fin maxChannels) (msg : Message) (dataSent : UInt64)
  | recv (i : Fin maxChannels) (size : UInt64) (dataReceived : Int32)

/-- The memory with a new control section. -/
def Shm.setCtr (m : Shm) (c : ControlSection) : Shm := { m with ctr := c }

@[simp] theorem Shm.setCtr_ctr (m : Shm) (c : ControlSection) : (m.setCtr c).ctr = c := rfl
@[simp] theorem Shm.setCtr_data (m : Shm) (c : ControlSection) : (m.setCtr c).data = m.data := rfl

/-- The memory after an operation. -/
def Op.exec (m : Shm) : Op → Except Fault Shm
  | .request key => .ok (m.setCtr { m.ctr with hasChannelCandidate := true, channelCandidate := key })
  | .trustedControl => (Ivshmem.trustedControl m.ctr).map fun r => m.setCtr r.2
  | .createChannel key => (Ivshmem.createChannel m.ctr key).map fun r => m.setCtr r.2
  | .findOrCreateChannel key => (Ivshmem.findOrCreateChannel m.ctr key).map fun r => m.setCtr r.2
  | .trustedRebalancing malloc => (Ivshmem.trustedRebalancing malloc m.ctr).map fun r => m.setCtr r.2
  | .advanceHead i =>
    .ok (if m.ctr.Active i then
      m.setCtr (m.ctr.modify i fun ch => { ch with head := advance ch.numPage ch.head }) else m)
  | .advanceTail i =>
    .ok (if m.ctr.Active i then
      m.setCtr (m.ctr.modify i fun ch => { ch with tail := advance ch.numPage ch.tail }) else m)
  | .send now i msg dataSent => .ok (if m.ctr.Active i then (sendIteration now i msg dataSent m).1 else m)
  | .recv i size dataReceived =>
    .ok (if m.ctr.Active i then (recvIteration i size (fun _ => 0) dataReceived m).1 else m)

/-- The memory after an operation; that none is undefined is
`exec_of_allocInv`. -/
def Op.apply (m : Shm) (op : Op) : Shm :=
  match op.exec m with
  | .ok m' => m'
  | .error _ => m

/-- The memory after a sequence of operations from
`ivshmem_init_control_section` on the memory `m`. -/
def afterOps (m : Shm) (ops : List Op) : Shm := run Op.apply (initControlSection m) ops

end Ivshmem
