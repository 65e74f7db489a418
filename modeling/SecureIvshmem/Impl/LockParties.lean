import SecureIvshmem.Impl.LockBase

/-!
# Any number of parties on the lock

Senders and receivers of `src/ivshmem_lock_base.c` on one memory, one access
to it at a time.
-/

namespace Ivshmem

open SharedMem

/-- A process of either kind. -/
inductive LockParty where
  | sender (t : LockSender)
  | receiver (t : LockReceiver)

/-- What a process calls: `ivshmem_lock_send_buffer` for each of `msgs`, or
`ivshmem_lock_recv_buffer` for each of `calls`. -/
inductive LockRole where
  | sends (key : LockKey) (msgs : List Message)
  | receives (key : LockKey) (calls : List RecvCall)

/-- A process before its first call. -/
def LockParty.start : LockRole → LockParty
  | .sends key msgs => .sender (.start key msgs)
  | .receives key calls => .receiver (.start key calls)

/-- One step of a process. -/
def lockPartyStep (m : LockShm) : LockParty → LockShm × LockParty
  | .sender t => ((lockSendStep m t).1, .sender (lockSendStep m t).2)
  | .receiver t => ((lockRecvStep m t).1, .receiver (lockRecvStep m t).2)

/-- Whether a chunk is published and not yet copied, after the next step of a
process: a sender's store to `ref_count` publishes one, and a receiver's copy
takes it. -/
def unreadAfter (unread : Bool) : LockParty → Bool
  | .sender t =>
    match t.calls, t.pc with
    | _ :: _, .refCount => true
    | _, _ => unread
  | .receiver t =>
    match t.calls, t.pc with
    | _ :: _, .copy => false
    | _, _ => unread

/-- Processes on one memory. -/
structure LockParties (ι : Type*) where
  shm : LockShm
  party : ι → LockParty
  /-- A published chunk that no receiver has copied. -/
  unread : Bool

variable {ι : Type*}

/-- Processes before their first calls, on a memory just initialised. -/
def LockParties.start (m : LockShm) (roles : ι → LockRole) : LockParties ι :=
  ⟨lockInitControlSection m, fun p => .start (roles p), false⟩

/-- One step of process `p`. -/
def lockPartiesStep [DecidableEq ι] (s : LockParties ι) (p : ι) : LockParties ι where
  shm := (lockPartyStep s.shm (s.party p)).1
  party := Function.update s.party p (lockPartyStep s.shm (s.party p)).2
  unread := unreadAfter s.unread (s.party p)

end Ivshmem
