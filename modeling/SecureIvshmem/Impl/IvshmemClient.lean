import Mathlib.Logic.Function.Basic
import SecureIvshmem.Framework.Ledger
import SecureIvshmem.Impl.ClientCommand

/-!
# The client of an ivshmem server

`examples/ivshmem_client/ivshmem-client.c`. The server advertises every client
by messages of an id and a descriptor, one for each of its vectors, and an id
alone when it leaves. A descriptor is the number that the kernel chose; what
the calls of the system return is an argument, and the descriptors that the
process holds are a `Ledger`. The callback is always set, as `main` sets it;
`verbose` decides about output only. `ClientProcess` is the loop of `main`,
with `ivshmem_client_poll_events` of `main.c`; there `none` is what C leaves
undefined.
-/

namespace Ivshmem

open SharedMem

/-- `IVSHMEM_CLIENT_MAX_VECTORS`. -/
abbrev clientMaxVectors : Nat := 64

/-- `PATH_MAX`, the size of `unix_sock_path`. -/
abbrev pathMax : Nat := 4096

/-- The size of `sun_path`. -/
abbrev sunPathMax : Nat := 108

/-- `IvshmemClientPeer`. -/
structure IvshmemClientPeer where
  id : Int64
  vectors : Fin clientMaxVectors → Int
  vectorsCount : Nat

/-- The descriptors of a peer, those below `vectors_count`. -/
def IvshmemClientPeer.fds (peer : IvshmemClientPeer) : List Int :=
  (List.ofFn peer.vectors).take peer.vectorsCount

/-- `IvshmemClient`; `own` is the field `local`. -/
structure IvshmemClient where
  unixSockPath : List UInt8
  sockFd : Int
  shmFd : Int
  peerList : List IvshmemClientPeer
  own : IvshmemClientPeer

/-- What `recvmsg` did: its result, the eight bytes of `index` after it, and the
descriptors that came with each `SCM_RIGHTS` message, which are open from then
on. -/
structure RecvMsg where
  ret : Int
  index : Int64
  control : List (List Int)

/-- The descriptors that came. -/
def RecvMsg.fds (msg : RecvMsg) : List Int := msg.control.flatten

/-- `fd` after a control message: the descriptor in it, if it came alone. -/
def fdAfter (fd : Int) : List Int → Int
  | [x] => x
  | _ => fd

/-- What the loop over the control messages leaves in `fd`. -/
def RecvMsg.fd (msg : RecvMsg) : Int := msg.control.foldl fdAfter (-1)

/-- A pointer to a peer. -/
inductive PeerPtr where
  | own
  | listed (n : Nat)
  deriving DecidableEq

/-- What a client does that others see: the `read` of a counter, a call of
the callback with the number of a vector, and the `write` of a 1. -/
inductive ClientEvent where
  | read (fd : Int)
  | notified (vector : Nat)
  | wrote (fd : Int)
  deriving DecidableEq

namespace IvshmemClient

/-- `ivshmem_client_read_one_msg`: the index and the descriptor, or nothing
where it returns -1. -/
def readOneMsg (msg : RecvMsg) (held : Ledger Int) : Option (Int64 × Int) × Ledger Int :=
  (if msg.ret < 8 then none else some (msg.index, msg.fd), held.acquireAll msg.fds)

/-- `ivshmem_client_search_peer`. -/
def searchPeer (c : IvshmemClient) (peerId : Int64) : Option PeerPtr :=
  if peerId = c.own.id then some .own else (c.peerList.findIdx? fun peer => peer.id == peerId).map .listed

/-- What a pointer points to. -/
def peer (c : IvshmemClient) : PeerPtr → Option IvshmemClientPeer
  | .own => some c.own
  | .listed n => c.peerList[n]?

/-- `ivshmem_client_free_peer`, of peer `n` of the list. -/
def freePeer (c : IvshmemClient) (n : Nat) (held : Ledger Int) : IvshmemClient × Ledger Int :=
  ({ c with peerList := c.peerList.eraseIdx n },
    held.releaseAll (c.peerList[n]?.elim [] IvshmemClientPeer.fds))

/-- The end of `ivshmem_client_handle_server_msg`: a new vector, or -1 if
there are too many. -/
def addVector (peer : IvshmemClientPeer) (fd : Int) : Int32 × IvshmemClientPeer :=
  if h : peer.vectorsCount < clientMaxVectors then
    (0, { peer with
      vectors := Function.update peer.vectors ⟨peer.vectorsCount, h⟩ fd
      vectorsCount := peer.vectorsCount + 1 })
  else (-1, peer)

/-- `ivshmem_client_handle_server_msg`; `calloc` says whether a call of it
would succeed. -/
def handleServerMsg (calloc : Bool) (msg : RecvMsg) (c : IvshmemClient) (held : Ledger Int) :
    Int32 × IvshmemClient × Ledger Int :=
  match readOneMsg msg held with
  | (none, held) => (-1, c, held)
  | (some (peerId, fd), held) =>
    if fd = -1 then
      match c.searchPeer peerId with
      | none | some .own => (-1, c, held)
      | some (.listed n) =>
        let (c, held) := c.freePeer n held
        (0, c, held)
    else
      match c.searchPeer peerId with
      | some .own =>
        let (ret, peer) := addVector c.own fd
        (ret, { c with own := peer }, held)
      | some (.listed n) =>
        (c.peerList[n]?.elim 0 fun peer => (addVector peer fd).1,
          { c with peerList := c.peerList.modify n fun peer => (addVector peer fd).2 }, held)
      | none =>
        if !calloc then (-1, c, held)
        else
          let (ret, peer) := addVector ⟨peerId, fun _ => 0, 0⟩ fd
          (ret, { c with peerList := c.peerList ++ [peer] }, held)

/-- `ivshmem_client_init`. -/
def init (unixSockPath : List UInt8) : Int32 × IvshmemClient :=
  if pathMax ≤ unixSockPath.length then
    (-1, ⟨unixSockPath.take (pathMax - 1), 0, 0, [], ⟨0, fun _ => 0, 0⟩⟩)
  else (0, ⟨unixSockPath, -1, -1, [], ⟨-1, fun _ => -1, 0⟩⟩)

/-- What the calls of `ivshmem_client_connect` do: `socket`, `connect`, and
the three messages. -/
structure ConnectOutcome where
  socket : Int
  connects : Bool
  version : RecvMsg
  id : RecvMsg
  shm : RecvMsg

/-- `err_close`. -/
def errClose (c : IvshmemClient) (held : Ledger Int) : Int32 × IvshmemClient × Ledger Int :=
  (-1, { c with sockFd := -1 }, held.release c.sockFd)

/-- The third message of `ivshmem_client_connect`. -/
def readShm (o : ConnectOutcome) (c : IvshmemClient) (held : Ledger Int) :
    Int32 × IvshmemClient × Ledger Int :=
  match readOneMsg o.shm held with
  | (none, held) => c.errClose held
  | (some (tmp, fd), held) =>
    if tmp ≠ -1 ∨ fd < 0 then c.errClose (if 0 ≤ fd then held.release fd else held)
    else (0, { c with shmFd := fd }, held)

/-- The second message; it is read into `local.id`. -/
def readId (o : ConnectOutcome) (c : IvshmemClient) (held : Ledger Int) :
    Int32 × IvshmemClient × Ledger Int :=
  let c := { c with own := { c.own with id := o.id.index } }
  match readOneMsg o.id held with
  | (none, held) => c.errClose held
  | (some (id, fd), held) => if id < 0 ∨ fd ≠ -1 then c.errClose held else c.readShm o held

/-- `ivshmem_client_connect`. -/
def connect (o : ConnectOutcome) (c : IvshmemClient) (held : Ledger Int) :
    Int32 × IvshmemClient × Ledger Int :=
  let c := { c with sockFd := o.socket }
  if o.socket < 0 then (-1, c, held)
  else
    let held := held.acquire o.socket
    if sunPathMax ≤ c.unixSockPath.length then c.errClose held
    else if !o.connects then c.errClose held
    else
      match readOneMsg o.version held with
      | (none, held) => c.errClose held
      | (some (tmp, fd), held) => if tmp ≠ 0 ∨ fd ≠ -1 then c.errClose held else c.readId o held

/-- The loop of `ivshmem_client_close` over the list of peers. -/
def freePeers (c : IvshmemClient) (held : Ledger Int) : IvshmemClient × Ledger Int :=
  c.peerList.foldl (fun r _ => r.1.freePeer 0 r.2) (c, held)

/-- The loop of `ivshmem_client_close` over the own vectors. -/
def closeOwn (own : IvshmemClientPeer) (held : Ledger Int) : IvshmemClientPeer × Ledger Int :=
  (List.finRange clientMaxVectors).foldl (fun r i =>
    if 0 ≤ r.1.vectors i then
      ({ r.1 with vectors := Function.update r.1.vectors i (-1) }, r.2.release (r.1.vectors i))
    else r) (own, held)

/-- `ivshmem_client_close`. -/
def close (c : IvshmemClient) (held : Ledger Int) : IvshmemClient × Ledger Int :=
  let (c, held) := c.freePeers held
  let (c, held) := if 0 ≤ c.shmFd then ({ c with shmFd := -1 }, held.release c.shmFd) else (c, held)
  let (c, held) := if 0 ≤ c.sockFd then ({ c with sockFd := -1 }, held.release c.sockFd) else (c, held)
  let (own, held) := closeOwn { c.own with id := -1 } held
  ({ c with own := { own with vectorsCount := 0 } }, held)

/-! ## Notifications -/

/-- `FD_SETSIZE`. -/
abbrev fdSetSize : Nat := 1024

/-- `FD_SET`, and the update of `maxfd` after it. -/
def fdSet (r : List Int × Int) (fd : Int) : Option (List Int × Int) :=
  if 0 ≤ fd ∧ fd < fdSetSize then some (r.1 ++ [fd], if r.2 ≤ fd then fd + 1 else r.2) else none

/-- `ivshmem_client_get_fds`. -/
def getFds (c : IvshmemClient) (fds : List Int) (maxfd : Int) : Option (List Int × Int) :=
  (c.sockFd :: c.own.fds).foldlM fdSet (fds, maxfd)

/-- The loop of `ivshmem_client_handle_event` over the vectors `fds`, numbered
from `i` on, and whether it sets `errno` to `EINVAL`; `read` says what `read`
returns. -/
def handleEventFrom (read : Int → Int) (cur : List Int) (maxfd : Int) :
    Nat → List Int → Int32 × Bool × List ClientEvent
  | _, [] => (0, false, [])
  | i, fd :: fds =>
    if maxfd ≤ fd ∨ fd ∉ cur then handleEventFrom read cur maxfd (i + 1) fds
    else if read fd < 0 then (-1, false, [.read fd])
    else if read fd ≠ 8 then (-1, true, [.read fd])
    else
      let (ret, einval, es) := handleEventFrom read cur maxfd (i + 1) fds
      (ret, einval, .read fd :: .notified i :: es)

/-- `ivshmem_client_handle_event`. -/
def handleEvent (read : Int → Int) (cur : List Int) (maxfd : Int) (c : IvshmemClient) :
    Int32 × Bool × List ClientEvent :=
  handleEventFrom read cur maxfd 0 c.own.fds

/-- `ivshmem_client_notify`; `write` says whether the eight bytes are
written. -/
def notify (write : Int → Bool) (peer : IvshmemClientPeer) (vector : UInt32) : Int32 × List ClientEvent :=
  match peer.fds[vector.toNat]? with
  | none => (-1, [])
  | some fd => (if write fd then 0 else -1, [.wrote fd])

/-- One more notification of a loop, which fails if any of them does. -/
def alsoNotify (r e : Int32 × List ClientEvent) : Int32 × List ClientEvent :=
  (if e.1 < 0 then -1 else r.1, r.2 ++ e.2)

/-- `ivshmem_client_notify_all_vects`. -/
def notifyAllVects (write : Int → Bool) (peer : IvshmemClientPeer) : Int32 × List ClientEvent :=
  (List.range peer.vectorsCount).foldl (fun r vector =>
    alsoNotify r (notify write peer (.ofNat vector))) (0, [])

/-- `ivshmem_client_notify_broadcast`. -/
def notifyBroadcast (write : Int → Bool) (c : IvshmemClient) : Int32 × List ClientEvent :=
  c.peerList.foldl (fun r peer => alsoNotify r (notifyAllVects write peer)) (0, [])

/-- A command; what the notifications return is not looked at. -/
def runCommand (write : Int → Bool) (c : IvshmemClient) : ClientCommand → List ClientEvent
  | .help | .dump | .invalid => []
  | .intAll => (c.notifyBroadcast write).2
  | .intVector peerId vector =>
    match (c.searchPeer peerId.toInt64).bind c.peer with
    | none => []
    | some peer => (notify write peer vector.toUInt32).2
  | .intPeer peerId =>
    match (c.searchPeer peerId.toInt64).bind c.peer with
    | none => []
    | some peer => (notifyAllVects write peer).2

/-- `ivshmem_client_handle_stdin_command`; `input` is what `read` read. -/
def handleStdinCommand (write : Int → Bool) (input : Option (List Char)) (c : IvshmemClient) :
    Option (Int32 × List ClientEvent) :=
  match input with
  | none => some (-1, [])
  | some input =>
    (parseCommands (input.take commandMax)).map fun commands => (0, commands.flatMap (c.runCommand write))

/-! ## The loop of `main` -/

/-- What the calls of one turn of `ivshmem_client_poll_events` do; the flags
say whether `errno` is `EINTR` when a call has failed. -/
structure PollOutcome where
  select : Int
  selectEintr : Bool
  /-- What `select` leaves in `fds`. -/
  ready : List Int
  input : Option (List Char)
  inputEintr : Bool
  msg : RecvMsg
  calloc : Bool
  msgEintr : Bool
  read : Int → Int
  readEintr : Bool
  write : Int → Bool

/-- `ivshmem_client_handle_fds`. -/
def handleFds (o : PollOutcome) (fds : List Int) (maxfd : Int) (c : IvshmemClient) (held : Ledger Int) :
    Int32 × (IvshmemClient × Ledger Int) × List ClientEvent :=
  let (ret, c, held) :=
    if c.sockFd < maxfd ∧ c.sockFd ∈ fds then c.handleServerMsg o.calloc o.msg held else (0, c, held)
  if ret < 0 ∧ o.msgEintr = false then (-1, (c, held), [])
  else
    let (ret, einval, es) := c.handleEvent o.read fds maxfd
    (if ret < 0 ∧ (einval || !o.readEintr) then -1 else 0, (c, held), es)

/-- One turn of `ivshmem_client_poll_events`: whether the loop goes on, the
client, and what it did. -/
def pollTurn (o : PollOutcome) (c : IvshmemClient) (held : Ledger Int) :
    Option (Bool × (IvshmemClient × Ledger Int) × List ClientEvent) := do
  let (_, maxfd) ← c.getFds [0] 1
  if o.select < 0 then return (o.selectEintr, (c, held), [])
  let (ret, es) ← if 0 ∈ o.ready then c.handleStdinCommand o.write o.input else some (0, [])
  if ret < 0 ∧ o.inputEintr = false then return (false, (c, held), es)
  let (ret, r, es') := c.handleFds o o.ready maxfd held
  return (decide (0 ≤ ret), r, es ++ es')

end IvshmemClient

/-- The process of `main`. -/
structure ClientProcess where
  client : IvshmemClient
  held : Ledger Int
  /-- In `ivshmem_client_poll_events`. -/
  connected : Bool

/-- What the calls of one turn of the outer loop of `main`, or of
`ivshmem_client_poll_events`, do. -/
inductive ClientTurn where
  | connect (o : IvshmemClient.ConnectOutcome)
  | poll (o : IvshmemClient.PollOutcome)

/-- `main` after `ivshmem_client_init`; the standard streams are open. -/
def ClientProcess.start (unixSockPath : List UInt8) : ClientProcess :=
  ⟨(IvshmemClient.init unixSockPath).2, ⟨{0, 1, 2}, []⟩, false⟩

/-- One turn, and what it did; a turn of the other loop does not happen. After
the last turn of `ivshmem_client_poll_events`, which returns what `select` did,
`main` closes the client, unless that is 0. -/
def clientTurn (s : ClientProcess) : ClientTurn → Option (ClientProcess × List ClientEvent)
  | .connect o =>
    if s.connected then none
    else
      let (ret, c, held) := s.client.connect o s.held
      some (⟨c, held, decide (0 ≤ ret)⟩, [])
  | .poll o =>
    if s.connected then do
      let (goesOn, (c, held), es) ← s.client.pollTurn o s.held
      if goesOn then return (⟨c, held, true⟩, es)
      if o.select = 0 then return (⟨c, held, false⟩, es)
      let (c, held) := c.close held
      return (⟨c, held, false⟩, es)
    else none

end Ivshmem
