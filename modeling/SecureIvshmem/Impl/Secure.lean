import SecureIvshmem.Impl.Control

/-!
# Clients

`src/ivshmem_secure.c` in page mode (`IVSHMEM_TYPE` 2). `sendIteration` and
`recvIteration` are one turn of the loops of `ivshmem_send_buffer` and
`ivshmem_recv_buffer` as a whole; `sendStep` and `recvStep` run the same
functions one access to the shared memory at a time. A program counter names
the access that comes next, and carries what the statement under way has read
so far; operands are read from left to right. Work on local variables is done
together with the access before it.
-/

namespace Ivshmem

open SharedMem SharedMem.Word

/-- `MIN` on `size_t`. -/
def minSize (a b : UInt64) : UInt64 := if a < b then a else b

/-- A buffer to send: the memory from `p_buffer` on, of which the first `size`
bytes are the message. -/
structure Message where
  buffer : Mem UInt8
  size : UInt64

/-- `to_sent` of every turn of the sender's loop. -/
def toSent (size : UInt64) : UInt64 := minSize (size - .ofNat pageSize) (.ofNat pageSize)

/-- `to_receive`. -/
def toReceive (size : UInt64) (dataReceived : Int32) : Int32 :=
  sizeToInt (minSize (size - intToSize dataReceived) (.ofNat pageSize))

/-- The bytes that a turn of the sender's loop copies. -/
def sentBytes (msg : Message) (dataSent : UInt64) : List UInt8 :=
  bytesAt msg.buffer dataSent.toNat (toSent msg.size).toNat

/-- The bytes that a turn of the receiver's loop copies from a page at offset
`a` of `m`. -/
def receivedBytes (m : Mem UInt8) (a : Int) (size : UInt64) (dataReceived : Int32) : List UInt8 :=
  bytesAt m a (intToSize (toReceive size dataReceived)).toNat

/-- Where page `i` of a channel at `bufOffset` starts in the data section: the
product is taken in `uint32_t`. -/
def pageOffset (bufOffset : UInt64) (i : UInt32) : Int := bufOffset.toNat + (i * .ofNat pageSize).toNat

/-- `(i + 1) % num_page`. -/
def advance (numPage : Int32) (i : UInt32) : UInt32 := (i + 1) % intToU32 numPage

/-- The sender's full test. -/
def channelFull (ch : Channel) : Bool :=
  ch.head == ch.tail - 1 || (ch.head == intToU32 (ch.numPage - 1) && ch.tail == 0)

/-- The receiver's empty test. -/
def channelEmpty (ch : Channel) : Bool := ch.head == ch.tail

/-! ## Whole turns of the loops -/

/-- What a turn of the sender's loop that does not wait does to the memory. -/
def publishPage (now : Int64) (i : Fin maxChannels) (msg : Message) (dataSent : UInt64) (m : Shm) :
    Shm where
  ctr := m.ctr.modify i fun ch =>
    { ch with
      head := advance ch.numPage ch.head
      dataSize := ch.dataSize + toSent msg.size
      lastSentAt := now }
  data :=
    store m.data (pageOffset (m.ctr.channels i).bufOffset (m.ctr.channels i).head)
      (sentBytes msg dataSent)

/-- One turn of the sender's loop on channel `i`: the memory and `data_sent`
after it. -/
def sendIteration (now : Int64) (i : Fin maxChannels) (msg : Message) (dataSent : UInt64) (m : Shm) :
    Shm × UInt64 :=
  if m.ctr.controlMutex ≠ 0 then (m, dataSent)
  else if msg.size ≤ dataSent then (m, dataSent)
  else if channelFull (m.ctr.channels i) then (m, dataSent)
  else (publishPage now i msg dataSent m, dataSent + toSent msg.size)

/-- What a turn of the receiver's loop that does not wait does to the memory;
`n` is `to_receive`. -/
def consumePage (i : Fin maxChannels) (n : Int32) (m : Shm) : Shm :=
  { m with ctr := m.ctr.modify i fun ch =>
      { ch with tail := advance ch.numPage ch.tail, dataSize := ch.dataSize - intToSize n } }

/-- One turn of the receiver's loop on channel `i`: the memory, `p_buffer`
and `data_received` after it. -/
def recvIteration (i : Fin maxChannels) (size : UInt64) (buffer : Mem UInt8) (dataReceived : Int32)
    (m : Shm) : Shm × Mem UInt8 × Int32 :=
  let ch := m.ctr.channels i
  if m.ctr.controlMutex ≠ 0 then (m, buffer, dataReceived)
  else if size ≤ intToSize dataReceived then (m, buffer, dataReceived)
  else if channelEmpty ch then (m, buffer, dataReceived)
  else
    let n := toReceive size dataReceived
    (consumePage i n m,
      store buffer dataReceived.toInt
        (receivedBytes m.data (pageOffset ch.bufOffset ch.tail) size dataReceived),
      dataReceived + n)

/-! ## The loops on a stream of pages

The same turns with the waiting left out: what a call of
`ivshmem_send_buffer` copies into successive pages, and what a call of
`ivshmem_recv_buffer` makes of the pages it finds. -/

/-- The runs of bytes that the sender's loop publishes from `data_sent` on,
if it ends within `fuel` turns. -/
def sendLoop (msg : Message) : Nat → UInt64 → Option (List (List UInt8))
  | 0, _ => none
  | fuel + 1, dataSent =>
    if msg.size ≤ dataSent then some []
    else (sendLoop msg fuel (dataSent + toSent msg.size)).map (sentBytes msg dataSent :: ·)

/-- The receiver's loop on the pages to come: `p_buffer` and the pages left
when it ends, if there are enough of them. -/
def recvLoop (size : UInt64) (pages : List (Mem UInt8)) (dataReceived : Int32) (buffer : Mem UInt8) :
    Option (Mem UInt8 × List (Mem UInt8)) :=
  if size ≤ intToSize dataReceived then some (buffer, pages)
  else
    match pages with
    | [] => none
    | page :: pages =>
      recvLoop size pages (dataReceived + toReceive size dataReceived)
        (store buffer dataReceived.toInt (receivedBytes page 0 size dataReceived))

/-! ## `ivshmem_request_channel`, step by step -/

/-- Where a call of `ivshmem_request_channel` is. -/
inductive RequestPc where
  | find
  | raise
  | writeSenderVm
  | writeSenderPid
  | writeReceiverVm
  | poll
  | findAgain
  | returned (p : Option (Fin maxChannels))
  deriving DecidableEq

/-- One step of `ivshmem_request_channel`; the candidate is copied word by
word. -/
def requestStep (key : ChannelKey) (c : ControlSection) : RequestPc → ControlSection × RequestPc
  | .find =>
    match findChannel c key with
    | some i => (c, .returned (some i))
    | none => (c, .raise)
  | .raise => ({ c with hasChannelCandidate := true }, .writeSenderVm)
  | .writeSenderVm =>
    ({ c with channelCandidate := { c.channelCandidate with senderVm := key.senderVm } }, .writeSenderPid)
  | .writeSenderPid =>
    ({ c with channelCandidate := { c.channelCandidate with senderPid := key.senderPid } },
      .writeReceiverVm)
  | .writeReceiverVm =>
    ({ c with channelCandidate := { c.channelCandidate with receiverVm := key.receiverVm } }, .poll)
  | .poll => (c, if c.hasChannelCandidate then .poll else .findAgain)
  | .findAgain => (c, .returned (findChannel c key))
  | .returned p => (c, .returned p)

/-! ## `ivshmem_send_buffer`, step by step -/

/-- Where a call of `ivshmem_send_buffer` is. -/
inductive SendPc where
  | request (pc : RequestPc)
  | mutex
  | fullHead
  | fullTail (head : UInt32)
  | lastHead
  | lastNumPage (head : UInt32)
  | lastTail
  | copyOffset
  | copyHead (bufOffset : UInt64)
  | copy (bufOffset : UInt64) (head : UInt32)
  | nextHead
  | nextNumPage (head : UInt32)
  | storeHead (head : UInt32)
  | addSize
  | stamp
  deriving DecidableEq

/-- A process that sends the messages `calls` in order, the first of them by
the call under way. -/
structure Sender where
  key : ChannelKey
  calls : List Message
  pc : SendPc
  /-- `p_chan`. -/
  chan : Fin maxChannels
  dataSent : UInt64
  /-- How often this process has stored `head`. -/
  published : Nat
  /-- What its calls have returned. -/
  returned : List Int32

/-- A sender before its first call. -/
def Sender.start (key : ChannelKey) (calls : List Message) : Sender :=
  ⟨key, calls, .request .find, 0, 0, 0, []⟩

/-- The step of a sender in its call for `msg`, with `rest` the later ones. -/
def sendCallStep (now : Int64) (m : Shm) (t : Sender) (msg : Message) (rest : List Message) :
    Shm × Sender :=
  let ch := m.ctr.channels t.chan
  match t.pc with
  | .request pc =>
    let (c, pc) := requestStep t.key m.ctr pc
    let m := { m with ctr := c }
    match pc with
    | .returned (some i) => (m, { t with pc := .mutex, chan := i })
    | .returned none =>
      (m, { t with pc := .request .find, calls := rest, returned := t.returned ++ [-1] })
    | pc => (m, { t with pc := .request pc })
  | .mutex =>
    if m.ctr.controlMutex ≠ 0 then (m, t)
    else if msg.size ≤ t.dataSent then
      (m, { t with pc := .request .find, calls := rest, dataSent := 0, returned := t.returned ++ [0] })
    else (m, { t with pc := .fullHead })
  | .fullHead => (m, { t with pc := .fullTail ch.head })
  | .fullTail head => (m, { t with pc := if head = ch.tail - 1 then .mutex else .lastHead })
  | .lastHead => (m, { t with pc := .lastNumPage ch.head })
  | .lastNumPage head =>
    (m, { t with pc := if head = intToU32 (ch.numPage - 1) then .lastTail else .copyOffset })
  | .lastTail => (m, { t with pc := if ch.tail = 0 then .mutex else .copyOffset })
  | .copyOffset => (m, { t with pc := .copyHead ch.bufOffset })
  | .copyHead bufOffset => (m, { t with pc := .copy bufOffset ch.head })
  | .copy bufOffset head =>
    ({ m with data := store m.data (pageOffset bufOffset head) (sentBytes msg t.dataSent) },
      { t with pc := .nextHead })
  | .nextHead => (m, { t with pc := .nextNumPage ch.head })
  | .nextNumPage head => (m, { t with pc := .storeHead (advance ch.numPage head) })
  | .storeHead head =>
    ({ m with ctr := m.ctr.modify t.chan fun ch => { ch with head := head } },
      { t with pc := .addSize, dataSent := t.dataSent + toSent msg.size, published := t.published + 1 })
  | .addSize =>
    ({ m with ctr := m.ctr.modify t.chan fun ch =>
      { ch with dataSize := ch.dataSize + toSent msg.size } },
      { t with pc := .stamp })
  | .stamp =>
    ({ m with ctr := m.ctr.modify t.chan fun ch => { ch with lastSentAt := now } },
      { t with pc := .mutex })

/-- One step of a sender; `now` is what `time(NULL)` returns. -/
def sendStep (now : Int64) (m : Shm) (t : Sender) : Shm × Sender :=
  match t.calls with
  | [] => (m, t)
  | msg :: rest => sendCallStep now m t msg rest

/-! ## `ivshmem_recv_buffer`, step by step -/

/-- Where a call of `ivshmem_recv_buffer` is. -/
inductive RecvPc where
  | find
  | mutex
  | emptyHead
  | emptyTail (head : UInt32)
  | copyOffset
  | copyTail (bufOffset : UInt64)
  | copy (bufOffset : UInt64) (tail : UInt32)
  | nextTail
  | nextNumPage (tail : UInt32)
  | storeTail (tail : UInt32)
  | subSize (toReceive : Int32)
  deriving DecidableEq

/-- A call of `ivshmem_recv_buffer`: the memory around `p_buffer`, and
`size`. -/
structure RecvCall where
  buffer : Mem UInt8
  size : UInt64

/-- A process that receives by `calls` in order, the first of them under
way. -/
structure Receiver where
  key : ChannelKey
  calls : List RecvCall
  pc : RecvPc
  /-- `p_chan`. -/
  chan : Fin maxChannels
  dataReceived : Int32
  /-- The memory around the `p_buffer` of the call under way. -/
  buffer : Mem UInt8
  /-- How often this process has stored `tail`. -/
  consumed : Nat
  /-- What it has copied out of pages, in order. -/
  pages : List (List UInt8)
  /-- What its calls have returned, each with its `p_buffer` on return. -/
  returned : List (Int32 × Mem UInt8)

/-- A receiver before its first call. -/
def Receiver.start (key : ChannelKey) (calls : List RecvCall) : Receiver :=
  ⟨key, calls, .find, 0, 0, fun _ => 0, 0, [], []⟩

/-- The step of a receiver in its call `call`, with `rest` the later ones. -/
def recvCallStep (m : Shm) (t : Receiver) (call : RecvCall) (rest : List RecvCall) : Shm × Receiver :=
  let ch := m.ctr.channels t.chan
  let n := toReceive call.size t.dataReceived
  match t.pc with
  | .find =>
    match findChannel m.ctr t.key with
    | some i => (m, { t with pc := .mutex, chan := i, buffer := call.buffer })
    | none => (m, { t with calls := rest, returned := t.returned ++ [(-1, call.buffer)] })
  | .mutex =>
    if m.ctr.controlMutex ≠ 0 then (m, t)
    else if call.size ≤ intToSize t.dataReceived then
      (m, { t with pc := .find, calls := rest, dataReceived := 0,
                   returned := t.returned ++ [(0, t.buffer)] })
    else (m, { t with pc := .emptyHead })
  | .emptyHead => (m, { t with pc := .emptyTail ch.head })
  | .emptyTail head => (m, { t with pc := if head = ch.tail then .mutex else .copyOffset })
  | .copyOffset => (m, { t with pc := .copyTail ch.bufOffset })
  | .copyTail bufOffset => (m, { t with pc := .copy bufOffset ch.tail })
  | .copy bufOffset tail =>
    let page := receivedBytes m.data (pageOffset bufOffset tail) call.size t.dataReceived
    (m, { t with pc := .nextTail, buffer := store t.buffer t.dataReceived.toInt page,
                 pages := t.pages ++ [page] })
  | .nextTail => (m, { t with pc := .nextNumPage ch.tail })
  | .nextNumPage tail => (m, { t with pc := .storeTail (advance ch.numPage tail) })
  | .storeTail tail =>
    ({ m with ctr := m.ctr.modify t.chan fun ch => { ch with tail := tail } },
      { t with pc := .subSize n, dataReceived := t.dataReceived + n, consumed := t.consumed + 1 })
  | .subSize n =>
    ({ m with ctr := m.ctr.modify t.chan fun ch => { ch with dataSize := ch.dataSize - intToSize n } },
      { t with pc := .mutex })

/-- One step of a receiver. -/
def recvStep (m : Shm) (t : Receiver) : Shm × Receiver :=
  match t.calls with
  | [] => (m, t)
  | call :: rest => recvCallStep m t call rest

/-! ## Clients -/

/-- A process of either kind. -/
inductive Client where
  | sender (t : Sender)
  | receiver (t : Receiver)

/-- One step of a client. -/
def clientStep (now : Int64) (m : Shm) : Client → Shm × Client
  | .sender t => ((sendStep now m t).1, .sender (sendStep now m t).2)
  | .receiver t => ((recvStep m t).1, .receiver (recvStep m t).2)

end Ivshmem
