import SecureIvshmem.Framework.Run
import SecureIvshmem.Impl.Secure

/-!
# Processes on one memory

The systems of clients that run while no trusted operation does: a sender and
a receiver (`Link`), and any number of clients (`Clients`). A step is one
access to the shared memory by one of them; a label says by which, and what
`time(NULL)` returns there.
-/

namespace Ivshmem

/-- A sender and a receiver. -/
structure Link where
  shm : Shm
  sender : Sender
  receiver : Receiver

/-- Who takes a step. -/
inductive Turn where
  | sender (now : Int64)
  | receiver

/-- Whether it is the sender's turn. -/
def Turn.ofSender : Turn → Bool
  | .sender _ => true
  | .receiver => false

/-- One step of a sender and a receiver. -/
def linkStep (l : Link) : Turn → Link
  | .sender now =>
    { l with shm := (sendStep now l.shm l.sender).1, sender := (sendStep now l.shm l.sender).2 }
  | .receiver =>
    { l with shm := (recvStep l.shm l.receiver).1, receiver := (recvStep l.shm l.receiver).2 }

/-- What a process is told to do: its key and its calls. -/
inductive Party where
  | sender (key : ChannelKey) (calls : List Message)
  | receiver (key : ChannelKey) (calls : List RecvCall)

namespace Party

def key : Party → ChannelKey
  | sender key _ => key
  | receiver key _ => key

/-- The process before its first call. -/
def start : Party → Client
  | sender key calls => .sender (.start key calls)
  | receiver key calls => .receiver (.start key calls)

end Party

/-- Any number of clients, named by `ι`. -/
structure Clients (ι : Type*) where
  shm : Shm
  client : ι → Client

variable {ι : Type*} [DecidableEq ι]

/-- The clients before their first calls. -/
def Clients.start (m : Shm) (parties : ι → Party) : Clients ι := ⟨m, fun i => (parties i).start⟩

/-- One step of client `l.1`. -/
def clientsStep (s : Clients ι) (l : ι × Int64) : Clients ι where
  shm := (clientStep l.2 s.shm (s.client l.1)).1
  client := Function.update s.client l.1 (clientStep l.2 s.shm (s.client l.1)).2

end Ivshmem
