import SecureIvshmem.Impl.Secure

/-!
# The writer and the reader

The loops of `examples/writer/main.c` and `examples/reader/main.c`. The writer
numbers its messages, and the reader checks the numbers, on a machine that
stores the low byte first. The calls themselves are those of a `Sender` and of
a `Receiver`.
-/

namespace Ivshmem

open SharedMem SharedMem.Word

/-- `MESSAGE_SIZE` of both. -/
abbrev messageSize : Nat := 256 * 1024 * 1024

/-- What the writer puts into `send_buf`. -/
def fillMessage (counter : UInt64) (sendBuf : Mem UInt8) : Mem UInt8 :=
  let sendBuf := store sendBuf 0 (leBytes 8 counter.toNat)
  store sendBuf 8 (.replicate (messageSize - 8) (counter % 256).toUInt8)

/-- The writer's first `n` messages, from `counter` on. -/
def writerMessages : Nat → UInt64 → Mem UInt8 → List Message
  | 0, _, _ => []
  | n + 1, counter, sendBuf =>
    ⟨fillMessage counter sendBuf, .ofNat messageSize⟩ ::
      writerMessages n (counter + 1) (fillMessage counter sendBuf)

/-- What the reader reports of a message. -/
inductive ReaderReport where
  | received (counter : UInt64)
  | mismatch (expected got : UInt64)
  | failed
  deriving DecidableEq

/-- `received_counter`. -/
def receivedCounter (recvBuf : Mem UInt8) : UInt64 := .ofNat (leValue (bytesAt recvBuf 0 8))

/-- The reader's loop on what its calls return; it exits when one fails. -/
def readerLoop : UInt64 → List (Int32 × Mem UInt8) → List ReaderReport
  | _, [] => []
  | expected, (ret, recvBuf) :: rest =>
    if ret ≠ 0 then [.failed]
    else
      (if receivedCounter recvBuf ≠ expected then .mismatch expected (receivedCounter recvBuf)
        else .received (receivedCounter recvBuf)) :: readerLoop (expected + 1) rest

end Ivshmem
