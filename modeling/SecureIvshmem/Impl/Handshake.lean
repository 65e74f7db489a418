import SecureIvshmem.Framework.Mem
import SecureIvshmem.Framework.Word

/-!
# Two measuring programs

`examples/latency_test/latency_test.c` and `examples/shm_test/shm_comm.c`: a
parent and a child that hand numbers over to one another, by counters or by
semaphores. A step is one access to the memory that they share; clocks and
reports are left out. No signal interrupts `sem_wait`.
-/

namespace Ivshmem

open SharedMem SharedMem.Word

/-! ## `latency_test.c` -/

/-- `struct shm_region`. -/
structure ShmRegion where
  seq : UInt64
  ack : UInt64
  data : UInt64

/-- `ITERATIONS`. -/
abbrev iterations : Nat := 100000

/-- Where the parent is. -/
inductive ParentPc where
  | storeData
  | storeSeq
  | waitAck
  | finished

/-- Where the child is. -/
inductive ChildPc where
  | waitSeq
  | loadSeq
  | loadData
  | storeAck

/-- The memory, and the two after `fork`. -/
structure Latency where
  shm : ShmRegion
  i : UInt64
  parent : ParentPc
  lastSeen : UInt64
  child : ChildPc
  /-- What the child has read into `v`. -/
  seen : List UInt64

/-- The two after `fork`, whatever `data` was. -/
def Latency.start (data : UInt64) : Latency := ⟨⟨0, 0, data⟩, 1, .storeData, 0, .waitSeq, []⟩

/-- A step of the parent. -/
def parentStep (s : Latency) : Latency :=
  match s.parent with
  | .storeData => { s with shm := { s.shm with data := s.i }, parent := .storeSeq }
  | .storeSeq => { s with shm := { s.shm with seq := s.i }, parent := .waitAck }
  | .waitAck =>
    if s.shm.ack ≠ s.i then s
    else { s with i := s.i + 1, parent := if s.i + 1 ≤ .ofNat iterations then .storeData else .finished }
  | .finished => s

/-- A step of the child. -/
def childStep (s : Latency) : Latency :=
  match s.child with
  | .waitSeq => if s.shm.seq = s.lastSeen then s else { s with child := .loadSeq }
  | .loadSeq => { s with lastSeen := s.shm.seq, child := .loadData }
  | .loadData => { s with child := .storeAck, seen := s.seen ++ [s.shm.data] }
  | .storeAck => { s with shm := { s.shm with ack := s.lastSeen }, child := .waitSeq }

/-- A step of the parent, or of the child. -/
def latencyStep (s : Latency) (ofParent : Bool) : Latency :=
  if ofParent then parentStep s else childStep s

/-! ## `shm_comm.c` -/

/-- `CHUNK_SIZE`. -/
abbrev chunkBytes : Nat := 2 ^ 24

/-- Where the writer is; the bytes of `data` are written from the first to the
last. -/
inductive BwWriterPc where
  | wait
  | copySeq (n : Nat)
  | fill (n : Nat)
  | post

/-- Where the reader is, with the bytes of `seen` that it has copied. -/
inductive BwReaderPc where
  | wait
  | copySeen (seen : List UInt8)
  | post

/-- The memory, and the two after `fork`. -/
structure Bandwidth where
  semW : Nat
  semR : Nat
  data : Mem UInt8
  seq : UInt64
  writer : BwWriterPc
  expected : UInt64
  reader : BwReaderPc
  /-- The values of `seen`, each with what the reader expected. -/
  checked : List (UInt64 × UInt64)

/-- The two after `fork`. -/
def Bandwidth.start (data : Mem UInt8) : Bandwidth := ⟨1, 0, data, 0, .wait, 0, .wait, []⟩

/-- A step of the writer. -/
def bwWriterStep (s : Bandwidth) : Bandwidth :=
  match s.writer with
  | .wait => if s.semW = 0 then s else { s with semW := s.semW - 1, writer := .copySeq 0 }
  | .copySeq n =>
    { s with
      data := store s.data n (((leBytes 8 s.seq.toNat).drop n).take 1)
      writer := if n + 1 < 8 then .copySeq (n + 1) else .fill 8 }
  | .fill n =>
    { s with
      data := store s.data n [(s.seq &&& 0xFF).toUInt8]
      writer := if n + 1 < chunkBytes then .fill (n + 1) else .post }
  | .post => { s with semR := s.semR + 1, seq := s.seq + 1, writer := .wait }

/-- A step of the reader. -/
def bwReaderStep (s : Bandwidth) : Bandwidth :=
  match s.reader with
  | .wait => if s.semR = 0 then s else { s with semR := s.semR - 1, reader := .copySeen [] }
  | .copySeen seen =>
    let seen := seen ++ [s.data seen.length]
    if seen.length < 8 then { s with reader := .copySeen seen }
    else
      let seen := .ofNat (leValue seen)
      { s with
        expected := if seen ≠ s.expected then seen + 1 else s.expected + 1
        reader := .post
        checked := s.checked ++ [(seen, s.expected)] }
  | .post => { s with semW := s.semW + 1, reader := .wait }

/-- A step of the writer, or of the reader. -/
def bandwidthStep (s : Bandwidth) (ofWriter : Bool) : Bandwidth :=
  if ofWriter then bwWriterStep s else bwReaderStep s

end Ivshmem
