import SecureIvshmem.Impl.Chunk
import SecureIvshmem.Proof.Transfer

/-!
# Chunk mode, one sender and one receiver

`ref_count` hands the buffer back and forth, and `data_size` follows it: the
sender publishes a chunk before it adds its length. In runs where the receiver
takes the length after that (`ReadsLater`), a channel is empty, holds a chunk
whose length is not yet there, holds a chunk with its length, or holds one
that the receiver has taken (`ChunkPhase`), and the chunks arrive
(`chunkTransfer_of_readsLater`).
-/

namespace Ivshmem

open SharedMem SharedMem.Word

/-! ## Chunks -/

/-- The chunks of a message from byte `d` on, of at most `cap` bytes. -/
def chunksFrom (cap : Nat) (msg : Message) (d : Nat) : List (List UInt8) :=
  if msg.size.toNat ≤ d ∨ cap = 0 then []
  else bytesAt msg.buffer d (min (msg.size.toNat - d) cap) ::
    chunksFrom cap msg (d + min (msg.size.toNat - d) cap)
termination_by msg.size.toNat - d

/-- The chunks of messages from byte `d` of the first on. -/
def chunksLeft (cap : Nat) : List Message → Nat → List (List UInt8)
  | [], _ => []
  | msg :: msgs, d => chunksFrom cap msg d ++ msgs.flatMap fun msg => chunksFrom cap msg 0

theorem chunksLeft_zero (cap : Nat) (msgs : List Message) :
    chunksLeft cap msgs 0 = msgs.flatMap fun msg => chunksFrom cap msg 0 := by
  cases msgs <;> rfl

theorem chunksLeft_done {cap : Nat} {msg : Message} {msgs : List Message} {d : Nat}
    (h : msg.size.toNat ≤ d) :
    chunksLeft cap (msg :: msgs) d = chunksLeft cap msgs 0 := by
  rw [chunksLeft_zero, chunksLeft, chunksFrom, if_pos (.inl h), List.nil_append]

theorem chunksLeft_more {cap : Nat} (hcap : 0 < cap) {msg : Message} {msgs : List Message} {d : Nat}
    (h : d < msg.size.toNat) :
    chunksLeft cap (msg :: msgs) d = bytesAt msg.buffer d (min (msg.size.toNat - d) cap) ::
      chunksLeft cap (msg :: msgs) (d + min (msg.size.toNat - d) cap) := by
  rw [chunksLeft, chunksLeft, chunksFrom, if_neg (by omega), List.cons_append]

/-! ## Phases -/

/-- The sender has found the channel empty and not yet published. -/
def ChunkSendPc.claims : ChunkSendPc → Bool
  | .bufSize | .bufSizeAgain | .copyOffset _ | .copy _ _ | .setRefCount _ => true
  | _ => false

/-- The length that the sender has published and not yet added. -/
def ChunkSendPc.adds : ChunkSendPc → Option UInt64
  | .addSize n => some n
  | _ => none

/-- The receiver has not found a chunk, or is done with it. -/
def ChunkRecvPc.waits : ChunkRecvPc → Bool
  | .find | .mutex | .refCount => true
  | _ => false

/-- The receiver has found a chunk and does not know its length. -/
def ChunkRecvPc.reads : ChunkRecvPc → Bool
  | .dataSize | .dataSizeAgain => true
  | _ => false

/-- The receiver is about to copy `k` bytes. -/
def ChunkRecvPc.Copies (k : Nat) : ChunkRecvPc → Prop
  | .copyOffset n | .copy n _ => n.toInt = k
  | _ => False

/-- The receiver has copied the chunk; `data_size` is what it has left of
it. -/
def ChunkRecvPc.Took (dataSize : UInt64) : ChunkRecvPc → Prop
  | .clearSize => True
  | .readRefCount => dataSize = 0
  | .writeRefCount n => dataSize = 0 ∧ n = 1
  | _ => False

/-- The states of a channel whose sender, with the chunks `s` to send, is at
`p` and whose receiver, with the chunks `r` to get, is at `q`; so far the one
has published `sent` and the other copied `got`. -/
inductive ChunkPhase (ch : ChunkChannel) (data : Mem UInt8) (p : ChunkSendPc) (q : ChunkRecvPc)
    (s r sent got : List (List UInt8)) : Prop
  | empty (ref : ch.refCount = 0) (size : ch.dataSize = 0) (hp : p.adds = none) (hq : q.waits = true)
    (left : r = s) (log : sent = got)
  | published (bs : List UInt8) (n : UInt64) (ref : ch.refCount = 1) (size : ch.dataSize = 0)
    (hp : p.adds = some n) (hn : n.toNat = bs.length) (hq : q.waits = true ∨ q.reads = true)
    (le : bs.length ≤ ch.bufSize.toNat) (left : r = bs :: s)
    (bytes : bytesAt data ch.bufOffset.toNat bs.length = bs) (log : sent = got ++ [bs])
  | counted (bs : List UInt8) (ref : ch.refCount = 1) (size : ch.dataSize.toNat = bs.length)
    (hp : p.adds = none) (hc : p.claims = false)
    (hq : q.waits = true ∨ q.reads = true ∨ q.Copies bs.length)
    (le : bs.length ≤ ch.bufSize.toNat) (left : r = bs :: s)
    (bytes : bytesAt data ch.bufOffset.toNat bs.length = bs) (log : sent = got ++ [bs])
  | taken (ref : ch.refCount = 1) (size : ch.dataSize.toNat ≤ ch.bufSize.toNat) (hp : p.adds = none)
    (hc : p.claims = false) (hq : q.Took ch.dataSize) (left : r = s) (log : sent = got)

/-- What no step of either party changes. -/
structure ChunkFrame (i : Fin maxChannels) (m m' : ChunkShm) : Prop where
  mutex : m'.ctr.controlMutex = m.ctr.controlMutex
  active : m'.ctr.numActiveChannels = m.ctr.numActiveChannels
  keys : ∀ j, (m'.ctr.channels j).key = (m.ctr.channels j).key
  bufOffset : (m'.ctr.channels i).bufOffset = (m.ctr.channels i).bufOffset
  bufSize : (m'.ctr.channels i).bufSize = (m.ctr.channels i).bufSize

section

variable {i : Fin maxChannels} {m m' : ChunkShm}

theorem ChunkFrame.refl (i : Fin maxChannels) (m : ChunkShm) : ChunkFrame i m m :=
  ⟨rfl, rfl, fun _ => rfl, rfl, rfl⟩

theorem ChunkFrame.modify {f : ChunkChannel → ChunkChannel}
    (hk : (f (m.ctr.channels i)).key = (m.ctr.channels i).key)
    (ho : (f (m.ctr.channels i)).bufOffset = (m.ctr.channels i).bufOffset)
    (hs : (f (m.ctr.channels i)).bufSize = (m.ctr.channels i).bufSize) :
    ChunkFrame i m { m with ctr := m.ctr.modify i f } := by
  refine ⟨rfl, rfl, fun j => ?_, ?_, ?_⟩
  · by_cases hj : j = i
    · rw [hj]
      simp [ChunkSection.modify, hk]
    · simp [ChunkSection.modify, hj]
  · simp [ChunkSection.modify, ho]
  · simp [ChunkSection.modify, hs]

theorem ChunkFrame.find (h : ChunkFrame i m m') (key : ChannelKey) :
    findChannel m'.ctr.common key = findChannel m.ctr.common key :=
  findChannel_congr h.active (fun j _ => h.keys j) key

end

/-! ## The sender -/

/-- What a sender at a program counter knows, in its call for `msg` on the
channel `ch` with `d` bytes sent. -/
def ChunkSendAt (ch : ChunkChannel) (data : Mem UInt8) (msg : Message) (d : Nat) : ChunkSendPc → Prop
  | .request pc => pc = .find
  | .mutex | .addSize _ | .stamp => True
  | .refCount | .bufSize => d < msg.size.toNat
  | .bufSizeAgain => d < msg.size.toNat ∧ ch.bufSize.toNat ≤ msg.size.toNat - d
  | .copyOffset n => d < msg.size.toNat ∧ n.toNat = min (msg.size.toNat - d) ch.bufSize.toNat
  | .copy n off => d < msg.size.toNat ∧ n.toNat = min (msg.size.toNat - d) ch.bufSize.toNat ∧
                     off = ch.bufOffset
  | .setRefCount n => d < msg.size.toNat ∧ n.toNat = min (msg.size.toNat - d) ch.bufSize.toNat ∧
      bytesAt data ch.bufOffset.toNat n.toNat = bytesAt msg.buffer d n.toNat

/-- A sender on channel `i`. -/
structure ChunkSenderOk (i : Fin maxChannels) (m : ChunkShm) (t : ChunkSender) : Prop where
  find : findChannel m.ctr.common t.key = some i
  idle : t.calls = [] → t.pc = .request .find
  chan : (∀ pc, t.pc ≠ .request pc) → t.chan = i
  pc : ∀ msg rest, t.calls = msg :: rest → t.dataSent.toNat ≤ msg.size.toNat ∧
    ChunkSendAt (m.ctr.channels i) m.data msg t.dataSent.toNat t.pc

/-- What a sender has still to send on channel `i`. -/
def chunkSendLeft (i : Fin maxChannels) (m : ChunkShm) (t : ChunkSender) : List (List UInt8) :=
  chunksLeft (m.ctr.channels i).bufSize.toNat t.calls t.dataSent.toNat

section

variable {ch ch' : ChunkChannel} {data data' : Mem UInt8} {p p' : ChunkSendPc} {q : ChunkRecvPc}
  {s s' r sent got : List (List UInt8)} (h : ChunkPhase ch data p q s r sent got)
include h

/-- A step of the sender that moves no chunk. -/
theorem ChunkPhase.sender_goto (hch : ch'.refCount = ch.refCount ∧ ch'.dataSize = ch.dataSize ∧
    ch'.bufSize = ch.bufSize ∧ ch'.bufOffset = ch.bufOffset) (ha : p'.adds = p.adds)
    (hc : p.claims = false → p'.claims = false) : ChunkPhase ch' data p' q s r sent got := by
  obtain ⟨h1, h2, h3, h4⟩ := hch
  cases h with
  | empty ref size hp hq left log => exact .empty (h1.trans ref) (h2.trans size) (ha.trans hp) hq left log
  | published bs n ref size hp hn hq le left bytes log =>
    exact .published bs n (h1.trans ref) (h2.trans size) (ha.trans hp) hn hq (h3 ▸ le) left
      (h4 ▸ bytes) log
  | counted bs ref size hp hcl hq le left bytes log =>
    exact .counted bs (h1.trans ref) (h2 ▸ size) (ha.trans hp) (hc hcl) hq (h3 ▸ le) left (h4 ▸ bytes) log
  | taken ref size hp hcl hq left log =>
    exact .taken (h1.trans ref) (h2 ▸ h3 ▸ size) (ha.trans hp) (hc hcl) (h2 ▸ hq) left log

/-- While the sender claims the channel it is empty, and the receiver
waits. -/
theorem ChunkPhase.of_claims (hc : p.claims = true) :
    ch.refCount = 0 ∧ ch.dataSize = 0 ∧ p.adds = none ∧ q.waits = true ∧ r = s ∧ sent = got := by
  cases h with
  | empty ref size hp hq left log => exact ⟨ref, size, hp, hq, left, log⟩
  | published _ _ _ _ hp =>
    cases p <;> cases hc <;> cases hp
  | counted _ _ _ _ hcl =>
    rw [hcl] at hc
    cases hc
  | taken _ _ _ hcl =>
    rw [hcl] at hc
    cases hc

/-- A sender that finds `ref_count` 0 finds the channel empty. -/
theorem ChunkPhase.enter (h0 : ¬ 0 < ch.refCount) (ha : p'.adds = none) :
    ChunkPhase ch data p' q s r sent got := by
  have no : ch.refCount ≠ 1 := fun h1 => h0 (by rw [h1]; decide)
  cases h with
  | empty ref size _ hq left log => exact .empty ref size ha hq left log
  | published _ _ ref => exact absurd ref no
  | counted _ ref => exact absurd ref no
  | taken ref => exact absurd ref no

end

/-- What holds after a step of the sender. -/
structure ChunkSent (i : Fin maxChannels) (m : ChunkShm) (q : ChunkRecvPc) (r got : List (List UInt8))
    (m' : ChunkShm) (t' : ChunkSender) : Prop where
  frame : ChunkFrame i m m'
  ok : ChunkSenderOk i m' t'
  phase : ChunkPhase (m'.ctr.channels i) m'.data t'.pc q (chunkSendLeft i m' t') r t'.published got

section

variable {i : Fin maxChannels} {m : ChunkShm} {t : ChunkSender} {msg : Message}
  {rest : List Message} {q : ChunkRecvPc} {r got : List (List UInt8)} (hs : ChunkSenderOk i m t)
  (hc : t.calls = msg :: rest)
include hs hc

/-- A step of the sender that leaves the message and what was sent of it. -/
theorem ChunkSenderOk.same {m' : ChunkShm} {t' : ChunkSender} (hf : ChunkFrame i m m')
    (hk : t'.key = t.key) (hc' : t'.calls = t.calls) (hd : t'.dataSent = t.dataSent) (hch : t'.chan = i)
    (hat : ChunkSendAt (m'.ctr.channels i) m'.data msg t.dataSent.toNat t'.pc) :
    ChunkSenderOk i m' t' := by
  refine ⟨by rw [hk, hf.find]; exact hs.find, fun e => ?_, fun _ => hch, fun msg' rest' e => ?_⟩
  · rw [← hc', e] at hc
    cases hc
  · obtain ⟨rfl, -⟩ := List.cons.inj ((hc'.trans hc).symm.trans e)
    rw [hd]
    exact ⟨(hs.pc msg rest hc).1, hat⟩

variable (hphase : ChunkPhase (m.ctr.channels i) m.data t.pc q (chunkSendLeft i m t) r t.published got)
include hphase

/-- A step of the sender that only reads. -/
theorem ChunkSenderOk.goto (pc' : ChunkSendPc) (hch : t.chan = i) (ha : pc'.adds = t.pc.adds)
    (hcl : t.pc.claims = false → pc'.claims = false)
    (hat : ChunkSendAt (m.ctr.channels i) m.data msg t.dataSent.toNat pc') :
    ChunkSent i m q r got m { t with pc := pc' } :=
  ⟨.refl i m, hs.same hc (.refl i m) rfl rfl rfl hch hat, hphase.sender_goto ⟨rfl, rfl, rfl, rfl⟩ ha hcl⟩

/-- The return of a call. -/
theorem ChunkSenderOk.return (hd : msg.size.toNat ≤ t.dataSent.toNat) (hpc : t.pc = .mutex)
    (returned : List Int32) :
    ChunkSent i m q r got m { t with pc := .request .find, calls := rest, dataSent := 0,
                                     returned := returned } := by
  have hleft : chunkSendLeft i m { t with pc := .request .find, calls := rest, dataSent := 0,
                                          returned := returned } =
      chunkSendLeft i m t := by
    rw [chunkSendLeft, chunkSendLeft, hc, chunksLeft_done hd]
    rfl
  refine ⟨.refl i m,
    ⟨hs.find, fun _ => rfl, fun h => absurd rfl (h .find), fun _ _ _ => ⟨Nat.zero_le _, rfl⟩⟩, ?_⟩
  rw [hleft]
  rw [hpc] at hphase
  exact hphase.sender_goto ⟨rfl, rfl, rfl, rfl⟩ rfl fun _ => rfl

/-- The store to `ref_count`. -/
theorem ChunkSenderOk.publish {n : UInt64} (hpc : t.pc = .setRefCount n) (hch : t.chan = i)
    (hpos : 0 < (m.ctr.channels i).bufSize.toNat) :
    ChunkSent i m q r got { m with ctr := m.ctr.modify i fun ch => { ch with refCount := 1 } }
      { t with
        pc := .addSize n
        dataSent := t.dataSent + n
        published := t.published ++ [bytesAt msg.buffer t.dataSent.toNat n.toNat] } := by
  obtain ⟨hle, hat⟩ := hs.pc msg rest hc
  rw [hpc] at hat hphase
  obtain ⟨hlt, hn, hbytes⟩ := hat
  obtain ⟨-, hsize, -, hq, hleft, hlog⟩ := hphase.of_claims rfl
  have hadd : (t.dataSent + n).toNat = t.dataSent.toNat + n.toNat := by
    have := msg.size.toNat_lt
    rw [UInt64.toNat_add, Nat.mod_eq_of_lt (by omega)]
  have hframe : ChunkFrame i m { m with ctr := m.ctr.modify i fun ch => { ch with refCount := 1 } } :=
    .modify rfl rfl rfl
  have hcalls : t.calls ≠ [] := by simp [hc]
  refine ⟨hframe, ⟨?_, fun e => absurd e hcalls, fun _ => hch, fun msg' rest' e => ?_⟩, ?_⟩
  · rw [hframe.find]
    exact hs.find
  · obtain ⟨rfl, -⟩ := List.cons.inj (hc.symm.trans e)
    refine ⟨?_, trivial⟩
    show (t.dataSent + n).toNat ≤ _
    rw [hadd]
    omega
  · rw [chunkSendLeft, hc, chunksLeft_more hpos hlt, ← hn] at hleft
    refine .published (bytesAt msg.buffer t.dataSent.toNat n.toNat) n ?_ ?_ rfl ?_ (.inl hq) ?_ ?_ ?_ ?_
    · simp [ChunkSection.modify]
    · simpa [ChunkSection.modify] using hsize
    · rw [length_bytesAt]
    · rw [length_bytesAt, hframe.bufSize]
      omega
    · rw [hleft, chunkSendLeft, hframe.bufSize]
      simp only [hc, hadd]
    · rw [length_bytesAt, hframe.bufOffset]
      exact hbytes
    · rw [hlog]

/-- The addition to `data_size`. -/
theorem ChunkSenderOk.count {n : UInt64} (hpc : t.pc = .addSize n) (hch : t.chan = i) :
    ChunkSent i m q r got { m with ctr := m.ctr.modify i fun ch =>
      { ch with dataSize := ch.dataSize + n } }
      { t with pc := .stamp } := by
  rw [hpc] at hphase
  have hframe : ChunkFrame i m { m with ctr := m.ctr.modify i fun ch =>
    { ch with dataSize := ch.dataSize + n } } :=
    .modify rfl rfl rfl
  refine ⟨hframe, hs.same hc hframe rfl rfl rfl hch trivial, ?_⟩
  cases hphase with
  | published bs n' ref size hp hn hq le left bytes log =>
    obtain rfl : n = n' := Option.some.inj hp
    refine .counted bs ?_ ?_ rfl rfl (hq.imp_right .inl) ?_ ?_ ?_ log
    · simpa [ChunkSection.modify] using ref
    · simpa [ChunkSection.modify, size] using hn
    · rw [hframe.bufSize]
      exact le
    · rw [left, chunkSendLeft, chunkSendLeft, hframe.bufSize]
    · rw [hframe.bufOffset]
      exact bytes
  | empty _ _ hp => cases hp
  | counted _ _ _ hp => cases hp
  | taken _ _ hp => cases hp

theorem chunkSendCallStep_ok (hm : m.ctr.controlMutex = 0)
    (hpos : 0 < (m.ctr.channels i).bufSize.toNat) (now : Int64) :
    ChunkSent i m q r got (chunkSendCallStep now m t msg rest).1
      (chunkSendCallStep now m t msg rest).2 := by
  obtain ⟨hle, hpc⟩ := hs.pc msg rest hc
  have hsub : (msg.size - t.dataSent).toNat = msg.size.toNat - t.dataSent.toNat :=
    UInt64.toNat_sub_of_le _ _ (UInt64.le_iff_toNat_le.mpr hle)
  have goto := hs.goto hc hphase
  unfold chunkSendCallStep
  cases e : t.pc <;> rw [e] at hpc goto <;> simp only [ChunkSendAt] at hpc
  case request pc =>
    subst hpc
    simp only [chunkRequestStep, requestStep, hs.find]
    refine ⟨.refl i m, hs.same hc (.refl i m) rfl rfl rfl rfl trivial, ?_⟩
    rw [e] at hphase
    exact hphase.sender_goto ⟨rfl, rfl, rfl, rfl⟩ rfl fun _ => rfl
  all_goals
    have hch : t.chan = i := hs.chan (by simp [e])
    subst hch
    simp only
  case mutex =>
    simp only [hm, ne_eq, not_true_eq_false, ↓reduceIte]
    split
    · rename_i hdone
      exact hs.return hc hphase (UInt64.le_iff_toNat_le.mp hdone) e _
    · rename_i hgo
      rw [UInt64.le_iff_toNat_le] at hgo
      exact goto _ rfl rfl (fun _ => rfl) (Nat.lt_of_not_le hgo)
  case refCount =>
    split
    · exact goto _ rfl rfl (fun _ => rfl) trivial
    · rename_i h0
      exact ⟨.refl _ m, hs.same hc (.refl _ m) rfl rfl rfl rfl hpc, hphase.enter h0 rfl⟩
  case bufSize =>
    split
    · rename_i hlt
      rw [UInt64.lt_iff_toNat_lt, hsub] at hlt
      exact goto _ rfl rfl (fun h => by cases h) ⟨hpc, by rw [hsub]; omega⟩
    · rename_i hge
      rw [UInt64.lt_iff_toNat_lt, hsub] at hge
      exact goto _ rfl rfl (fun h => by cases h) ⟨hpc, Nat.le_of_not_lt hge⟩
  case bufSizeAgain => exact goto _ rfl rfl (fun h => by cases h) ⟨hpc.1, by omega⟩
  case copyOffset n => exact goto _ rfl rfl (fun h => by cases h) ⟨hpc.1, hpc.2, rfl⟩
  case copy n off =>
    obtain ⟨hlt, hn, rfl⟩ := hpc
    rw [e] at hphase
    obtain ⟨href, hsize, -, hq, hleft, hlog⟩ := hphase.of_claims rfl
    have hframe : ∀ data, ChunkFrame t.chan m { m with data := data } :=
      fun _ => ⟨rfl, rfl, fun _ => rfl, rfl, rfl⟩
    refine ⟨hframe _, hs.same hc (hframe _) rfl rfl rfl rfl ⟨hlt, hn, ?_⟩,
      .empty href hsize rfl hq hleft hlog⟩
    exact bytesAt_store_eq m.data _ (length_bytesAt ..)
  case setRefCount n => exact hs.publish hc hphase e rfl hpos
  case addSize n => exact hs.count hc hphase e rfl
  case stamp =>
    have hframe : ChunkFrame t.chan m { m with ctr := m.ctr.modify t.chan fun ch =>
      { ch with lastSentAt := now } } :=
      .modify rfl rfl rfl
    rw [e] at hphase
    refine ⟨hframe, hs.same hc hframe rfl rfl rfl rfl trivial, ?_⟩
    rw [chunkSendLeft, hframe.bufSize]
    refine hphase.sender_goto ⟨?_, ?_, hframe.bufSize, hframe.bufOffset⟩ rfl fun _ => rfl
    · simp [ChunkSection.modify]
    · simp [ChunkSection.modify]

end

/-! ## The receiver -/

/-- What a receiver at a program counter knows, in its call for `msg` on the
channel `ch` with `d` bytes received. -/
def ChunkRecvAt (ch : ChunkChannel) (msg : Message) (d : Nat) : ChunkRecvPc → Prop
  | .find => d = 0
  | .mutex | .clearSize | .readRefCount | .writeRefCount _ => True
  | .refCount | .dataSize | .dataSizeAgain | .copyOffset _ => d < msg.size.toNat
  | .copy _ off => d < msg.size.toNat ∧ off = ch.bufOffset

/-- What a receiver of `msg` in its call `call` has got, `d` bytes. -/
structure ChunkReceiving (ch : ChunkChannel) (call : RecvCall) (msg : Message) (t : ChunkReceiver)
    (d : Nat) : Prop where
  size : call.size = msg.size
  received : t.dataReceived.toInt = d
  le : d ≤ msg.size.toNat
  got : Holds msg call.buffer d
  pc : ChunkRecvAt ch msg d t.pc

/-- A receiver on channel `i` that has returned the messages `past` and has
the messages `left` to come. -/
structure ChunkReceiverOk (i : Fin maxChannels) (m : ChunkShm) (past left : List Message)
    (t : ChunkReceiver) : Prop where
  find : findChannel m.ctr.common t.key = some i
  idle : t.calls = [] → t.pc = .find
  sizes : ∀ msg ∈ left, msg.size.toNat < 2 ^ 31
  calls : t.calls.map (·.size) = left.map (·.size)
  chan : t.pc ≠ .find → t.chan = i
  returned : List.Forall₂ Rebuilt t.returned past
  call : ∀ call rest msg rest', t.calls = call :: rest → left = msg :: rest' →
    ∃ d, ChunkReceiving (m.ctr.channels i) call msg t d

/-- What a receiver with the messages `left` to come has still to get on
channel `i`. -/
def chunkRecvLeft (i : Fin maxChannels) (m : ChunkShm) (left : List Message) (t : ChunkReceiver) :
    List (List UInt8) :=
  chunksLeft (m.ctr.channels i).bufSize.toNat left t.dataReceived.toInt.toNat

/-- What holds after a step of the receiver. -/
structure ChunkReceived (i : Fin maxChannels) (m : ChunkShm) (p : ChunkSendPc)
    (s sent : List (List UInt8)) (m' : ChunkShm) (past left : List Message) (t' : ChunkReceiver) :
    Prop where
  frame : ChunkFrame i m m'
  data : m'.data = m.data
  ok : ChunkReceiverOk i m' past left t'
  phase : ChunkPhase (m'.ctr.channels i) m'.data p t'.pc s (chunkRecvLeft i m' left t') sent t'.copied

section

variable {ch ch' : ChunkChannel} {data : Mem UInt8} {p : ChunkSendPc} {q q' : ChunkRecvPc}
  {s r sent got : List (List UInt8)} (h : ChunkPhase ch data p q s r sent got)
include h

/-- A step of the receiver that takes no chunk and finds none. -/
theorem ChunkPhase.receiver_goto (hw : q.waits = true → q'.waits = true)
    (hr : q.reads = true → q'.reads = true) (hc : ∀ k, q.Copies k → q'.Copies k)
    (ht : ∀ n, q.Took n → q'.Took n) : ChunkPhase ch data p q' s r sent got := by
  cases h with
  | empty ref size hp hq left log => exact .empty ref size hp (hw hq) left log
  | published bs n ref size hp hn hq le left bytes log =>
    exact .published bs n ref size hp hn (hq.imp hw hr) le left bytes log
  | counted bs ref size hp hcl hq le left bytes log =>
    exact .counted bs ref size hp hcl (hq.imp hw (Or.imp hr (hc _))) le left bytes log
  | taken ref size hp hcl hq left log => exact .taken ref size hp hcl (ht _ hq) left log

/-- A step of the receiver from waiting to waiting. -/
theorem ChunkPhase.wait (hw : q.waits = true) (hw' : q'.waits = true) :
    ChunkPhase ch data p q' s r sent got := by
  refine h.receiver_goto (fun _ => hw') (fun hr => ?_) (fun _ hc => ?_) fun _ ht => ?_
  · cases q <;> cases hw <;> cases hr
  · cases q <;> cases hw <;> exact hc.elim
  · cases q <;> cases hw <;> exact ht.elim

/-- A receiver that finds `ref_count` set has found a chunk. -/
theorem ChunkPhase.found (hw : q.waits = true) (h0 : ch.refCount ≠ 0) (hr : q'.reads = true) :
    ChunkPhase ch data p q' s r sent got := by
  cases h with
  | empty ref => exact absurd ref h0
  | published bs n ref size hp hn _ le left bytes log =>
    exact .published bs n ref size hp hn (.inr hr) le left bytes log
  | counted bs ref size hp hcl _ le left bytes log =>
    exact .counted bs ref size hp hcl (.inr (.inl hr)) le left bytes log
  | taken _ _ _ _ hq => cases q <;> cases hw <;> exact hq.elim

/-- The length of a chunk that a receiver finds is no more than that of the
chunk it gets next. -/
theorem ChunkPhase.dataSize_le (hr : q.reads = true) {bs : List UInt8} {later : List (List UInt8)}
    (hleft : r = bs :: later) : ch.dataSize.toNat ≤ bs.length := by
  cases h with
  | empty _ _ _ hq => cases q <;> cases hr <;> cases hq
  | published _ _ _ size =>
    rw [size]
    exact Nat.zero_le _
  | counted bs' _ size _ _ _ _ left =>
    obtain ⟨rfl, -⟩ := List.cons.inj (hleft.symm.trans left)
    exact Nat.le_of_eq size
  | taken _ _ _ _ hq => cases q <;> cases hr <;> exact hq.elim

/-- Once its length is there, it is the length of that chunk. -/
theorem ChunkPhase.dataSize_eq (hr : q.reads = true) (ha : p.adds = none) {bs : List UInt8}
    {later : List (List UInt8)} (hleft : r = bs :: later) :
    ch.dataSize.toNat = bs.length ∧ ∀ q' :
    ChunkRecvPc, q'.Copies bs.length → ChunkPhase ch data p q' s r sent got := by
  cases h with
  | empty _ _ _ hq => cases q <;> cases hr <;> cases hq
  | published _ _ _ _ hp =>
    rw [ha] at hp
    cases hp
  | counted bs' ref size hp hcl _ le left bytes log =>
    obtain ⟨rfl, -⟩ := List.cons.inj (hleft.symm.trans left)
    exact ⟨size, fun q' hc => .counted bs ref size hp hcl (.inr (.inr hc)) le left bytes log⟩
  | taken _ _ _ _ hq => cases q <;> cases hr <;> exact hq.elim

/-- What a receiver that is done with a chunk finds. -/
theorem ChunkPhase.of_took (hw : q.waits = false) (hr : q.reads = false) (hc : ∀ k, ¬ q.Copies k) :
    ch.refCount = 1 ∧ p.adds = none ∧ p.claims = false ∧ q.Took ch.dataSize ∧ r = s ∧ sent = got := by
  cases h with
  | empty _ _ _ hq =>
    rw [hw] at hq
    cases hq
  | published _ _ _ _ _ _ hq =>
    rw [hw, hr] at hq
    obtain hq | hq := hq <;> cases hq
  | counted _ _ _ _ _ hq =>
    rw [hw, hr] at hq
    obtain hq | hq | hq := hq
    · cases hq
    · cases hq
    · exact absurd hq (hc _)
  | taken ref _ hp hcl hq left log => exact ⟨ref, hp, hcl, hq, left, log⟩

end

/-- The chunk that a receiver copies. -/
theorem ChunkPhase.take {ch : ChunkChannel} {data : Mem UInt8} {p : ChunkSendPc} {n : Int32}
    {off : UInt64} {s r sent got : List (List UInt8)}
    (h : ChunkPhase ch data p (.copy n off) s r sent got) {bs : List UInt8}
    {later : List (List UInt8)} (hleft : r = bs :: later) :
    n.toInt = bs.length ∧ bytesAt data ch.bufOffset.toNat bs.length = bs ∧
      ChunkPhase ch data p .clearSize s later sent (got ++ [bs]) := by
  cases h with
  | empty _ _ _ hq => cases hq
  | published _ _ _ _ _ _ hq => obtain hq | hq := hq <;> cases hq
  | counted bs' ref size hp hcl hq le left bytes log =>
    obtain ⟨rfl, rfl⟩ := List.cons.inj (hleft.symm.trans left)
    obtain hq | hq | hq := hq
    · cases hq
    · cases hq
    · exact ⟨hq, bytes, .taken ref (by omega) hp hcl trivial rfl log⟩
  | taken _ _ _ _ hq => exact hq.elim

/-- The chunk that a receiver gets next. -/
theorem ChunkReceiving.next {i : Fin maxChannels} {m : ChunkShm} {call : RecvCall} {msg : Message}
    {t : ChunkReceiver} {d : Nat} (hd : ChunkReceiving (m.ctr.channels i) call msg t d)
    (left : List Message) (hpos : 0 < (m.ctr.channels i).bufSize.toNat) (hlt : d < msg.size.toNat) :
    chunkRecvLeft i m (msg :: left) t =
      bytesAt msg.buffer d (min (msg.size.toNat - d) (m.ctr.channels i).bufSize.toNat) ::
        chunksLeft (m.ctr.channels i).bufSize.toNat (msg :: left)
          (d + min (msg.size.toNat - d) (m.ctr.channels i).bufSize.toNat) := by
  rw [chunkRecvLeft, hd.received, Int.toNat_natCast, chunksLeft_more hpos hlt]

section

variable {i : Fin maxChannels} {m : ChunkShm} {t : ChunkReceiver} {call : RecvCall} {rest : List RecvCall}
  {past : List Message} {msg : Message} {left : List Message} {p : ChunkSendPc}
  {s sent : List (List UInt8)} (hr : ChunkReceiverOk i m past (msg :: left) t)
  (hc : t.calls = call :: rest) {d : Nat} (hd : ChunkReceiving (m.ctr.channels i) call msg t d)
include hr hc hd

/-- A step of the receiver in its call. -/
theorem ChunkReceiverOk.same {m' : ChunkShm} {t' : ChunkReceiver} {call' : RecvCall} {d' : Nat}
    (hf : ChunkFrame i m m') (hk : t'.key = t.key) (hc' : t'.calls = call' :: rest)
    (hch : t'.chan = i) (hret : t'.returned = t.returned)
    (hd' : ChunkReceiving (m'.ctr.channels i) call' msg t' d') :
    ChunkReceiverOk i m' past (msg :: left) t' := by
  refine ⟨by rw [hk, hf.find]; exact hr.find, fun e => ?_, hr.sizes, ?_, fun _ => hch,
    by rw [hret]; exact hr.returned, fun call'' rest'' msg'' rest' e e' => ?_⟩
  · rw [hc'] at e
    cases e
  · have := hr.calls
    rw [hc] at this
    rw [hc']
    simpa [hd.size, hd'.size] using this
  · obtain ⟨rfl, -⟩ := List.cons.inj (hc'.symm.trans e)
    obtain ⟨rfl, -⟩ := List.cons.inj e'
    exact ⟨d', hd'⟩

/-- The return of a call. -/
theorem ChunkReceiverOk.return (hdone : msg.size.toNat ≤ d) {t' : ChunkReceiver}
    (ht : t' = { t with pc := .find, calls := rest, dataReceived := 0, returned := t.returned ++
      [(0, call.buffer)] }) :
    ChunkReceiverOk i m (past ++ [msg]) left t' := by
  subst ht
  have hcalls := hr.calls
  rw [hc, List.map_cons, List.map_cons] at hcalls
  have hrest := (List.cons.inj hcalls).2
  obtain rfl : d = msg.size.toNat := Nat.le_antisymm hd.le hdone
  refine ⟨hr.find, fun _ => rfl, fun msg' hm => hr.sizes msg' (List.mem_cons_of_mem _ hm), hrest,
    fun h => absurd rfl h, List.rel_append hr.returned (.cons ⟨rfl, hd.got⟩ .nil),
      fun call' rest' msg' left' e e' => ?_⟩
  rw [show rest = call' :: rest' from e, e'] at hrest
  exact ⟨0, (List.cons.inj hrest).1, rfl, Nat.zero_le _, rfl, rfl⟩

variable (hphase : ChunkPhase (m.ctr.channels i) m.data p t.pc s
  (chunkRecvLeft i m (msg :: left) t) sent t.copied)
include hphase

/-- The store to `data_size`. -/
theorem ChunkReceiverOk.cleared (hpc : t.pc = .clearSize) :
    ChunkReceived i m p s sent { m with ctr := m.ctr.modify i fun ch =>
      { ch with dataSize := 0 } } past (msg :: left)
      { t with pc := .readRefCount } := by
  have hframe : ChunkFrame i m { m with ctr := m.ctr.modify i fun ch => { ch with dataSize := 0 } } :=
    .modify rfl rfl rfl
  rw [hpc] at hphase
  obtain ⟨ref, hp, hcl, -, hleft, hlog⟩ := hphase.of_took rfl rfl fun _ h => h
  refine ⟨hframe, rfl, hr.same hc hd hframe rfl hc (hr.chan (by simp [hpc])) rfl
    ⟨hd.size, hd.received, hd.le, hd.got, trivial⟩, .taken ?_ ?_ hp hcl ?_ ?_ hlog⟩
  · simpa [ChunkSection.modify] using ref
  · simp [ChunkSection.modify]
  · simp [ChunkSection.modify, ChunkRecvPc.Took]
  · rw [← hleft, chunkRecvLeft, chunkRecvLeft, hframe.bufSize]

/-- The store to `ref_count`. -/
theorem ChunkReceiverOk.released {n : Int32} (hpc : t.pc = .writeRefCount n) :
    ChunkReceived i m p s sent { m with ctr := m.ctr.modify i fun ch =>
      { ch with refCount := n - 1 } } past
      (msg :: left) { t with pc := .mutex } := by
  have hframe : ChunkFrame i m { m with ctr := m.ctr.modify i fun ch => { ch with refCount := n - 1 } } :=
    .modify rfl rfl rfl
  rw [hpc] at hphase
  obtain ⟨-, hp, -, ⟨hsize, rfl⟩, hleft, hlog⟩ := hphase.of_took rfl rfl fun _ h => h
  refine ⟨hframe, rfl, hr.same hc hd hframe rfl hc (hr.chan (by simp [hpc])) rfl
    ⟨hd.size, hd.received, hd.le, hd.got, trivial⟩, .empty ?_ ?_ hp rfl ?_ hlog⟩
  · simp [ChunkSection.modify]
  · simpa [ChunkSection.modify] using hsize
  · rw [← hleft, chunkRecvLeft, chunkRecvLeft, hframe.bufSize]

variable (hpos : 0 < (m.ctr.channels i).bufSize.toNat)
include hpos

/-- The copy out of the channel. -/
theorem ChunkReceiverOk.copied {n : Int32} (hpc : t.pc = .copy n (m.ctr.channels i).bufOffset)
    (hlt : d < msg.size.toNat) {bytes : List UInt8}
    (hb : bytes = bytesAt m.data (m.ctr.channels i).bufOffset.toNat (intToSize n).toNat)
    {t' : ChunkReceiver} (ht : t' = { t with
      pc := .clearSize
      calls := ⟨store call.buffer t.dataReceived.toInt bytes, call.size⟩ :: rest
      dataReceived := t.dataReceived + n
      copied := t.copied ++ [bytes] }) :
    ChunkReceived i m p s sent m past (msg :: left) t' := by
  rw [hpc] at hphase
  obtain ⟨hn, hdata, hnext⟩ := hphase.take (hd.next left hpos hlt)
  have hsize := hr.sizes msg List.mem_cons_self
  rw [length_bytesAt] at hn hdata
  have hbytes : bytes =
    bytesAt msg.buffer d (min (msg.size.toNat - d) (m.ctr.channels i).bufSize.toNat) := by
    rw [hb, intToSize_toNat (by omega), hn, Int.toNat_natCast, hdata]
  have hadd : (t.dataReceived + n).toInt =
      (d + min (msg.size.toNat - d) (m.ctr.channels i).bufSize.toNat : Nat) := by
    have hrec := hd.received
    rw [toInt_add (by omega) (by omega)]
    omega
  have hgot : Holds msg (store call.buffer t.dataReceived.toInt bytes)
      (d + min (msg.size.toNat - d) (m.ctr.channels i).bufSize.toNat) := by
    have := bytesAt_store_append call.buffer 0 d bytes
    rw [hbytes, length_bytesAt, Int.zero_add] at this
    rw [Holds, hd.received, hbytes, this, hd.got, bytesAt_add, Int.zero_add]
  subst ht
  refine ⟨.refl i m, rfl, hr.same hc hd (.refl i m) rfl rfl (hr.chan (by simp [hpc])) rfl
    ⟨hd.size, hadd, by omega, hgot, trivial⟩, ?_⟩
  rw [chunkRecvLeft]
  simp only [hadd, Int.toNat_natCast, hbytes]
  exact hnext

theorem chunkRecvCallStep_ok (hm : m.ctr.controlMutex = 0)
    (hlater : t.pc = .dataSizeAgain → p.adds = none) :
    ∃ past' left', past' ++ left' = past ++ msg :: left ∧
      ChunkReceived i m p s sent (chunkRecvCallStep m t call rest).1 past' left'
        (chunkRecvCallStep m t call rest).2 := by
  have hpc := hd.pc
  have stay : ∀ {m' t'}, ChunkReceived i m p s sent m' past (msg :: left) t' →
      ∃ past' left', past' ++ left' = past ++ msg :: left ∧
      ChunkReceived i m p s sent m' past' left' t' :=
    fun h => ⟨past, msg :: left, rfl, h⟩
  -- a step that only reads
  have goto : ∀ {pc'}, t.chan = i → ChunkRecvAt (m.ctr.channels i) msg d pc' →
      ChunkPhase (m.ctr.channels i) m.data p pc' s (chunkRecvLeft i m (msg :: left) t) sent t.copied →
      ChunkReceived i m p s sent m past (msg :: left) { t with pc := pc' } := fun hch hat hp =>
    ⟨.refl i m, rfl, hr.same hc hd (.refl i m) rfl hc hch rfl ⟨hd.size, hd.received, hd.le, hd.got,
      hat⟩, hp⟩
  unfold chunkRecvCallStep
  cases e : t.pc <;> rw [e] at hpc hphase hlater <;> simp only [ChunkRecvAt] at hpc
  case find =>
    simp only [hr.find]
    refine stay ⟨.refl i m, rfl, hr.same hc hd (.refl i m) rfl hc rfl rfl
      ⟨hd.size, hd.received, hd.le, hd.got, trivial⟩, ?_⟩
    exact hphase.wait rfl rfl
  all_goals
    have hch : t.chan = i := hr.chan (by simp [e])
    subst hch
    simp only
  case mutex =>
    simp only [hm, ne_eq, not_true_eq_false, ↓reduceIte]
    split
    · rename_i hdone
      rw [hd.size, size_le_received hd.received] at hdone
      refine ⟨past ++ [msg], left, by rw [List.append_assoc]; rfl, .refl _ m, rfl,
        hr.return hc hd hdone rfl, ?_⟩
      rw [chunkRecvLeft, hd.received, Int.toNat_natCast, chunksLeft_done hdone] at hphase
      exact hphase.wait rfl rfl
    · rename_i hgo
      rw [hd.size, size_le_received hd.received] at hgo
      exact stay (goto rfl (Nat.lt_of_not_le hgo) (hphase.wait rfl rfl))
  case refCount =>
    split
    · exact stay (goto rfl trivial (hphase.wait rfl rfl))
    · rename_i h0
      exact stay (goto rfl hpc (hphase.found rfl h0 rfl))
  case dataSize =>
    have hle := hphase.dataSize_le rfl (hd.next left hpos hpc)
    have hsub : (call.size - intToSize t.dataReceived).toNat = msg.size.toNat - d := by
      rw [hd.size, UInt64.toNat_sub_of_le _ _ ?_, received_toNat hd.received]
      rw [UInt64.le_iff_toNat_le, received_toNat hd.received]
      exact hd.le
    rw [length_bytesAt] at hle
    rw [if_neg (by rw [UInt64.lt_iff_toNat_lt, hsub]; omega)]
    exact stay (goto rfl hpc
      (hphase.receiver_goto (fun h => by cases h) (fun _ => rfl) (fun _ h => h.elim) fun _ h => h.elim))
  case dataSizeAgain =>
    obtain ⟨hsize, hnext⟩ := hphase.dataSize_eq rfl (hlater rfl) (hd.next left hpos hpc)
    have hsmall := hr.sizes msg List.mem_cons_self
    refine stay (goto rfl hpc (hnext _ ?_))
    rw [length_bytesAt] at hsize ⊢
    rw [← hsize]
    exact sizeToInt_toInt (by omega)
  case copyOffset n =>
    exact stay (goto rfl ⟨hpc, rfl⟩
      (hphase.receiver_goto (fun h => by cases h) (fun h => by cases h) (fun _ h => h) fun _ h => h.elim))
  case copy n off =>
    obtain ⟨hlt, rfl⟩ := hpc
    rw [← e] at hphase
    exact stay (hr.copied hc hd hphase hpos e hlt rfl rfl)
  case clearSize =>
    rw [← e] at hphase
    exact stay (hr.cleared hc hd hphase e)
  case readRefCount =>
    obtain ⟨ref, hp, hcl, hsize, hleft, hlog⟩ := hphase.of_took rfl rfl fun _ h => h
    refine stay (goto rfl trivial (.taken ref ?_ hp hcl ⟨hsize, ref⟩ hleft hlog))
    rw [show (m.ctr.channels t.chan).dataSize = 0 from hsize]
    exact Nat.zero_le _
  case writeRefCount n =>
    rw [← e] at hphase
    exact stay (hr.released hc hd hphase e)

end

/-! ## Runs -/

/-- The receiver's read of `data_size` that gives `to_receive` comes after the
sender's addition for the chunk. -/
def ReadsLater (l : ChunkLink) : Turn → Prop
  | .sender _ => True
  | .receiver => l.receiver.pc = .dataSizeAgain → l.sender.pc.adds = none

instance (l : ChunkLink) : ∀ turn, Decidable (ReadsLater l turn)
  | .sender _ => isTrue trivial
  | .receiver => inferInstanceAs (Decidable (_ → _))

/-- The sender has returned from all its calls, and the receiver, at its loop
head, finds nothing and has bytes to receive. -/
def Stuck (i : Fin maxChannels) (l : ChunkLink) : Prop :=
  l.sender.calls = [] ∧ (l.shm.ctr.channels i).refCount = 0 ∧ l.receiver.pc = .mutex ∧
    ∃ call rest, l.receiver.calls = call :: rest ∧ ¬ call.size ≤ intToSize l.receiver.dataReceived

/-- What a sender knows stays true while its data section does. -/
theorem ChunkSenderOk.of_frame {i : Fin maxChannels} {m m' : ChunkShm} {t : ChunkSender}
    (h : ChunkSenderOk i m t) (hf : ChunkFrame i m m') (hd : m'.data = m.data) :
    ChunkSenderOk i m' t := by
  refine ⟨by rw [hf.find]; exact h.find, h.idle, h.chan, fun msg rest e => ?_⟩
  obtain ⟨hle, hat⟩ := h.pc msg rest e
  refine ⟨hle, ?_⟩
  cases hpc : t.pc <;> rw [hpc] at hat <;>
    simp only [ChunkSendAt, hf.bufOffset, hf.bufSize, hd] at hat ⊢ <;> exact hat

theorem ChunkReceiverOk.of_frame {i : Fin maxChannels} {m m' : ChunkShm} {past left : List Message}
    {t : ChunkReceiver} (h : ChunkReceiverOk i m past left t) (hf : ChunkFrame i m m') :
    ChunkReceiverOk i m' past left t := by
  refine ⟨by rw [hf.find]; exact h.find, h.idle, h.sizes, h.calls, h.chan, h.returned,
    fun call rest msg rest' e e' => ?_⟩
  obtain ⟨d, hd⟩ := h.call call rest msg rest' e e'
  refine ⟨d, hd.size, hd.received, hd.le, hd.got, ?_⟩
  have hat := hd.pc
  cases hpc : t.pc <;> rw [hpc] at hat <;> simp only [ChunkRecvAt, hf.bufOffset] at hat ⊢ <;> exact hat

/-- The invariant of a sender and a receiver of `msgs` on channel `i`. -/
structure ChunkInv (i : Fin maxChannels) (msgs : List Message) (l : ChunkLink) : Prop where
  mutex : l.shm.ctr.controlMutex = 0
  pos : 0 < (l.shm.ctr.channels i).bufSize.toNat
  sender : ChunkSenderOk i l.shm l.sender
  receiver : ∃ past left, past ++ left = msgs ∧ ChunkReceiverOk i l.shm past left l.receiver ∧
    ChunkPhase (l.shm.ctr.channels i) l.shm.data l.sender.pc l.receiver.pc
      (chunkSendLeft i l.shm l.sender)
      (chunkRecvLeft i l.shm left l.receiver) l.sender.published l.receiver.copied

theorem ChunkInv.step {i : Fin maxChannels} {msgs : List Message} (l : ChunkLink) (turn : Turn)
    (h : ChunkInv i msgs l) (hlater : ReadsLater l turn) : ChunkInv i msgs (chunkLinkStep l turn) := by
  obtain ⟨hm, hpos, hs, past, left, hsplit, hr, hphase⟩ := h
  cases turn with
  | sender now =>
    cases hc : l.sender.calls with
    | nil =>
      simp only [chunkLinkStep, chunkSendStep, hc]
      exact ⟨hm, hpos, hs, past, left, hsplit, hr, hphase⟩
    | cons msg rest =>
      simp only [chunkLinkStep, chunkSendStep, hc]
      obtain ⟨hf, hs', hphase'⟩ := chunkSendCallStep_ok hs hc hphase hm hpos now
      refine ⟨hf.mutex.trans hm, by rw [hf.bufSize]; exact hpos, hs', past, left, hsplit,
        hr.of_frame hf, ?_⟩
      rw [chunkRecvLeft, hf.bufSize]
      exact hphase'
  | receiver =>
    cases hc : l.receiver.calls with
    | nil =>
      simp only [chunkLinkStep, chunkRecvStep, hc]
      exact ⟨hm, hpos, hs, past, left, hsplit, hr, hphase⟩
    | cons call rest =>
      have hcalls := hr.calls
      rw [hc] at hcalls
      cases left with
      | nil => cases hcalls
      | cons msg left =>
        simp only [chunkLinkStep, chunkRecvStep, hc]
        obtain ⟨d, hd⟩ := hr.call call rest msg left hc rfl
        obtain ⟨past', left', hsplit', hf, hdata, hr', hphase'⟩ :=
          chunkRecvCallStep_ok hr hc hd hphase hpos hm hlater
        refine ⟨hf.mutex.trans hm, by rw [hf.bufSize]; exact hpos, hs.of_frame hf hdata, past', left',
          hsplit'.trans hsplit, hr', ?_⟩
        rw [chunkSendLeft, hf.bufSize]
        exact hphase'

theorem chunkInv_start {m : ChunkShm} {i : Fin maxChannels} {sk rk : ChannelKey} {msgs : List Message}
    {calls : List RecvCall} (hm : m.ctr.controlMutex = 0) (hs : findChannel m.ctr.common sk = some i)
    (hr : findChannel m.ctr.common rk = some i) (href : (m.ctr.channels i).refCount = 0)
    (hsize : (m.ctr.channels i).dataSize = 0) (hpos : 0 < (m.ctr.channels i).bufSize)
    (hsizes : ∀ msg ∈ msgs, msg.size.toNat < 2 ^ 31) (hcalls : calls.map (·.size) = msgs.map (·.size)) :
    ChunkInv i msgs (.start m sk msgs rk calls) := by
  have sender : ChunkSenderOk i m (.start sk msgs) :=
    { find := hs
      idle := fun _ => rfl
      chan := fun h => absurd rfl (h .find)
      pc := fun _ _ _ => ⟨Nat.zero_le _, rfl⟩ }
  have receiver : ChunkReceiverOk i m [] msgs (.start rk calls) :=
    { find := hr
      idle := fun _ => rfl
      sizes := hsizes
      calls := hcalls
      chan := fun h => absurd rfl h
      returned := .nil
      call := fun call rest msg rest' e e' => by
        rw [show calls = call :: rest from e, e'] at hcalls
        exact ⟨0, (List.cons.inj hcalls).1, rfl, Nat.zero_le _, rfl, rfl⟩ }
  exact
    { mutex := hm
      pos := UInt64.lt_iff_toNat_lt.mp hpos
      sender := sender
      receiver := ⟨[], msgs, rfl, receiver, .empty href hsize rfl rfl rfl rfl⟩ }

section

variable {i : Fin maxChannels} {msgs : List Message} {l : ChunkLink} (h : ChunkInv i msgs l)
include h

/-- Chunks are copied in the order in which they are published, and one at
most is under way. -/
theorem ChunkInv.copied : l.receiver.copied <+: l.sender.published ∧
    l.sender.published.length ≤ l.receiver.copied.length + 1 := by
  obtain ⟨past, left, -, -, hphase⟩ := h.receiver
  cases hphase with
  | empty _ _ _ _ _ log | taken _ _ _ _ _ _ log =>
    rw [log]
    exact ⟨List.prefix_rfl, Nat.le_succ _⟩
  | published bs _ _ _ _ _ _ _ _ _ log | counted bs _ _ _ _ _ _ _ _ log =>
    rw [log, List.length_append]
    exact ⟨List.prefix_append _ _, Nat.le_refl _⟩

theorem ChunkInv.copied_of_done (hd : l.receiver.calls = []) :
    l.receiver.copied = l.sender.published := by
  obtain ⟨past, left, -, hr, hphase⟩ := h.receiver
  have hcalls := hr.calls
  rw [hd, List.map_nil, eq_comm, List.map_eq_nil_iff] at hcalls
  subst hcalls
  cases hphase with
  | empty _ _ _ _ _ log | taken _ _ _ _ _ _ log => exact log.symm
  | published _ _ _ _ _ _ _ _ left | counted _ _ _ _ _ _ _ left => cases left

theorem ChunkInv.dataSize_le : (l.shm.ctr.channels i).dataSize ≤ (l.shm.ctr.channels i).bufSize := by
  obtain ⟨past, left, -, -, hphase⟩ := h.receiver
  rw [UInt64.le_iff_toNat_le]
  cases hphase with
  | empty _ size | published _ _ _ size =>
    rw [size]
    exact Nat.zero_le _
  | counted _ _ size _ _ _ le =>
    rw [size]
    exact le
  | taken _ size => exact size

theorem ChunkInv.rebuilt :
    List.Forall₂ Rebuilt l.receiver.returned (msgs.take l.receiver.returned.length) := by
  obtain ⟨past, left, rfl, hr, -⟩ := h.receiver
  rw [hr.returned.length_eq, List.take_left]
  exact hr.returned

theorem ChunkInv.not_stuck : ¬ Stuck i l := by
  rintro ⟨hd, href, -, call, rest, hc, hlt⟩
  obtain ⟨past, left, -, hr, hphase⟩ := h.receiver
  have hcalls := hr.calls
  rw [hc] at hcalls
  cases left with
  | nil => cases hcalls
  | cons msg left =>
    obtain ⟨d, hr'⟩ := hr.call call rest msg left hc rfl
    rw [hr'.size, size_le_received hr'.received] at hlt
    have hnext := hr'.next left h.pos (Nat.lt_of_not_le hlt)
    have no : (l.shm.ctr.channels i).refCount ≠ 1 := by
      rw [href]
      decide
    cases hphase with
    | empty _ _ _ _ left =>
      rw [hnext, chunkSendLeft, hd] at left
      cases left
    | published _ _ ref => exact no ref
    | counted _ ref => exact no ref
    | taken ref => exact no ref

end

/-- A sender and a receiver on one channel, for any messages, in every run in
which the receiver takes the length of each chunk after the sender has added
it: the chunks that were published are copied, each once and in full, and all
of them by the end; `data_size` is never more than `buf_size`; what the
receiver returned are the messages; and it is not left waiting for bytes that
nobody sends. -/
theorem chunkTransfer_of_readsLater (m : ChunkShm) (i : Fin maxChannels) (sk rk : ChannelKey)
    (msgs : List Message) (calls : List RecvCall) (hm : m.ctr.controlMutex = 0)
    (hs : findChannel m.ctr.common sk = some i) (hr : findChannel m.ctr.common rk = some i)
    (href : (m.ctr.channels i).refCount = 0) (hsize : (m.ctr.channels i).dataSize = 0)
    (hpos : 0 < (m.ctr.channels i).bufSize) (hsizes : ∀ msg ∈ msgs, msg.size.toNat < 2 ^ 31)
    (hcalls : calls.map (·.size) = msgs.map (·.size)) (turns : List Turn)
    (hlater : Guarded chunkLinkStep ReadsLater (.start m sk msgs rk calls) turns) :
    let l := run chunkLinkStep (.start m sk msgs rk calls) turns
    let ch := l.shm.ctr.channels i
    (l.receiver.copied <+: l.sender.published ∧
      l.sender.published.length ≤ l.receiver.copied.length + 1) ∧
      (l.receiver.calls = [] → l.receiver.copied = l.sender.published) ∧
      ch.dataSize ≤ ch.bufSize ∧
      List.Forall₂ Rebuilt l.receiver.returned (msgs.take l.receiver.returned.length) ∧
      ¬ Stuck i l := by
  intro l ch
  have h : ChunkInv i msgs l :=
    hlater.run_inv ChunkInv.step (chunkInv_start hm hs hr href hsize hpos hsizes hcalls)
  exact ⟨h.copied, h.copied_of_done, h.dataSize_le, h.rebuilt, h.not_stuck⟩

/-- A memory with one channel. -/
def oneChunkChannel : ChunkShm :=
  ⟨⟨16384, 1, 2, fun _ => ⟨1, ⟨1, 5, 2⟩, 0, 16384, 0, 0, 0, 0⟩, 0, false, ⟨1, 5, 2⟩⟩, fun _ => 0⟩

/-- A sender of one byte more than the channel holds, and its receiver. -/
def twoChunks : ChunkLink :=
  .start oneChunkChannel ⟨1, 5, 2⟩ [⟨fun _ => 7, 16385⟩] ⟨1, 0, 2⟩ [⟨fun _ => 0, 16385⟩]

/-- The channel is handed over, back, and over again. -/
def handedBack : List Turn :=
  List.replicate 10 (.sender 0) ++ List.replicate 10 .receiver ++ List.replicate 10 (.sender 0) ++
    List.replicate 12 .receiver

theorem chunkTransfer_of_readsLater_two :
    let l := run chunkLinkStep twoChunks handedBack
    l.receiver.calls = [] ∧ l.sender.published.length = 2 ∧ l.receiver.copied = l.sender.published := by
  have hdone : (run chunkLinkStep twoChunks handedBack).receiver.calls.length = 0 := by decide +kernel
  have hlater : Guarded chunkLinkStep ReadsLater twoChunks handedBack := by decide +kernel
  have hend := List.eq_nil_of_length_eq_zero hdone
  obtain ⟨-, hcopied, -⟩ := chunkTransfer_of_readsLater oneChunkChannel 0 ⟨1, 5, 2⟩ ⟨1, 0, 2⟩
    [⟨fun _ => 7, 16385⟩] [⟨fun _ => 0, 16385⟩] (by decide) (by decide +kernel) (by decide +kernel)
    (by decide) (by decide) (by decide) (by decide) rfl handedBack hlater
  refine ⟨hend, by decide +kernel, ?_⟩
  unfold twoChunks at hend ⊢
  exact hcopied hend

/-- A sender of one byte and its receiver. -/
def oneByte : ChunkLink := .start oneChunkChannel ⟨1, 5, 2⟩ [⟨fun _ => 7, 1⟩] ⟨1, 0, 2⟩ [⟨fun _ => 0, 1⟩]

/-- The receiver takes the length of the byte before it is added. -/
def tooEarly : List Turn :=
  List.replicate 7 (.sender 0) ++ List.replicate 10 .receiver ++ List.replicate 3 (.sender 0)

/-- A receiver that takes the length too early copies nothing, gives the
channel back and waits for ever. -/
theorem not_chunkTransfer :
    (run chunkLinkStep oneByte tooEarly).sender.published = [[7]] ∧
      (run chunkLinkStep oneByte tooEarly).receiver.copied = [[]] ∧
      Stuck 0 (run chunkLinkStep oneByte tooEarly) := by
  have hsizes : (run chunkLinkStep oneByte tooEarly).receiver.calls.map (·.size) = [1] := by
    decide +kernel
  have hd : (run chunkLinkStep oneByte tooEarly).receiver.dataReceived = 0 := by decide +kernel
  obtain ⟨call, rest, hc, hsize, -⟩ := List.map_eq_cons_iff.mp hsizes
  refine ⟨by decide +kernel, by decide +kernel, List.eq_nil_of_length_eq_zero (by decide +kernel),
    by decide +kernel, by decide +kernel, call, rest, hc, ?_⟩
  rw [hsize, hd]
  decide

end Ivshmem
