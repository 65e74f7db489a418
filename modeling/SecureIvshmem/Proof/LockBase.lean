import SecureIvshmem.Impl.LockBase
import SecureIvshmem.Proof.Framing

/-!
# The lock-based transport, one sender and one receiver

`mutex` is a test and a store, but between the sender's test of `ref_count`
and its next store to it the receiver waits, and the other way round, so the
two never hold it at a time (`LockSafe`). What the receiver is still to get is
what is in the data section and what the sender is still to send
(`LockData`). `lockTransfer_ok` is the result.
-/

namespace Ivshmem

open SharedMem SharedMem.Word

/-! ## Exclusion -/

/-- Between setting and clearing `mutex`. -/
def LockSendPc.inCs : LockSendPc → Bool
  | .loop | .mutex | .setMutex => false
  | _ => true

/-- Past the test of `ref_count`, before the store to it. -/
def LockSendPc.claims : LockSendPc → Bool
  | .loop | .clearMutex => false
  | _ => true

/-- Between setting and clearing `mutex`. -/
def LockRecvPc.inCs : LockRecvPc → Bool
  | .copy | .readRefCount | .writeRefCount _ | .clearMutex => true
  | _ => false

/-- Past the test of `ref_count`, before the store to it. -/
def LockRecvPc.claims : LockRecvPc → Bool
  | .mutex | .setMutex | .copy | .readRefCount | .writeRefCount _ => true
  | _ => false

/-- Who may be where while `ref_count` and `mutex` have these values. -/
structure LockSafe (m : LockShm) (p : LockSendPc) (q : LockRecvPc) : Prop where
  refCount : m.refCount = 0 ∨ m.refCount = 1
  mutex : m.mutex = (p.inCs || q.inCs)
  sends : p.claims = true → m.refCount = 0
  sent : p = .clearMutex → m.refCount = 1
  receives : q.claims = true → m.refCount = 1
  received : q = .clearMutex → m.refCount = 0
  sender_alone : p.claims = true → p = .mutex ∨ q ≠ .clearMutex
  receiver_alone : q.claims = true → q = .mutex ∨ p = .loop
  readRefCount : ∀ n, q = .writeRefCount n → n = 1

/-- Inside, the receiver has claimed the chunk or given it back. -/
theorem LockRecvPc.inCs_cases {q : LockRecvPc} (h : q.inCs = true) :
    q.claims = true ∧ q ≠ .mutex ∨ q = .clearMutex := by
  cases q
  case clearMutex => exact .inr rfl
  case copy | readRefCount | writeRefCount n => exact .inl ⟨rfl, by simp⟩
  all_goals cases h

/-- Inside, the sender has claimed the data section or published a chunk. -/
theorem LockSendPc.inCs_cases {p : LockSendPc} (h : p.inCs = true) :
    p.claims = true ∧ p ≠ .mutex ∨ p = .clearMutex := by
  cases p
  case clearMutex => exact .inr rfl
  case loop | mutex | setMutex => cases h
  all_goals exact .inl ⟨rfl, by simp⟩

/-- Outside and without a claim, the sender is at its loop head. -/
theorem LockSendPc.eq_loop {p : LockSendPc} (h : p.inCs = false) (h' : p.claims = false) : p = .loop := by
  cases p <;> simp_all [LockSendPc.inCs, LockSendPc.claims]

/-- The two parties are never both inside. -/
theorem LockSafe.apart {m : LockShm} {p : LockSendPc} {q : LockRecvPc} (h : LockSafe m p q)
    (hp : p.inCs = true) :
    q.inCs = false := by
  by_contra hq
  obtain ⟨hc, hne⟩ | rfl := LockRecvPc.inCs_cases (Bool.eq_true_of_not_eq_false hq)
  · obtain rfl := (h.receiver_alone hc).resolve_left hne
    cases hp
  · have h0 := h.received rfl
    obtain ⟨hc, hne⟩ | rfl := LockSendPc.inCs_cases hp
    · exact (h.sender_alone hc).resolve_left hne rfl
    · rw [h.sent rfl] at h0
      cases h0

section

variable {m m' : LockShm} {p p' : LockSendPc} {q q' : LockRecvPc} (h : LockSafe m p q)
include h

/-- While the sender claims the data section the receiver claims no chunk. -/
theorem LockSafe.not_both (hp : p.claims = true) (hq : q.claims = true) : False := by
  have h1 := h.receives hq
  rw [h.sends hp] at h1
  cases h1

/-- The sender goes back to its loop head. -/
theorem LockSafe.sender_loop (hp : p.inCs = false) : LockSafe m .loop q where
  refCount := h.refCount
  mutex := by rw [h.mutex, hp]; rfl
  sends hc := by cases hc
  sent e := by cases e
  receives := h.receives
  received := h.received
  sender_alone hc := by cases hc
  receiver_alone _ := .inr rfl
  readRefCount := h.readRefCount

/-- The sender goes on inside. -/
theorem LockSafe.sender_inside (hp : p.claims = true) (hne : p ≠ .mutex) (hp' : p'.claims = true)
    (hin : p'.inCs = true) (hr : m'.refCount = m.refCount) (hm : m'.mutex = true) : LockSafe m' p' q where
  refCount := by rw [hr]; exact h.refCount
  mutex := by rw [hm, hin, Bool.true_or]
  sends _ := hr.trans (h.sends hp)
  sent e := by rw [e] at hp'; cases hp'
  receives hq := hr.trans (h.receives hq)
  received e := hr.trans (h.received e)
  sender_alone _ := .inr ((h.sender_alone hp).resolve_left hne)
  receiver_alone hq := (h.not_both hp hq).elim
  readRefCount := h.readRefCount

/-- The receiver waits. -/
theorem LockSafe.receiver_waits (hq : q.inCs = false) (hq' : q'.inCs = false) (hc : q'.claims = false) :
    LockSafe m p q' where
  refCount := h.refCount
  mutex := by rw [h.mutex, hq, hq']
  sends := h.sends
  sent := h.sent
  receives hq := by rw [hc] at hq; cases hq
  received e := by rw [e] at hq'; cases hq'
  sender_alone _ := .inr fun e => by rw [e] at hq'; cases hq'
  receiver_alone hq := by rw [hc] at hq; cases hq
  readRefCount n e := by rw [e] at hc; cases hc

/-- The receiver goes on inside. -/
theorem LockSafe.receiver_inside (hq : q.claims = true) (hne : q ≠ .mutex) (hin : q'.inCs = true)
    (hr : m'.refCount = m.refCount) (hm : m'.mutex = true) (hread : ∀ n, q' = .writeRefCount n → n = 1)
    (hclear : q' ≠ .clearMutex) : LockSafe m' p q' where
  refCount := by rw [hr]; exact h.refCount
  mutex := by rw [hm, hin, Bool.or_true]
  sends hp := (h.not_both hp hq).elim
  sent e := by
    obtain rfl := (h.receiver_alone hq).resolve_left hne
    cases e
  receives _ := hr.trans (h.receives hq)
  received e := absurd e hclear
  sender_alone hp := (h.not_both hp hq).elim
  receiver_alone _ := .inr ((h.receiver_alone hq).resolve_left hne)
  readRefCount := hread

end

theorem LockSafe.sender {m : LockShm} {t : LockSender} {q : LockRecvPc} (h : LockSafe m t.pc q) :
    LockSafe (lockSendStep m t).1 (lockSendStep m t).2.pc q := by
  cases hc : t.calls with
  | nil => simpa only [lockSendStep, hc] using h
  | cons msg rest =>
    simp only [lockSendStep, hc, lockSendCallStep]
    cases e : t.pc <;> rw [e] at h <;> simp only
    case loop =>
      split
      · exact h
      · obtain h0 | h1 := h.refCount
        · rw [if_neg (by rw [h0]; decide)]
          exact ⟨h.refCount, h.mutex, fun _ => h0, fun e => (by cases e), h.receives, h.received,
            fun _ => .inl rfl, fun hq => absurd (h0.symm.trans (h.receives hq)) (by decide),
            h.readRefCount⟩
        · rw [if_pos (by rw [h1]; decide)]
          exact h
    case mutex =>
      split
      · exact h.sender_loop rfl
      · rename_i hm
        have hq : q.inCs = false := by
          have := h.mutex
          rw [Bool.eq_false_of_not_eq_true hm] at this
          exact this.symm
        exact ⟨h.refCount, h.mutex, h.sends, fun e => (by cases e), h.receives, h.received,
          fun _ => .inr fun e => (by rw [e] at hq; cases hq), fun hq => (h.not_both rfl hq).elim,
            h.readRefCount⟩
    case setMutex => exact h.sender_inside rfl (by simp) rfl rfl rfl rfl
    case refCount =>
      have hm := h.mutex
      exact ⟨.inr rfl, hm, fun hp => (by cases hp), fun _ => rfl, fun _ => rfl,
        fun e => absurd e ((h.sender_alone rfl).resolve_left (by simp)), fun hp => (by cases hp),
        fun hq => (h.not_both rfl hq).elim, h.readRefCount⟩
    case clearMutex =>
      have hq := h.apart rfl
      exact ⟨h.refCount, hq.symm, fun hp => (by cases hp), fun e => (by cases e), h.receives, h.received,
        fun hp => (by cases hp), fun _ => .inr rfl, h.readRefCount⟩
    all_goals exact h.sender_inside rfl (by simp) rfl rfl rfl h.mutex

theorem LockSafe.receiver {m : LockShm} {p : LockSendPc} {t : LockReceiver} (h : LockSafe m p t.pc) :
    LockSafe (lockRecvStep m t).1 p (lockRecvStep m t).2.pc := by
  cases hc : t.calls with
  | nil => simpa only [lockRecvStep, hc] using h
  | cons call rest =>
    simp only [lockRecvStep, hc, lockRecvCallStep]
    cases e : t.pc <;> rw [e] at h <;> simp only
    case loop =>
      split
      · exact h
      · split <;> exact h.receiver_waits rfl rfl rfl
    case keySender => split <;> (try split) <;> exact h.receiver_waits rfl rfl rfl
    case keyPid => split <;> exact h.receiver_waits rfl rfl rfl
    case refCount =>
      obtain h0 | h1 := h.refCount
      · rw [if_pos (by rw [h0]; decide)]
        exact h.receiver_waits rfl rfl rfl
      · rw [if_neg (by rw [h1]; decide)]
        exact ⟨h.refCount, h.mutex, h.sends, h.sent, fun _ => h1, fun e => (by cases e),
          fun _ => .inr (by simp), fun _ => .inl rfl, fun n e => by cases e⟩
    case mutex =>
      split
      · exact h.receiver_waits rfl rfl rfl
      · rename_i hm
        have hp : p.inCs = false := by
          have := h.mutex
          rw [Bool.eq_false_of_not_eq_true hm, show LockRecvPc.mutex.inCs = false from rfl,
            Bool.or_false] at this
          exact this.symm
        have hp' : p.claims = false := Bool.eq_false_of_not_eq_true fun hp' => h.not_both hp' rfl
        exact ⟨h.refCount, h.mutex, h.sends, h.sent, h.receives, fun e => (by cases e),
          fun _ => .inr (by simp), fun _ => .inr (LockSendPc.eq_loop hp hp'), fun n e => by cases e⟩
    case setMutex => exact h.receiver_inside rfl (by simp) rfl rfl rfl (fun n e => by cases e) (by simp)
    case copy =>
      exact h.receiver_inside rfl (by simp) rfl rfl (by rw [h.mutex]; exact Bool.or_true _)
        (fun n e => by cases e)
        (by simp)
    case readRefCount =>
      exact h.receiver_inside rfl (by simp) rfl rfl (by rw [h.mutex]; exact Bool.or_true _)
        (fun n e => by cases e; exact h.receives rfl) (by simp)
    case writeRefCount n =>
      obtain rfl := h.readRefCount n rfl
      obtain rfl := (h.receiver_alone rfl).resolve_left (by simp)
      exact ⟨.inl rfl, h.mutex, fun _ => rfl, fun e => (by cases e), fun hq => (by cases hq),
        fun _ => rfl, fun hp => (by cases hp), fun hq => (by cases hq), fun n e => by cases e⟩
    case clearMutex =>
      have hp : p.inCs = false := Bool.eq_false_of_not_eq_true fun hp => by
        have := h.apart hp
        cases this
      exact ⟨h.refCount, by rw [hp]; rfl, h.sends, h.sent, fun hq => (by cases hq), fun e => (by cases e),
        fun _ => .inr (by simp), fun hq => (by cases hq), fun n e => by cases e⟩

/-! ## The key -/

/-- How many fields of the key the sender has written in its turn. -/
def LockSendPc.wrote : LockSendPc → Nat
  | .keyReceiver => 1
  | .keySender => 2
  | .dataSize | .refCount => 3
  | _ => 0

/-- Where there is a chunk, the key is the sender's. -/
structure LockKeyed (k : LockKey) (m : LockShm) (p : LockSendPc) : Prop where
  senderPid : 1 ≤ p.wrote ∨ m.refCount = 1 → m.key.senderPid = k.senderPid
  receiverVm : 2 ≤ p.wrote ∨ m.refCount = 1 → m.key.receiverVm = k.receiverVm
  senderVm : 3 ≤ p.wrote ∨ m.refCount = 1 → m.key.senderVm = k.senderVm

theorem LockKeyed.sender {m : LockShm} {t : LockSender} {q : LockRecvPc} (hs : LockSafe m t.pc q)
    (h : LockKeyed t.key m t.pc) : LockKeyed t.key (lockSendStep m t).1 (lockSendStep m t).2.pc := by
  obtain ⟨hpid, hrvm, hsvm⟩ := h
  cases hc : t.calls with
  | nil => simpa only [lockSendStep, hc] using ⟨hpid, hrvm, hsvm⟩
  | cons msg rest =>
    simp only [lockSendStep, hc, lockSendCallStep]
    cases e : t.pc <;> rw [e] at hpid hrvm hsvm hs <;> simp only [LockSendPc.wrote] at hpid hrvm hsvm ⊢
    case loop => split <;> (try split) <;> constructor <;> simp_all [LockSendPc.wrote]
    case mutex => split <;> constructor <;> simp_all [LockSendPc.wrote]
    all_goals constructor <;> simp_all [LockSendPc.wrote, hs.sent]

theorem LockKeyed.receiver {k : LockKey} {m : LockShm} {p : LockSendPc} {t : LockReceiver}
    (hs : LockSafe m p t.pc) (h : LockKeyed k m p) : LockKeyed k (lockRecvStep m t).1 p := by
  cases hc : t.calls with
  | nil => simpa only [lockRecvStep, hc] using h
  | cons call rest =>
    simp only [lockRecvStep, hc, lockRecvCallStep]
    cases e : t.pc <;> simp only
    case loop => split <;> exact h
    case writeRefCount n =>
      rw [e] at hs
      obtain rfl := hs.readRefCount n rfl
      obtain rfl := (hs.receiver_alone rfl).resolve_left (by simp)
      constructor <;> simp [LockSendPc.wrote]
    all_goals exact ⟨h.senderPid, h.receiverVm, h.senderVm⟩

/-! ## Chunks -/

/-- The chunks of a message from byte `d` on. -/
def lockChunks (msg : Message) (d : Nat) : List (List UInt8) :=
  if msg.size.toNat ≤ d then []
  else
    bytesAt msg.buffer d (min (msg.size.toNat - d) lockDataSectionSize) ::
      lockChunks msg (d + min (msg.size.toNat - d) lockDataSectionSize)
termination_by msg.size.toNat - d
decreasing_by simp only [lockDataSectionSize, ivshmemSize, lockControlSectionSize]; omega

theorem lockChunks_done {msg : Message} {d : Nat} (h : msg.size.toNat ≤ d) : lockChunks msg d = [] := by
  rw [lockChunks, if_pos h]

theorem lockChunks_more {msg : Message} {d : Nat} (h : d < msg.size.toNat) :
    lockChunks msg d = bytesAt msg.buffer d (min (msg.size.toNat - d) lockDataSectionSize) ::
      lockChunks msg (d + min (msg.size.toNat - d) lockDataSectionSize) := by
  rw [lockChunks, if_neg (by omega)]

/-- The chunks of messages from byte `d` of the first on. -/
def lockLeft : List Message → Nat → List (List UInt8)
  | [], _ => []
  | msg :: msgs, d => lockChunks msg d ++ msgs.flatMap fun msg => lockChunks msg 0

theorem lockLeft_zero (msgs : List Message) :
    lockLeft msgs 0 = msgs.flatMap fun msg => lockChunks msg 0 := by
  cases msgs <;> rfl

theorem lockLeft_done {msg : Message} {msgs : List Message} {d : Nat} (h : msg.size.toNat ≤ d) :
    lockLeft (msg :: msgs) d = lockLeft msgs 0 := by
  rw [lockLeft_zero, lockLeft, lockChunks_done h, List.nil_append]

theorem lockLeft_more {msg : Message} {msgs : List Message} {d : Nat} (h : d < msg.size.toNat) :
    lockLeft (msg :: msgs) d = bytesAt msg.buffer d (min (msg.size.toNat - d) lockDataSectionSize) ::
      lockLeft (msg :: msgs) (d + min (msg.size.toNat - d) lockDataSectionSize) := by
  simp only [lockLeft]
  rw [lockChunks_more h, List.cons_append]

/-- The sender's chunk. -/
theorem lockToSent_toNat {size dataSent : UInt64} (h : dataSent.toNat ≤ size.toNat) :
    (lockToSent size dataSent).toNat = min (size.toNat - dataSent.toNat) lockDataSectionSize := by
  rw [lockToSent, minSize_toNat, UInt64.toNat_sub_of_le _ _ (UInt64.le_iff_toNat_le.mpr h)]
  rfl

theorem sent_add_toNat {size dataSent : UInt64} (h : dataSent.toNat ≤ size.toNat) :
    (dataSent + lockToSent size dataSent).toNat =
      dataSent.toNat + min (size.toNat - dataSent.toNat) lockDataSectionSize := by
  have hlt := size.toNat_lt
  rw [UInt64.toNat_add, lockToSent_toNat h]
  exact Nat.mod_eq_of_lt (by omega)

section

variable {size : UInt64} {dataReceived : Int32} {d : Nat} (hd : dataReceived.toInt = d)
  (h : d ≤ size.toNat)
include hd h

theorem lockToReceive_toInt :
    (lockToReceive size dataReceived).toInt = min (size.toNat - d) lockDataSectionSize :=
  rest_toInt hd (by decide) h

/-- The receiver's chunk. -/
theorem lockToReceive_toNat :
    (intToSize (lockToReceive size dataReceived)).toNat = min (size.toNat - d) lockDataSectionSize := by
  have := lockToReceive_toInt hd h
  rw [intToSize_toNat (by omega)]
  omega

theorem lockReceived_add_toInt (hs : size.toNat < 2 ^ 31) :
    (dataReceived + lockToReceive size dataReceived).toInt =
      (d + min (size.toNat - d) lockDataSectionSize : Nat) := by
  have := lockToReceive_toInt hd h
  rw [toInt_add (by omega) (by omega)]
  omega

end

/-! ## The parties -/

/-- Between the test for more bytes and the copy. -/
def LockSendPc.toCopy : LockSendPc → Bool
  | .mutex | .setMutex | .copy => true
  | _ => false

/-- Between the copy into the data section and the store to `ref_count`. -/
def LockSendPc.filled : LockSendPc → Bool
  | .keyPid | .keyReceiver | .keySender | .dataSize | .refCount => true
  | _ => false

/-- Between the copy out of the data section and the store to `ref_count`. -/
def LockRecvPc.emptied : LockRecvPc → Bool
  | .readRefCount | .writeRefCount _ => true
  | _ => false

/-- What a sender has still to send. -/
def LockSender.left (t : LockSender) : List (List UInt8) := lockLeft t.calls t.dataSent.toNat

/-- What a receiver of `msgs` has still to get. -/
def LockReceiver.left (msgs : List Message) (t : LockReceiver) : List (List UInt8) :=
  lockLeft (msgs.drop t.returned.length) t.dataReceived.toInt.toNat

/-- What a sender in its call for `msg` has sent. -/
structure LockSending (msg : Message) (t : LockSender) : Prop where
  le : t.dataSent.toNat ≤ msg.size.toNat
  more : t.pc.toCopy = true → t.dataSent.toNat < msg.size.toNat

/-- What a receiver of `msg` in its call `call` has got, `d` bytes and
perhaps the chunk under way. -/
structure LockReceiving (call : RecvCall) (msg : Message) (t : LockReceiver) (d : Nat) : Prop where
  size : call.size = msg.size
  small : msg.size.toNat < 2 ^ 31
  received : t.dataReceived.toInt = d
  le : d ≤ msg.size.toNat
  more : t.pc ≠ .loop → t.pc ≠ .clearMutex → d < msg.size.toNat
  got : bytesAt call.buffer 0 d = bytesAt msg.buffer 0 d
  copied : t.pc.emptied = true →
    bytesAt call.buffer 0 (d + min (msg.size.toNat - d) lockDataSectionSize) =
    bytesAt msg.buffer 0 (d + min (msg.size.toNat - d) lockDataSectionSize)

/-- The state of a sender. -/
def LockSenderOk (t : LockSender) : Prop := ∀ msg rest, t.calls = msg :: rest → LockSending msg t

/-- What was returned: the messages, in order. -/
def LockReturned (msgs : List Message) (returned : List (Int32 × Mem UInt8)) : Prop :=
  ∀ (i : Nat) (ret : Int32) (buffer : Mem UInt8), returned[i]? = some (ret, buffer) →
    ∃ msg : Message, msgs[i]? = some msg ∧ ret = 0 ∧
      bytesAt buffer 0 msg.size.toNat = bytesAt msg.buffer 0 msg.size.toNat

/-- The state of a receiver of `msgs`. -/
structure LockReceiverOk (msgs : List Message) (t : LockReceiver) : Prop where
  sizes : t.calls.map (·.size) = (msgs.drop t.returned.length).map (·.size)
  call : ∀ call rest msg rest', t.calls = call :: rest → msgs.drop t.returned.length = msg :: rest' →
    ∃ d, LockReceiving call msg t d
  returned : LockReturned msgs t.returned

/-- The chunk in the data section, if there is one, and what is still to be
sent are what is still to be got. -/
structure LockFlow (msgs : List Message) (s : LockLink) : Prop where
  chunk : s.sender.pc.filled = true ∨ s.shm.refCount = 1 →
    ∃ bs, s.receiver.left msgs = bs :: s.sender.left ∧ bytesAt s.shm.data 0 bs.length = bs
  none : s.sender.pc.filled = false → s.shm.refCount = 0 → s.receiver.left msgs = s.sender.left
  published : s.sender.published =
    s.receiver.copied + if s.shm.refCount = 1 ∧ s.receiver.pc.emptied = false then 1 else 0

/-- The invariant of a sender and a receiver of `msgs`. -/
structure LockInv (msgs : List Message) (k k' : LockKey) (s : LockLink) : Prop where
  safe : LockSafe s.shm s.sender.pc s.receiver.pc
  senderKey : s.sender.key = k
  receiverKey : s.receiver.key = k'
  keyed : LockKeyed k s.shm s.sender.pc
  sender : LockSenderOk s.sender
  receiver : LockReceiverOk msgs s.receiver
  flow : LockFlow msgs s

/-! ## Steps -/

theorem LockSenderOk.of_calls {t : LockSender} {msg : Message} {rest : List Message}
    (hc : t.calls = msg :: rest) (h : LockSending msg t) : LockSenderOk t := fun msg' rest' hc' => by
  obtain ⟨rfl, -⟩ := List.cons.inj (hc.symm.trans hc')
  exact h

theorem LockSenderOk.step {m : LockShm} {t : LockSender} (h : LockSenderOk t) :
    LockSenderOk (lockSendStep m t).2 := by
  cases hc : t.calls with
  | nil => simpa only [lockSendStep, hc] using h
  | cons msg rest =>
    obtain ⟨hle, hmore⟩ := h msg rest hc
    simp only [lockSendStep, hc, lockSendCallStep]
    cases e : t.pc <;> rw [e] at hmore <;> simp only
    case loop =>
      split
      · exact fun msg' rest' _ => ⟨Nat.zero_le _, fun hp => by simp [LockSendPc.toCopy] at hp⟩
      · rename_i hsize
        rw [UInt64.le_iff_toNat_le] at hsize
        exact .of_calls rfl ⟨hle, fun _ => Nat.lt_of_not_le hsize⟩
    case mutex => exact .of_calls rfl ⟨hle, fun _ => hmore rfl⟩
    case setMutex => exact .of_calls rfl ⟨hle, fun _ => hmore rfl⟩
    case copy =>
      refine .of_calls rfl ⟨?_, fun hp => by cases hp⟩
      simp only [sent_add_toNat hle]
      omega
    all_goals exact .of_calls rfl ⟨hle, fun hp => by cases hp⟩

theorem LockReceiverOk.of_calls {msgs : List Message} {t : LockReceiver} {call : RecvCall}
    {rest : List RecvCall} {msg : Message} {rest' : List Message} {d : Nat} (hc : t.calls = call :: rest)
    (hm : msgs.drop t.returned.length = msg :: rest') (hrest : rest.map (·.size) = rest'.map (·.size))
    (h : LockReceiving call msg t d)
    (hret : LockReturned msgs t.returned) : LockReceiverOk msgs t := by
  refine ⟨by simp only [hc, hm, List.map_cons, h.size, hrest], fun call' cs msg' ms hc' hm' => ?_, hret⟩
  obtain ⟨rfl, -⟩ := List.cons.inj (hc.symm.trans hc')
  obtain ⟨rfl, -⟩ := List.cons.inj (hm.symm.trans hm')
  exact ⟨d, h⟩

/-- A receiver in a call has a message to get. -/
theorem LockReceiverOk.exists_msg {msgs : List Message} {t : LockReceiver}
    (h : LockReceiverOk msgs t) {call : RecvCall} {rest : List RecvCall} (hc : t.calls = call :: rest) :
    ∃ msg rest', msgs.drop t.returned.length = msg :: rest' ∧ rest.map (·.size) = rest'.map (·.size) := by
  have hs := h.sizes
  rw [hc] at hs
  cases hm : msgs.drop t.returned.length with
  | nil => rw [hm] at hs; cases hs
  | cons msg rest' =>
    rw [hm] at hs
    exact ⟨msg, rest', rfl, (List.cons.inj hs).2⟩

/-- A receiver that returns has as much to get as before. -/
theorem LockReceiverOk.left_return {msgs : List Message} {t : LockReceiver}
    (h : LockReceiverOk msgs t) {call : RecvCall} {rest : List RecvCall}
    (hc : t.calls = call :: rest) (hle : call.size ≤ intToSize t.dataReceived) :
    LockReceiver.left msgs { t with calls := rest, dataReceived := 0, returned := t.returned ++
      [(0, call.buffer)] } =
      t.left msgs := by
  obtain ⟨msg, rest', hm, -⟩ := h.exists_msg hc
  obtain ⟨d, hr⟩ := h.call call rest msg rest' hc hm
  rw [size_le_received hr.received, hr.size] at hle
  have hdrop : msgs.drop (t.returned.length + 1) = rest' := by
    rw [← List.drop_drop, hm, List.drop_one, List.tail_cons]
  rw [LockReceiver.left, LockReceiver.left, List.length_append, List.length_singleton, hdrop, hm,
    hr.received, Int.toNat_natCast, lockLeft_done hle]
  rfl

/-- A receiver that returns has got its message. -/
theorem LockReceiverOk.return {msgs : List Message} {t t' : LockReceiver} (h : LockReceiverOk msgs t)
    (hs : ∀ msg ∈ msgs, msg.size.toNat < 2 ^ 31) {call : RecvCall} {rest : List RecvCall}
    (hc : t.calls = call :: rest) (hle : call.size ≤ intToSize t.dataReceived) (hpc : t.pc = .loop)
    (ht : t' =
      { t with calls := rest, dataReceived := 0, returned := t.returned ++ [(0, call.buffer)] }) :
    LockReceiverOk msgs t' := by
  obtain ⟨msg, rest', hm, hrest⟩ := h.exists_msg hc
  obtain ⟨d, hr⟩ := h.call call rest msg rest' hc hm
  have hdrop : msgs.drop (t.returned.length + 1) = rest' := by
    rw [← List.drop_drop, hm, List.drop_one, List.tail_cons]
  have hmsg : msgs[t.returned.length]? = some msg := by
    rw [← List.head?_drop, hm, List.head?_cons]
  rw [size_le_received hr.received, hr.size] at hle
  obtain rfl : d = msg.size.toNat := Nat.le_antisymm hr.le hle
  subst ht
  refine ⟨by simp [hdrop, hrest], fun call' cs msg' ms hc' hm' => ⟨0, ?_⟩, fun i ret buffer hi => ?_⟩
  · simp only [List.length_append, List.length_singleton, hdrop] at hc' hm'
    rw [hc', hm', List.map_cons, List.map_cons, List.cons.injEq] at hrest
    have hmem : msg' ∈ msgs :=
      List.mem_of_mem_drop (i := t.returned.length + 1) (by rw [hdrop, hm']; simp)
    exact ⟨hrest.1, hs msg' hmem, rfl, Nat.zero_le _, fun hp => absurd hpc hp, rfl, fun hp => by
      simp [hpc, LockRecvPc.emptied] at hp⟩
  · obtain hlt | hge := Nat.lt_or_ge i t.returned.length
    · rw [List.getElem?_append_left hlt] at hi
      exact h.returned i ret buffer hi
    · rw [List.getElem?_append_right hge, List.getElem?_singleton] at hi
      split at hi
      · obtain rfl : i = t.returned.length := by omega
        cases hi
        exact ⟨msg, hmsg, rfl, hr.got⟩
      · cases hi

/-- The chunk in the data section is the one that the receiver gets next. -/
theorem LockFlow.chunk_at {msgs : List Message} {s : LockLink} (h : LockFlow msgs s)
    (href : s.shm.refCount = 1) {msg : Message} {rest : List Message}
    (hm : msgs.drop s.receiver.returned.length = msg :: rest) {d : Nat}
    (hd : s.receiver.dataReceived.toInt = d) (hlt : d < msg.size.toNat) :
    bytesAt s.shm.data 0 (min (msg.size.toNat - d) lockDataSectionSize) =
        bytesAt msg.buffer d (min (msg.size.toNat - d) lockDataSectionSize) ∧
      lockLeft (msg :: rest) (d + min (msg.size.toNat - d) lockDataSectionSize) = s.sender.left := by
  obtain ⟨bs, e, hb⟩ := h.chunk (.inr href)
  rw [LockReceiver.left, hm, hd, Int.toNat_natCast, lockLeft_more hlt] at e
  obtain ⟨rfl, hleft⟩ := List.cons.inj e
  rw [length_bytesAt] at hb
  exact ⟨hb, hleft⟩

/-- A receiver that copies the bytes that come next. -/
theorem LockReceiving.copy {call : RecvCall} {msg : Message} {t t' : LockReceiver} {d : Nat}
    (h : LockReceiving call msg t d) (hlt : d < msg.size.toNat) {bs : List UInt8}
    (hbs : bs = bytesAt msg.buffer d (min (msg.size.toNat - d) lockDataSectionSize))
    (hd : t'.dataReceived = t.dataReceived) :
    LockReceiving ⟨store call.buffer t.dataReceived.toInt bs, call.size⟩ msg t' d := by
  have hlen : bs.length = min (msg.size.toNat - d) lockDataSectionSize := by rw [hbs, length_bytesAt]
  have happ : bytesAt (store call.buffer t.dataReceived.toInt bs) 0 (d + bs.length) =
      bytesAt msg.buffer 0 (d + bs.length) := by
    have := bytesAt_store_append call.buffer 0 d bs
    rw [Int.zero_add] at this
    rw [h.received, this, h.got, bytesAt_add, Int.zero_add, hlen, ← hbs]
  refine ⟨h.size, h.small, by rw [hd]; exact h.received, h.le, fun _ _ => hlt, ?_, fun _ => by
    rw [← hlen]; exact happ⟩
  rw [h.received, bytesAt_store_disjoint (by omega)]
  exact h.got

theorem LockReceiverOk.step {msgs : List Message} (hs : ∀ msg ∈ msgs, msg.size.toNat < 2 ^ 31)
    {s : LockLink} (hsafe : LockSafe s.shm s.sender.pc s.receiver.pc) (hf : LockFlow msgs s)
    (h : LockReceiverOk msgs s.receiver) :
    LockReceiverOk msgs (lockRecvStep s.shm s.receiver).2 := by
  cases hc : s.receiver.calls with
  | nil => simpa only [lockRecvStep, hc] using h
  | cons call rest =>
    obtain ⟨msg, rest', hm, hrest⟩ := h.exists_msg hc
    obtain ⟨d, hr⟩ := h.call call rest msg rest' hc hm
    -- a statement that changes the program counter only
    have goto : ∀ pc : LockRecvPc, pc.emptied = s.receiver.pc.emptied →
        (pc ≠ .loop → pc ≠ .clearMutex → d < msg.size.toNat) →
        LockReceiverOk msgs { s.receiver with calls := call :: rest, pc := pc } := fun pc he hmore =>
      .of_calls rfl hm hrest ⟨hr.size, hr.small, hr.received, hr.le, hmore, hr.got,
        fun hp => hr.copied (he.symm.trans hp)⟩
        h.returned
    have hmore := hr.more
    simp only [lockRecvStep, hc, lockRecvCallStep]
    cases e : s.receiver.pc <;> rw [e] at hmore goto hsafe <;> simp only
    case loop =>
      split
      · rename_i hle
        exact h.return hs hc hle e (by simp only [e])
      · rename_i hlt
        rw [size_le_received hr.received, hr.size, Nat.not_le] at hlt
        exact goto _ (by split <;> rfl) fun _ _ => hlt
    case copy =>
      have hlt := hmore (by simp) (by simp)
      refine .of_calls rfl hm hrest (hr.copy hlt ?_ rfl) h.returned
      rw [lockToReceive_toNat hr.received (by rw [hr.size]; exact hr.le), hr.size]
      exact (hf.chunk_at (hsafe.receives rfl) hm hr.received hlt).1
    case writeRefCount n =>
      have hadd := lockReceived_add_toInt hr.received hr.le hr.small
      refine .of_calls (d := d + min (msg.size.toNat - d) lockDataSectionSize) rfl hm hrest
        ⟨hr.size, hr.small, ?_, by have := hr.le; omega, fun _ hp => absurd rfl hp, ?_, fun hp => by
          cases hp⟩ h.returned
      · rw [hr.size]
        exact hadd
      · exact hr.copied (by rw [e]; rfl)
    case clearMutex => exact goto _ rfl fun hp => absurd rfl hp
    case keySender => exact goto _ (by split <;> (try split) <;> rfl) fun _ _ => hmore (by simp) (by simp)
    case keyPid | refCount | mutex => exact goto _ (by split <;> rfl) fun _ _ => hmore (by simp) (by simp)
    case setMutex => exact goto _ rfl fun _ _ => hmore (by simp) (by simp)
    case readRefCount =>
      refine .of_calls rfl hm hrest ⟨hr.size, hr.small, hr.received, hr.le,
        fun _ _ => hmore (by simp) (by simp), hr.got, fun _ => hr.copied (by rw [e]; rfl)⟩ h.returned

/-- A step that moves no chunk. -/
theorem LockFlow.goto {msgs : List Message} {s s' : LockLink} (h : LockFlow msgs s)
    (hl : s'.sender.left = s.sender.left) (hl' : s'.receiver.left msgs = s.receiver.left msgs)
    (hf : s'.sender.pc.filled = s.sender.pc.filled) (he : s'.receiver.pc.emptied = s.receiver.pc.emptied)
    (hr : s'.shm.refCount = s.shm.refCount) (hd : s'.shm.data = s.shm.data)
    (hp : s'.sender.published = s.sender.published) (hc : s'.receiver.copied = s.receiver.copied) :
    LockFlow msgs s' :=
  ⟨by rw [hf, hr, hl, hl', hd]; exact h.chunk, by rw [hf, hr, hl, hl']; exact h.none,
    by rw [hp, hc, hr, he]; exact h.published⟩

/-- A sender's step keeps what flows. -/
theorem LockFlow.sender {msgs : List Message} {s : LockLink} (h : LockFlow msgs s)
    (hsafe : LockSafe s.shm s.sender.pc s.receiver.pc) (hok : LockSenderOk s.sender) :
    LockFlow msgs (lockLinkStep s .sender) := by
  cases hc : s.sender.calls with
  | nil =>
    simp only [lockLinkStep, lockSendStep, hc]
    exact h
  | cons msg rest =>
    obtain ⟨hle, hmore⟩ := hok msg rest hc
    have hleft : lockLeft (msg :: rest) s.sender.dataSent.toNat = s.sender.left := by
      rw [LockSender.left, hc]
    simp only [lockLinkStep, lockSendStep, hc, lockSendCallStep]
    cases e : s.sender.pc <;> simp only
    case loop =>
      split
      · rename_i hsize
        refine h.goto ?_ rfl (by rw [e]) rfl rfl rfl rfl rfl
        rw [← hleft, lockLeft_done (UInt64.le_iff_toNat_le.mp hsize)]
        rfl
      · exact h.goto hleft rfl (by rw [e]; simp only; split <;> rfl) rfl rfl rfl rfl rfl
    case copy =>
      rw [e] at hsafe hmore
      have href := hsafe.sends rfl
      have hlt := hmore rfl
      refine ⟨fun _ =>
        ⟨bytesAt msg.buffer s.sender.dataSent.toNat (lockToSent msg.size s.sender.dataSent).toNat,
          ?_, bytesAt_store_self ..⟩, fun hf => (by cases hf), h.published⟩
      rw [show s.receiver.left msgs = s.sender.left from h.none (by rw [e]; rfl) href, ← hleft,
        lockLeft_more hlt, lockToSent_toNat hle, LockSender.left, sent_add_toNat hle]
    case refCount =>
      rw [e] at hsafe
      have href := hsafe.sends rfl
      have hq : s.receiver.pc.emptied = false := by
        cases eq : s.receiver.pc <;> simp only [LockRecvPc.emptied]
        all_goals
          have := hsafe.receives (by rw [eq]; rfl)
          rw [href] at this
          cases this
      refine ⟨fun _ => ?_, fun _ hr => (by cases hr), ?_⟩
      · obtain ⟨bs, el, hb⟩ := h.chunk (.inl (by rw [e]; rfl))
        exact ⟨bs, el.trans (congrArg _ hleft.symm), hb⟩
      · have hp := h.published
        simp only [href, hq, and_true, ↓reduceIte] at hp ⊢
        rw [hp]
        rfl
    case mutex => exact h.goto hleft rfl (by rw [e]; simp only; split <;> rfl) rfl rfl rfl rfl rfl
    all_goals exact h.goto hleft rfl (by rw [e]; rfl) rfl rfl rfl rfl rfl

/-- A receiver's step keeps what flows. -/
theorem LockFlow.receiver {msgs : List Message} {s : LockLink} (h : LockFlow msgs s)
    (hsafe : LockSafe s.shm s.sender.pc s.receiver.pc) (hok : LockReceiverOk msgs s.receiver) :
    LockFlow msgs (lockLinkStep s .receiver) := by
  cases hc : s.receiver.calls with
  | nil =>
    simp only [lockLinkStep, lockRecvStep, hc]
    exact h
  | cons call rest =>
    obtain ⟨msg, rest', hm, hrest⟩ := hok.exists_msg hc
    obtain ⟨d, hr⟩ := hok.call call rest msg rest' hc hm
    have hmore := hr.more
    have hleft : s.receiver.left msgs = lockLeft (msg :: rest') d := by
      rw [LockReceiver.left, hm, hr.received, Int.toNat_natCast]
    simp only [lockLinkStep, lockRecvStep, hc, lockRecvCallStep]
    cases e : s.receiver.pc <;> rw [e] at hsafe hmore <;> simp only
    case loop =>
      split
      · rename_i hsize
        exact h.goto rfl (hok.left_return hc hsize) rfl (by rw [e]) rfl rfl rfl rfl
      · exact h.goto rfl rfl rfl (by rw [e]; simp only; split <;> rfl) rfl rfl rfl rfl
    case copy =>
      have href := hsafe.receives rfl
      have hp := h.published
      refine ⟨h.chunk, h.none, ?_⟩
      simp only [href, e, LockRecvPc.emptied, and_self, ↓reduceIte, Bool.true_eq_false, and_false] at hp ⊢
      exact hp
    case writeRefCount n =>
      have href := hsafe.receives rfl
      obtain rfl := hsafe.readRefCount n rfl
      have hloop := (hsafe.receiver_alone rfl).resolve_left (by simp)
      have hlt := hmore (by simp) (by simp)
      have hp := h.published
      obtain ⟨-, hnext⟩ := h.chunk_at href hm hr.received hlt
      refine ⟨fun hf => ?_, fun _ _ => ?_, ?_⟩
      · obtain hf | hf := hf
        · rw [hloop] at hf
          cases hf
        · cases hf
      · rw [← hnext, LockReceiver.left, hm]
        simp only
        rw [hr.size, lockReceived_add_toInt hr.received hr.le hr.small, Int.toNat_natCast]
      · simp only [e, LockRecvPc.emptied, Bool.true_eq_false, and_false, ↓reduceIte] at hp
        rw [hp]
        rfl
    case keySender =>
      exact h.goto rfl rfl rfl (by rw [e]; simp only; split <;> (try split) <;> rfl) rfl rfl rfl rfl
    case keyPid | refCount | mutex =>
      exact h.goto rfl rfl rfl (by rw [e]; simp only; split <;> rfl) rfl rfl rfl rfl
    all_goals exact h.goto rfl rfl rfl (by rw [e]; rfl) rfl rfl rfl rfl

theorem lockSendStep_key (m : LockShm) (t : LockSender) : (lockSendStep m t).2.key = t.key := by
  cases hc : t.calls with
  | nil => simp only [lockSendStep, hc]
  | cons msg rest =>
    simp only [lockSendStep, hc, lockSendCallStep]
    cases t.pc <;> simp only
    case loop => split <;> rfl

theorem lockRecvStep_key (m : LockShm) (t : LockReceiver) : (lockRecvStep m t).2.key = t.key := by
  cases hc : t.calls with
  | nil => simp only [lockRecvStep, hc]
  | cons call rest =>
    simp only [lockRecvStep, hc, lockRecvCallStep]
    cases t.pc <;> simp only
    case loop => split <;> rfl

/-! ## The transfer -/

theorem LockInv.step {msgs : List Message} (hs : ∀ msg ∈ msgs, msg.size.toNat < 2 ^ 31)
    {k k' : LockKey} {s : LockLink} (h : LockInv msgs k k' s) (turn : LockTurn) :
    LockInv msgs k k' (lockLinkStep s turn) := by
  obtain ⟨hsafe, hk, hk', hkeyed, hsend, hrecv, hflow⟩ := h
  cases turn with
  | sender =>
    subst hk
    exact ⟨hsafe.sender, lockSendStep_key .., hk', hkeyed.sender hsafe, hsend.step, hrecv,
      hflow.sender hsafe hsend⟩
  | receiver =>
    exact ⟨hsafe.receiver, hk, (lockRecvStep_key ..).trans hk', hkeyed.receiver hsafe, hsend,
      hrecv.step hs hsafe hflow, hflow.receiver hsafe hrecv⟩

theorem lockSafe_start (m : LockShm) : LockSafe (lockInitControlSection m) .loop .loop where
  refCount := .inl rfl
  mutex := rfl
  sends h := by cases h
  sent h := by cases h
  receives h := by cases h
  received h := by cases h
  sender_alone h := by cases h
  receiver_alone h := by cases h
  readRefCount n h := by cases h

theorem lockKeyed_start (m : LockShm) (k : LockKey) : LockKeyed k (lockInitControlSection m) .loop where
  senderPid h := by obtain h | h := h <;> cases h
  receiverVm h := by obtain h | h := h <;> cases h
  senderVm h := by obtain h | h := h <;> cases h

theorem lockReceiverOk_start {msgs : List Message} (hs : ∀ msg ∈ msgs, msg.size.toNat < 2 ^ 31)
    (k' : LockKey) {calls : List RecvCall} (hcalls : calls.map (·.size) = msgs.map (·.size)) :
    LockReceiverOk msgs (.start k' calls) where
  sizes := hcalls
  call call rest msg rest' hc hm := by
    have hm : msgs = msg :: rest' := hm
    have hc : calls = call :: rest := hc
    rw [hc, hm] at hcalls
    exact ⟨0, {
      size := (List.cons.inj hcalls).1
      small := hs msg (by rw [hm]; exact List.mem_cons_self)
      received := rfl
      le := Nat.zero_le _
      more := fun h => absurd rfl h
      got := rfl
      copied := fun h => by cases h }⟩
  returned i ret buffer hi := by cases hi

theorem lockInv_start (m : LockShm) {msgs : List Message}
    (hs : ∀ msg ∈ msgs, msg.size.toNat < 2 ^ 31) (k k' : LockKey) {calls : List RecvCall}
    (hcalls : calls.map (·.size) = msgs.map (·.size)) :
    LockInv msgs k k' (.start (lockInitControlSection m) k msgs k' calls) where
  safe := lockSafe_start m
  senderKey := rfl
  receiverKey := rfl
  keyed := lockKeyed_start m k
  sender msg rest hc := { le := Nat.zero_le _, more := fun h => by cases h }
  receiver := lockReceiverOk_start hs k' hcalls
  flow := {
    chunk := fun h => by obtain h | h := h <;> cases h
    none := fun _ _ => rfl
    published := rfl }

/-- At the head of its loop, with bytes left to send. -/
def LockSender.Waits (t : LockSender) : Prop :=
  t.pc = .loop ∧ ∃ msg rest, t.calls = msg :: rest ∧ t.dataSent < msg.size

/-- At the head of its loop, with bytes left to get. -/
def LockReceiver.Waits (t : LockReceiver) : Prop :=
  t.pc = .loop ∧ ∃ call rest, t.calls = call :: rest ∧ intToSize t.dataReceived < call.size

/-- The sender's entry test. -/
def LockSender.Enters (m : LockShm) : Prop := ¬ 0 < m.refCount ∧ m.mutex = false

/-- The receiver's entry test. -/
def LockReceiver.Enters (m : LockShm) (t : LockReceiver) : Prop :=
  ¬ (m.key.receiverVm ≠ t.key.receiverVm ∨ m.key.senderVm ≠ t.key.senderVm ∨
    t.key.senderPid ≠ 0 ∧ m.key.senderPid ≠ t.key.senderPid ∨ m.refCount ≤ 0) ∧ m.mutex = false

/-- A chunk is for a receiver with a matching key, and without one the sender
may send. -/
theorem LockInv.enters {msgs : List Message} {k k' : LockKey} {s : LockLink} (h : LockInv msgs k k' s)
    (hvm : k'.senderVm = k.senderVm) (hrvm : k'.receiverVm = k.receiverVm)
    (hpid : k'.senderPid = 0 ∨ k'.senderPid = k.senderPid) (hm : s.shm.mutex = false) :
    LockSender.Enters s.shm ∨ LockReceiver.Enters s.shm s.receiver := by
  obtain h0 | h1 := h.safe.refCount
  · exact .inl ⟨by rw [h0]; decide, hm⟩
  · refine .inr ⟨?_, hm⟩
    rw [h.receiverKey, h.keyed.receiverVm (.inr h1), h.keyed.senderVm (.inr h1),
      h.keyed.senderPid (.inr h1), h1]
    rintro (hne | hne | ⟨h0, hne⟩ | hle)
    · exact hne hrvm.symm
    · exact hne hvm.symm
    · exact hne (hpid.resolve_left h0).symm
    · exact absurd hle (by decide)

/-- A sender of any messages and a receiver with a matching key, in every
interleaving: `ref_count` is 0 or 1, the two are never both inside, a chunk is
copied out before the next is copied in, what a call of the receiver returns
is its message, and while `mutex` is clear one of the two may go on. -/
theorem lockTransfer_ok (m : LockShm) (k k' : LockKey) (hvm : k'.senderVm = k.senderVm)
    (hrvm : k'.receiverVm = k.receiverVm) (hpid : k'.senderPid = 0 ∨ k'.senderPid = k.senderPid)
    (msgs : List Message) (hs : ∀ msg ∈ msgs, msg.size.toNat < 2 ^ 31) (calls : List RecvCall)
    (hcalls : calls.map (·.size) = msgs.map (·.size)) (turns : List LockTurn) :
    let s := run lockLinkStep (.start (lockInitControlSection m) k msgs k' calls) turns
    (s.shm.refCount = 0 ∨ s.shm.refCount = 1) ∧
      ¬ (s.sender.pc.inCs = true ∧ s.receiver.pc.inCs = true) ∧
      (s.sender.pc = .copy → s.receiver.copied = s.sender.published) ∧
      LockReturned msgs s.receiver.returned ∧
      (s.shm.mutex = false → s.sender.Waits → s.receiver.Waits →
        LockSender.Enters s.shm ∨ LockReceiver.Enters s.shm s.receiver) := by
  intro s
  have h : LockInv msgs k k' s :=
    run_inv (fun _ turn h => h.step hs turn) (lockInv_start m hs k k' hcalls) turns
  refine ⟨h.safe.refCount, fun ⟨hp, hq⟩ => ?_, fun hpc => ?_, h.receiver.returned,
    fun hm _ _ => h.enters hvm hrvm hpid hm⟩
  · rw [h.safe.apart hp] at hq
    cases hq
  · have hp := h.flow.published
    rw [h.safe.sends (by rw [hpc]; rfl)] at hp
    exact hp.symm

/-- `lockTransfer_ok` for two messages of one byte, where sender and receiver
take turns. -/
theorem lockTransfer_ok_inTurns :
    let msgs : List Message := [⟨fun _ => 7, 1⟩, ⟨fun _ => 8, 1⟩]
    let s := run lockLinkStep
      (.start (lockInitControlSection ⟨0, false, ⟨0, 0, 0⟩, 0, fun _ => 0⟩) ⟨1, 5, 2⟩ msgs ⟨1, 0, 2⟩
        [⟨fun _ => 0, 1⟩, ⟨fun _ => 0, 1⟩])
      (List.replicate 40 [.sender, .receiver]).flatten
    s.receiver.returned.length = 2 ∧ LockReturned msgs s.receiver.returned :=
  ⟨by decide +kernel,
    (lockTransfer_ok _ ⟨1, 5, 2⟩ ⟨1, 0, 2⟩ rfl rfl (.inl rfl) _ (by decide) _ rfl _).2.2.2.1⟩

end Ivshmem
