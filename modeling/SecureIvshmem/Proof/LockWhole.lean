import SecureIvshmem.Framework.Chunks
import SecureIvshmem.Proof.LockBase

/-!
# A sender of the same chunks

A sender of messages that are cut into the chunks of their concatenation goes
through the states of a sender of that one message (`LockSame`). From that one
the receiver takes what the chunks hold (`LockSized`), though it does not read
`data_size` but takes what it has still to get, at most a full chunk
(`LockInv.takesChunks`).
-/

namespace Ivshmem

open SharedMem SharedMem.Word

/-! ## What messages hold -/

/-- What messages hold, one after the other. -/
def lockBytes (msgs : List Message) : List UInt8 :=
  msgs.flatMap fun msg => bytesAt msg.buffer 0 msg.size.toNat

theorem length_lockBytes (msgs : List Message) :
    (lockBytes msgs).length = (msgs.map (·.size.toNat)).sum := by
  simp only [lockBytes, List.length_flatMap, length_bytesAt]

theorem lockDataSectionSize_pos : 0 < lockDataSectionSize := by decide

/-- The chunks that the sender's loop cuts are those of the bytes. -/
theorem lockChunks_eq (msg : Message) (d : Nat) :
    lockChunks msg d = chunks lockDataSectionSize (bytesAt msg.buffer d (msg.size.toNat - d)) := by
  induction d using lockChunks.induct msg with
  | case1 d h => rw [lockChunks_done h, Nat.sub_eq_zero_of_le h, bytesAt_zero, chunks_nil]
  | case2 d h ih =>
    have hlt : d < msg.size.toNat := Nat.lt_of_not_le h
    have hpos := lockDataSectionSize_pos
    have hsplit : msg.size.toNat - d =
        min (msg.size.toNat - d) lockDataSectionSize +
          (msg.size.toNat - (d + min (msg.size.toNat - d) lockDataSectionSize)) := by omega
    rw [lockChunks_more hlt, ih]
    conv_rhs => rw [hsplit, bytesAt_add]
    rw [chunks_append hpos, Nat.cast_add]
    · rw [ne_eq, ← List.length_eq_zero_iff, length_bytesAt]
      omega
    · simp only [length_bytesAt]
      omega

/-- The chunks of messages are those of the bytes of each. -/
theorem lockLeft_eq_flatMap (msgs : List Message) :
    lockLeft msgs 0 =
      (msgs.map fun msg => bytesAt msg.buffer 0 msg.size.toNat).flatMap (chunks lockDataSectionSize) := by
  rw [lockLeft_zero, List.flatMap_map]
  simp only [lockChunks_eq, Nat.sub_zero, Nat.cast_zero]

theorem lockBytes_eq_flatten (msgs : List Message) :
    lockBytes msgs = (msgs.map fun msg => bytesAt msg.buffer 0 msg.size.toNat).flatten := List.flatMap_def

theorem flatten_lockLeft (msgs : List Message) : (lockLeft msgs 0).flatten = lockBytes msgs := by
  rw [lockLeft_eq_flatMap, flatten_flatMap_chunks lockDataSectionSize_pos, lockBytes_eq_flatten]

/-- Messages are cut into the chunks of their concatenation just if each
before one with bytes is of full chunks. -/
theorem lockLeft_eq_iff (msgs : List Message) :
    lockLeft msgs 0 = chunks lockDataSectionSize (lockBytes msgs) ↔
      msgs.Pairwise fun msg later => later.size ≠ 0 → lockDataSectionSize ∣ msg.size.toNat := by
  have hne (msg : Message) : bytesAt msg.buffer 0 msg.size.toNat ≠ [] ↔ msg.size ≠ 0 := by
    rw [ne_eq, ← List.length_eq_zero_iff, length_bytesAt, ne_eq, ← UInt64.toNat_inj]
    rfl
  rw [lockLeft_eq_flatMap, lockBytes_eq_flatten, flatMap_chunks_eq_iff lockDataSectionSize_pos,
    List.pairwise_map]
  simp only [hne, length_bytesAt]

/-! ## The size of a chunk -/

/-- `to_sent` and `data_size` are of the chunk that the receiver is to get
next. -/
structure LockSized (msgs : List Message) (s : LockLink) : Prop where
  toSent : s.sender.pc.filled = true →
    ∀ bs rest, s.receiver.left msgs = bs :: rest → s.sender.toSent.toNat = bs.length
  dataSize : s.sender.pc = .refCount ∨ s.shm.refCount = 1 →
    ∀ bs rest, s.receiver.left msgs = bs :: rest → s.shm.dataSize.toNat = bs.length

/-- A step that leaves the sizes and what the receiver is to get. -/
theorem LockSized.goto {msgs : List Message} {s s' : LockLink} (h : LockSized msgs s)
    (hleft : s'.receiver.left msgs = s.receiver.left msgs) (ht : s'.sender.toSent = s.sender.toSent)
    (hd : s'.shm.dataSize = s.shm.dataSize) (hf : s'.sender.pc.filled = true → s.sender.pc.filled = true)
    (hr : s'.sender.pc = .refCount ∨ s'.shm.refCount = 1 → s.sender.pc = .refCount ∨ s.shm.refCount = 1) :
    LockSized msgs s' :=
  ⟨fun hp => by rw [hleft, ht]; exact h.toSent (hf hp), fun hp => by
    rw [hleft, hd]; exact h.dataSize (hr hp)⟩

theorem LockSized.sender {msgs : List Message} {k k' : LockKey} {s : LockLink}
    (hinv : LockInv msgs k k' s) (h : LockSized msgs s) : LockSized msgs (lockLinkStep s .sender) := by
  cases hc : s.sender.calls with
  | nil =>
    simp only [lockLinkStep, lockSendStep, hc]
    exact h
  | cons msg rest =>
    obtain ⟨hle, hmore⟩ := hinv.sender msg rest hc
    have hsafe := hinv.safe
    simp only [lockLinkStep, lockSendStep, hc, lockSendCallStep]
    cases e : s.sender.pc <;> rw [e] at hmore hsafe <;> simp only
    case loop =>
      split
      · exact h.goto rfl rfl rfl (fun hf => by cases hf) fun hr =>
          .inr (hr.resolve_left fun e => by cases e)
      · refine h.goto rfl rfl rfl (fun hf => ?_) fun hr => .inr (hr.resolve_left ?_)
        · simp only at hf
          split at hf <;> cases hf
        · split <;> exact fun e => by cases e
    case mutex =>
      refine h.goto rfl rfl rfl (fun hf => ?_) fun hr => .inr (hr.resolve_left ?_)
      · simp only at hf
        split at hf <;> cases hf
      · split <;> exact fun e => by cases e
    case copy =>
      have href := hsafe.sends rfl
      refine ⟨fun _ bs later hbs => ?_, fun hr => ?_⟩
      · have hleft : s.receiver.left msgs = s.sender.left := hinv.flow.none (by rw [e]; rfl) href
        have hbs : s.sender.left = bs :: later := hleft.symm.trans hbs
        rw [LockSender.left, hc, lockLeft_more (hmore rfl)] at hbs
        rw [lockToSent_toNat hle, ← (List.cons.inj hbs).1, length_bytesAt]
      · rw [href] at hr
        obtain hr | hr := hr <;> cases hr
    case dataSize => exact ⟨fun _ => h.toSent (by rw [e]; rfl), fun _ => h.toSent (by rw [e]; rfl)⟩
    case refCount => exact ⟨fun hf => (by cases hf), fun _ => h.dataSize (.inl e)⟩
    case setMutex | clearMutex =>
      exact h.goto rfl rfl rfl (fun hf => by cases hf) fun hr =>
        .inr (hr.resolve_left fun e => by cases e)
    all_goals exact h.goto rfl rfl rfl (fun _ => by rw [e]; rfl) fun hr =>
                .inr (hr.resolve_left fun e => by cases e)

theorem LockSized.receiver {msgs : List Message} {k k' : LockKey} {s : LockLink}
    (hinv : LockInv msgs k k' s) (h : LockSized msgs s) : LockSized msgs (lockLinkStep s .receiver) := by
  cases hc : s.receiver.calls with
  | nil =>
    simp only [lockLinkStep, lockRecvStep, hc]
    exact h
  | cons call rest =>
    have hsafe := hinv.safe
    simp only [lockLinkStep, lockRecvStep, hc, lockRecvCallStep]
    cases e : s.receiver.pc <;> rw [e] at hsafe <;> simp only
    case loop =>
      split
      · rename_i hle
        exact h.goto (hinv.receiver.left_return hc hle) rfl rfl id id
      · exact h.goto rfl rfl rfl id id
    case writeRefCount n =>
      obtain rfl := hsafe.readRefCount n rfl
      have hloop := (hsafe.receiver_alone rfl).resolve_left (by simp)
      exact ⟨fun hf => (by rw [hloop] at hf; cases hf),
        fun hr => (by rw [hloop] at hr; obtain hr | hr := hr <;> cases hr)⟩
    all_goals exact h.goto rfl rfl rfl id id

/-! ## A sender of the same chunks -/

/-- The first state is the second but for the messages of the sender; that of
the second sends `msg`, which has as many chunks left. -/
structure LockSame (msg : Message) (s s' : LockLink) : Prop where
  shm : s.shm = s'.shm
  receiver : s.receiver = s'.receiver
  key : s.sender.key = s'.sender.key
  pc : s.sender.pc = s'.sender.pc
  toSent : s.sender.toSent = s'.sender.toSent
  left : s.sender.left = s'.sender.left
  calls : s'.sender.calls = [msg]
  inCall : s.sender.pc ≠ .loop → s.sender.calls ≠ []
  sending : LockSenderOk s.sender
  sending' : LockSenderOk s'.sender

/-- A sender that has a chunk left is not done with its message. -/
theorem lt_of_lockLeft {msg : Message} {d : Nat} {bs : List UInt8} {rest : List (List UInt8)}
    (h : lockLeft [msg] d = bs :: rest) : d < msg.size.toNat := by
  by_contra hle
  rw [lockLeft_done (Nat.le_of_not_lt hle)] at h
  cases h

/-- Where the chunks left are the same, so are the next one and those after
it. -/
theorem next_of_lockLeft_eq {msg msg' : Message} {rest rest' : List Message} {n n' : UInt64}
    (hlt : n.toNat < msg.size.toNat) (hlt' : n'.toNat < msg'.size.toNat)
    (h : lockLeft (msg :: rest) n.toNat = lockLeft (msg' :: rest') n'.toNat) :
    lockToSent msg.size n = lockToSent msg'.size n' ∧
      bytesAt msg.buffer n.toNat (lockToSent msg.size n).toNat =
        bytesAt msg'.buffer n'.toNat (lockToSent msg'.size n').toNat ∧
      lockLeft (msg :: rest) (n + lockToSent msg.size n).toNat =
        lockLeft (msg' :: rest') (n' + lockToSent msg'.size n').toNat := by
  have hle := Nat.le_of_lt hlt
  have hle' := Nat.le_of_lt hlt'
  rw [lockLeft_more hlt, lockLeft_more hlt'] at h
  obtain ⟨hbs, hrest⟩ := List.cons.inj h
  rw [← lockToSent_toNat hle, ← lockToSent_toNat hle'] at hbs
  have hlen := congrArg List.length hbs
  rw [length_bytesAt, length_bytesAt] at hlen
  rw [sent_add_toNat hle, sent_add_toNat hle']
  exact ⟨UInt64.toNat_inj.mp hlen, hbs, hrest⟩

/-- Where the sender returns, the other one waits. -/
theorem LockSame.step {msg : Message} {s s' : LockLink} (h : LockSame msg s s') (turn : LockTurn) :
    LockSame msg (lockLinkStep s turn) s' ∨
    LockSame msg (lockLinkStep s turn) (lockLinkStep s' turn) := by
  obtain ⟨m, t, r⟩ := s
  obtain ⟨m', t', r'⟩ := s'
  obtain ⟨rfl, rfl, hkey, hpc, htoSent, hleft, hc', hcall, hok, hok'⟩ := h
  cases turn with
  | receiver => exact .inr ⟨rfl, rfl, hkey, hpc, htoSent, hleft, hc', hcall, hok, hok'⟩
  | sender =>
    cases hc : t.calls with
    | nil =>
      refine .inl ?_
      simp only [lockLinkStep, lockSendStep, hc]
      exact ⟨rfl, rfl, hkey, hpc, htoSent, hleft, hc', hcall, hok, hok'⟩
    | cons msg₁ rest =>
      have hnext : LockSenderOk (lockSendStep m t).2 := hok.step
      have hnext' : LockSenderOk (lockSendStep m t').2 := hok'.step
      obtain ⟨-, hmore⟩ := hok msg₁ rest hc
      have hl : t.left = lockLeft (msg₁ :: rest) t.dataSent.toNat := by rw [LockSender.left, hc]
      have hl' : t'.left = lockLeft [msg] t'.dataSent.toNat := by rw [LockSender.left, hc']
      have hlefts := hl.symm.trans (hleft.trans hl')
      simp only at hkey hpc htoSent hc'
      simp only [lockSendStep, hc, hc', lockSendCallStep, ← hpc] at hnext hnext'
      simp only [lockLinkStep, lockSendStep, hc, hc', lockSendCallStep, ← hpc]
      cases e : t.pc <;> simp only [e] at hnext hnext' hmore ⊢
      case loop =>
        by_cases hdone : msg₁.size ≤ t.dataSent
        · rw [if_pos hdone] at hnext ⊢
          refine .inl ⟨rfl, rfl, hkey, e.symm.trans hpc, htoSent, ?_, hc',
            fun hne => absurd rfl hne, hnext, hok'⟩
          rw [← hleft, hl, lockLeft_done (UInt64.le_iff_toNat_le.mp hdone)]
          rfl
        · have hlt : t.dataSent.toNat < msg₁.size.toNat := by
            rw [UInt64.le_iff_toNat_le] at hdone
            exact Nat.lt_of_not_le hdone
          have hdone' : ¬ msg.size ≤ t'.dataSent := by
            rw [UInt64.le_iff_toNat_le, Nat.not_le]
            exact lt_of_lockLeft (hlefts.symm.trans (lockLeft_more hlt))
          rw [if_neg hdone] at hnext ⊢
          rw [if_neg hdone'] at hnext' ⊢
          exact .inr ⟨rfl, rfl, hkey, rfl, htoSent, hlefts, rfl, fun _ => List.cons_ne_nil _ _,
            hnext, hnext'⟩
      case copy =>
        have hlt := hmore rfl
        obtain ⟨hn, hbs, hrest⟩ :=
          next_of_lockLeft_eq hlt (lt_of_lockLeft (hlefts.symm.trans (lockLeft_more hlt))) hlefts
        exact .inr ⟨by rw [hbs], rfl, hkey, rfl, hn, hrest, rfl, fun _ => List.cons_ne_nil _ _,
          hnext, hnext'⟩
      case dataSize =>
        exact .inr ⟨by rw [htoSent], rfl, hkey, rfl, htoSent, hlefts, rfl,
          fun _ => List.cons_ne_nil _ _, hnext, hnext'⟩
      case mutex | setMutex | refCount | clearMutex =>
        exact .inr ⟨rfl, rfl, hkey, rfl, htoSent, hlefts, rfl, fun _ => List.cons_ne_nil _ _, hnext,
          hnext'⟩
      -- the fields of the key
      all_goals exact .inr ⟨by rw [hkey], rfl, hkey, rfl, htoSent, hlefts, rfl,
                  fun _ => List.cons_ne_nil _ _, hnext, hnext'⟩

/-! ## What the receiver takes -/

/-- The receiver takes from every chunk what it holds, has got a prefix of
`bytes`, and returns 0 with all of them. -/
structure TakesChunks (bytes : List UInt8) (s : LockLink) : Prop where
  copies : ∀ call rest, s.receiver.calls = call :: rest → s.receiver.pc = .copy →
    intToSize (lockToReceive call.size s.receiver.dataReceived) = s.shm.dataSize
  received : ∀ call rest, s.receiver.calls = call :: rest →
    bytesAt call.buffer 0 s.receiver.dataReceived.toInt.toNat =
    bytes.take s.receiver.dataReceived.toInt.toNat
  returned : ∀ ret buffer, (ret, buffer) ∈ s.receiver.returned → ret = 0 ∧
    bytesAt buffer 0 bytes.length = bytes

/-- It does so whatever the sender is. -/
theorem TakesChunks.of_same {bytes : List UInt8} {s s' : LockLink} (h : TakesChunks bytes s')
    (hr : s.receiver = s'.receiver) (hm : s.shm = s'.shm) : TakesChunks bytes s :=
  ⟨by rw [hr, hm]; exact h.copies, by rw [hr]; exact h.received, by rw [hr]; exact h.returned⟩

/-- With a sender of one message, that is the one the receiver's call is
for. -/
theorem LockInv.receiving {msg : Message} {k k' : LockKey} {s : LockLink} (h : LockInv [msg] k k' s)
    {call : RecvCall} {rest : List RecvCall} (hc : s.receiver.calls = call :: rest) :
    [msg].drop s.receiver.returned.length = [msg] ∧ ∃ d, LockReceiving call msg s.receiver d := by
  obtain ⟨msg', rest', hm, -⟩ := h.receiver.exists_msg hc
  obtain ⟨d, hr⟩ := h.receiver.call call rest msg' rest' hc hm
  have hmem : msg' ∈ [msg] := List.mem_of_mem_drop (by rw [hm]; exact List.mem_cons_self)
  obtain rfl := List.mem_singleton.mp hmem
  obtain rfl : rest' = [] := by
    have hlen := congrArg List.length hm
    rw [List.length_drop, List.length_singleton, List.length_cons] at hlen
    exact List.eq_nil_of_length_eq_zero (by omega)
  exact ⟨hm, d, hr⟩

/-- What the receiver of one message has left. -/
theorem left_of_received {msg : Message} {t : LockReceiver} {d : Nat}
    (hm : [msg].drop t.returned.length = [msg]) (hd : t.dataReceived.toInt = d) :
    t.left [msg] = lockLeft [msg] d := by
  rw [LockReceiver.left, hm, hd, Int.toNat_natCast]

/-- With a sender of one message it does. -/
theorem LockInv.takesChunks {msg : Message} {k k' : LockKey} {s : LockLink} (h : LockInv [msg] k k' s)
    (hsized : LockSized [msg] s) : TakesChunks (bytesAt msg.buffer 0 msg.size.toNat) s := by
  refine ⟨fun call rest hc hpc => ?_, fun call rest hc => ?_, fun ret buffer hmem => ?_⟩
  · obtain ⟨hm, d, hr⟩ := h.receiving hc
    have hlt := hr.more (by rw [hpc]; simp) (by rw [hpc]; simp)
    have hleft := (left_of_received hm hr.received).trans (lockLeft_more hlt)
    have href := h.safe.receives (by rw [hpc]; rfl)
    rw [← UInt64.toNat_inj, hsized.dataSize (.inr href) _ _ hleft, length_bytesAt,
      lockToReceive_toNat hr.received (by rw [hr.size]; exact hr.le), hr.size]
  · obtain ⟨-, d, hr⟩ := h.receiving hc
    rw [hr.received, Int.toNat_natCast, hr.got, take_bytesAt _ _ hr.le]
  · obtain ⟨i, hi⟩ := List.mem_iff_getElem?.mp hmem
    obtain ⟨msg', hm, hret, hbytes⟩ := h.receiver.returned i ret buffer hi
    obtain rfl := List.mem_singleton.mp (List.mem_of_getElem? hm)
    rw [length_bytesAt]
    exact ⟨hret, hbytes⟩

/-- The concatenation of messages, of `size` bytes, as one message. -/
def lockWhole (msgs : List Message) (size : UInt64) : Message :=
  ⟨store (fun _ => 0) 0 (lockBytes msgs), size⟩

/-- The receiver tests the process only where its key has one. -/
def TestsPid (t : LockReceiver) : Prop := t.pc = .keyPid → t.key.senderPid ≠ 0

theorem TestsPid.step {m : LockShm} {t : LockReceiver} (h : TestsPid t) :
    TestsPid (lockRecvStep m t).2 := by
  unfold TestsPid
  rw [lockRecvStep_key]
  cases hc : t.calls with
  | nil =>
    simp only [lockRecvStep, hc]
    exact h
  | cons call rest =>
    simp only [lockRecvStep, hc, lockRecvCallStep]
    cases e : t.pc <;> simp only
    case keySender =>
      split
      · exact fun e => by cases e
      · split
        · exact fun _ => ‹_›
        · exact fun e => by cases e
    case loop => split <;> (try split) <;> exact fun e => by cases e
    case keyPid | refCount | mutex => split <;> exact fun e => by cases e
    all_goals exact fun e => by cases e

/-- The invariant of a sender of one message. -/
structure LockOneInv (msg : Message) (k k' : LockKey) (s : LockLink) :
    Prop extends LockInv [msg] k k' s where
  sized : LockSized [msg] s
  testsPid : TestsPid s.receiver

theorem LockOneInv.step {msg : Message} (hs : msg.size.toNat < 2 ^ 31) {k k' : LockKey} {s : LockLink}
    (h : LockOneInv msg k k' s) (turn : LockTurn) : LockOneInv msg k k' (lockLinkStep s turn) := by
  have hinv := h.toLockInv.step (by simpa using hs) turn
  cases turn with
  | sender => exact ⟨hinv, h.sized.sender h.toLockInv, h.testsPid⟩
  | receiver => exact ⟨hinv, h.sized.receiver h.toLockInv, h.testsPid.step⟩

/-- The states of a sender of messages that go through those of a sender of
their concatenation. -/
def LockWholeInv (msg : Message) (k k' : LockKey) (s : LockLink) : Prop :=
  ∃ s', LockSame msg s s' ∧ LockOneInv msg k k' s'

theorem LockWholeInv.step {msg : Message} (hs : msg.size.toNat < 2 ^ 31) {k k' : LockKey} {s : LockLink}
    (h : LockWholeInv msg k k' s) (turn : LockTurn) : LockWholeInv msg k k' (lockLinkStep s turn) :=
  stutter_step (fun _ _ turn h => h.step turn) (fun _ turn h => h.step hs turn) h turn

section

variable {msgs : List Message} {call : RecvCall} (hsize : call.size.toNat = (msgs.map (·.size.toNat)).sum)
include hsize

theorem bytesAt_lockWhole : bytesAt (lockWhole msgs call.size).buffer 0 call.size.toNat =
    lockBytes msgs := by
  rw [hsize]
  exact bytesAt_store_eq _ 0 (length_lockBytes msgs)

theorem lockWholeInv_start (m : LockShm) (k k' : LockKey) (hs : call.size.toNat < 2 ^ 31)
    (hcut : lockLeft msgs 0 = chunks lockDataSectionSize (lockBytes msgs)) :
    LockWholeInv (lockWhole msgs call.size) k k'
      (.start (lockInitControlSection m) k msgs k' [call]) := by
  have hleft : lockLeft msgs 0 = lockLeft [lockWhole msgs call.size] 0 := by
    rw [hcut, lockLeft_zero, List.flatMap_singleton, lockChunks_eq, Nat.sub_zero]
    exact congrArg _ (bytesAt_lockWhole hsize).symm
  have hok (msgs : List Message) : LockSenderOk (.start k msgs) :=
    fun _ _ _ => ⟨Nat.zero_le _, fun h => by cases h⟩
  refine ⟨.start (lockInitControlSection m) k [lockWhole msgs call.size] k' [call],
    ⟨rfl, rfl, rfl, rfl, rfl, hleft, rfl, fun hne => absurd rfl hne, hok _, hok _⟩,
    ⟨lockInv_start m (by simpa [lockWhole] using hs) k k' rfl,
      ⟨fun h => (by cases h), fun hr => ?_⟩, fun h => by cases h⟩⟩
  obtain hr | hr := hr <;> cases hr

end

end Ivshmem
