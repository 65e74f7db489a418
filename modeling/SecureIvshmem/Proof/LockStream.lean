import SecureIvshmem.Proof.Alone
import SecureIvshmem.Proof.LockProgress

/-!
# The lock-based transport as a stream

Messages that are cut into the chunks of their concatenation get to a receiver
with one call for all of them (`LockWholeInv`). With others, the two in turns
come to a chunk of which it takes too much or too little (`LockQuiet`).
`lockStream_iff` is the result.
-/

namespace Ivshmem

open SharedMem SharedMem.Word

/-! ## In turns -/

/-- A sender with nothing in between. -/
def lockSendAlone (p : LockShm × LockSender) : LockShm × LockSender := lockSendStep p.1 p.2

/-- What a turn of the sender's loop leads to that publishes a chunk of
`msg`. -/
structure PublishesChunk (msg : Message) (t : LockSender) (m' : LockShm) (t' : LockSender) : Prop where
  refCount : m'.refCount = 1
  mutex : m'.mutex = false
  shmKey : m'.key = t.key
  dataSize : m'.dataSize = lockToSent msg.size t.dataSent
  key : t'.key = t.key
  calls : t'.calls = t.calls
  pc : t'.pc = t.pc
  dataSent : t'.dataSent = t.dataSent + lockToSent msg.size t.dataSent

/-- A sender with bytes to send, and nothing in between. -/
theorem lockSendStep_alone {m : LockShm} {t : LockSender} {msg : Message} {rest : List Message}
    (hc : t.calls = msg :: rest) (hpc : t.pc = .loop) (hlt : ¬ msg.size ≤ t.dataSent)
    (href : m.refCount = 0) (hm : m.mutex = false) :
    ∃ m' t', Reaches lockSendAlone (m, t) (m', t') ∧ PublishesChunk msg t m' t' := by
  obtain ⟨key, calls, pc, dataSent, toSent, published, returned⟩ := t
  obtain rfl : calls = msg :: rest := hc
  obtain rfl : pc = .loop := hpc
  have hfull : ¬ (0 : Int32) < m.refCount := by rw [href]; decide
  refine ⟨_, _, .via (m, ⟨key, msg :: rest, .mutex, dataSent, toSent, published, returned⟩) ?_
    (.via (m, ⟨key, msg :: rest, .setMutex, dataSent, toSent, published, returned⟩) ?_ ⟨8, rfl⟩),
    ⟨rfl, rfl, rfl, rfl, rfl, rfl, rfl, rfl⟩⟩
  · simp only [lockSendAlone, lockSendStep, lockSendCallStep, hlt, hfull, ↓reduceIte]
  · simp only [lockSendAlone, lockSendStep, lockSendCallStep, hm, Bool.false_eq_true, ↓reduceIte]

/-- With a chunk for it, the receiver comes to its copy. -/
theorem lockRecvAlone_copy {m : LockShm} {t : LockReceiver} {call : RecvCall} {rest : List RecvCall}
    (hc : t.calls = call :: rest) (hpc : t.pc = .loop) (hlt : ¬ call.size ≤ intToSize t.dataReceived)
    (hf : lockNothingFor t.key m = false) (hm : m.mutex = false) :
    Reaches lockRecvAlone (m, t) ({ m with mutex := true }, { t with pc := .copy }) := by
  have hentry := lockRecvAlone_entry (m := m) hc hlt
  rw [hf, ← hpc] at hentry
  refine hentry.trans (.via (m, { t with pc := .setMutex }) ((lockRecvAlone_step hc).trans ?_)
    ⟨1, (lockRecvAlone_step hc).trans ?_⟩)
  · simp only [lockRecvCallStep, hm, Bool.false_eq_true, ↓reduceIte]
  · simp only [lockRecvCallStep]

/-- The sender's steps as a run of the two. -/
theorem exists_run_sender {m m' : LockShm} {t t' : LockSender} (h : Reaches lockSendAlone (m, t) (m', t'))
    (r : LockReceiver) : ∃ turns, run lockLinkStep ⟨m, t, r⟩ turns = ⟨m', t', r⟩ := by
  have hstep : ∀ p, lockLinkStep ⟨p.1, p.2, r⟩ .sender =
    ⟨(lockSendAlone p).1, (lockSendAlone p).2, r⟩ := fun _ => rfl
  exact h.exists_run hstep

/-- The receiver's steps as a run of the two. -/
theorem exists_run_receiver {m m' : LockShm} {r r' : LockReceiver}
    (h : Reaches lockRecvAlone (m, r) (m', r')) (t : LockSender) :
    ∃ turns, run lockLinkStep ⟨m, t, r⟩ turns = ⟨m', t, r'⟩ := by
  have hstep : ∀ p, lockLinkStep ⟨p.1, t, p.2⟩ .receiver =
    ⟨(lockRecvAlone p).1, t, (lockRecvAlone p).2⟩ := fun _ => rfl
  exact h.exists_run hstep

/-- With a chunk for it, a receiver that always takes what a chunk holds takes
what this one does. -/
theorem lockToReceive_eq_dataSize {m : LockShm} {t : LockSender} {r : LockReceiver} {call : RecvCall}
    {rest : List RecvCall} (hc : r.calls = call :: rest) (hpc : r.pc = .loop)
    (hlt : ¬ call.size ≤ intToSize r.dataReceived) (hf : lockNothingFor r.key m = false)
    (hm : m.mutex = false) {bytes : List UInt8}
    (htakes : ∀ turns, TakesChunks bytes (run lockLinkStep ⟨m, t, r⟩ turns)) :
    intToSize (lockToReceive call.size r.dataReceived) = m.dataSize := by
  obtain ⟨turns, hturns⟩ := exists_run_receiver (lockRecvAlone_copy hc hpc hlt hf hm) t
  have hcopy := (htakes turns).copies
  rw [hturns] at hcopy
  exact hcopy _ _ hc rfl

/-- Both at the heads of their loops with no chunk published, where the
receiver has `d` bytes of `size` and the others are left to send. -/
structure LockQuiet (k k' : LockKey) (size : UInt64) (d : Nat) (s : LockLink) : Prop where
  refCount : s.shm.refCount = 0
  mutex : s.shm.mutex = false
  senderKey : s.sender.key = k
  receiverKey : s.receiver.key = k'
  sends : s.sender.pc = .loop
  receives : s.receiver.pc = .loop
  sending : LockSenderOk s.sender
  call : ∃ buffer, s.receiver.calls = [⟨buffer, size⟩]
  received : s.receiver.dataReceived.toInt = d
  left : d + s.sender.left.flatten.length = size.toNat

/-- A sender that returns leaves them quiet. -/
theorem LockQuiet.return {k k' : LockKey} {size : UInt64} {d : Nat} {s : LockLink}
    (h : LockQuiet k k' size d s) {msg : Message} {rest : List Message}
    (hc : s.sender.calls = msg :: rest) (hle : msg.size ≤ s.sender.dataSent) :
    LockQuiet k k' size d (lockLinkStep s .sender) ∧
    (lockLinkStep s .sender).sender.left = s.sender.left ∧
      (lockLinkStep s .sender).sender.calls = rest := by
  have hok : LockSenderOk (lockSendStep s.shm s.sender).2 := h.sending.step
  have hleft : lockLeft rest 0 = s.sender.left := by
    rw [LockSender.left, hc, lockLeft_done (UInt64.le_iff_toNat_le.mp hle)]
  have hstep : lockSendStep s.shm s.sender =
      (s.shm, { s.sender with calls := rest, dataSent := 0, returned := s.sender.returned ++ [0] }) := by
    simp only [lockSendStep, hc, lockSendCallStep, h.sends, hle, ↓reduceIte]
  simp only [lockLinkStep, hstep] at hok ⊢
  refine ⟨⟨h.refCount, h.mutex, h.senderKey, h.receiverKey, h.sends, h.receives, hok, h.call,
    h.received, ?_⟩, hleft, trivial⟩
  rw [← h.left, ← hleft]
  rfl

section

variable {k k' : LockKey} (hvm : k'.senderVm = k.senderVm) (hrvm : k'.receiverVm = k.receiverVm)
  (hpid : k'.senderPid = 0 ∨ k'.senderPid = k.senderPid)
include hvm hrvm hpid

/-- A quiet sender with bytes to send comes to publish a chunk for the
receiver. -/
theorem LockQuiet.publishes {size : UInt64} {d : Nat} {s : LockLink} (h : LockQuiet k k' size d s)
    {msg : Message} {rest : List Message} (hc : s.sender.calls = msg :: rest)
    (hlt : s.sender.dataSent.toNat < msg.size.toNat) :
    ∃ m' t' turns, run lockLinkStep s turns = ⟨m', t', s.receiver⟩ ∧ PublishesChunk msg s.sender m' t' ∧
      lockNothingFor s.receiver.key m' = false := by
  obtain ⟨m, t, r⟩ := s
  obtain ⟨href, hm, rfl, rfl, hsends, -, -, -, -, -⟩ := h
  have hlt' : ¬ msg.size ≤ t.dataSent := by
    rw [UInt64.le_iff_toNat_le]
    exact Nat.not_le.mpr hlt
  obtain ⟨m', t', hsend, hp⟩ := lockSendStep_alone hc hsends hlt' href hm
  obtain ⟨turns, hturns⟩ := exists_run_sender hsend r
  exact ⟨m', t', turns, hturns, hp, lockNothingFor_published hvm hrvm hpid hp.shmKey hp.refCount⟩

/-- A chunk that goes over, of the size that the receiver takes, and leaves
them quiet. -/
theorem LockQuiet.chunk {size : UInt64} (hs : size.toNat < 2 ^ 31) {d : Nat} {s : LockLink}
    (h : LockQuiet k k' size d s) {msg : Message} {rest : List Message}
    (hc : s.sender.calls = msg :: rest) (hlt : s.sender.dataSent.toNat < msg.size.toNat)
    {bytes : List UInt8} (htakes : ∀ turns, TakesChunks bytes (run lockLinkStep s turns)) :
    ∃ bs turns, let s' := run lockLinkStep s turns
      bs ≠ [] ∧ bs.length = min (bs.length + s'.sender.left.flatten.length) lockDataSectionSize ∧
        s.sender.left = bs :: s'.sender.left ∧ s'.sender.calls.length = s.sender.calls.length ∧
        LockQuiet k k' size (d + bs.length) s' := by
  obtain ⟨m', t', turns, hturns, hp, hf⟩ := h.publishes hvm hrvm hpid hc hlt
  obtain ⟨m, t, r⟩ := s
  obtain ⟨-, -, rfl, rfl, hsends, hreceives, hok, ⟨buffer, hcall⟩, hd, hleft⟩ := h
  simp only at hturns hp hf hsends hreceives hok hcall hd hleft hc hlt
  obtain ⟨hle, -⟩ := hok msg rest hc
  have hbs : lockLeft (msg :: rest) t.dataSent.toNat =
    bytesAt msg.buffer t.dataSent.toNat _ :: lockLeft (msg :: rest) _ :=
    lockLeft_more hlt
  have hbytes : t.left = lockLeft (msg :: rest) t.dataSent.toNat := by rw [LockSender.left, hc]
  have hn := lockToSent_toNat hle
  rw [← hn] at hbs
  rw [hbytes, hbs, List.flatten_cons, List.length_append, length_bytesAt] at hleft
  have hpos : 0 < (lockToSent msg.size t.dataSent).toNat := by
    have := lockDataSectionSize_pos
    omega
  have hmore : ¬ size ≤ intToSize r.dataReceived := by
    rw [size_le_received hd]
    omega
  -- the receiver takes what the chunk holds
  have htakes' : ∀ turns', TakesChunks bytes (run lockLinkStep ⟨m', t', r⟩ turns') := fun turns' => by
    rw [← hturns, ← run_append]
    exact htakes _
  have hsame := lockToReceive_eq_dataSize hcall hreceives hmore hf hp.mutex htakes'
  simp only at hsame
  have hsame := congrArg UInt64.toNat (hsame.trans hp.dataSize)
  rw [lockToReceive_toNat hd (by omega)] at hsame
  -- and its whole turn leaves the rest
  obtain ⟨copied, hturn⟩ := lockRecvStep_alone (m := m') hcall hreceives hmore
  simp only [lockRecvIteration, hmore, hf, hp.mutex, Bool.false_eq_true, ↓reduceIte] at hturn
  obtain ⟨turns', hturns'⟩ := exists_run_receiver hturn t'
  have hsent : t'.dataSent.toNat = t.dataSent.toNat + (lockToSent msg.size t.dataSent).toNat := by
    rw [hp.dataSent, hn]
    exact sent_add_toNat hle
  have hleft' : t'.left =
    lockLeft (msg :: rest) (t.dataSent.toNat + (lockToSent msg.size t.dataSent).toNat) := by
    rw [LockSender.left, hp.calls, hc, hsent]
  refine ⟨bytesAt msg.buffer t.dataSent.toNat (lockToSent msg.size t.dataSent).toNat, turns ++ turns', ?_⟩
  rw [run_append, hturns, hturns']
  simp only [hleft', length_bytesAt, hp.calls]
  refine ⟨?_, by omega, hbytes.trans hbs, trivial,
    ⟨?_, rfl, hp.key, rfl, hp.pc.trans hsends, hreceives, ?_, ⟨_, rfl⟩, ?_, ?_⟩⟩
  · rw [ne_eq, ← List.length_eq_zero_iff, length_bytesAt]
    omega
  · simp only [hp.refCount]
    rfl
  · refine .of_calls (hp.calls.trans hc) ⟨?_, fun hpc => ?_⟩
    · simp only [hsent]
      omega
    · simp only [hp.pc, hsends] at hpc
      cases hpc
  · have hadd := lockReceived_add_toInt hd (by omega) hs
    rwa [hsame] at hadd
  · simp only [hleft']
    omega

/-- Where the receiver always takes what a chunk holds, the chunks left are
those of all that is left. -/
theorem LockQuiet.left_eq {size : UInt64} (hs : size.toNat < 2 ^ 31) {bytes : List UInt8} (n : Nat) :
    ∀ {s : LockLink} {d : Nat}, LockQuiet k k' size d s →
      (∀ turns, TakesChunks bytes (run lockLinkStep s turns)) →
      s.sender.calls.length + s.sender.left.length ≤ n →
      s.sender.left = chunks lockDataSectionSize s.sender.left.flatten := by
  induction n with
  | zero =>
    intro s d h htakes hn
    have hleft : s.sender.left = [] := List.eq_nil_of_length_eq_zero (by omega)
    rw [hleft, List.flatten_nil, chunks_nil]
  | succ n ih =>
    intro s d h htakes hn
    cases hc : s.sender.calls with
    | nil => rw [LockSender.left, hc, lockLeft, List.flatten_nil, chunks_nil]
    | cons msg rest =>
      by_cases hle : msg.size ≤ s.sender.dataSent
      · obtain ⟨h', hleft, hcalls⟩ := h.return hc hle
        have ih' := ih h' (fun turns => htakes (.sender :: turns)) (by
          rw [hc, List.length_cons] at hn
          rw [hleft, hcalls]
          omega)
        rwa [hleft] at ih'
      · have hlt : s.sender.dataSent.toNat < msg.size.toNat := by
          rw [UInt64.le_iff_toNat_le] at hle
          omega
        obtain ⟨bs, turns, hne, hlen, hleft, hcalls, h'⟩ := h.chunk hvm hrvm hpid hs hc hlt htakes
        have ih' := ih h' (fun turns' => by rw [← run_append]; exact htakes _) (by
          rw [hleft, List.length_cons] at hn
          omega)
        rw [hleft, List.flatten_cons, chunks_append lockDataSectionSize_pos hne hlen, ← ih']

end

/-! ## Streams -/

/-- A sender and a receiver of a stream: in every interleaving the receiver
takes from every chunk what it holds, and in a fair one it returns 0 with all
the bytes. -/
def TransfersStream (bytes : List UInt8) (s : LockLink) : Prop :=
  (∀ turns, TakesChunks bytes (run lockLinkStep s turns)) ∧
    ∀ σ, Fair id σ → ∃ n buffer,
      (0, buffer) ∈ (runSeq lockLinkStep s σ n).receiver.returned ∧ bytesAt buffer 0 bytes.length = bytes

/-- A call that is done has returned. -/
theorem LockWholeInv.exists_returned {msg : Message} {k k' : LockKey} {s : LockLink}
    (h : LockWholeInv msg k k' s) (hdone : LockDone s) :
    ∃ ret buffer, (ret, buffer) ∈ s.receiver.returned := by
  obtain ⟨s', hsame, hinv⟩ := h
  have hsizes := hinv.receiver.sizes
  rw [← hsame.receiver, show s.receiver.calls = [] from hdone, List.map_nil, eq_comm,
    List.map_eq_nil_iff] at hsizes
  have hpos : s.receiver.returned ≠ [] := fun hnil => by
    rw [hnil] at hsizes
    cases hsizes
  obtain ⟨⟨ret, buffer⟩, rest, e⟩ := List.exists_cons_of_ne_nil hpos
  exact ⟨ret, buffer, by rw [e]; exact List.mem_cons_self⟩

/-- A sender of messages, and a receiver with a matching key and one call for
all of them, transfer the stream just if each message before one with bytes is
of full chunks. -/
theorem lockStream_iff (m : LockShm) (k k' : LockKey) (hvm : k'.senderVm = k.senderVm)
    (hrvm : k'.receiverVm = k.receiverVm) (hpid : k'.senderPid = 0 ∨ k'.senderPid = k.senderPid)
    (msgs : List Message) (call : RecvCall)
    (hsize : call.size.toNat = (msgs.map (·.size.toNat)).sum) (hs : call.size.toNat < 2 ^ 31) :
    TransfersStream (lockBytes msgs) (.start (lockInitControlSection m) k msgs k' [call]) ↔
      msgs.Pairwise fun msg later => later.size ≠ 0 → lockDataSectionSize ∣ msg.size.toNat := by
  rw [← lockLeft_eq_iff]
  constructor
  · rintro ⟨htakes, -⟩
    have hbytes := flatten_lockLeft msgs
    have hquiet : LockQuiet k k' call.size 0 (.start (lockInitControlSection m) k msgs k' [call]) := by
      refine ⟨rfl, rfl, rfl, rfl, rfl, rfl, fun _ _ _ => ⟨Nat.zero_le _, fun h => by cases h⟩,
        ⟨_, rfl⟩, rfl, ?_⟩
      rw [hsize, ← length_lockBytes, ← hbytes, Nat.zero_add]
      rfl
    have hleft := hquiet.left_eq hvm hrvm hpid hs _ htakes (Nat.le_refl _)
    rwa [← hbytes]
  · intro hcut
    have hstart := lockWholeInv_start hsize m k k' hs hcut
    have hinv : ∀ turns, LockWholeInv (lockWhole msgs call.size) k k' (run lockLinkStep _ turns) :=
      run_inv (fun _ turn h => h.step hs turn) hstart
    have htakes : ∀ turns, TakesChunks (lockBytes msgs) (run lockLinkStep _ turns) := fun turns => by
      obtain ⟨s', hsame, hone⟩ := hinv turns
      have htakes := hone.takesChunks hone.sized
      rw [show (lockWhole msgs call.size).size = call.size from rfl, bytesAt_lockWhole hsize] at htakes
      exact htakes.of_same hsame.receiver hsame.shm
    refine ⟨htakes, fun σ hσ => ?_⟩
    obtain ⟨n, hdone⟩ := hstart.exists_done hs hvm hrvm hpid hσ
    obtain ⟨ret, buffer, hmem⟩ := (hinv ((List.range n).map σ)).exists_returned hdone
    obtain ⟨rfl, hbuffer⟩ := (htakes ((List.range n).map σ)).returned ret buffer hmem
    exact ⟨n, buffer, hmem, hbuffer⟩

/-- A message of one full chunk, and one of a byte. -/
theorem lockStream_iff_fullChunk :
    let msgs : List Message := [⟨fun _ => 7, .ofNat lockDataSectionSize⟩, ⟨fun _ => 8, 1⟩]
    TransfersStream (lockBytes msgs)
      (.start (lockInitControlSection ⟨0, false, ⟨0, 0, 0⟩, 0, fun _ => 0⟩) ⟨1, 5, 2⟩ msgs ⟨1, 0, 2⟩
        [⟨fun _ => 0, .ofNat lockDataSectionSize + 1⟩]) :=
  (lockStream_iff _ ⟨1, 5, 2⟩ ⟨1, 0, 2⟩ rfl rfl (.inl rfl) _ ⟨fun _ => 0,
    .ofNat lockDataSectionSize + 1⟩ (by decide)
    (by decide)).mpr (by decide)

/-- Of two messages of one byte, the receiver of both takes two bytes from the
first chunk. -/
theorem not_lockStream :
    let msgs : List Message := [⟨fun _ => 7, 1⟩, ⟨fun _ => 8, 1⟩]
    let s := LockLink.start (lockInitControlSection ⟨0, false, ⟨0, 0, 0⟩, 0, fun _ => 0⟩)
      ⟨1, 5, 2⟩ msgs ⟨1, 0, 2⟩ [⟨fun _ => 0, 2⟩]
    let s' := run lockLinkStep s (.replicate 10 .sender ++ .replicate 10 .receiver)
    lockBytes msgs = [7, 8] ∧ s'.receiver.returned.map (fun r => (r.1, bytesAt r.2 0 2)) = [(0, [7, 0])] ∧
      ¬ TransfersStream (lockBytes msgs) s := by
  intro msgs s s'
  have hbytes : lockBytes msgs = [7, 8] := by decide
  have hreturned : s'.receiver.returned.map (fun r => (r.1, bytesAt r.2 0 2)) = [(0, [7, 0])] := by
    decide +kernel
  refine ⟨hbytes, hreturned, fun ⟨htakes, _⟩ => ?_⟩
  obtain ⟨⟨ret, buffer⟩, hmem, he⟩ := List.mem_map.mp (hreturned ▸ List.mem_singleton_self _)
  obtain ⟨-, hbuffer⟩ := (htakes _).returned ret buffer hmem
  rw [hbytes] at hbuffer
  exact absurd (hbuffer.symm.trans (congrArg Prod.snd he)) (by decide)

end Ivshmem
