import SecureIvshmem.Impl.Turns
import SecureIvshmem.Proof.LockWhole

/-!
# The lock-based transport under a fair schedule

At any time one of the two can go on (`lockTurn`), and nothing that the other
does keeps it from it, so every fair schedule brings the receiver's call to
its end (`LockWholeInv.exists_done`).
-/

namespace Ivshmem

open SharedMem SharedMem.Word

/-- In front of its critical section. -/
def LockRecvPc.waits : LockRecvPc → Bool
  | .loop | .keySender | .keyPid | .refCount | .mutex => true
  | _ => false

/-- Without a claim and outside, the receiver is in front of its critical
section. -/
theorem LockRecvPc.waits_of_not_claims {q : LockRecvPc} (h : q.claims = false) (hne : q ≠ .clearMutex) :
    q.waits = true := by
  cases q
  case clearMutex => exact absurd rfl hne
  case loop | keySender | keyPid | refCount => rfl
  all_goals cases h

/-- Without a claim, the sender is at the head of its loop, or has published
its chunk. -/
theorem LockSendPc.eq_loop_of_not_claims {p : LockSendPc} (h : p.claims = false) (hne : p ≠ .clearMutex) :
    p = .loop := by
  cases p
  case clearMutex => exact absurd rfl hne
  case loop => rfl
  all_goals cases h

/-- With a claim, the sender has filled the data section or is to fill it. -/
theorem LockSendPc.toCopy_of_claims {p : LockSendPc} (h : p.claims = true) (hf : p.filled = false) :
    p.toCopy = true := by
  cases p
  case loop | clearMutex => cases h
  case mutex | setMutex | copy => rfl
  all_goals cases hf

/-- A receiver with bytes to get that does not find `mutex` clear leaves the
memory alone. -/
theorem lockRecvStep_waits {m : LockShm} {t : LockReceiver} {call : RecvCall} {rest : List RecvCall}
    (hc : t.calls = call :: rest) (hq : t.pc.waits = true) (hlt : ¬ call.size ≤ intToSize t.dataReceived)
    (hm : t.pc = .mutex → m.mutex = true) :
    ∃ q : LockRecvPc, q.waits = true ∧ lockRecvStep m t = (m, { t with pc := q }) := by
  simp only [lockRecvStep, hc, lockRecvCallStep]
  cases e : t.pc <;> rw [e] at hq hm <;> simp only
  case loop =>
    rw [if_neg hlt]
    exact ⟨_, by split <;> rfl, rfl⟩
  case keySender => exact ⟨_, by split <;> (try split) <;> rfl, rfl⟩
  case keyPid | refCount => exact ⟨_, by split <;> rfl, rfl⟩
  case mutex =>
    rw [if_pos (hm rfl)]
    exact ⟨.loop, rfl, rfl⟩
  all_goals cases hq

/-- A sender in front of its critical section that does not find `mutex` clear
leaves the memory alone, and has as many chunks left. -/
theorem lockSendStep_waits {m : LockShm} {t : LockSender} (hp : t.pc = .loop ∨ t.pc = .mutex)
    (hm : t.pc = .mutex → m.mutex = true) :
    (lockSendStep m t).1 = m ∧ ((lockSendStep m t).2.pc = .loop ∨ (lockSendStep m t).2.pc = .mutex) ∧
      (lockSendStep m t).2.left = t.left ∧ (lockSendStep m t).2.calls.length ≤ t.calls.length := by
  cases hc : t.calls with
  | nil =>
    simp only [lockSendStep, hc]
    exact ⟨trivial, hp, trivial, Nat.le_refl _⟩
  | cons msg rest =>
    have hleft : t.left = lockLeft (msg :: rest) t.dataSent.toNat := by rw [LockSender.left, hc]
    simp only [lockSendStep, hc, lockSendCallStep]
    obtain e | e := hp <;> simp only [e]
    · by_cases hle : msg.size ≤ t.dataSent
      · rw [if_pos hle, hleft, lockLeft_done (UInt64.le_iff_toNat_le.mp hle)]
        exact ⟨rfl, .inl rfl, rfl, Nat.le_succ _⟩
      · rw [if_neg hle]
        refine ⟨rfl, ?_, hleft.symm, Nat.le_refl _⟩
        split
        · exact .inl rfl
        · exact .inr rfl
    · rw [if_pos (hm e)]
      exact ⟨trivial, .inl rfl, hleft.symm, Nat.le_refl _⟩

/-! ## Whose turn it is -/

/-- Who can go on: whoever holds `mutex`, the receiver where there is a chunk
or nothing left to get, else the sender. -/
def lockTurn (msg : Message) (s : LockLink) : LockTurn :=
  if s.sender.pc = .clearMutex then .sender
  else if s.shm.refCount = 1 ∨ s.receiver.pc = .clearMutex ∨ s.receiver.left [msg] = [] then .receiver
  else .sender

/-- Steps to the end of the receiver's turn. -/
def LockSendPc.work : LockSendPc → Nat
  | .loop | .mutex => 13
  | .setMutex => 12
  | .copy => 11
  | .keyPid => 10
  | .keyReceiver => 9
  | .keySender => 8
  | .dataSize => 7
  | .refCount => 6
  | .clearMutex => 5

/-- Steps to the end of its turn, or, after that, to the end of the next. -/
def LockRecvPc.work : LockRecvPc → Nat
  | .clearMutex => 14
  | .setMutex => 3
  | .copy => 2
  | .readRefCount => 1
  | .writeRefCount _ => 0
  | _ => 4

theorem LockRecvPc.work_le {q : LockRecvPc} (h : q ≠ .clearMutex) : q.work ≤ 4 := by
  cases q
  case clearMutex => exact absurd rfl h
  all_goals simp [LockRecvPc.work]

theorem LockSendPc.work_le (p : LockSendPc) : p.work ≤ 13 := by cases p <;> simp [LockSendPc.work]

/-- What the two have left to do. -/
def lockWork (msg : Message) (s : LockLink) : Nat :=
  15 * (s.receiver.left [msg]).length +
    (match lockTurn msg s with
      | .sender => s.sender.pc.work
      | .receiver => s.receiver.pc.work) +
    s.sender.calls.length + s.receiver.calls.length

/-- Steps to the store to `mutex`. -/
def lockRank (s : LockLink) : LockTurn → Nat
  | .sender => if s.sender.pc = .loop then 1 else 0
  | .receiver =>
    match s.receiver.pc with
    | .loop => 4
    | .keySender => 3
    | .keyPid => 2
    | .refCount => 1
    | _ => 0

/-- In its call, the receiver waits for the party `p`. -/
def LockReady (msg : Message) (p : LockTurn) (s : LockLink) : Prop :=
  s.receiver.calls ≠ [] ∧ lockTurn msg s = p

/-- What the turns depend on. -/
structure LockHandover (msg : Message) (s : LockLink) : Prop where
  safe : LockSafe s.shm s.sender.pc s.receiver.pc
  inCall : s.sender.pc ≠ .loop → s.sender.calls ≠ []
  sending : LockSenderOk s.sender
  receiving : ∀ call rest, s.receiver.calls = call :: rest →
    [msg].drop s.receiver.returned.length = [msg] ∧ ∃ d, LockReceiving call msg s.receiver d
  chunk : s.sender.pc.filled = true ∨ s.shm.refCount = 1 →
    ∃ bs, s.receiver.left [msg] = bs :: s.sender.left
  none : s.sender.pc.filled = false → s.shm.refCount = 0 → s.receiver.left [msg] = s.sender.left
  keyed : s.shm.refCount = 1 → lockNothingFor s.receiver.key s.shm = false
  testsPid : TestsPid s.receiver

/-- A chunk of the sender is for a receiver with a matching key. -/
theorem lockNothingFor_published {k k' : LockKey} (hvm : k'.senderVm = k.senderVm)
    (hrvm : k'.receiverVm = k.receiverVm) (hpid : k'.senderPid = 0 ∨ k'.senderPid = k.senderPid)
    {m : LockShm} (hkey : m.key = k) (href : m.refCount = 1) :
    lockNothingFor k' m = false := by
  rw [lockNothingFor, hkey, href, hvm, hrvm]
  obtain h0 | he := hpid
  · simp [h0]
  · simp [he]

theorem LockWholeInv.handover {msg : Message} {k k' : LockKey} (hvm : k'.senderVm = k.senderVm)
    (hrvm : k'.receiverVm = k.receiverVm) (hpid : k'.senderPid = 0 ∨ k'.senderPid = k.senderPid)
    {s : LockLink} (h : LockWholeInv msg k k' s) : LockHandover msg s := by
  obtain ⟨s', hsame, hinv⟩ := h
  obtain ⟨m, t, r⟩ := s
  obtain ⟨m', t', r'⟩ := s'
  obtain ⟨rfl, rfl, -, hpc, -, hleft, -, hcall, hok, -⟩ := hsame
  have hsafe := hinv.safe
  have hflow := hinv.flow
  simp only at hpc hleft hsafe
  refine ⟨by rwa [hpc], hcall, hok, fun call rest hc => hinv.receiving hc, fun hf => ?_,
    fun hf href => ?_, fun href => ?_, hinv.testsPid⟩
  · simp only [hpc] at hf
    obtain ⟨bs, e, -⟩ := hflow.chunk hf
    exact ⟨bs, by rw [e, hleft]⟩
  · simp only [hpc] at hf
    rw [hflow.none hf href, hleft]
  · have hkey : m.key = k := by
      have hk := hinv.keyed
      calc m.key = ⟨m.key.senderVm, m.key.senderPid, m.key.receiverVm⟩ := rfl
        _ = k := by rw [hk.senderVm (.inr href), hk.senderPid (.inr href), hk.receiverVm (.inr href)]
    have hk' := hinv.receiverKey
    simp only at hk' ⊢
    rw [hk']
    exact lockNothingFor_published hvm hrvm hpid hkey href

section

variable {msg : Message} {s : LockLink}

theorem lockTurn_eq_receiver : lockTurn msg s = .receiver ↔ s.sender.pc ≠ .clearMutex ∧
    (s.shm.refCount = 1 ∨ s.receiver.pc = .clearMutex ∨ s.receiver.left [msg] = []) := by
  unfold lockTurn
  split
  · simp [*]
  · split <;> simp [*]

theorem lockTurn_eq_sender : lockTurn msg s = .sender ↔ s.sender.pc = .clearMutex ∨
    ¬ (s.shm.refCount = 1 ∨ s.receiver.pc = .clearMutex ∨ s.receiver.left [msg] = []) := by
  unfold lockTurn
  split
  · simp [*]
  · split <;> simp [*]

variable (h : LockHandover msg s)
include h

/-- With a chunk left, the receiver is not done. -/
theorem LockHandover.more {call : RecvCall} {rest : List RecvCall} (hc : s.receiver.calls = call :: rest)
    (hleft : s.receiver.left [msg] ≠ []) : ¬ call.size ≤ intToSize s.receiver.dataReceived := by
  obtain ⟨hm, d, hr⟩ := h.receiving call rest hc
  rw [size_le_received hr.received, hr.size]
  intro hle
  rw [left_of_received hm hr.received, lockLeft_done hle] at hleft
  exact hleft rfl

/-- Past the head of its loop, neither is it. -/
theorem LockHandover.left_ne_nil {call : RecvCall} {rest : List RecvCall}
    (hc : s.receiver.calls = call :: rest) (hpc : s.receiver.pc ≠ .loop)
    (hpc' : s.receiver.pc ≠ .clearMutex) : s.receiver.left [msg] ≠ [] := by
  obtain ⟨hm, d, hr⟩ := h.receiving call rest hc
  rw [left_of_received hm hr.received, lockLeft_more (hr.more hpc hpc')]
  exact List.cons_ne_nil _ _

/-- A sender in a call with bytes left has chunks left. -/
theorem LockHandover.sender_left (hpc : s.sender.pc.toCopy = true) : s.sender.left ≠ [] := by
  obtain ⟨msg', rest, hc⟩ := List.exists_cons_of_ne_nil (h.inCall fun e => by rw [e] at hpc; cases hpc)
  rw [LockSender.left, hc, lockLeft_more ((h.sending msg' rest hc).more hpc)]
  exact List.cons_ne_nil _ _

/-- In the receiver's turn the sender waits. -/
theorem LockHandover.sender_waits (hturn : lockTurn msg s = .receiver) :
    (s.sender.pc = .loop ∨ s.sender.pc = .mutex) ∧ (s.sender.pc = .mutex → s.shm.mutex = true) := by
  obtain ⟨hne, hor⟩ := lockTurn_eq_receiver.mp hturn
  have hsafe := h.safe
  by_cases hclaims : s.sender.pc.claims = true
  · have href := hsafe.sends hclaims
    have hq : s.receiver.pc = .clearMutex := by
      obtain h1 | hq | hnil := hor
      · rw [href] at h1
        cases h1
      · exact hq
      · -- the sender has a chunk, or is to copy one
        exfalso
        cases hf : s.sender.pc.filled with
        | true =>
          obtain ⟨bs, e⟩ := h.chunk (.inl hf)
          exact List.cons_ne_nil _ _ (e.symm.trans hnil)
        | false =>
          exact h.sender_left (LockSendPc.toCopy_of_claims hclaims hf) ((h.none hf href).symm.trans hnil)
    have hmutex : s.shm.mutex = true := by rw [hsafe.mutex, hq]; exact Bool.or_true _
    exact ⟨.inr ((hsafe.sender_alone hclaims).resolve_right (absurd hq)), fun _ => hmutex⟩
  · have hloop := LockSendPc.eq_loop_of_not_claims (Bool.eq_false_of_not_eq_true hclaims) hne
    exact ⟨.inl hloop, fun e => by rw [hloop] at e; cases e⟩

/-- In the sender's turn there are chunks left, and the receiver waits. -/
theorem LockHandover.receiver_waits (hturn : lockTurn msg s = .sender) :
    s.receiver.left [msg] ≠ [] ∧ s.receiver.pc.waits = true ∧
    (s.receiver.pc = .mutex → s.shm.mutex = true) := by
  have hsafe := h.safe
  obtain hp | hnot := lockTurn_eq_sender.mp hturn
  · obtain ⟨bs, e⟩ := h.chunk (.inr (hsafe.sent hp))
    have hq := hsafe.apart (by rw [hp]; rfl)
    refine ⟨by rw [e]; exact List.cons_ne_nil _ _, ?_, fun _ => by rw [hsafe.mutex, hp]; rfl⟩
    by_cases hclaims : s.receiver.pc.claims = true
    · rw [(hsafe.receiver_alone hclaims).resolve_right (by rw [hp]; simp)]
      rfl
    · exact LockRecvPc.waits_of_not_claims (Bool.eq_false_of_not_eq_true hclaims) fun e => by
        rw [e] at hq; cases hq
  · obtain ⟨href, hq, hleft⟩ : s.shm.refCount ≠ 1 ∧ s.receiver.pc ≠ .clearMutex ∧
      s.receiver.left [msg] ≠ [] := by
      simpa only [not_or] using hnot
    have hclaims : ¬ s.receiver.pc.claims = true := fun hc => href (hsafe.receives hc)
    exact ⟨hleft, LockRecvPc.waits_of_not_claims (Bool.eq_false_of_not_eq_true hclaims) hq,
      fun e => absurd (by rw [e]; rfl) hclaims⟩

/-! ## Steps -/

/-- In the receiver's turn the sender does no work but to return. -/
theorem LockHandover.sender_other (hturn : lockTurn msg s = .receiver) :
    let s' := lockLinkStep s .sender
    s'.receiver = s.receiver ∧ lockTurn msg s' = .receiver ∧ lockWork msg s' ≤ lockWork msg s := by
  obtain ⟨hpc, hmutex⟩ := h.sender_waits hturn
  obtain ⟨-, hor⟩ := lockTurn_eq_receiver.mp hturn
  obtain ⟨hm, hp, -, hle⟩ := lockSendStep_waits hpc hmutex
  have hturn' : lockTurn msg (lockLinkStep s .sender) = .receiver := by
    refine lockTurn_eq_receiver.mpr ⟨?_, by simpa only [lockLinkStep, hm] using hor⟩
    obtain e | e := hp <;> simp only [lockLinkStep, e] <;> exact fun e => by cases e
  refine ⟨rfl, hturn', ?_⟩
  simp only [lockWork, hturn, hturn']
  simp only [lockLinkStep]
  omega

/-- In the sender's turn the receiver does no work. -/
theorem LockHandover.receiver_other (hturn : lockTurn msg s = .sender) (hcalls : s.receiver.calls ≠ []) :
    let s' := lockLinkStep s .receiver
    s'.sender = s.sender ∧ s'.receiver.calls = s.receiver.calls ∧ lockTurn msg s' = .sender ∧
      lockWork msg s' = lockWork msg s := by
  obtain ⟨call, rest, hc⟩ := List.exists_cons_of_ne_nil hcalls
  obtain ⟨hleft, hq, hmutex⟩ := h.receiver_waits hturn
  obtain ⟨q, hwaits, e⟩ := lockRecvStep_waits hc hq (h.more hc hleft) hmutex
  have hturn' : lockTurn msg (lockLinkStep s .receiver) = .sender := by
    refine lockTurn_eq_sender.mpr ((lockTurn_eq_sender.mp hturn).imp id fun hnot => ?_)
    simp only [lockLinkStep, e]
    rintro (h1 | rfl | hnil)
    · exact hnot (.inl h1)
    · cases hwaits
    · exact hleft hnil
  refine ⟨rfl, by simp only [lockLinkStep, e], hturn', ?_⟩
  simp only [lockWork, hturn, hturn']
  simp only [lockLinkStep, e]
  rfl

/-- A sender that clears the mutex gives the turn to the receiver. -/
theorem LockHandover.sender_unlocks (hp : s.sender.pc = .clearMutex) :
    lockWork msg (lockLinkStep s .sender) < lockWork msg s := by
  have hsafe := h.safe
  obtain ⟨msg', rest, hc⟩ := List.exists_cons_of_ne_nil (h.inCall (by rw [hp]; simp))
  have href := hsafe.sent hp
  have hstep : lockLinkStep s .sender = { s with
      shm := { s.shm with mutex := false }
      sender := { s.sender with calls := msg' :: rest, pc := .loop } } := by
    simp only [lockLinkStep, lockSendStep, hc, lockSendCallStep, hp]
  have hturn : lockTurn msg s = .sender := lockTurn_eq_sender.mpr (.inl hp)
  have hturn' : lockTurn msg (lockLinkStep s .sender) = .receiver := by
    rw [hstep]
    exact lockTurn_eq_receiver.mpr ⟨fun e => (by cases e), .inl href⟩
  have hq : s.receiver.pc.work ≤ 4 := LockRecvPc.work_le fun e => by
    rw [hsafe.received e] at href
    cases href
  simp only [lockWork, hturn, hturn', hp, LockSendPc.work]
  simp only [hstep, hc]
  omega

/-- In its own turn the sender works, or comes closer to it. -/
theorem LockHandover.sender_own (hturn : lockTurn msg s = .sender) :
    let s' := lockLinkStep s .sender
    lockWork msg s' < lockWork msg s ∨ lockWork msg s' = lockWork msg s ∧ lockTurn msg s' = .sender ∧
      lockRank s' .sender < lockRank s .sender := by
  have hsafe := h.safe
  obtain hp | hnot := lockTurn_eq_sender.mp hturn
  · exact .inl (h.sender_unlocks hp)
  obtain ⟨href, hq, hleft⟩ : s.shm.refCount ≠ 1 ∧ s.receiver.pc ≠ .clearMutex ∧
    s.receiver.left [msg] ≠ [] := by
    simpa only [not_or] using hnot
  have h0 : s.shm.refCount = 0 := hsafe.refCount.resolve_right href
  have stays {m' : LockShm} {t' : LockSender} (hor : t'.pc = .clearMutex ∨ m'.refCount ≠ 1) :
      lockTurn msg { s with shm := m', sender := t' } = .sender := by
    refine lockTurn_eq_sender.mpr (hor.imp id ?_)
    rintro hne (h1 | hq' | hnil)
    exacts [hne h1, hq hq', hleft hnil]
  have works {m' : LockShm} {t' : LockSender} (hor : t'.pc = .clearMutex ∨ m'.refCount ≠ 1)
      (hlt : t'.pc.work + t'.calls.length < s.sender.pc.work + s.sender.calls.length) :
      lockWork msg { s with shm := m', sender := t' } < lockWork msg s := by
    simp only [lockWork, hturn, stays hor]
    omega
  cases hc : s.sender.calls with
  | nil =>
    have hp : s.sender.pc = .loop := by
      by_contra hne
      exact h.inCall hne hc
    refine absurd (h.none (by rw [hp]; rfl) h0) ?_
    rw [LockSender.left, hc]
    exact hleft
  | cons msg' rest =>
    simp only [lockLinkStep, lockSendStep, hc, lockSendCallStep]
    cases e : s.sender.pc <;> simp only
    case loop =>
      by_cases hdone : msg'.size ≤ s.sender.dataSent
      · rw [if_pos hdone]
        exact .inl (works (.inr href) (by simp [e, hc]))
      · have hfull : ¬ 0 < s.shm.refCount := by rw [h0]; decide
        rw [if_neg hdone, if_neg hfull]
        refine .inr ⟨?_, stays (.inr href), ?_⟩
        · simp only [lockWork, hturn, stays (.inr href)]
          simp only [e, hc, LockSendPc.work]
        · simp [lockRank, e]
    case mutex =>
      have hout : s.receiver.pc.inCs = false := by
        by_contra hin
        obtain ⟨hclaims, -⟩ | hq' := LockRecvPc.inCs_cases (Bool.eq_true_of_not_eq_false hin)
        exacts [href (hsafe.receives hclaims), hq hq']
      have hm : s.shm.mutex = false := by rw [hsafe.mutex, hout, e]; rfl
      rw [hm]
      exact .inl (works (.inr href) (by simp [e, hc, LockSendPc.work]))
    case refCount => exact .inl (works (.inl rfl) (by simp [e, hc, LockSendPc.work]))
    case clearMutex => exact absurd (hsafe.sent e) href
    all_goals exact .inl (works (.inr href) (by simp [e, hc, LockSendPc.work]))

omit h in
/-- The receiver goes on in its turn. -/
theorem lockTurn_receiver (hturn : lockTurn msg s = .receiver) {m' : LockShm} {r' : LockReceiver}
    (hor : m'.refCount = 1 ∨ r'.pc = .clearMutex ∨ r'.left [msg] = []) :
    lockTurn msg { s with shm := m', receiver := r' } = .receiver :=
  lockTurn_eq_receiver.mpr ⟨(lockTurn_eq_receiver.mp hturn).1, hor⟩

omit h in
theorem lockWork_receiver_lt (hturn : lockTurn msg s = .receiver) {m' : LockShm} {r' : LockReceiver}
    (hor : m'.refCount = 1 ∨ r'.pc = .clearMutex ∨ r'.left [msg] = [])
    (hlt : 15 * (r'.left [msg]).length + r'.pc.work + r'.calls.length <
      15 * (s.receiver.left [msg]).length + s.receiver.pc.work + s.receiver.calls.length) :
    lockWork msg { s with shm := m', receiver := r' } < lockWork msg s := by
  simp only [lockWork, hturn, lockTurn_receiver hturn hor]
  omega

/-- The receiver lets go of `mutex`. -/
theorem LockHandover.receiver_clears (hturn : lockTurn msg s = .receiver) {call : RecvCall}
    {rest : List RecvCall} (hc : s.receiver.calls = call :: rest) (hpc : s.receiver.pc = .clearMutex) :
    lockWork msg (lockLinkStep s .receiver) < lockWork msg s := by
  have hstep : lockLinkStep s .receiver = { s with
      shm := { s.shm with mutex := false }
      receiver := { s.receiver with calls := call :: rest, pc := .loop } } := by
    simp only [lockLinkStep, lockRecvStep, hc, lockRecvCallStep, hpc]
  have hleft : LockReceiver.left [msg] { s.receiver with calls := call :: rest, pc := .loop } =
    s.receiver.left [msg] := rfl
  by_cases hnil : s.receiver.left [msg] = []
  · rw [hstep]
    refine lockWork_receiver_lt hturn (.inr (.inr hnil)) ?_
    rw [hleft, hc, hpc]
    simp only [LockRecvPc.work, List.length_cons]
    omega
  · have h0 := h.safe.received hpc
    have hturn' : lockTurn msg (lockLinkStep s .receiver) = .sender := by
      rw [hstep]
      refine lockTurn_eq_sender.mpr (.inr ?_)
      rintro (h1 | hq | hnil')
      · simp only [h0] at h1
        cases h1
      · cases hq
      · exact hnil hnil'
    have hle := s.sender.pc.work_le
    simp only [lockWork, hturn, hturn', hpc, LockRecvPc.work]
    rw [hstep, hc]
    simp only [hleft]
    omega

/-- With nothing left to get, the receiver returns. -/
theorem LockHandover.receiver_returns (hturn : lockTurn msg s = .receiver) {call : RecvCall}
    {rest : List RecvCall} (hc : s.receiver.calls = call :: rest)
    (hpc : s.receiver.pc ≠ .clearMutex) (hnil : s.receiver.left [msg] = []) :
    lockWork msg (lockLinkStep s .receiver) < lockWork msg s := by
  obtain ⟨hm, d, hr⟩ := h.receiving call rest hc
  have hloop : s.receiver.pc = .loop := by
    by_contra hne
    exact h.left_ne_nil hc hne hpc hnil
  have hle : call.size ≤ intToSize s.receiver.dataReceived := by
    rw [size_le_received hr.received, hr.size]
    by_contra hlt
    rw [left_of_received hm hr.received, lockLeft_more (Nat.lt_of_not_le hlt)] at hnil
    cases hnil
  have hstep : lockRecvStep s.shm s.receiver = (s.shm, { s.receiver with
      calls := rest, dataReceived := 0, returned := s.receiver.returned ++ [(0, call.buffer)] }) := by
    simp only [lockRecvStep, hc, lockRecvCallStep, hloop, hle, ↓reduceIte]
  have hnil' : LockReceiver.left [msg] { s.receiver with
      calls := rest, dataReceived := 0, returned := s.receiver.returned ++ [(0, call.buffer)] } = [] := by
    rw [LockReceiver.left, List.length_append, List.length_singleton, ← List.drop_drop, hm]
    rfl
  simp only [lockLinkStep, hstep]
  refine lockWork_receiver_lt hturn (.inr (.inr hnil')) ?_
  rw [hnil', hnil, hc, List.length_cons]
  exact Nat.lt_succ_self _

/-- The receiver gives the chunk back. -/
theorem LockHandover.receiver_gives (hturn : lockTurn msg s = .receiver) {call : RecvCall}
    {rest : List RecvCall} (hc : s.receiver.calls = call :: rest) (hloop : s.receiver.pc ≠ .loop)
    (hpc : s.receiver.pc ≠ .clearMutex) {m' : LockShm} {r' : LockReceiver}
    (hret : r'.returned = s.receiver.returned)
    (hd : r'.dataReceived =
      s.receiver.dataReceived + lockToReceive call.size s.receiver.dataReceived)
      (hpc' : r'.pc = .clearMutex) (hcalls : r'.calls.length = s.receiver.calls.length) :
    lockWork msg { s with shm := m', receiver := r' } < lockWork msg s := by
  obtain ⟨hm, d, hr⟩ := h.receiving call rest hc
  have hlt := hr.more hloop hpc
  have hadd := lockReceived_add_toInt hr.received hr.le hr.small
  rw [← hr.size, ← hd] at hadd
  rw [← hret] at hm
  have hleft := left_of_received hm hadd
  refine lockWork_receiver_lt hturn (.inr (.inl hpc')) ?_
  rw [hret] at hm
  rw [hleft, left_of_received hm hr.received, lockLeft_more hlt, hr.size, hcalls, hpc']
  simp only [LockRecvPc.work, List.length_cons]
  omega

/-- With a chunk for it, the receiver works, or comes closer to it. -/
theorem LockHandover.receiver_takes (hturn : lockTurn msg s = .receiver) {call : RecvCall}
    {rest : List RecvCall} (hc : s.receiver.calls = call :: rest)
    (hpc : s.receiver.pc ≠ .clearMutex) (href : s.shm.refCount = 1) :
    let s' := lockLinkStep s .receiver
    lockWork msg s' < lockWork msg s ∨ lockWork msg s' = lockWork msg s ∧ s'.receiver.calls ≠ [] ∧
      lockTurn msg s' = .receiver ∧ lockRank s' .receiver < lockRank s .receiver := by
  have hsafe := h.safe
  obtain ⟨bs, hleft⟩ := h.chunk (.inr href)
  have hmore := h.more hc (by rw [hleft]; exact List.cons_ne_nil _ _)
  have hloop : s.sender.pc = .loop :=
    LockSendPc.eq_loop_of_not_claims (Bool.eq_false_of_not_eq_true fun hclaims => by
      have h0 := hsafe.sends hclaims
      rw [href] at h0
      cases h0) (lockTurn_eq_receiver.mp hturn).1
  -- a test that is passed
  have passes {q : LockRecvPc} (hw : q.work = s.receiver.pc.work)
      (hrank : lockRank
        { s with receiver := { s.receiver with calls := call :: rest, pc := q } } .receiver <
        lockRank s .receiver) :
      let s' : LockLink := { s with receiver := { s.receiver with calls := call :: rest, pc := q } }
      lockWork msg s' < lockWork msg s ∨ lockWork msg s' = lockWork msg s ∧ s'.receiver.calls ≠ [] ∧
        lockTurn msg s' = .receiver ∧ lockRank s' .receiver < lockRank s .receiver := by
    refine .inr ⟨?_, List.cons_ne_nil _ _, lockTurn_receiver hturn (.inl href), hrank⟩
    simp only [lockWork, hturn, lockTurn_receiver hturn (.inl href), hw, hc]
    rfl
  -- a step inside that leaves the chunk
  have goes {m' : LockShm} {r' : LockReceiver} (hr : m'.refCount = 1)
    (hl : r'.left [msg] = s.receiver.left [msg])
      (hcalls : r'.calls.length = s.receiver.calls.length) (hlt : r'.pc.work < s.receiver.pc.work) :
      lockWork msg { s with shm := m', receiver := r' } < lockWork msg s := by
    refine lockWork_receiver_lt hturn (.inl hr) ?_
    rw [hl, hcalls]
    omega
  have hkeyed := h.keyed href
  simp only [lockNothingFor, Bool.or_eq_false_iff, bne_eq_false_iff_eq, Bool.and_eq_false_imp,
    bne_iff_ne] at hkeyed
  obtain ⟨⟨⟨hrvm, hsvm⟩, hpid⟩, -⟩ := hkeyed
  simp only [lockLinkStep, lockRecvStep, hc, lockRecvCallStep]
  cases e : s.receiver.pc <;> simp only
  case loop =>
    rw [if_neg hmore, if_neg (not_not.mpr hrvm)]
    exact passes (by rw [e]; rfl) (by simp [lockRank, e])
  case keySender =>
    rw [if_neg (not_not.mpr hsvm)]
    split
    · exact passes (by rw [e]; rfl) (by simp [lockRank, e])
    · exact passes (by rw [e]; rfl) (by simp [lockRank, e])
  case keyPid =>
    rw [if_neg (not_not.mpr (hpid (h.testsPid e)))]
    exact passes (by rw [e]; rfl) (by simp [lockRank, e])
  case refCount =>
    rw [if_neg (by rw [href]; decide)]
    exact passes (by rw [e]; rfl) (by simp [lockRank, e])
  case mutex =>
    have hmutex : s.shm.mutex = false := by rw [hsafe.mutex, hloop, e]; rfl
    rw [hmutex]
    exact .inl (goes href rfl (by rw [hc]) (by rw [e]; exact Nat.lt_succ_self _))
  case setMutex | readRefCount =>
    exact .inl (goes href rfl (by rw [hc]) (by rw [e]; exact Nat.lt_succ_self _))
  case copy => exact .inl (goes href rfl (by rw [hc]; rfl) (by rw [e]; exact Nat.lt_succ_self _))
  case clearMutex => exact absurd e hpc
  case writeRefCount n =>
    exact .inl (h.receiver_gives hturn hc (by rw [e]; simp) hpc rfl rfl rfl (by rw [hc]))

/-- In its own turn the receiver works, or comes closer to it. -/
theorem LockHandover.receiver_own (hturn : lockTurn msg s = .receiver) (hcalls : s.receiver.calls ≠ []) :
    let s' := lockLinkStep s .receiver
    lockWork msg s' < lockWork msg s ∨ lockWork msg s' = lockWork msg s ∧ s'.receiver.calls ≠ [] ∧
      lockTurn msg s' = .receiver ∧ lockRank s' .receiver < lockRank s .receiver := by
  obtain ⟨call, rest, hc⟩ := List.exists_cons_of_ne_nil hcalls
  by_cases hpc : s.receiver.pc = .clearMutex
  · exact .inl (h.receiver_clears hturn hc hpc)
  by_cases hnil : s.receiver.left [msg] = []
  · exact .inl (h.receiver_returns hturn hc hpc hnil)
  · exact h.receiver_takes hturn hc hpc
      ((lockTurn_eq_receiver.mp hturn).2.resolve_right (not_or.mpr ⟨hpc, hnil⟩))

end

/-- The receiver's call has returned. -/
def LockDone (s : LockLink) : Prop := s.receiver.calls = []

theorem exists_lockReady (msg : Message) {s : LockLink} (h : ¬ LockDone s) : ∃ p, LockReady msg p s :=
  ⟨lockTurn msg s, h, rfl⟩

/-- A fair schedule brings the receiver's call to its end. -/
theorem LockWholeInv.exists_done {msg : Message} (hs : msg.size.toNat < 2 ^ 31) {k k' : LockKey}
    (hvm : k'.senderVm = k.senderVm) (hrvm : k'.receiverVm = k.receiverVm)
    (hpid : k'.senderPid = 0 ∨ k'.senderPid = k.senderPid) {s : LockLink} (h : LockWholeInv msg k k' s)
    {σ : Nat → LockTurn} (hσ : Fair id σ) : ∃ n, LockDone (runSeq lockLinkStep s σ n) := by
  refine exists_done_of_fair (I := LockWholeInv msg k k') (μ := lockWork msg)
    (δ := fun p s => lockRank s p)
    (fun _ turn h => h.step hs turn) (fun s _ hd => exists_lockReady (s := s) msg hd) ?_ ?_ hσ h
  · intro s turn h ⟨hcalls, hturn⟩
    have hand := h.handover hvm hrvm hpid
    cases turn with
    | sender =>
      obtain hlt | ⟨he, hturn', hrank⟩ := hand.sender_own hturn
      exacts [.inl hlt, .inr ⟨he, ⟨hcalls, hturn'⟩, hrank⟩]
    | receiver =>
      obtain hlt | ⟨he, hcalls', hturn', hrank⟩ := hand.receiver_own hturn hcalls
      exacts [.inl hlt, .inr ⟨he, ⟨hcalls', hturn'⟩, hrank⟩]
  · intro s turn p h ⟨hcalls, hturn⟩ hne
    have hand := h.handover hvm hrvm hpid
    cases turn with
    | sender =>
      cases p with
      | sender => exact absurd rfl hne
      | receiver =>
        obtain ⟨hr, hturn', hle⟩ := hand.sender_other hturn
        refine (Nat.lt_or_eq_of_le hle).imp id fun he => ⟨he, ⟨by rwa [hr], hturn'⟩, ?_⟩
        simp only [lockRank, hr]
    | receiver =>
      cases p with
      | receiver => exact absurd rfl hne
      | sender =>
        obtain ⟨ht, hr, hturn', he⟩ := hand.receiver_other hturn hcalls
        refine .inr ⟨he, ⟨by rwa [hr], hturn'⟩, ?_⟩
        simp only [lockRank, ht]

end Ivshmem
