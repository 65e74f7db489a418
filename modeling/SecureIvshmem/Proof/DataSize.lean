import SecureIvshmem.Proof.Transfer

/-!
# `data_size`

The count of the bytes in a channel follows the indices: the sender adds to it
after it has published a page, the receiver subtracts after it has given one
back. In runs where the addition for a page comes first, and every page
subtracted is a whole one (`AddsFirst`), the count is that of the pages
published and not yet given back (`Accounts`), and so in range and 0 when the
channel is drained. In others it wraps, or is too high for good
(`Overcounts`): `dataSize_tracks`.
-/

namespace Ivshmem

open SharedMem SharedMem.Word

/-- Both sides are between calls, and have returned from as many. -/
def Drained (l : Link) : Prop :=
  l.sender.pc = .request .find ∧ l.receiver.pc = .find ∧
    l.sender.returned.length = l.receiver.returned.length

instance (l : Link) : Decidable (Drained l) := by
  unfold Drained
  infer_instance

/-- `data_size` is in range, and 0 while the channel is drained. -/
structure Tracks (i : Fin maxChannels) (l : Link) : Prop where
  le : (l.shm.ctr.channels i).dataSize.toNat ≤ (l.shm.ctr.channels i).numPage.toInt.toNat * pageSize
  drained : Drained l → (l.shm.ctr.channels i).dataSize = 0

/-- What the receiver is about to subtract, if anything, is a page, and the
sender is not about to add the only one that was published. -/
def SubtractsPage (i : Fin maxChannels) (l : Link) : Prop :=
  match l.receiver.pc with
  | .subSize n => n.toInt = pageSize ∧
      (l.sender.pc = .addSize → (l.shm.ctr.channels i).head ≠ (l.shm.ctr.channels i).tail)
  | _ => True

instance (i : Fin maxChannels) (l : Link) : Decidable (SubtractsPage i l) := by
  unfold SubtractsPage
  split <;> infer_instance

/-- A subtraction is of a page whose addition came first. -/
def AddsFirst (i : Fin maxChannels) (l : Link) : Turn → Prop
  | .sender _ => True
  | .receiver => SubtractsPage i l

instance (i : Fin maxChannels) (l : Link) : ∀ turn, Decidable (AddsFirst i l turn)
  | .sender _ => isTrue trivial
  | .receiver => inferInstanceAs (Decidable (SubtractsPage i l))

/-! ## Pages not yet counted -/

/-- How many pages the sender has published and not added. -/
def SendPc.owes : SendPc → Nat
  | .addSize => 1
  | _ => 0

/-- How many pages the receiver has given back and not subtracted. -/
def RecvPc.owes : RecvPc → Nat
  | .subSize _ => 1
  | _ => 0

theorem RecvPc.owes_le (pc : RecvPc) : pc.owes ≤ 1 := by
  cases pc <;> simp [RecvPc.owes]

theorem SendPc.owes_cases (pc : SendPc) : pc.owes = 0 ∨ pc.owes = 1 ∧ pc = .addSize := by
  cases pc <;> simp [SendPc.owes]

/-- A sender has made the calls before those it has left, and begins each with
nothing sent. -/
structure SenderCalls (msgs : List Message) (t : Sender) : Prop where
  calls : t.calls = msgs.drop t.returned.length
  fresh : t.pc = .request .find → t.dataSent = 0

section

variable {i : Fin maxChannels} {m : Shm}

/-- What a step of the sender does to the count. -/
theorem sendCallStep_dataSize {t : Sender} {msg : Message} {rest : List Message} (hs : SenderOk i m t)
    (hc : t.calls = msg :: rest) (now : Int64) {r : Shm × Sender}
    (hr : sendCallStep now m t msg rest = r) :
    (t.pc.owes = 0 ∧ (r.1.ctr.channels i).dataSize = (m.ctr.channels i).dataSize ∧
      r.2.published = t.published + r.2.pc.owes) ∨
    (t.pc.owes = 1 ∧ (r.1.ctr.channels i).dataSize = (m.ctr.channels i).dataSize + toSent msg.size ∧
      r.2.published = t.published ∧ r.2.pc.owes = 0) := by
  subst hr
  have hpc := hs.pc msg rest hc
  unfold sendCallStep
  cases e : t.pc <;> rw [e] at hpc <;> simp only [SendAt] at hpc
  case request pc =>
    subst hpc
    simp [requestStep, hs.find, SendPc.owes]
  all_goals
    have hch : t.chan = i := hs.chan (by simp [e])
    subst hch
  case mutex =>
    simp only
    split
    · simp [SendPc.owes, e]
    · split <;> simp [SendPc.owes]
  case fullTail | lastNumPage | lastTail =>
    simp only
    split <;> simp [SendPc.owes]
  all_goals simp [SendPc.owes]

/-- What a step of the sender does to its calls. -/
theorem sendCallStep_senderCalls {msgs : List Message} {t : Sender} {msg : Message} {rest : List Message}
    (hs : SenderOk i m t) (hc : t.calls = msg :: rest) (hk : SenderCalls msgs t) (now : Int64)
    {r : Shm × Sender} (hr : sendCallStep now m t msg rest = r) : SenderCalls msgs r.2 := by
  subst hr
  have hpc := hs.pc msg rest hc
  have hcalls := hk.calls
  have hrest : rest = msgs.drop (t.returned.length + 1) := by
    rw [← List.tail_drop, ← hcalls, hc]
    rfl
  unfold sendCallStep
  cases e : t.pc <;> rw [e] at hpc <;> simp only [SendAt] at hpc
  case request pc =>
    subst hpc
    simp only [requestStep, hs.find]
    exact ⟨hcalls, fun h => by cases h⟩
  case mutex =>
    simp only
    split
    · exact ⟨hcalls, fun h => by rw [e] at h; cases h⟩
    · split
      · refine ⟨?_, fun _ => rfl⟩
        rw [List.length_append]
        exact hrest
      · exact ⟨hcalls, fun h => by cases h⟩
  case fullTail | lastNumPage | lastTail =>
    refine ⟨hcalls, fun h => ?_⟩
    simp only at h
    split at h <;> cases h
  all_goals exact ⟨hcalls, fun h => by cases h⟩

/-- What a step of the receiver does to the count. -/
theorem recvCallStep_dataSize {past left : List Message} {t : Receiver} {call : RecvCall}
    {rest : List RecvCall} (hr : ReceiverOk i m past left t) {r : Shm × Receiver}
    (he : recvCallStep m t call rest = r) :
    (t.pc.owes = 0 ∧ (r.1.ctr.channels i).dataSize = (m.ctr.channels i).dataSize ∧
      r.2.consumed = t.consumed + r.2.pc.owes) ∨
    (∃ n, t.pc = .subSize n ∧ (r.1.ctr.channels i).dataSize = (m.ctr.channels i).dataSize - intToSize n ∧
      r.2.consumed = t.consumed ∧ r.2.pc.owes = 0) := by
  subst he
  unfold recvCallStep
  cases e : t.pc
  case find =>
    simp only [hr.find]
    simp [RecvPc.owes]
  all_goals
    have hch : t.chan = i := hr.chan (by simp [e])
    subst hch
  case mutex =>
    simp only
    split
    · simp [RecvPc.owes, e]
    · split <;> simp [RecvPc.owes]
  case emptyTail =>
    simp only
    split <;> simp [RecvPc.owes]
  all_goals simp [RecvPc.owes]

/-- What the receiver is about to subtract is a page at most. -/
def SubtractsAtMost (t : Receiver) : Prop := ∀ n, t.pc = .subSize n → 0 ≤ n.toInt ∧ n.toInt ≤ pageSize

theorem recvCallStep_subtractsAtMost {past left : List Message} {t : Receiver} {call : RecvCall}
    {rest : List RecvCall} (hr : ReceiverOk i m past left t) (hc : t.calls = call :: rest)
    {r : Shm × Receiver} (he : recvCallStep m t call rest = r) : SubtractsAtMost r.2 := by
  subst he
  obtain ⟨msg, left, rfl⟩ := hr.left_eq_cons hc
  obtain ⟨d, hd, hle, hat⟩ := hr.bound msg left rfl
  unfold recvCallStep
  cases e : t.pc
  case find =>
    simp only [hr.find]
    exact fun n h => by cases h
  case mutex =>
    simp only
    split
    · exact fun n h => by rw [e] at h; cases h
    · split <;> exact fun n h => by cases h
  case emptyTail =>
    intro n h
    simp only at h
    split at h <;> cases h
  case storeTail tail =>
    intro n h
    obtain rfl := RecvPc.subSize.inj h
    rw [← hr.size_eq hc] at hle
    rw [toReceive_toInt hd hle]
    omega
  all_goals exact fun n h => by cases h

end

/-! ## Runs -/

/-- What the accounts need to know of the two sides. -/
structure Counting (i : Fin maxChannels) (msgs : List Message) (l : Link) :
    Prop extends LinkInv i msgs l where
  senderCalls : SenderCalls msgs l.sender
  subtracts : SubtractsAtMost l.receiver

/-- The bytes of the pages given back or added, with what is left in the
count. -/
def counted (i : Fin maxChannels) (l : Link) : Nat :=
  (l.shm.ctr.channels i).dataSize.toNat + pageSize * (l.receiver.consumed + l.sender.pc.owes)

/-- The bytes of the pages published, with those not yet subtracted. -/
def due (l : Link) : Nat := pageSize * (l.sender.published + l.receiver.pc.owes)

section

variable {i : Fin maxChannels} {msgs : List Message} {l : Link} (h : Counting i msgs l)
include h

theorem Counting.step (turn : Turn) : Counting i msgs (linkStep l turn) := by
  refine ⟨h.toLinkInv.step turn, ?_, ?_⟩
  · cases turn with
    | receiver => exact h.senderCalls
    | sender now =>
      cases hc : l.sender.calls with
      | nil => simpa only [linkStep, sendStep, hc] using h.senderCalls
      | cons msg rest =>
        simp only [linkStep, sendStep, hc]
        exact sendCallStep_senderCalls h.sender hc h.senderCalls now rfl
  · cases turn with
    | sender now => exact h.subtracts
    | receiver =>
      obtain ⟨past, left, -, hr, -⟩ := h.receiver
      cases hc : l.receiver.calls with
      | nil => simpa only [linkStep, recvStep, hc] using h.subtracts
      | cons call rest =>
        simp only [linkStep, recvStep, hc]
        exact recvCallStep_subtractsAtMost hr hc rfl

/-- A drained channel has no pages waiting: both sides have the same messages
left. -/
theorem Counting.waiting_eq_zero (hd : Drained l) : waiting (l.shm.ctr.channels i) = 0 := by
  obtain ⟨hs, hr, hn⟩ := hd
  obtain ⟨past, left, hsplit, hrecv, hstream⟩ := h.receiver
  have hleft : left = l.sender.calls := by
    rw [h.senderCalls.calls, ← hsplit, hn, hrecv.returned.length_eq, List.drop_left]
  have hsame : recvTodo left l.receiver = sendTodo l.sender := by
    rw [sendTodo, h.senderCalls.fresh hs, ← hleft, recvTodo]
    cases left with
    | nil => rfl
    | cons msg left =>
      obtain ⟨d, hd', -, hat⟩ := hrecv.bound msg left rfl
      rw [hr] at hat
      rw [hd', show d = 0 from hat]
      rfl
  have hlen := congrArg List.length hstream
  rw [hsame, List.length_append, length_waitingPages] at hlen
  omega

/-- A step of the sender keeps the accounts even. -/
theorem Counting.sender_counts
    (hle : (l.shm.ctr.channels i).dataSize.toNat ≤ (l.shm.ctr.channels i).numPage.toInt.toNat * pageSize)
    (now : Int64) :
    ∃ k, counted i (linkStep l (.sender now)) = counted i l + k ∧
    due (linkStep l (.sender now)) = due l + k := by
  cases hc : l.sender.calls with
  | nil => exact ⟨0, by simp only [linkStep, sendStep, hc, Nat.add_zero, and_self]⟩
  | cons msg rest =>
    have hsize := (h.sender.sizes msg (hc ▸ List.mem_cons_self)).1
    have hfits := h.ring.fits
    simp only [linkStep, sendStep, hc, counted, due]
    obtain ⟨ho, hd, hp⟩ | ⟨ho, hd, hp, ho'⟩ := sendCallStep_dataSize h.sender hc now rfl
    · refine ⟨pageSize * (sendCallStep now l.shm l.sender msg rest).2.pc.owes, ?_, ?_⟩
      · rw [hd, ho]
        simp only [pageSize]
        omega
      · rw [hp]
        simp only [pageSize]
        omega
    · refine ⟨0, ?_, by rw [hp, Nat.add_zero]⟩
      rw [hd, ho, ho', UInt64.toNat_add, toSent_toNat, if_pos (.inr hsize), Nat.mod_eq_of_lt]
      · simp only [pageSize]
        omega
      · simp only [dataSectionSize, ivshmemSize, controlSectionSize, pageSize] at hfits hle ⊢
        omega

/-- So does a step of the receiver, but for a subtraction. -/
theorem Counting.receiver_counts :
    (l.receiver.pc.owes = 0 ∧
      ∃ k, counted i (linkStep l .receiver) = counted i l + k ∧ due (linkStep l .receiver) = due l + k) ∨
    ∃ n, l.receiver.pc = .subSize n ∧
      ((linkStep l .receiver).shm.ctr.channels i).dataSize =
      (l.shm.ctr.channels i).dataSize - intToSize n ∧
      due (linkStep l .receiver) + pageSize = due l ∧
      (n.toInt.toNat ≤ (l.shm.ctr.channels i).dataSize.toNat →
        counted i (linkStep l .receiver) + n.toInt.toNat = counted i l) := by
  obtain ⟨past, left, -, hr, -⟩ := h.receiver
  cases hc : l.receiver.calls with
  | nil =>
    refine .inl ⟨?_, 0, ?_⟩
    · rw [hr.idle hc]
      rfl
    · simp only [linkStep, recvStep, hc, Nat.add_zero, and_self]
  | cons call rest =>
    simp only [linkStep, recvStep, hc, counted, due]
    obtain ⟨ho, hd, hp⟩ | ⟨n, hpc, hd, hp, ho'⟩ :=
      recvCallStep_dataSize hr (rfl : recvCallStep l.shm l.receiver call rest = _)
    · refine .inl ⟨ho, pageSize * (recvCallStep l.shm l.receiver call rest).2.pc.owes, ?_, ?_⟩
      · rw [hd, hp]
        simp only [pageSize]
        omega
      · rw [ho]
        simp only [pageSize]
        omega
    · have hn := intToSize_toNat (h.subtracts n hpc).1
      refine .inr ⟨n, hpc, hd, ?_, fun hle => ?_⟩
      · rw [ho', hpc]
        simp only [RecvPc.owes, pageSize]
        omega
      · rw [hd, hp, UInt64.toNat_sub_of_le _ _ (by rw [UInt64.le_iff_toNat_le, hn]; exact hle), hn]
        omega

end

/-- The count is that of the pages published and given back, but for those
that a party has not counted yet. -/
structure Accounts (i : Fin maxChannels) (msgs : List Message) (l : Link) :
    Prop extends Counting i msgs l where
  balance : counted i l = due l

section

variable {i : Fin maxChannels} {msgs : List Message} {l : Link} (h : Accounts i msgs l)
include h

theorem Accounts.dataSize_eq : (l.shm.ctr.channels i).dataSize.toNat + pageSize * l.sender.pc.owes =
    pageSize * (waiting (l.shm.ctr.channels i) + l.receiver.pc.owes) := by
  have hb := h.balance
  rw [counted, due, h.count] at hb
  simp only [pageSize] at hb ⊢
  omega

theorem Accounts.tracks : Tracks i l := by
  have hd := h.dataSize_eq
  refine ⟨?_, fun hdrained => ?_⟩
  · have hlt := h.ring.waiting_lt
    have ho := RecvPc.owes_le l.receiver.pc
    calc (l.shm.ctr.channels i).dataSize.toNat
        ≤ pageSize * (waiting (l.shm.ctr.channels i) + l.receiver.pc.owes) := by omega
      _ ≤ pageSize * (l.shm.ctr.channels i).numPage.toInt.toNat := Nat.mul_le_mul_left _ (by omega)
      _ = _ := Nat.mul_comm _ _
  · rw [h.waiting_eq_zero hdrained, hdrained.1, hdrained.2.1] at hd
    exact UInt64.toNat_inj.mp (Nat.eq_zero_of_add_eq_zero_right hd)

/-- The addition comes first where it is not the only page's. -/
theorem Accounts.page_le (hg : SubtractsPage i l) {n : Int32} (hpc : l.receiver.pc = .subSize n) :
    pageSize ≤ (l.shm.ctr.channels i).dataSize.toNat := by
  have heq := h.dataSize_eq
  simp only [SubtractsPage, hpc] at hg
  rw [hpc] at heq
  obtain h0 | ⟨h1, hadd⟩ := SendPc.owes_cases l.sender.pc
  · simp only [h0, RecvPc.owes, pageSize] at heq ⊢
    omega
  · have hpos : waiting (l.shm.ctr.channels i) ≠ 0 := fun hw => hg.2 hadd
      (UInt32.toNat_inj.mp ((Ring.used_eq_zero h.ring.head_lt h.ring.tail_lt).mp hw))
    simp only [h1, RecvPc.owes, pageSize] at heq ⊢
    omega

end

theorem Accounts.step {i : Fin maxChannels} {msgs : List Message} (l : Link) (turn : Turn)
    (h : Accounts i msgs l) (hg : AddsFirst i l turn) : Accounts i msgs (linkStep l turn) := by
  refine ⟨h.toCounting.step turn, ?_⟩
  have hb := h.balance
  cases turn with
  | sender now =>
    obtain ⟨k, hk, hk'⟩ := h.sender_counts h.tracks.le now
    rw [hk, hk', hb]
  | receiver =>
    obtain ⟨-, k, hk, hk'⟩ | ⟨n, hpc, -, hdue, hcount⟩ := h.receiver_counts
    · rw [hk, hk', hb]
    · have hle := h.page_le hg hpc
      simp only [AddsFirst, SubtractsPage, hpc] at hg
      have := hcount (by omega)
      omega

/-! ## Other runs -/

/-- The count is higher than that of the pages published and not given
back. -/
structure Overcounts (i : Fin maxChannels) (msgs : List Message) (l : Link) :
    Prop extends Counting i msgs l where
  tracks : Tracks i l
  surplus : due l < counted i l

section

variable {i : Fin maxChannels} {msgs : List Message} {l : Link}

/-- A subtraction that leaves the count in range does not wrap it. -/
theorem Counting.le_of_tracks (h : Counting i msgs l) (ht : Tracks i (linkStep l .receiver)) {n : Int32}
    (hpc : l.receiver.pc = .subSize n)
    (hd : ((linkStep l .receiver).shm.ctr.channels i).dataSize =
      (l.shm.ctr.channels i).dataSize - intToSize n) :
    n.toInt.toNat ≤ (l.shm.ctr.channels i).dataSize.toNat := by
  by_contra hlt
  have hfits := (h.step .receiver).ring.fits
  have hle := ht.le
  obtain ⟨h0, hn⟩ := h.subtracts n hpc
  have hn' := intToSize_toNat h0
  rw [hd, UInt64.toNat_sub, hn'] at hle
  simp only [dataSectionSize, ivshmemSize, controlSectionSize, pageSize] at hfits hn hle
  omega

theorem Overcounts.step (l : Link) (turn : Turn) (h : Overcounts i msgs l)
    (ht : Tracks i (linkStep l turn)) :
    Overcounts i msgs (linkStep l turn) := by
  refine ⟨h.toCounting.step turn, ht, ?_⟩
  have ho := h.surplus
  cases turn with
  | sender now =>
    obtain ⟨k, hk, hk'⟩ := h.sender_counts h.tracks.le now
    omega
  | receiver =>
    obtain ⟨-, k, hk, hk'⟩ | ⟨n, hpc, hd, hdue, hcount⟩ := h.receiver_counts
    · omega
    · have := hcount (h.le_of_tracks ht hpc hd)
      have := h.subtracts n hpc
      omega

theorem Overcounts.not_drained (h : Overcounts i msgs l) : ¬ Drained l := fun hd => by
  have ho := h.surplus
  rw [due, counted, h.count, h.waiting_eq_zero hd, h.tracks.drained hd, hd.1, hd.2.1] at ho
  simp only [SendPc.owes, RecvPc.owes, UInt64.toNat_zero, Nat.add_zero, Nat.zero_add, Nat.lt_irrefl] at ho

/-- A subtraction before the addition for the only page wraps the count. -/
theorem Accounts.addsFirst (h : Accounts i msgs l)
    (hn : ∀ n, l.receiver.pc = .subSize n → n.toInt = pageSize)
    (ht : Tracks i (linkStep l .receiver)) : AddsFirst i l .receiver := by
  show SubtractsPage i l
  unfold SubtractsPage
  split
  case h_2 => trivial
  rename_i n hpc
  refine ⟨hn n hpc, fun hadd hempty => ?_⟩
  have hd := h.dataSize_eq
  have hw : waiting (l.shm.ctr.channels i) = 0 :=
    (Ring.used_eq_zero h.ring.head_lt h.ring.tail_lt).mpr (congrArg UInt32.toNat hempty)
  obtain ⟨ho, -⟩ | ⟨n', hpc', hsub, -⟩ := h.receiver_counts
  · rw [hpc] at ho
    cases ho
  · have hle := h.le_of_tracks ht hpc' hsub
    rw [hn n' hpc'] at hle
    simp only [hadd, hpc, hw, SendPc.owes, RecvPc.owes, pageSize] at hd hle
    omega

/-- A step after which the count is in range subtracts a page after its
addition, if anything, or too little. -/
theorem Accounts.addsFirst_or (h : Accounts i msgs l) (turn : Turn) (ht : Tracks i (linkStep l turn)) :
    AddsFirst i l turn ∨ Overcounts i msgs (linkStep l turn) := by
  cases turn with
  | sender now => exact .inl trivial
  | receiver =>
    by_cases hn : ∀ n, l.receiver.pc = .subSize n → n.toInt = pageSize
    · exact .inl (h.addsFirst hn ht)
    · simp only [not_forall] at hn
      obtain ⟨n, hpc, hne⟩ := hn
      refine .inr ⟨h.toCounting.step .receiver, ht, ?_⟩
      have hb := h.balance
      obtain ⟨ho, -⟩ | ⟨n', hpc', hsub, hdue, hcount⟩ := h.receiver_counts
      · rw [hpc] at ho
        cases ho
      · obtain rfl := RecvPc.subSize.inj (hpc.symm.trans hpc')
        have := h.subtracts n hpc
        have := hcount (h.le_of_tracks ht hpc hsub)
        omega

end

/-! ## Messages of whole pages -/

/-- A receiver that has received and still receives whole pages. -/
structure InPages (t : Receiver) : Prop where
  sizes : ∀ call ∈ t.calls, pageSize ∣ call.size.toNat
  received : pageSize ∣ t.dataReceived.toInt.toNat
  subtracts : ∀ n, t.pc = .subSize n → n.toInt = pageSize

theorem recvCallStep_inPages {i : Fin maxChannels} {m : Shm} {past left : List Message} {t : Receiver}
    {call : RecvCall} {rest : List RecvCall} (hr : ReceiverOk i m past left t)
    (hc : t.calls = call :: rest) (hi : InPages t) {r : Shm × Receiver}
    (he : recvCallStep m t call rest = r) : InPages r.2 := by
  subst he
  obtain ⟨msg, left, rfl⟩ := hr.left_eq_cons hc
  obtain ⟨d, hd, hle, hat⟩ := hr.bound msg left rfl
  unfold recvCallStep
  cases e : t.pc
  case find =>
    simp only [hr.find]
    exact ⟨hi.sizes, hi.received, fun n h => by cases h⟩
  case mutex =>
    simp only
    split
    · exact ⟨hi.sizes, hi.received, fun n h => by rw [e] at h; cases h⟩
    · split
      · exact ⟨fun c hm => hi.sizes c (hc ▸ List.mem_cons_of_mem _ hm), ⟨0, rfl⟩, fun n h => by cases h⟩
      · exact ⟨hi.sizes, hi.received, fun n h => by cases h⟩
  case emptyTail =>
    refine ⟨hi.sizes, hi.received, fun n h => ?_⟩
    simp only at h
    split at h <;> cases h
  case storeTail tail =>
    rw [e] at hat
    have hlt := hat.1
    have hsize := hr.size_eq hc
    have hs := hi.sizes call (hc ▸ List.mem_cons_self)
    have hdvd := hi.received
    rw [hd, Int.toNat_natCast] at hdvd
    have hmsg := hr.sizes msg List.mem_cons_self
    rw [← hsize] at hlt hle hmsg
    -- of whole pages, one or more are left
    have hpage : min (call.size.toNat - d) pageSize = pageSize := by
      obtain ⟨k, hk⟩ := Nat.dvd_sub hs hdvd
      rw [hk]
      refine Nat.min_eq_right (Nat.le_mul_of_pos_right _ (Nat.pos_of_ne_zero fun h0 => ?_))
      rw [h0] at hk
      omega
    refine ⟨hi.sizes, ?_, fun n h => ?_⟩
    · show pageSize ∣ (t.dataReceived + toReceive call.size t.dataReceived).toInt.toNat
      rw [received_add_toInt hd hle hmsg, hpage, Int.toNat_natCast]
      exact Nat.dvd_add hdvd (Nat.dvd_refl _)
    · obtain rfl := RecvPc.subSize.inj h
      rw [toReceive_toInt hd hle, hpage]
  all_goals exact ⟨hi.sizes, hi.received, fun n h => by cases h⟩

section

variable {i : Fin maxChannels} {msgs : List Message}

theorem inPages_step (l : Link) (turn : Turn) (h : LinkInv i msgs l) (hi : InPages l.receiver) :
    InPages (linkStep l turn).receiver := by
  cases turn with
  | sender now => exact hi
  | receiver =>
    obtain ⟨past, left, -, hr, -⟩ := h.receiver
    cases hc : l.receiver.calls with
    | nil => simpa only [linkStep, recvStep, hc] using hi
    | cons call rest =>
      simp only [linkStep, recvStep, hc]
      exact recvCallStep_inPages hr hc hi rfl

end

/-- A sender and a receiver on one channel that starts empty, with messages of
two pages and more: in every run in which each subtraction is of a page whose
addition came first, `data_size` follows the pages in the channel; and in no
other, if the messages are of whole pages or all are received in the end. -/
theorem dataSize_tracks (m : Shm) (i : Fin maxChannels) (sk rk : ChannelKey) (msgs : List Message)
    (calls : List RecvCall) (hmutex : m.ctr.controlMutex = 0) (hs : findChannel m.ctr sk = some i)
    (hr : findChannel m.ctr rk = some i) (hch : ChannelOk (m.ctr.channels i))
    (hend : endOf (m.ctr.channels i) ≤ dataSectionSize)
    (hempty : (m.ctr.channels i).head = (m.ctr.channels i).tail)
    (h2 : 2 ≤ (m.ctr.channels i).numPage.toInt) (hzero : (m.ctr.channels i).dataSize = 0)
    (hsizes : ∀ msg ∈ msgs, 2 * pageSize ≤ msg.size.toNat ∧ msg.size.toNat < 2 ^ 31)
    (hcalls : calls.map (·.size) = msgs.map (·.size)) (turns : List Turn) :
    (Guarded linkStep (AddsFirst i) ⟨m, .start sk msgs, .start rk calls⟩ turns →
      ∀ turns', turns' <+: turns → Tracks i (run linkStep ⟨m, .start sk msgs, .start rk calls⟩ turns')) ∧
    ((∀ msg ∈ msgs, pageSize ∣ msg.size.toNat) ∨
        Drained (run linkStep ⟨m, .start sk msgs, .start rk calls⟩ turns) →
      (∀ turns', turns' <+: turns → Tracks i (run linkStep ⟨m, .start sk msgs, .start rk calls⟩ turns')) →
      Guarded linkStep (AddsFirst i) ⟨m, .start sk msgs, .start rk calls⟩ turns) := by
  have start : Accounts i msgs ⟨m, .start sk msgs, .start rk calls⟩ := by
    refine ⟨⟨linkInv_start hmutex hs hr hch hend hempty h2 hsizes hcalls, ⟨rfl, fun _ => rfl⟩,
      fun n h => by cases h⟩, ?_⟩
    rw [counted, hzero]
    rfl
  refine ⟨fun h turns' hpre => ?_, fun hcase htracks => ?_⟩
  · exact ((h.of_prefix hpre).run_inv Accounts.step start).tracks
  obtain hpages | hdrained := hcase
  · have hin : InPages (Receiver.start rk calls) := by
      refine ⟨fun call hm => ?_, ⟨0, rfl⟩, fun n h => by cases h⟩
      have hmem : call.size ∈ calls.map (·.size) := List.mem_map_of_mem hm
      rw [hcalls] at hmem
      obtain ⟨msg, hm', he⟩ := List.mem_map.mp hmem
      rw [← he]
      exact hpages msg hm'
    refine (guarded_iff (I := fun l => Accounts i msgs l ∧ InPages l.receiver) (fun l turn hi hg => ?_)
      (fun l hi => hi.1.tracks) (fun l turn hi ht => ?_) ⟨start, hin⟩).mpr htracks
    · exact ⟨hi.1.step l turn hg, inPages_step l turn hi.1.toLinkInv hi.2⟩
    · cases turn with
      | sender now => trivial
      | receiver => exact hi.1.addsFirst hi.2.subtracts ht
  · exact (guarded_or Accounts.step (fun l turn hi ht => hi.addsFirst_or turn ht) Overcounts.step start
      htracks).resolve_right fun h => h.not_drained hdrained

/-- A message of two pages. -/
def twoPages : Message := ⟨fun _ => 7, 8192⟩

/-- A page sent and received, twice. -/
def pageByPage : List Turn :=
  List.replicate 14 (.sender 0) ++ List.replicate 12 .receiver ++ List.replicate 14 (.sender 0) ++
    List.replicate 12 .receiver

theorem dataSize_tracks_two_pages :
    Tracks 0 (run linkStep ⟨oneChannel, .start ⟨1, 5, 2⟩ [twoPages],
      .start ⟨1, 0, 2⟩ [⟨fun _ => 0, 8192⟩]⟩ pageByPage) :=
  have hinv : AllocInv oneChannel.ctr := allocInv_afterOps _ _
  have hact : oneChannel.ctr.Active 0 := by decide +kernel
  (dataSize_tracks oneChannel 0 ⟨1, 5, 2⟩ ⟨1, 0, 2⟩ [twoPages] [⟨fun _ => 0, 8192⟩] (by decide +kernel)
    (by decide +kernel) (by decide +kernel) (hinv.chan 0 hact) (hinv.endOf_le hact) (by decide +kernel)
    (by decide +kernel) (by decide +kernel) (fun msg hm => by rw [List.mem_singleton.mp hm]; decide) rfl
    pageByPage).1 (by decide +kernel) _ List.prefix_rfl

/-- The receiver subtracts the first page before it is added; and of a message
of two pages and a byte three pages are added, and one byte of the third is
subtracted. -/
theorem not_tracks :
    (¬ Tracks 0 (run linkStep ⟨oneChannel, .start ⟨1, 5, 2⟩ [twoPages],
      .start ⟨1, 0, 2⟩ [⟨fun _ => 0, 8192⟩]⟩
      (List.replicate 12 (.sender 0) ++ List.replicate 11 .receiver))) ∧
    ¬ Tracks 0 (run linkStep
      ⟨oneChannel, .start ⟨1, 5, 2⟩ [overTwoPages], .start ⟨1, 0, 2⟩ [⟨fun _ => 0, 8193⟩]⟩
      (pageByPage ++ List.replicate 14 (.sender 0) ++ List.replicate 12 .receiver)) := by
  refine ⟨fun h => ?_, fun h => ?_⟩
  · exact absurd h.le (by decide +kernel)
  · exact absurd (h.drained (by decide +kernel)) (by decide +kernel)

end Ivshmem
