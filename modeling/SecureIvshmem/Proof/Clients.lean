import SecureIvshmem.Impl.Parties
import SecureIvshmem.Proof.Alloc
import SecureIvshmem.Proof.Channel
import SecureIvshmem.Proof.Framing

/-!
# What a step of a client changes

A client in its turn, past the test of `control_mutex` and before its store
to `head` or `tail` (`inTurn`), knows where its page is (`ClientPlaced`). Its
steps stay on its own channel: `Within` says what they leave alone, and
`clientStep_within` that every step of a client does.
-/

namespace Ivshmem

open SharedMem SharedMem.Word

/-- Past the test of `control_mutex`, before the store to `head`. -/
def SendPc.inTurn : SendPc → Bool
  | .request _ | .mutex | .addSize | .stamp => false
  | _ => true

/-- Past the test of `control_mutex`, before the store to `tail`. -/
def RecvPc.inTurn : RecvPc → Bool
  | .find | .mutex | .subSize _ => false
  | _ => true

namespace Client

/-- The key of a client. -/
def key : Client → ChannelKey
  | .sender t => t.key
  | .receiver t => t.key

/-- Past the test of `control_mutex`, before the store to an index. -/
def inTurn : Client → Bool
  | .sender t => t.pc.inTurn
  | .receiver t => t.pc.inTurn

/-- The channel of a client in its turn. -/
def chan : Client → Fin maxChannels
  | .sender t => t.chan
  | .receiver t => t.chan

/-- Where a copy that comes next starts in the data section, and its
length. -/
def copyRange : Client → Option (Int × Nat)
  | .sender t =>
    match t.pc, t.calls with
    | .copy off head, msg :: _ => some (pageOffset off head, (sentBytes msg t.dataSent).length)
    | _, _ => none
  | .receiver t =>
    match t.pc, t.calls with
    | .copy off tail, call :: _ =>
      some (pageOffset off tail, (intToSize (toReceive call.size t.dataReceived)).toNat)
    | _, _ => none

end Client

/-! ## What a client knows -/

/-- What the registers of a sender on `ch` hold. -/
def SendPc.Placed (ch : Channel) : SendPc → Prop
  | .copyHead off => off = ch.bufOffset
  | .copy off head => off = ch.bufOffset ∧ (head.toNat : Int) < ch.numPage.toInt
  | .storeHead head => (head.toNat : Int) < ch.numPage.toInt
  | _ => True

/-- What the registers of a receiver on `ch` hold. -/
def RecvPc.Placed (ch : Channel) : RecvPc → Prop
  | .copyTail off => off = ch.bufOffset
  | .copy off tail => off = ch.bufOffset ∧ (tail.toNat : Int) < ch.numPage.toInt
  | .storeTail tail => (tail.toNat : Int) < ch.numPage.toInt
  | _ => True

/-- A sender works on the channel that its key finds. -/
structure SenderPlaced (m : Shm) (t : Sender) : Prop where
  chan : (∀ pc, t.pc ≠ .request pc) → findChannel m.ctr t.key = some t.chan
  asks : ∀ pc, t.pc = .request pc → pc = .find ∨ findChannel m.ctr t.key = none ∧ ∀ p, pc ≠ .returned p
  pc : t.pc.Placed (m.ctr.channels t.chan)

/-- A receiver works on the channel that its key finds. -/
structure ReceiverPlaced (m : Shm) (t : Receiver) : Prop where
  chan : t.pc ≠ .find → findChannel m.ctr t.key = some t.chan
  pc : t.pc.Placed (m.ctr.channels t.chan)

/-- A client works on the channel that its key finds. -/
def ClientPlaced (m : Shm) : Client → Prop
  | .sender t => SenderPlaced m t
  | .receiver t => ReceiverPlaced m t

/-! ## What a step leaves alone -/

/-- A step on channel `i`, which writes to the data section and moves an index
only if `turn`. -/
structure Within (i : Fin maxChannels) (turn : Bool) (m m' : Shm) : Prop where
  free : m'.ctr.freeStartOffset = m.ctr.freeStartOffset
  active : m'.ctr.numActiveChannels = m.ctr.numActiveChannels
  mutex : m'.ctr.controlMutex = m.ctr.controlMutex
  key : ∀ j, (m'.ctr.channels j).key = (m.ctr.channels j).key
  bufOffset : ∀ j, (m'.ctr.channels j).bufOffset = (m.ctr.channels j).bufOffset
  bufSize : ∀ j, (m'.ctr.channels j).bufSize = (m.ctr.channels j).bufSize
  numPage : ∀ j, (m'.ctr.channels j).numPage = (m.ctr.channels j).numPage
  others : ∀ j, j ≠ i → m'.ctr.channels j = m.ctr.channels j
  head : (m'.ctr.channels i).head = (m.ctr.channels i).head ∨
    turn = true ∧ ((m'.ctr.channels i).head.toNat : Int) < (m.ctr.channels i).numPage.toInt
  tail : (m'.ctr.channels i).tail = (m.ctr.channels i).tail ∨
    turn = true ∧ ((m'.ctr.channels i).tail.toNat : Int) < (m.ctr.channels i).numPage.toInt
  data : ∀ x : Int, (turn = true → x < (m.ctr.channels i).bufOffset.toNat ∨
    endOf (m.ctr.channels i) ≤ x) →
    m'.data x = m.data x

section

variable {i : Fin maxChannels} {turn : Bool} {m m' : Shm}

/-- A step that changes nothing but the candidate. -/
theorem within_of_eq (hf : m'.ctr.freeStartOffset = m.ctr.freeStartOffset)
    (ha : m'.ctr.numActiveChannels = m.ctr.numActiveChannels)
    (hm : m'.ctr.controlMutex = m.ctr.controlMutex) (hc : m'.ctr.channels = m.ctr.channels)
    (hd : m'.data = m.data) : Within i turn m m' :=
  ⟨hf, ha, hm, fun _ => by rw [hc], fun _ => by rw [hc], fun _ => by rw [hc], fun _ => by rw [hc],
    fun _ _ => by rw [hc], .inl (by rw [hc]), .inl (by rw [hc]), fun _ _ => by rw [hd]⟩

theorem within_modify {f : Channel → Channel} (hk : (f (m.ctr.channels i)).key = (m.ctr.channels i).key)
    (ho : (f (m.ctr.channels i)).bufOffset = (m.ctr.channels i).bufOffset)
    (hs : (f (m.ctr.channels i)).bufSize = (m.ctr.channels i).bufSize)
    (hn : (f (m.ctr.channels i)).numPage = (m.ctr.channels i).numPage)
    (hh : (f (m.ctr.channels i)).head = (m.ctr.channels i).head ∨
      turn = true ∧ ((f (m.ctr.channels i)).head.toNat : Int) < (m.ctr.channels i).numPage.toInt)
    (ht : (f (m.ctr.channels i)).tail = (m.ctr.channels i).tail ∨
      turn = true ∧ ((f (m.ctr.channels i)).tail.toNat : Int) < (m.ctr.channels i).numPage.toInt) :
    Within i turn m { m with ctr := m.ctr.modify i f } := by
  have hne : ∀ j, j ≠ i → (m.ctr.modify i f).channels j = m.ctr.channels j := fun j hj =>
    ControlSection.modify_channels_of_ne _ _ _ hj
  have field : ∀ {β : Type} (g : Channel → β), g (f (m.ctr.channels i)) = g (m.ctr.channels i) →
      ∀ j, g ((m.ctr.modify i f).channels j) = g (m.ctr.channels j) := fun g hg j => by
    by_cases hj : j = i
    · rw [hj, ControlSection.modify_channels_self, hg]
    · rw [hne j hj]
  exact ⟨rfl, rfl, rfl, field _ hk, field _ ho, field _ hs, field _ hn, hne,
    by rwa [ControlSection.modify_channels_self], by rwa [ControlSection.modify_channels_self], fun _ _ => rfl⟩

/-- A page of a channel lies in its region. -/
theorem pageOffset_within {ch : Channel} {j : UInt32} (hok : ChannelOk ch)
    (hend : endOf ch ≤ dataSectionSize) (hj : (j.toNat : Int) < ch.numPage.toInt) :
    (ch.bufOffset.toNat : Int) ≤ pageOffset ch.bufOffset j ∧
    pageOffset ch.bufOffset j + pageSize ≤ endOf ch := by
  have hs := hok.bufSize_eq
  simp only [endOf, dataSectionSize, ivshmemSize, controlSectionSize, pageSize] at hs hend ⊢
  rw [pageOffset_eq (by simp only [pageSize]; omega)]
  simp only [pageSize]
  omega

/-- A copy into a page of the channel. -/
theorem within_store {j : UInt32} {bs : List UInt8} (hok : ChannelOk (m.ctr.channels i))
    (hend : endOf (m.ctr.channels i) ≤ dataSectionSize)
    (hj : (j.toNat : Int) < (m.ctr.channels i).numPage.toInt) (hbs : bs.length ≤ pageSize) :
    Within i true m { m with data := store m.data (pageOffset (m.ctr.channels i).bufOffset j) bs } := by
  obtain ⟨hlo, hhi⟩ := pageOffset_within hok hend hj
  exact ⟨rfl, rfl, rfl, fun _ => rfl, fun _ => rfl, fun _ => rfl, fun _ => rfl, fun _ _ => rfl,
    .inl rfl, .inl rfl, fun x hx => store_of_outside (by have := hx rfl; omega)⟩

theorem Within.find (h : Within i turn m m') (key : ChannelKey) :
    findChannel m'.ctr key = findChannel m.ctr key :=
  findChannel_congr h.active (fun j _ => h.key j) key

theorem Within.endOf_eq (h : Within i turn m m') (j : Fin maxChannels) :
    endOf (m'.ctr.channels j) = endOf (m.ctr.channels j) := by
  rw [endOf, endOf, h.bufOffset, h.bufSize]

theorem Within.chan (h : Within i turn m m') {j : Fin maxChannels} (hok : ChannelOk (m.ctr.channels j)) :
    ChannelOk (m'.ctr.channels j) := by
  by_cases hj : j = i
  · subst hj
    refine ⟨by rw [h.numPage]; exact hok.numPage_pos,
      by rw [h.numPage, h.bufSize]; exact hok.bufSize_eq, ?_, ?_⟩
    · obtain e | ⟨-, hlt⟩ := h.head
      · rw [e, h.numPage]; exact hok.head_lt
      · rw [h.numPage]; exact hlt
    · obtain e | ⟨-, hlt⟩ := h.tail
      · rw [e, h.numPage]; exact hok.tail_lt
      · rw [h.numPage]; exact hlt
  · rw [h.others j hj]; exact hok

theorem Within.alloc (h : Within i turn m m') (ha : AllocInv m.ctr) : AllocInv m'.ctr := by
  have hfr : ∀ k, frontier m'.ctr k = frontier m.ctr k := fun k => frontier_congr fun j _ => h.endOf_eq j
  have hact : ∀ j, m'.ctr.Active j → m.ctr.Active j := fun j hj => by
    simpa only [ControlSection.Active, h.active] using hj
  refine ⟨h.active ▸ ha.nonneg, h.active ▸ ha.le_max, fun j hj => ?_, ?_, h.free ▸ ha.free_le,
    fun j hj => ?_⟩
  · rw [h.bufOffset, hfr]; exact ha.offset j (hact j hj)
  · rw [h.free, h.active, hfr]; exact ha.free
  · exact h.chan (ha.chan j (hact j hj))

theorem SendPc.Placed.congr {ch ch' : Channel} {pc : SendPc} (h : pc.Placed ch)
    (ho : ch'.bufOffset = ch.bufOffset) (hn : ch'.numPage = ch.numPage) : pc.Placed ch' := by
  cases pc <;> simp only [SendPc.Placed, ho, hn] at h ⊢ <;> exact h

theorem RecvPc.Placed.congr {ch ch' : Channel} {pc : RecvPc} (h : pc.Placed ch)
    (ho : ch'.bufOffset = ch.bufOffset) (hn : ch'.numPage = ch.numPage) : pc.Placed ch' := by
  cases pc <;> simp only [RecvPc.Placed, ho, hn] at h ⊢ <;> exact h

/-- What the other clients know stays true. -/
theorem Within.placed {t : Client} (h : Within i turn m m') (ht : ClientPlaced m t) :
    ClientPlaced m' t := by
  cases t with
  | sender t =>
    exact ⟨fun hne => by rw [h.find]; exact ht.chan hne, fun pc e => by rw [h.find]; exact ht.asks pc e,
      ht.pc.congr (h.bufOffset _) (h.numPage _)⟩
  | receiver t =>
    exact ⟨fun hne => by rw [h.find]; exact ht.chan hne, ht.pc.congr (h.bufOffset _) (h.numPage _)⟩

end

/-! ## Steps -/

section

variable {m : Shm}

/-- A sender that is told its channel. -/
theorem SenderPlaced.found {t : Sender} {i : Fin maxChannels} (hf : findChannel m.ctr t.key = some i) :
    SenderPlaced m { t with pc := .mutex, chan := i } :=
  ⟨fun _ => hf, fun _ e => (by cases e), trivial⟩

theorem SenderPlaced.asking {t : Sender} {pc : RequestPc}
    (hpc : pc = .find ∨ findChannel m.ctr t.key = none ∧ ∀ p, pc ≠ .returned p)
    (he : t.pc = .request pc) :
    SenderPlaced m t :=
  ⟨fun hne => absurd he (hne pc), fun pc' e => by rw [he] at e; cases e; exact hpc, by rw [he]; trivial⟩

/-- A step of a request, which is on no channel yet. -/
theorem sendCallStep_request {t : Sender} {pc : RequestPc} (hp : SenderPlaced m t)
    (hpc : t.pc = .request pc) (now : Int64) (msg : Message) (rest : List Message) (j : Fin maxChannels) :
    Within j false m (sendCallStep now m t msg rest).1 ∧
      SenderPlaced (sendCallStep now m t msg rest).1 (sendCallStep now m t msg rest).2 := by
  have hasks := hp.asks pc hpc
  have same : Within j false m m := within_of_eq rfl rfl rfl rfl rfl
  have goto : ∀ {m' : Shm} (pc' : RequestPc), Within j false m m' →
      findChannel m.ctr t.key = none ∧ (∀ p, pc' ≠ .returned p) →
      Within j false m m' ∧ SenderPlaced m' { t with pc := .request pc' } := fun pc' hw hn =>
    ⟨hw, .asking (.inr ⟨by rw [hw.find]; exact hn.1, hn.2⟩) rfl⟩
  simp only [sendCallStep, hpc]
  cases pc with
  | find =>
    cases hf : findChannel m.ctr t.key with
    | some i => simp only [requestStep, hf]; exact ⟨same, .found hf⟩
    | none => simp only [requestStep, hf]; exact goto .raise same ⟨hf, by simp⟩
  | raise | writeSenderVm | writeSenderPid | writeReceiverVm =>
    obtain hbad | ⟨hn, -⟩ := hasks
    · cases hbad
    · exact goto _ (within_of_eq rfl rfl rfl rfl rfl) ⟨hn, by simp [requestStep]⟩
  | poll =>
    obtain hbad | ⟨hn, -⟩ := hasks
    · cases hbad
    · cases hflag : m.ctr.hasChannelCandidate <;>
        simp only [requestStep, hflag, ↓reduceIte, Bool.false_eq_true]
      · exact goto .findAgain same ⟨hn, by simp⟩
      · exact goto .poll same ⟨hn, by simp⟩
  | findAgain =>
    obtain hbad | ⟨hn, -⟩ := hasks
    · cases hbad
    · simp only [requestStep, hn]
      exact ⟨same, .asking (.inl rfl) rfl⟩
  | returned p =>
    obtain hbad | ⟨-, hne⟩ := hasks
    · cases hbad
    · exact absurd rfl (hne p)

/-- A step of a call of `ivshmem_send_buffer`. -/
theorem sendCallStep_within {t : Sender} (hp : SenderPlaced m t)
    (hok : t.pc.inTurn = true →
      ChannelOk (m.ctr.channels t.chan) ∧ endOf (m.ctr.channels t.chan) ≤ dataSectionSize)
    {j : Fin maxChannels} (hj : ∀ c, findChannel m.ctr t.key = some c → c = j)
    (now : Int64) (msg : Message) (rest : List Message) :
    Within j t.pc.inTurn m (sendCallStep now m t msg rest).1 ∧
      SenderPlaced (sendCallStep now m t msg rest).1 (sendCallStep now m t msg rest).2 := by
  cases e : t.pc
  case request pc => exact sendCallStep_request hp e now msg rest j
  all_goals
    have hne : ∀ pc, t.pc ≠ .request pc := by simp [e]
    obtain rfl := hj _ (hp.chan hne)
    have hpl := hp.pc
    rw [e] at hok hpl
    have same : ∀ turn, Within t.chan turn m m := fun _ => within_of_eq rfl rfl rfl rfl rfl
    -- a step to a statement of the call on the same channel
    have goto : ∀ {turn m' t'}, Within t.chan turn m m' → t'.key = t.key → t'.chan = t.chan →
        (∀ pc, t'.pc ≠ .request pc) → t'.pc.Placed (m'.ctr.channels t.chan) →
        Within t.chan turn m m' ∧ SenderPlaced m' t' := fun hw hk hch hne' hpl =>
      ⟨hw, fun _ => by rw [hw.find, hk, hch]; exact hp.chan hne, fun pc e => absurd e (hne' pc),
        hch ▸ hpl⟩
    simp only [sendCallStep, e]
  case mutex =>
    split
    · exact goto (same _) rfl rfl hne (by rw [e]; trivial)
    · split
      · exact ⟨same _, .asking (.inl rfl) rfl⟩
      · exact goto (same _) rfl rfl (by simp) trivial
  case fullTail head => split <;> exact goto (same _) rfl rfl (by simp) trivial
  case lastNumPage head => split <;> exact goto (same _) rfl rfl (by simp) trivial
  case lastTail => split <;> exact goto (same _) rfl rfl (by simp) trivial
  case copyOffset => exact goto (same _) rfl rfl (by simp) rfl
  case copyHead off => exact goto (same _) rfl rfl (by simp) ⟨hpl, (hok rfl).1.head_lt⟩
  case copy off head =>
    obtain ⟨rfl, hlt⟩ := hpl
    refine goto (within_store (hok rfl).1 (hok rfl).2 hlt ?_) rfl rfl (by simp) trivial
    rw [sentBytes, length_bytesAt]
    exact toSent_toNat_le msg.size
  case nextNumPage head => exact goto (same _) rfl rfl (by simp) (advance_lt (hok rfl).1.numPage_pos _)
  case storeHead head =>
    exact goto (within_modify rfl rfl rfl rfl (.inr ⟨rfl, hpl⟩) (.inl rfl)) rfl rfl (by simp) trivial
  case addSize | stamp =>
    exact goto (within_modify rfl rfl rfl rfl (.inl rfl) (.inl rfl)) rfl rfl (by simp) trivial
  all_goals exact goto (same _) rfl rfl (by simp) trivial

/-- A step of a call of `ivshmem_recv_buffer`. -/
theorem recvCallStep_within {t : Receiver} (hp : ReceiverPlaced m t)
    (hok : t.pc.inTurn = true →
      ChannelOk (m.ctr.channels t.chan) ∧ endOf (m.ctr.channels t.chan) ≤ dataSectionSize)
    {j : Fin maxChannels} (hj : ∀ c, findChannel m.ctr t.key = some c → c = j)
    (call : RecvCall) (rest : List RecvCall) :
    Within j t.pc.inTurn m (recvCallStep m t call rest).1 ∧
      ReceiverPlaced (recvCallStep m t call rest).1 (recvCallStep m t call rest).2 := by
  have same : ∀ turn, Within j turn m m := fun _ => within_of_eq rfl rfl rfl rfl rfl
  have hpl := hp.pc
  cases e : t.pc
  case find =>
    simp only [recvCallStep, e]
    cases hf : findChannel m.ctr t.key with
    | some i => exact ⟨same _, fun _ => hf, trivial⟩
    | none => exact ⟨same _, fun hne => absurd rfl hne, trivial⟩
  all_goals
    have hne : t.pc ≠ .find := by simp [e]
    obtain rfl := hj _ (hp.chan hne)
    rw [e] at hok hpl
    -- a step to a statement of the call on the same channel
    have goto : ∀ {turn m' t'}, Within t.chan turn m m' → t'.key = t.key → t'.chan = t.chan →
        t'.pc.Placed (m'.ctr.channels t.chan) →
        Within t.chan turn m m' ∧ ReceiverPlaced m' t' := fun hw hk hch hpl =>
      ⟨hw, fun _ => by rw [hw.find, hk, hch]; exact hp.chan hne, hch ▸ hpl⟩
    simp only [recvCallStep, e]
  case mutex =>
    split
    · exact goto (same _) rfl rfl (by rw [e]; trivial)
    · split <;> exact goto (same _) rfl rfl trivial
  case emptyTail head => split <;> exact goto (same _) rfl rfl trivial
  case copyOffset => exact goto (same _) rfl rfl rfl
  case copyTail off => exact goto (same _) rfl rfl ⟨hpl, (hok rfl).1.tail_lt⟩
  case nextNumPage tail => exact goto (same _) rfl rfl (advance_lt (hok rfl).1.numPage_pos _)
  case storeTail tail =>
    exact goto (within_modify rfl rfl rfl rfl (.inl rfl) (.inr ⟨rfl, hpl⟩)) rfl rfl trivial
  case subSize n => exact goto (within_modify rfl rfl rfl rfl (.inl rfl) (.inl rfl)) rfl rfl trivial
  all_goals exact goto (same _) rfl rfl trivial

/-- A step of a client whose channel, if it is in its turn, is as the
allocator leaves it. It is on the channel that its key finds, and otherwise on
none. -/
theorem clientStep_within {t : Client} (hp : ClientPlaced m t)
    (hok : t.inTurn = true →
      ChannelOk (m.ctr.channels t.chan) ∧ endOf (m.ctr.channels t.chan) ≤ dataSectionSize)
    {j : Fin maxChannels} (hj : ∀ c, findChannel m.ctr t.key = some c → c = j) (now : Int64) :
    Within j t.inTurn m (clientStep now m t).1 ∧
    ClientPlaced (clientStep now m t).1 (clientStep now m t).2 := by
  cases t with
  | sender t =>
    cases hc : t.calls with
    | nil => simp only [clientStep, sendStep, hc]; exact ⟨within_of_eq rfl rfl rfl rfl rfl, hp⟩
    | cons msg rest =>
      simp only [clientStep, sendStep, hc]
      exact sendCallStep_within hp hok hj now msg rest
  | receiver t =>
    cases hc : t.calls with
    | nil => simp only [clientStep, recvStep, hc]; exact ⟨within_of_eq rfl rfl rfl rfl rfl, hp⟩
    | cons call rest =>
      simp only [clientStep, recvStep, hc]
      exact recvCallStep_within hp hok hj call rest

/-- A step of a client leaves the channels alone that its key does not
find. -/
theorem clientStep_elsewhere {t : Client} (hp : ClientPlaced m t)
    (hok : t.inTurn = true →
      ChannelOk (m.ctr.channels t.chan) ∧ endOf (m.ctr.channels t.chan) ≤ dataSectionSize)
    {c : Fin maxChannels} (hc : findChannel m.ctr t.key ≠ some c) (now : Int64) :
    (clientStep now m t).1.ctr.channels c = m.ctr.channels c := by
  cases hf : findChannel m.ctr t.key with
  | some j =>
    have hw :=
      (clientStep_within (j := j) hp hok (fun d hd => by
        rw [hf] at hd; exact (Option.some.inj hd).symm) now).1
    exact hw.others c fun e => hc (e ▸ hf)
  | none =>
    have hw := fun j => (clientStep_within (j := j) hp hok (fun d hd => by rw [hf] at hd; cases hd) now).1
    have hne : ∀ d : Fin maxChannels, d ≠ d + 1 := by decide
    exact (hw (c + 1)).others c (hne c)

end

end Ivshmem
