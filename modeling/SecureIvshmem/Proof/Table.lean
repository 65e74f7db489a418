import SecureIvshmem.Proof.Alloc

/-!
# The channel table over time

An operation leaves the entries of the table alone, adds one after the active
ones, or rebuilds the table with even shares (`TableStep`,
`AllocInv.tableStep`). None of the three changes the id or the key of an
active slot (`TableStep.binds`), and a lookup is answered by the first slot
that matches, so what it finds it always finds again (`binding_stable`).
-/

namespace Ivshmem

open SharedMem SharedMem.Word

/-- An entry that is the same channel in the same place. -/
structure SameEntry (ch ch' : Channel) : Prop where
  id : ch'.id = ch.id
  key : ch'.key = ch.key
  bufOffset : ch'.bufOffset = ch.bufOffset
  bufSize : ch'.bufSize = ch.bufSize

/-- What an operation does to the table. -/
inductive TableStep (c c' : ControlSection) : Prop
  | kept (count : c'.numActiveChannels = c.numActiveChannels)
  (lastId : c'.lastChannelId = c.lastChannelId)
    (free : c'.freeStartOffset = c.freeStartOffset)
    (entry : ∀ i, SameEntry (c.channels i) (c'.channels i))
  | added (i : Fin maxChannels) (key : ChannelKey) (flag : Bool) (mutex : UInt8)
    (slot : c.numActiveChannels.toInt = i.val)
    (eq : c' = { created c i key with hasChannelCandidate := flag, controlMutex := mutex })
  | rebuilt (pos : 0 < c.numActiveChannels.toInt) (eq : c' = rebalanced c)

section

variable {c c' : ControlSection}

/-- The flags and the candidate are no part of the table. -/
theorem TableStep.of_channels (hn : c'.numActiveChannels = c.numActiveChannels)
    (hl : c'.lastChannelId = c.lastChannelId) (hf : c'.freeStartOffset = c.freeStartOffset)
    (hc : c'.channels = c.channels) : TableStep c c' :=
  .kept hn hl hf fun i => by rw [hc]; exact ⟨rfl, rfl, rfl, rfl⟩

theorem TableStep.modify (i : Fin maxChannels) {f : Channel → Channel}
    (hf : SameEntry (c.channels i) (f (c.channels i))) : TableStep c (c.modify i f) := by
  refine .kept rfl rfl rfl fun j => ?_
  by_cases hj : j = i
  · rw [hj, ControlSection.modify_channels_self]
    exact hf
  · rw [ControlSection.modify_channels_of_ne c i f hj]
    exact ⟨rfl, rfl, rfl, rfl⟩

end

theorem sendIteration_tableStep (now : Int64) (i : Fin maxChannels) (msg : Message)
    (dataSent : UInt64) (m : Shm) :
    TableStep m.ctr (sendIteration now i msg dataSent m).1.ctr := by
  have same : TableStep m.ctr m.ctr := .of_channels rfl rfl rfl rfl
  have hp : TableStep m.ctr (publishPage now i msg dataSent m).ctr := by
    simp only [publishPage]
    apply TableStep.modify
    exact ⟨rfl, rfl, rfl, rfl⟩
  unfold sendIteration
  repeat' split
  all_goals assumption

theorem recvIteration_tableStep (i : Fin maxChannels) (size : UInt64) (buffer : Mem UInt8)
    (dataReceived : Int32) (m : Shm) :
    TableStep m.ctr (recvIteration i size buffer dataReceived m).1.ctr := by
  have same : TableStep m.ctr m.ctr := .of_channels rfl rfl rfl rfl
  have hp : ∀ n, TableStep m.ctr (consumePage i n m).ctr := fun n => by
    simp only [consumePage]
    apply TableStep.modify
    exact ⟨rfl, rfl, rfl, rfl⟩
  simp only [recvIteration]
  repeat' split
  all_goals first | exact same | exact hp _

/-- What an operation does to the table, wherever the allocation invariant
holds. -/
theorem AllocInv.tableStep {m : Shm} (h : AllocInv m.ctr) (op : Op) :
    TableStep m.ctr (Op.apply m op).ctr := by
  have same : TableStep m.ctr m.ctr := .of_channels rfl rfl rfl rfl
  unfold Op.apply
  cases op with
  | request key => exact .of_channels rfl rfl rfl rfl
  | trustedControl =>
    obtain ⟨-, e⟩ | ⟨-, e, -⟩ | ⟨-, i, hi, -, e⟩ := trustedControl_cases h.nonneg
    all_goals simp only [Op.exec, e, Except.map, Shm.setCtr_ctr]
    · exact same
    · exact .of_channels rfl rfl rfl rfl
    · exact .added i _ _ _ hi rfl
  | createChannel key =>
    obtain ⟨e, -⟩ | ⟨i, hi, -, e⟩ := createChannel_cases h.nonneg key
    all_goals simp only [Op.exec, e, Except.map, Shm.setCtr_ctr]
    · exact same
    · exact .added i key _ _ hi rfl
  | findOrCreateChannel key =>
    obtain ⟨i, -, e⟩ | ⟨-, -, e⟩ | ⟨-, i, hi, -, e⟩ := findOrCreateChannel_cases h.nonneg key
    all_goals simp only [Op.exec, e, Except.map, Shm.setCtr_ctr]
    · exact same
    · exact same
    · exact .added i key _ _ hi rfl
  | trustedRebalancing malloc =>
    obtain ⟨-, e⟩ | ⟨-, -, e⟩ | ⟨-, -, -, e⟩ | ⟨h1, -, -, e⟩ := trustedRebalancing_cases h.le_max malloc
    all_goals simp only [Op.exec, e, Except.map, Shm.setCtr_ctr]
    · exact same
    · exact .of_channels rfl rfl rfl rfl
    · exact .of_channels rfl rfl rfl rfl
    · exact .rebuilt h1 rfl
  | advanceHead i =>
    simp only [Op.exec]
    split
    · rw [Shm.setCtr_ctr]
      apply TableStep.modify
      exact ⟨rfl, rfl, rfl, rfl⟩
    · exact same
  | advanceTail i =>
    simp only [Op.exec]
    split
    · rw [Shm.setCtr_ctr]
      apply TableStep.modify
      exact ⟨rfl, rfl, rfl, rfl⟩
    · exact same
  | send now i msg dataSent =>
    simp only [Op.exec]
    split
    · exact sendIteration_tableStep now i msg dataSent m
    · exact same
  | recv i size dataReceived =>
    simp only [Op.exec]
    split
    · exact recvIteration_tableStep i size _ dataReceived m
    · exact same

/-! ## Ids and keys -/

/-- Active slots stay active, with their ids and keys. -/
def Binds (c c' : ControlSection) : Prop :=
  ∀ i, c.Active i → c'.Active i ∧ (c'.channels i).id = (c.channels i).id ∧
    (c'.channels i).key = (c.channels i).key

theorem Binds.refl (c : ControlSection) : Binds c c := fun _ hi => ⟨hi, rfl, rfl⟩

theorem Binds.trans {c c' c'' : ControlSection} (h : Binds c c')
    (h' : Binds c' c'') : Binds c c'' := fun i hi => by
  obtain ⟨ha, hid, hk⟩ := h i hi
  obtain ⟨ha', hid', hk'⟩ := h' i ha
  exact ⟨ha', hid'.trans hid, hk'.trans hk⟩

theorem TableStep.binds {c c' : ControlSection} (h : TableStep c c') : Binds c c' := fun i hi => by
  cases h with
  | kept count _ _ entry =>
    refine ⟨?_, (entry i).id, (entry i).key⟩
    simpa only [ControlSection.Active, count] using hi
  | added j key flag mutex slot eq =>
    have hc : (created c j key).channels i = c.channels i := created_channels_of_active slot hi
    subst eq
    have ha : (created c j key).Active i := (created_active slot).mpr (.inl hi)
    refine ⟨ha, ?_, ?_⟩
    · show ((created c j key).channels i).id = (c.channels i).id
      rw [hc]
    · show ((created c j key).channels i).key = (c.channels i).key
      rw [hc]
  | rebuilt pos eq =>
    subst eq
    rw [rebalanced_channels hi]
    exact ⟨rebalanced_active.mpr hi, rfl, rfl⟩

/-- The ids count the channels from 1 on, and `last_channel_id` is the next
one. -/
structure Numbered (c : ControlSection) : Prop where
  last : (c.lastChannelId.toNat : Int) = c.numActiveChannels.toInt + 1
  id : ∀ i, c.Active i → (c.channels i).id.toNat = i.val + 1

theorem TableStep.numbered {c c' : ControlSection} (h : TableStep c c') (hn : Numbered c) :
    Numbered c' := by
  cases h with
  | kept count lastId _ entry =>
    refine ⟨by rw [lastId, count, hn.last], fun i hi => ?_⟩
    rw [(entry i).id]
    exact hn.id i (by simpa only [ControlSection.Active, count] using hi)
  | added i key flag mutex slot eq =>
    have hlast := hn.last
    have hlt : i.val < 32 := i.isLt
    subst eq
    refine ⟨?_, fun j hj => ?_⟩
    · have e1 : (c.lastChannelId + 1).toNat = c.lastChannelId.toNat + 1 := by
        rw [UInt32.toNat_add, UInt32.toNat_one]
        omega
      show ((c.lastChannelId + 1).toNat : Int) = (created c i key).numActiveChannels.toInt + 1
      rw [e1, created_numActiveChannels slot]
      omega
    · have hj : (created c i key).Active j := hj
      show ((created c i key).channels j).id.toNat = j.val + 1
      obtain hj | rfl := (created_active slot).mp hj
      · rw [created_channels_of_active slot hj]
        exact hn.id j hj
      · rw [created_channels_self]
        show c.lastChannelId.toNat = j.val + 1
        omega
  | rebuilt pos eq =>
    subst eq
    refine ⟨hn.last, fun i hi => ?_⟩
    rw [rebalanced_channels (rebalanced_active.mp hi)]
    exact hn.id i (rebalanced_active.mp hi)

theorem numbered_afterOps (m : Shm) (ops : List Op) : Numbered (afterOps m ops).ctr := by
  refine (run_inv (I := fun m : Shm => AllocInv m.ctr ∧ Numbered m.ctr) (fun m op h => ?_)
    ⟨allocInv_init m, ⟨by simp [initControlSection], fun i hi => ?_⟩⟩ ops).2
  · exact ⟨h.1.apply op, (h.1.tableStep op).numbered h.2⟩
  · have e : (0 : Int32).toInt = 0 := by decide
    simp only [ControlSection.Active, initControlSection, e] at hi
    omega

theorem binds_afterOps (m : Shm) (ops ops' : List Op) :
    Binds (afterOps m ops).ctr (afterOps m (ops ++ ops')).ctr := by
  rw [afterOps, afterOps, run_append]
  exact (run_inv (I := fun m' : Shm => AllocInv m'.ctr ∧ Binds (afterOps m ops).ctr m'.ctr)
    (fun m' op h => ⟨h.1.apply op, h.2.trans (h.1.tableStep op).binds⟩)
    ⟨allocInv_afterOps m ops, .refl _⟩ ops').2

/-! ## Lookup -/

/-- A lookup finds the first active slot that matches. -/
theorem findChannel_eq_some_iff {c : ControlSection} {key : ChannelKey} {i : Fin maxChannels} :
    findChannel c key = some i ↔ c.Active i ∧ keyMatches (c.channels i).key key = true ∧
      ∀ j < i, keyMatches (c.channels j).key key = false := by
  rw [findChannel, List.find?_eq_some_iff_getElem]
  constructor
  · rintro ⟨hp, k, hk, e, hbefore⟩
    rw [List.getElem_finRange] at e
    obtain rfl : k = i.val := congrArg Fin.val e
    simp only [Bool.and_eq_true, decide_eq_true_eq] at hp
    refine ⟨hp.1, hp.2, fun j hj => ?_⟩
    have ha : c.Active j := Int.lt_trans (Int.ofNat_lt.mpr hj) hp.1
    have := hbefore j.val hj
    simpa [ha] using this
  · rintro ⟨ha, hm, hbefore⟩
    refine ⟨by simp [ha, hm], i.val, by simp, by simp, fun k hk => ?_⟩
    have := hbefore ⟨k, Nat.lt_trans hk i.isLt⟩ hk
    simp [this]

/-- A lookup that finds a channel finds it in every table that keeps the
active slots. -/
theorem Binds.find {c c' : ControlSection} (h : Binds c c') {key : ChannelKey} {i : Fin maxChannels}
    (hf : findChannel c key = some i) : findChannel c' key = some i := by
  rw [findChannel_eq_some_iff] at hf ⊢
  obtain ⟨ha, hm, hbefore⟩ := hf
  obtain ⟨ha', -, hk⟩ := h i ha
  refine ⟨ha', by rw [hk]; exact hm, fun j hj => ?_⟩
  rw [(h j (Int.lt_trans (Int.ofNat_lt.mpr hj) ha)).2.2]
  exact hbefore j hj

/-- From any state reached from `ivshmem_init_control_section` on: active
slots keep their ids and keys in all later states, ids increase with the
slots, and a lookup that finds a slot finds the same slot later. -/
theorem binding_stable (m : Shm) (ops ops' : List Op) :
    let c := (afterOps m ops).ctr
    let c' := (afterOps m (ops ++ ops')).ctr
    (∀ i, c.Active i → c'.Active i ∧ (c'.channels i).id = (c.channels i).id ∧
      (c'.channels i).key = (c.channels i).key) ∧
    (∀ i j, c.Active i → c.Active j → i < j → (c.channels i).id < (c.channels j).id) ∧
    ∀ key i, findChannel c key = some i → findChannel c' key = some i := by
  intro c c'
  have hb : Binds c c' := binds_afterOps m ops ops'
  have hn : Numbered c := numbered_afterOps m ops
  refine ⟨hb, fun i j hi hj hij => ?_, fun key i hf => hb.find hf⟩
  rw [UInt32.lt_iff_toNat_lt, hn.id i hi, hn.id j hj]
  exact Nat.add_lt_add_right hij 1

end Ivshmem
