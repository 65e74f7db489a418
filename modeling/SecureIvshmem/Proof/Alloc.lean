import SecureIvshmem.Impl.System
import SecureIvshmem.Proof.Trusted

/-!
# The allocation invariant

`AllocInv`: the active channels stand one after another from offset 0 up to
`free_start_offset`, inside the data section, each with a ring of whole
pages (`ChannelOk`). Every operation keeps it and is defined wherever it
holds (`exec_of_allocInv`), so it holds in every state reached from
`ivshmem_init_control_section` (`allocInv_afterOps`). The regions of two
active channels are then disjoint (`AllocInv.disjoint`) and inside the data
section (`AllocInv.endOf_le`).
-/

namespace Ivshmem

open SharedMem SharedMem.Word

/-- The end of a channel's region. -/
def endOf (ch : Channel) : Nat := ch.bufOffset.toNat + ch.bufSize.toNat

/-- Where the region of slot `k` starts if the slots before it are packed. -/
def frontier (c : ControlSection) : Nat → Nat
  | 0 => 0
  | k + 1 => if h : k < maxChannels then endOf (c.channels ⟨k, h⟩) else 0

/-- A ring of at least one page that fills its region, its indices in
range. -/
structure ChannelOk (ch : Channel) : Prop where
  numPage_pos : 1 ≤ ch.numPage.toInt
  bufSize_eq : (ch.bufSize.toNat : Int) = ch.numPage.toInt * pageSize
  head_lt : (ch.head.toNat : Int) < ch.numPage.toInt
  tail_lt : (ch.tail.toNat : Int) < ch.numPage.toInt

structure AllocInv (c : ControlSection) : Prop where
  nonneg : 0 ≤ c.numActiveChannels.toInt
  le_max : c.numActiveChannels.toInt ≤ maxChannels
  offset : ∀ i, c.Active i → (c.channels i).bufOffset.toNat = frontier c i.val
  free : c.freeStartOffset.toNat = frontier c c.numActiveChannels.toInt.toNat
  free_le : c.freeStartOffset.toNat ≤ dataSectionSize
  chan : ∀ i, c.Active i → ChannelOk (c.channels i)

theorem frontier_succ (c : ControlSection) (i : Fin maxChannels) :
    frontier c (i.val + 1) = endOf (c.channels i) := by
  simp [frontier, i.isLt]

theorem frontier_congr {c c' : ControlSection} {k : Nat}
    (h : ∀ i : Fin maxChannels, i.val < k → endOf (c'.channels i) = endOf (c.channels i)) :
    frontier c' k = frontier c k := by
  cases k with
  | zero => rfl
  | succ k =>
    simp only [frontier]
    split
    · rename_i hk; exact h ⟨k, hk⟩ (Nat.lt_succ_self k)
    · rfl

namespace AllocInv

variable {c c' : ControlSection}

/-- The slots before an active one end where it starts, or earlier. -/
theorem frontier_mono (h : AllocInv c) {j k : Nat} (hjk : j ≤ k)
    (hk : (k : Int) ≤ c.numActiveChannels.toInt) :
    frontier c j ≤ frontier c k := by
  induction k with
  | zero => rw [Nat.le_zero.mp hjk]
  | succ k ih =>
    rcases Nat.lt_or_ge k j with hj | hj
    · rw [show j = k + 1 by omega]
    · have hm := h.le_max
      have ho := h.offset ⟨k, by omega⟩ (by simp only [ControlSection.Active]; omega)
      have hf := frontier_succ c ⟨k, by omega⟩
      simp only [endOf] at ho hf
      have := ih hj (by omega)
      omega

/-- The region of an active channel ends in the data section. -/
theorem endOf_le (h : AllocInv c) {i : Fin maxChannels} (hi : c.Active i) :
    endOf (c.channels i) ≤ dataSectionSize := by
  have hi' : (i.val : Int) < c.numActiveChannels.toInt := hi
  rw [← frontier_succ]
  exact Nat.le_trans (h.frontier_mono (k := c.numActiveChannels.toInt.toNat) (by omega) (by omega))
    (h.free ▸ h.free_le)

/-- The regions of two active channels do not overlap. -/
theorem disjoint (h : AllocInv c) {i j : Fin maxChannels} (hj : c.Active j) (hij : i < j) :
    endOf (c.channels i) ≤ (c.channels j).bufOffset.toNat := by
  have hj' : (j.val : Int) < c.numActiveChannels.toInt := hj
  have hij' : i.val < j.val := hij
  rw [h.offset j hj, ← frontier_succ]
  exact h.frontier_mono (by omega) (by omega)

/-- The invariant reads the counters of the allocator and the active
entries. -/
theorem of_active (h : AllocInv c) (hf : c'.freeStartOffset = c.freeStartOffset)
    (hn : c'.numActiveChannels = c.numActiveChannels)
    (hc : ∀ i, c.Active i → c'.channels i = c.channels i) : AllocInv c' := by
  have hfr : ∀ k : Nat, (k : Int) ≤ c.numActiveChannels.toInt →
    frontier c' k = frontier c k := fun k hk =>
    frontier_congr fun i hi => by rw [hc i (by simp only [ControlSection.Active]; omega)]
  have ha : ∀ i, c'.Active i → c.Active i := fun i hi => by
    simpa only [ControlSection.Active, hn] using hi
  have h0 := h.nonneg
  refine ⟨hn ▸ h.nonneg, hn ▸ h.le_max, fun i hi => ?_, ?_, hf ▸ h.free_le, fun i hi => ?_⟩
  · have hi' : (i.val : Int) < c.numActiveChannels.toInt := ha i hi
    rw [hc i (ha i hi), hfr _ (by omega)]
    exact h.offset i (ha i hi)
  · rw [hf, hn, hfr _ (by omega)]
    exact h.free
  · rw [hc i (ha i hi)]
    exact h.chan i (ha i hi)

theorem of_eq (h : AllocInv c) (hf : c'.freeStartOffset = c.freeStartOffset)
    (hn : c'.numActiveChannels = c.numActiveChannels) (hc : c'.channels = c.channels) : AllocInv c' :=
  h.of_active hf hn fun _ _ => by rw [hc]

/-- A change of a channel that leaves its region alone. -/
theorem modify (h : AllocInv c) {i : Fin maxChannels} {f : Channel → Channel}
    (ho : (f (c.channels i)).bufOffset = (c.channels i).bufOffset)
    (hs : (f (c.channels i)).bufSize = (c.channels i).bufSize)
    (hok : c.Active i → ChannelOk (f (c.channels i))) : AllocInv (c.modify i f) := by
  have hch : ∀ j, ((c.modify i f).channels j).bufOffset = (c.channels j).bufOffset ∧
      ((c.modify i f).channels j).bufSize = (c.channels j).bufSize := fun j => by
    by_cases hj : j = i
    · subst hj; simp [ho, hs]
    · simp [ControlSection.modify_channels_of_ne c i f hj]
  have hfr : ∀ k, frontier (c.modify i f) k = frontier c k := fun k =>
    frontier_congr fun j _ => by simp only [endOf, hch j]
  refine ⟨h.nonneg, h.le_max, fun j hj => ?_, ?_, h.free_le, fun j hj => ?_⟩
  · rw [(hch j).1, hfr]; exact h.offset j hj
  · rw [hfr]; exact h.free
  · by_cases hj' : j = i
    · subst hj'; rw [ControlSection.modify_channels_self]; exact hok hj
    · rw [ControlSection.modify_channels_of_ne c i f hj']; exact h.chan j hj

end AllocInv

/-! ## Creation -/

/-- An active slot is not the first inactive one. -/
theorem ne_of_active {c : ControlSection} {i j : Fin maxChannels} (hi : c.Active i)
    (hj : c.numActiveChannels.toInt = j.val) : i ≠ j := by
  rintro rfl
  have hi' : (i.val : Int) < c.numActiveChannels.toInt := hi
  exact absurd hj hi'.ne'

theorem initChannel_ok (c : ControlSection) (key : ChannelKey) : ChannelOk (initChannel c key) :=
  ⟨by simp only [initChannel]; decide, by simp only [initChannel]; decide,
    by simp only [initChannel]; decide, by simp only [initChannel]; decide⟩

section

variable {c : ControlSection} {i : Fin maxChannels} {key : ChannelKey}

/-- An offset of the data section and a channel more do not wrap. -/
theorem add_channelInitSize_toNat {x : UInt64} (h : x.toNat ≤ dataSectionSize) :
    (x + .ofNat channelInitSize).toNat = x.toNat + channelInitSize := by
  simp only [UInt64.toNat_add, dataSectionSize, ivshmemSize, controlSectionSize, channelInitSize,
    pageSize] at h ⊢
  rw [show (UInt64.ofNat (4 * (4 * 1024))).toNat = 4 * (4 * 1024) from rfl]
  omega

theorem created_numActiveChannels (hi : c.numActiveChannels.toInt = i.val) :
    (created c i key).numActiveChannels.toInt = i.val + 1 := by
  have : i.val < 32 := i.isLt
  have e : (1 : Int32).toInt = 1 := by decide
  simp only [created]
  rw [toInt_add (by omega) (by omega), hi, e]

theorem created_channels_self : (created c i key).channels i = initChannel c key := by simp [created]

theorem created_channels_of_ne {j : Fin maxChannels} (h : j ≠ i) :
    (created c i key).channels j = c.channels j := by
  simp [created, ControlSection.modify_channels_of_ne, h]

/-- A creation leaves the active slots alone. -/
theorem created_channels_of_active (hi : c.numActiveChannels.toInt = i.val) {j : Fin maxChannels}
    (hj : c.Active j) :
    (created c i key).channels j = c.channels j :=
  created_channels_of_ne (ne_of_active hj hi)

/-- The slots active after a creation are those active before it and the new
one. -/
theorem created_active (hi : c.numActiveChannels.toInt = i.val) {j : Fin maxChannels} :
    (created c i key).Active j ↔ c.Active j ∨ j = i := by
  simp only [ControlSection.Active, created_numActiveChannels hi, hi, Fin.ext_iff]
  omega

theorem allocInv_created (h : AllocInv c) (hi : c.numActiveChannels.toInt = i.val)
    (hf : c.freeStartOffset + .ofNat channelInitSize ≤ .ofNat dataSectionSize) :
    AllocInv (created c i key) := by
  have hlt := i.isLt
  have hn : (created c i key).numActiveChannels.toInt = i.val + 1 := created_numActiveChannels hi
  have hfree := h.free
  have hle := h.free_le
  have hfr : ∀ k ≤ i.val, frontier (created c i key) k = frontier c k := fun k hk =>
    frontier_congr fun j hj => by
      have ha : c.Active j := by
        show (j.val : Int) < c.numActiveChannels.toInt
        omega
      rw [created_channels_of_active hi ha]
  have hsum := add_channelInitSize_toNat hle
  rw [hi, Int.toNat_natCast] at hfree
  refine ⟨by omega, by omega, fun j hj => ?_, ?_, ?_, fun j hj => ?_⟩
  · rcases (created_active hi).mp hj with ha | rfl
    · have ha' : (j.val : Int) < c.numActiveChannels.toInt := ha
      rw [created_channels_of_active hi ha, hfr _ (by omega)]
      exact h.offset j ha
    · rw [created_channels_self, hfr _ (Nat.le_refl _), ← hfree]
      rfl
  · rw [hn, show ((i.val : Int) + 1).toNat = i.val + 1 by omega, frontier_succ, created_channels_self]
    simp only [created, endOf, initChannel, hsum]
    rfl
  · exact UInt64.le_iff_toNat_le.mp hf
  · rcases (created_active hi).mp hj with ha | rfl
    · rw [created_channels_of_active hi ha]
      exact h.chan j ha
    · rw [created_channels_self]; exact initChannel_ok c key

end

/-! ## Rebalancing -/

section

variable {c : ControlSection}

theorem rebalanced_active {i : Fin maxChannels} : (rebalanced c).Active i ↔ c.Active i := .rfl

theorem rebalanced_channels {i : Fin maxChannels} (hi : c.Active i) :
    (rebalanced c).channels i = rebalanceChannel (rebalancedNumPage c.numActiveChannels)
      (allocatedBufferSize c.numActiveChannels)
      (.ofNat i.val * allocatedBufferSize c.numActiveChannels) (c.channels i) := by
  simp only [rebalanced]
  exact if_pos hi

/-- `k` shares, without wrap-around. -/
theorem ofNat_mul_share {n : Int32} (h1 : 1 ≤ n.toInt) {k : Nat} (hk : (k : Int) ≤ n.toInt) :
    (.ofNat k * allocatedBufferSize n : UInt64).toNat = k * (evenPages n.toInt.toNat * pageSize) := by
  have hs := share_le n.toInt.toNat
  have hm : k * (evenPages n.toInt.toNat * pageSize) ≤
      n.toInt.toNat * (evenPages n.toInt.toNat * pageSize) := Nat.mul_le_mul_right _ (by omega)
  have := n.toInt_lt
  rw [UInt64.toNat_mul, allocatedBufferSize_toNat h1, UInt64.toNat_ofNat',
    Nat.mod_eq_of_lt (a := k) (by omega)]
  refine Nat.mod_eq_of_lt
    (Nat.lt_of_le_of_lt hm (Nat.lt_of_le_of_lt (Nat.le_add_right _ _) (Nat.lt_trans hs ?_)))
  decide

/-- A channel whose indices are reduced to its number of pages. -/
theorem channelOk_of_mod {size : UInt64} {ch : Channel} {head tail : UInt32} (hp : 1 ≤ ch.numPage.toInt)
    (hb : ch.bufSize = size) (hs : (size.toNat : Int) = ch.numPage.toInt * pageSize)
    (hh : ch.head = head % intToU32 ch.numPage) (ht : ch.tail = tail % intToU32 ch.numPage) :
    ChannelOk ch := by
  have hm : ∀ x : UInt32, ((x % intToU32 ch.numPage).toNat : Int) < ch.numPage.toInt := fun x => by
    have := Nat.mod_lt x.toNat (show ch.numPage.toInt.toNat > 0 by omega)
    rw [mod_intToU32 (by omega)]
    omega
  exact ⟨hp, by rw [hb]; exact hs, by rw [hh]; exact hm _, by rw [ht]; exact hm _⟩

/-- A table whose active channels have even shares, one after another. -/
theorem allocInv_of_shares (h1 : 0 < c.numActiveChannels.toInt)
    (hle : c.numActiveChannels.toInt ≤ maxChannels) (hfree : c.freeStartOffset =
      .ofNat c.numActiveChannels.toInt.toNat * allocatedBufferSize c.numActiveChannels)
    (hch : ∀ i, c.Active i →
      (c.channels i).bufOffset = .ofNat i.val * allocatedBufferSize c.numActiveChannels ∧
      (c.channels i).bufSize = allocatedBufferSize c.numActiveChannels ∧ ChannelOk (c.channels i)) :
    AllocInv c := by
  have hs := allocatedBufferSize_toNat (n := c.numActiveChannels) (by omega)
  have hmul : ∀ k : Nat, (k : Int) ≤ c.numActiveChannels.toInt → (_ : Nat) = _ := fun k hk =>
    ofNat_mul_share (n := c.numActiveChannels) (by omega) hk
  have hend : ∀ i, c.Active i → endOf (c.channels i) =
      (i.val + 1) * (evenPages c.numActiveChannels.toInt.toNat * pageSize) := fun i hi => by
    have hi' : (i.val : Int) < c.numActiveChannels.toInt := hi
    obtain ⟨ho, hsz, -⟩ := hch i hi
    rw [endOf, ho, hsz, hmul i.val (by omega), hs, Nat.add_mul, Nat.one_mul]
  have hfr : ∀ k : Nat, (k : Int) ≤ c.numActiveChannels.toInt → frontier c k =
      k * (evenPages c.numActiveChannels.toInt.toNat * pageSize) := fun k hk => by
    cases k with
    | zero => simp [frontier]
    | succ k => rw [← hend ⟨k, by omega⟩ (by simp only [ControlSection.Active]; omega), ← frontier_succ]
  have hfree' := hmul c.numActiveChannels.toInt.toNat (by omega)
  rw [← hfree] at hfree'
  have hlt := share_le c.numActiveChannels.toInt.toNat
  refine ⟨by omega, hle, fun i hi => ?_, ?_, by omega, fun i hi => (hch i hi).2.2⟩
  · have hi' : (i.val : Int) < c.numActiveChannels.toInt := hi
    rw [hfr _ (by omega), (hch i hi).1]
    exact hmul i.val (by omega)
  · rw [hfree']
    exact (hfr c.numActiveChannels.toInt.toNat (by omega)).symm

theorem allocInv_rebalanced (h : AllocInv c) (h1 : 0 < c.numActiveChannels.toInt) :
    AllocInv (rebalanced c) := by
  have hp := rebalancedNumPage_toInt (n := c.numActiveChannels) (by omega)
  have hs := allocatedBufferSize_toNat (n := c.numActiveChannels) (by omega)
  have hge := le_evenPages (n := c.numActiveChannels.toInt.toNat) (by omega) (by have := h.le_max; omega)
  refine allocInv_of_shares h1 h.le_max rfl fun i hi => ?_
  rw [rebalanced_channels (rebalanced_active.mp hi)]
  refine ⟨rfl, rfl, channelOk_of_mod ?_ rfl ?_ rfl rfl⟩
  · show 1 ≤ (rebalancedNumPage c.numActiveChannels).toInt
    omega
  · show ((allocatedBufferSize c.numActiveChannels).toNat : Int) =
      (rebalancedNumPage c.numActiveChannels).toInt * pageSize
    rw [hs, hp, Int.natCast_mul]

end

/-! ## Operations -/

theorem allocInv_init (m : Shm) : AllocInv (initControlSection m).ctr := by
  have e : (0 : Int32).toInt = 0 := by decide
  refine ⟨by simp [initControlSection], by simp [initControlSection], fun i hi => ?_, ?_,
    by simp [initControlSection], fun i hi => ?_⟩
  · simp only [ControlSection.Active, initControlSection, e] at hi; omega
  · simp [initControlSection, frontier]
  · simp only [ControlSection.Active, initControlSection, e] at hi; omega

/-- An index advanced stays in the ring. -/
theorem advance_lt {numPage : Int32} (h : 1 ≤ numPage.toInt) (i : UInt32) :
    ((advance numPage i).toNat : Int) < numPage.toInt := by
  have := Nat.mod_lt (i + 1).toNat (show numPage.toInt.toNat > 0 by omega)
  rw [advance, mod_intToU32 (by omega)]
  omega

theorem ChannelOk.advanceHead {ch : Channel} (h : ChannelOk ch) (size : UInt64) (t : Int64) :
    ChannelOk { ch with head := advance ch.numPage ch.head, dataSize := size, lastSentAt := t } :=
  ⟨h.numPage_pos, h.bufSize_eq, advance_lt h.numPage_pos _, h.tail_lt⟩

theorem ChannelOk.advanceTail {ch : Channel} (h : ChannelOk ch) (size : UInt64) :
    ChannelOk { ch with tail := advance ch.numPage ch.tail, dataSize := size } :=
  ⟨h.numPage_pos, h.bufSize_eq, h.head_lt, advance_lt h.numPage_pos _⟩

/-- Creating a channel, wherever the invariant holds. -/
theorem createChannel_ok {c : ControlSection} (h : AllocInv c) (key : ChannelKey) :
    ∃ r, createChannel c key = .ok r ∧ AllocInv r.2 := by
  obtain ⟨e, -⟩ | ⟨i, hi, hf, e⟩ := createChannel_cases h.nonneg key
  · exact ⟨_, e, h⟩
  · exact ⟨_, e, allocInv_created h hi hf⟩

theorem trustedControl_ok {c : ControlSection} (h : AllocInv c) :
    ∃ r, trustedControl c = .ok r ∧ AllocInv r.2 := by
  obtain ⟨-, e⟩ | ⟨-, e, -⟩ | ⟨-, i, hi, hf, e⟩ := trustedControl_cases h.nonneg
  · exact ⟨_, e, h⟩
  · exact ⟨_, e, h.of_eq rfl rfl rfl⟩
  · have hc : AllocInv (created c i c.channelCandidate) := allocInv_created h hi hf
    exact ⟨_, e, hc.of_eq rfl rfl rfl⟩

theorem trustedRebalancing_ok {c : ControlSection} (h : AllocInv c) (malloc : Bool) :
    ∃ r, trustedRebalancing malloc c = .ok r ∧ AllocInv r.2 := by
  obtain ⟨-, e⟩ | ⟨-, -, e⟩ | ⟨-, -, -, e⟩ | ⟨h1, -, -, e⟩ := trustedRebalancing_cases h.le_max malloc
  · exact ⟨_, e, h⟩
  · exact ⟨_, e, h.of_eq rfl rfl rfl⟩
  · exact ⟨_, e, h.of_eq rfl rfl rfl⟩
  · exact ⟨_, e, allocInv_rebalanced h h1⟩

/-- `ivshmem_find_or_create_channel` finds a channel, fails to create one, or
fills the first inactive slot and returns it. -/
theorem findOrCreateChannel_cases {c : ControlSection} (h0 : 0 ≤ c.numActiveChannels.toInt)
    (key : ChannelKey) :
    (∃ i, findChannel c key = some i ∧ findOrCreateChannel c key = .ok (some i, c)) ∨
    (findChannel c key = none ∧ ((maxChannels : Int) ≤ c.numActiveChannels.toInt ∨
      .ofNat dataSectionSize < c.freeStartOffset + .ofNat channelInitSize) ∧
      findOrCreateChannel c key = .ok (none, c)) ∨
    (findChannel c key = none ∧ ∃ i : Fin maxChannels, c.numActiveChannels.toInt = i.val ∧
      c.freeStartOffset + .ofNat channelInitSize ≤ .ofNat dataSectionSize ∧
      findOrCreateChannel c key = .ok (some i, created c i key)) := by
  unfold findOrCreateChannel
  cases findChannel c key with
  | some i => exact .inl ⟨i, rfl, rfl⟩
  | none =>
    obtain ⟨e, hr⟩ | ⟨i, hi, hf, e⟩ := createChannel_cases h0 key
    · simp only [e]
      exact .inr (.inl ⟨trivial, hr, rfl⟩)
    · have hn : (created c i key).numActiveChannels.toInt = i.val + 1 := created_numActiveChannels hi
      have hlt : i.val < 32 := i.isLt
      have e1 : (-1 : Int32).toInt = -1 := by decide
      have hs : slot ((created c i key).numActiveChannels - 1) = .ok i := by
        apply slot_eq_ok
        rw [Int32.sub_eq_add_neg, toInt_add (by rw [hn, e1]; omega) (by rw [hn, e1]; omega), hn, e1]
        omega
      refine .inr (.inr ⟨rfl, i, hi, hf, ?_⟩)
      simp only [e, bind, Except.bind, hs, ne_eq, not_true_eq_false, ↓reduceIte]
      rfl

theorem findOrCreateChannel_ok {c : ControlSection} (h : AllocInv c) (key : ChannelKey) :
    ∃ r, findOrCreateChannel c key = .ok r ∧ AllocInv r.2 := by
  obtain ⟨i, -, e⟩ | ⟨-, -, e⟩ | ⟨-, i, hi, hf, e⟩ := findOrCreateChannel_cases h.nonneg key
  · exact ⟨_, e, h⟩
  · exact ⟨_, e, h⟩
  · exact ⟨_, e, allocInv_created h hi hf⟩

theorem sendIteration_alloc {m : Shm} (h : AllocInv m.ctr) (now : Int64) (i : Fin maxChannels)
    (msg : Message) (dataSent : UInt64) : AllocInv (sendIteration now i msg dataSent m).1.ctr := by
  have hp : AllocInv (publishPage now i msg dataSent m).ctr := by
    simp only [publishPage]
    refine AllocInv.modify h ?_ ?_ fun hi => ?_
    exacts [rfl, rfl, (h.chan i hi).advanceHead _ _]
  unfold sendIteration
  repeat' split
  all_goals assumption

theorem recvIteration_alloc {m : Shm} (h : AllocInv m.ctr) (i : Fin maxChannels) (size : UInt64)
    (buffer : Mem UInt8) (dataReceived : Int32) :
    AllocInv (recvIteration i size buffer dataReceived m).1.ctr := by
  have hp : ∀ n, AllocInv (consumePage i n m).ctr := fun n => by
    simp only [consumePage]
    refine AllocInv.modify h ?_ ?_ fun hi => ?_
    exacts [rfl, rfl, (h.chan i hi).advanceTail _]
  simp only [recvIteration]
  repeat' split
  all_goals first | exact h | exact hp _

/-- No operation meets a fault where the invariant holds, and all keep it. -/
theorem exec_of_allocInv {m : Shm} (h : AllocInv m.ctr) (op : Op) :
    ∃ m', op.exec m = .ok m' ∧ AllocInv m'.ctr := by
  cases op with
  | request key => exact ⟨_, rfl, h.of_eq rfl rfl rfl⟩
  | trustedControl => obtain ⟨r, e, hr⟩ := trustedControl_ok h
                      exact ⟨m.setCtr r.2, by simp [Op.exec, e, Except.map], hr⟩
  | createChannel key =>
    obtain ⟨r, e, hr⟩ := createChannel_ok h key
    exact ⟨m.setCtr r.2, by simp [Op.exec, e, Except.map], hr⟩
  | findOrCreateChannel key =>
    obtain ⟨r, e, hr⟩ := findOrCreateChannel_ok h key
    exact ⟨m.setCtr r.2, by simp [Op.exec, e, Except.map], hr⟩
  | trustedRebalancing malloc =>
    obtain ⟨r, e, hr⟩ := trustedRebalancing_ok h malloc
    exact ⟨m.setCtr r.2, by simp [Op.exec, e, Except.map], hr⟩
  | advanceHead i =>
    refine ⟨_, rfl, ?_⟩
    split
    · rw [Shm.setCtr_ctr]
      refine AllocInv.modify h ?_ ?_ fun hi => ?_
      exacts [rfl, rfl, (h.chan i hi).advanceHead _ _]
    · exact h
  | advanceTail i =>
    refine ⟨_, rfl, ?_⟩
    split
    · rw [Shm.setCtr_ctr]
      refine AllocInv.modify h ?_ ?_ fun hi => ?_
      exacts [rfl, rfl, (h.chan i hi).advanceTail _]
    · exact h
  | send now i msg dataSent =>
    refine ⟨_, rfl, ?_⟩
    split
    · exact sendIteration_alloc h now i msg dataSent
    · exact h
  | recv i size dataReceived =>
    refine ⟨_, rfl, ?_⟩
    split
    · exact recvIteration_alloc h i size _ dataReceived
    · exact h

theorem AllocInv.apply {m : Shm} (h : AllocInv m.ctr) (op : Op) : AllocInv (Op.apply m op).ctr := by
  obtain ⟨m', e, h'⟩ := exec_of_allocInv h op
  simpa only [Op.apply, e] using h'

theorem allocInv_afterOps (m : Shm) (ops : List Op) : AllocInv (afterOps m ops).ctr :=
  run_inv (I := fun m : Shm => AllocInv m.ctr) (fun _ op h => h.apply op) (allocInv_init m) ops

/-- In every state reached from `ivshmem_init_control_section`: at most 32
channels are active, they stand one after another from offset 0 up to
`free_start_offset` without overlap and inside the data section, their rings
fill their regions with their indices in range, and no operation is
undefined. -/
theorem allocation_of_reachable (m : Shm) (ops : List Op) :
    let c := (afterOps m ops).ctr
    (0 ≤ c.numActiveChannels.toInt ∧ c.numActiveChannels.toInt ≤ maxChannels) ∧
    (c.Active 0 → (c.channels 0).bufOffset = 0) ∧
    (∀ i j : Fin maxChannels, c.Active j → j.val = i.val + 1 →
      (c.channels j).bufOffset.toNat = endOf (c.channels i)) ∧
    (c.numActiveChannels.toInt = 0 → c.freeStartOffset = 0) ∧
    (∀ i : Fin maxChannels, c.numActiveChannels.toInt = i.val + 1 →
      c.freeStartOffset.toNat = endOf (c.channels i)) ∧
    c.freeStartOffset.toNat ≤ dataSectionSize ∧
    (∀ i j, c.Active i → c.Active j → i ≠ j →
      endOf (c.channels i) ≤ (c.channels j).bufOffset.toNat ∨
        endOf (c.channels j) ≤ (c.channels i).bufOffset.toNat) ∧
    (∀ i, c.Active i → endOf (c.channels i) ≤ dataSectionSize) ∧
    (∀ i, c.Active i → 1 ≤ (c.channels i).numPage.toInt ∧
      ((c.channels i).bufSize.toNat : Int) = (c.channels i).numPage.toInt * pageSize ∧
      ((c.channels i).head.toNat : Int) < (c.channels i).numPage.toInt ∧
      ((c.channels i).tail.toNat : Int) < (c.channels i).numPage.toInt) ∧
    ∀ op : Op, ∃ m', op.exec (afterOps m ops) = .ok m' := by
  intro c
  have h : AllocInv c := allocInv_afterOps m ops
  refine ⟨⟨h.nonneg, h.le_max⟩, fun h0 => ?_, fun i j hj hij => ?_, fun hn => ?_, fun i hi => ?_,
    h.free_le, fun i j hi hj hne => ?_, fun i hi => h.endOf_le hi, fun i hi => ?_, fun op => ?_⟩
  · exact UInt64.toNat_inj.mp (h.offset 0 h0)
  · rw [h.offset j hj, hij, frontier_succ]
  · have hf := h.free
    rw [hn] at hf
    exact UInt64.toNat_inj.mp hf
  · rw [h.free, hi, show ((i.val : Int) + 1).toNat = i.val + 1 by omega, frontier_succ]
  · rcases Nat.lt_or_gt_of_ne (fun e => hne (Fin.ext e)) with hlt | hlt
    · exact .inl (h.disjoint hj hlt)
    · exact .inr (h.disjoint hi hlt)
  · have hc := h.chan i hi
    exact ⟨hc.numPage_pos, hc.bufSize_eq, hc.head_lt, hc.tail_lt⟩
  · obtain ⟨m', e, -⟩ := exec_of_allocInv h op
    exact ⟨m', e⟩

/-- The operations that make two channels. -/
def twoChannels : List Op := [.request ⟨1, 5, 2⟩, .trustedControl, .request ⟨3, 6, 4⟩, .trustedControl]

end Ivshmem
