import SecureIvshmem.Framework.Ring
import SecureIvshmem.Impl.Secure

/-!
# The ring of a channel

`waitingPages` is what a channel still has to deliver: the pages from `tail`
up to `head`. What the steps of its sender and its receiver do to it: `Quiet`
steps nothing, `Fill` writes the page at `head`, which is not waiting, `Push`
appends that page, and `Pop` drops the first.
-/

namespace Ivshmem

open SharedMem SharedMem.Word

/-- Page `j` of a channel at offset `off` of the data section. -/
def pageAt (data : Mem UInt8)
    (off j : Nat) : List UInt8 := bytesAt data (off + j * pageSize : Nat) pageSize

/-- The pages waiting in channel `i`: those from `tail` up to `head`. -/
def waitingPages (m : Shm) (i : Fin maxChannels) : List (List UInt8) :=
  let ch := m.ctr.channels i
  Ring.items (pageAt m.data ch.bufOffset.toNat) ch.numPage.toInt.toNat ch.tail.toNat ch.head.toNat

/-- How many pages wait in a channel. -/
def waiting (ch : Channel) : Nat := Ring.used ch.numPage.toInt.toNat ch.tail.toNat ch.head.toNat

theorem length_waitingPages (m : Shm) (i : Fin maxChannels) :
    (waitingPages m i).length = waiting (m.ctr.channels i) := Ring.length_items _

/-- The offset of a page, without wrap-around. -/
theorem pageOffset_eq {off : UInt64} {j : UInt32} (h : j.toNat * pageSize < 2 ^ 32) :
    pageOffset off j = (off.toNat + j.toNat * pageSize : Nat) := by
  have hp : (UInt32.ofNat pageSize).toNat = pageSize := rfl
  rw [pageOffset, UInt32.toNat_mul, hp, Nat.mod_eq_of_lt h]
  rfl

/-- A ring of two pages or more inside the data section, its indices in
range, while `control_mutex` is clear. -/
structure RingOk (i : Fin maxChannels) (m : Shm) : Prop where
  mutex : m.ctr.controlMutex = 0
  two_le : 2 ≤ (m.ctr.channels i).numPage.toInt.toNat
  fits : (m.ctr.channels i).numPage.toInt.toNat * pageSize ≤ dataSectionSize
  head_lt : (m.ctr.channels i).head.toNat < (m.ctr.channels i).numPage.toInt.toNat
  tail_lt : (m.ctr.channels i).tail.toNat < (m.ctr.channels i).numPage.toInt.toNat

/-! ## Effects on the channel -/

/-- What no step of either party changes. -/
structure Frame (i : Fin maxChannels) (m m' : Shm) : Prop where
  mutex : m'.ctr.controlMutex = m.ctr.controlMutex
  active : m'.ctr.numActiveChannels = m.ctr.numActiveChannels
  keys : ∀ j, (m'.ctr.channels j).key = (m.ctr.channels j).key
  bufOffset : (m'.ctr.channels i).bufOffset = (m.ctr.channels i).bufOffset
  numPage : (m'.ctr.channels i).numPage = (m.ctr.channels i).numPage

section

variable {i : Fin maxChannels} {m m' : Shm}

theorem Frame.find (h : Frame i m m') (key : ChannelKey) :
    findChannel m'.ctr key = findChannel m.ctr key :=
  findChannel_congr h.active (fun j _ => h.keys j) key

theorem Frame.refl (i : Fin maxChannels) (m : Shm) : Frame i m m := ⟨rfl, rfl, fun _ => rfl, rfl, rfl⟩

theorem Frame.data (i : Fin maxChannels) (m : Shm) (data : Mem UInt8) :
    Frame i m { m with data := data } :=
  ⟨rfl, rfl, fun _ => rfl, rfl, rfl⟩

theorem Frame.modify {f : Channel → Channel} (hk : (f (m.ctr.channels i)).key = (m.ctr.channels i).key)
    (ho : (f (m.ctr.channels i)).bufOffset = (m.ctr.channels i).bufOffset)
    (hn : (f (m.ctr.channels i)).numPage = (m.ctr.channels i).numPage) :
    Frame i m { m with ctr := m.ctr.modify i f } := by
  refine ⟨rfl, rfl, fun j => ?_, ?_, ?_⟩
  · by_cases hj : j = i
    · rw [hj, ControlSection.modify_channels_self, hk]
    · rw [ControlSection.modify_channels_of_ne _ _ _ hj]
  · rw [ControlSection.modify_channels_self, ho]
  · rw [ControlSection.modify_channels_self, hn]

end

section

variable (i : Fin maxChannels) (m m' : Shm)

/-- A step that neither moves an index nor writes a page. -/
structure Quiet : Prop extends Frame i m m' where
  head : (m'.ctr.channels i).head = (m.ctr.channels i).head
  tail : (m'.ctr.channels i).tail = (m.ctr.channels i).tail
  data : m'.data = m.data

/-- A step that writes the page at `head`. -/
structure Fill : Prop extends Frame i m m' where
  head : (m'.ctr.channels i).head = (m.ctr.channels i).head
  tail : (m'.ctr.channels i).tail = (m.ctr.channels i).tail
  data : ∃ bs, bs.length = pageSize ∧
    m'.data = store m.data (pageOffset (m.ctr.channels i).bufOffset (m.ctr.channels i).head) bs

/-- A step that advances `head`, of a ring that is not full. -/
structure Push : Prop extends Frame i m m' where
  head : (m'.ctr.channels i).head = advance (m.ctr.channels i).numPage (m.ctr.channels i).head
  tail : (m'.ctr.channels i).tail = (m.ctr.channels i).tail
  data : m'.data = m.data
  room : waiting (m.ctr.channels i) + 1 < (m.ctr.channels i).numPage.toInt.toNat

/-- A step that advances `tail`, of a ring that is not empty. -/
structure Pop : Prop extends Frame i m m' where
  head : (m'.ctr.channels i).head = (m.ctr.channels i).head
  tail : (m'.ctr.channels i).tail = advance (m.ctr.channels i).numPage (m.ctr.channels i).tail
  data : m'.data = m.data
  some : (m.ctr.channels i).head ≠ (m.ctr.channels i).tail

end

section

variable {i : Fin maxChannels} {m m' : Shm}

theorem waiting_quiet (hq : Quiet i m m') : waiting (m'.ctr.channels i) = waiting (m.ctr.channels i) := by
  simp only [waiting, hq.head, hq.tail, hq.numPage]

theorem waitingPages_quiet (hq : Quiet i m m') : waitingPages m' i = waitingPages m i := by
  simp only [waitingPages, hq.head, hq.tail, hq.data, hq.bufOffset, hq.numPage]

variable (h : RingOk i m)
include h

theorem RingOk.advance_eq {j : UInt32} (hj : j.toNat < (m.ctr.channels i).numPage.toInt.toNat) :
    (advance (m.ctr.channels i).numPage j).toNat =
      Ring.next (m.ctr.channels i).numPage.toInt.toNat j.toNat := by
  have hf := h.fits
  simp only [dataSectionSize, ivshmemSize, controlSectionSize, pageSize] at hf
  have hadd : (j + 1).toNat = j.toNat + 1 := by
    rw [UInt32.toNat_add, UInt32.toNat_one]
    omega
  rw [advance, mod_intToU32 (by have := h.two_le; omega), hadd, Ring.next]

theorem RingOk.pageOffset_eq {j : UInt32} (hj : j.toNat < (m.ctr.channels i).numPage.toInt.toNat) :
    pageOffset (m.ctr.channels i).bufOffset j =
      ((m.ctr.channels i).bufOffset.toNat + j.toNat * pageSize : Nat) := by
  have hf := h.fits
  simp only [dataSectionSize, ivshmemSize, controlSectionSize, pageSize] at hf
  exact Ivshmem.pageOffset_eq (by simp only [pageSize]; omega)

theorem RingOk.waiting_lt : waiting (m.ctr.channels i) < (m.ctr.channels i).numPage.toInt.toNat :=
  Ring.used_lt (by have := h.two_le; omega)

/-- The first half of the full test. -/
theorem RingOk.head_eq_iff : (m.ctr.channels i).head = (m.ctr.channels i).tail - 1 ↔
    (m.ctr.channels i).head.toNat + 1 = (m.ctr.channels i).tail.toNat := by
  have hh := h.head_lt
  have hf := h.fits
  simp only [dataSectionSize, ivshmemSize, controlSectionSize, pageSize] at hf
  have ht := (m.ctr.channels i).tail.toNat_lt
  rw [← UInt32.toNat_inj, UInt32.toNat_sub, UInt32.toNat_one]
  omega

/-- The last slot of the ring, as the second half computes it. -/
theorem RingOk.lastSlot_toNat :
    (intToU32 ((m.ctr.channels i).numPage - 1)).toNat = (m.ctr.channels i).numPage.toInt.toNat - 1 := by
  have h2 := h.two_le
  have := (m.ctr.channels i).numPage.toInt_lt
  have e : (-1 : Int32).toInt = -1 := by decide
  have hsub : ((m.ctr.channels i).numPage - 1).toInt = (m.ctr.channels i).numPage.toInt - 1 := by
    rw [Int32.sub_eq_add_neg, toInt_add (by rw [e]; omega) (by rw [e]; omega), e]
    rfl
  rw [intToU32_toNat (by omega), hsub]
  omega

theorem RingOk.room_iff : waiting (m.ctr.channels i) + 1 < (m.ctr.channels i).numPage.toInt.toNat ↔
    (m.ctr.channels i).head.toNat + 1 ≠ (m.ctr.channels i).tail.toNat ∧
      ((m.ctr.channels i).head.toNat + 1 = (m.ctr.channels i).numPage.toInt.toNat →
        (m.ctr.channels i).tail.toNat ≠ 0) := by
  have hfull := Ring.used_eq_full h.head_lt h.tail_lt
  have hlt := h.waiting_lt
  unfold waiting at *
  omega

theorem RingOk.channelEmpty_iff :
    channelEmpty (m.ctr.channels i) = true ↔ waiting (m.ctr.channels i) = 0 := by
  rw [waiting, Ring.used_eq_zero h.head_lt h.tail_lt, UInt32.toNat_inj, channelEmpty, beq_iff_eq]

theorem RingOk.channelFull_iff : channelFull (m.ctr.channels i) = true ↔
    waiting (m.ctr.channels i) + 1 = (m.ctr.channels i).numPage.toInt.toNat := by
  have h2 := h.two_le
  have hlast : (m.ctr.channels i).head = intToU32 ((m.ctr.channels i).numPage - 1) ↔
      (m.ctr.channels i).head.toNat + 1 = (m.ctr.channels i).numPage.toInt.toNat := by
    rw [← UInt32.toNat_inj, h.lastSlot_toNat]
    omega
  have hzero : (m.ctr.channels i).tail = 0 ↔ (m.ctr.channels i).tail.toNat = 0 := by
    rw [← UInt32.toNat_inj, UInt32.toNat_zero]
  rw [waiting, Ring.used_eq_full h.head_lt h.tail_lt, channelFull, Bool.or_eq_true,
    Bool.and_eq_true, beq_iff_eq, beq_iff_eq, beq_iff_eq, h.head_eq_iff, hlast, hzero]

theorem RingOk.of_quiet (hq : Quiet i m m') : RingOk i m' := by
  refine ⟨hq.mutex ▸ h.mutex, ?_, ?_, ?_, ?_⟩ <;> simp only [hq.numPage, hq.head, hq.tail]
  exacts [h.two_le, h.fits, h.head_lt, h.tail_lt]

theorem RingOk.of_fill (hq : Fill i m m') : RingOk i m' := by
  refine ⟨hq.mutex ▸ h.mutex, ?_, ?_, ?_, ?_⟩ <;> simp only [hq.numPage, hq.head, hq.tail]
  exacts [h.two_le, h.fits, h.head_lt, h.tail_lt]

theorem RingOk.of_push (hq : Push i m m') : RingOk i m' := by
  refine ⟨hq.mutex ▸ h.mutex, ?_, ?_, ?_, ?_⟩ <;>
    simp only [hq.numPage, hq.head, hq.tail, h.advance_eq h.head_lt]
  exacts [h.two_le, h.fits, Ring.next_lt (by have := h.two_le; omega) _, h.tail_lt]

theorem RingOk.of_pop (hq : Pop i m m') : RingOk i m' := by
  refine ⟨hq.mutex ▸ h.mutex, ?_, ?_, ?_, ?_⟩ <;>
    simp only [hq.numPage, hq.head, hq.tail, h.advance_eq h.tail_lt]
  exacts [h.two_le, h.fits, h.head_lt, Ring.next_lt (by have := h.two_le; omega) _]

theorem waiting_push (hq : Push i m m') :
    waiting (m'.ctr.channels i) = waiting (m.ctr.channels i) + 1 := by
  simp only [waiting, hq.head, hq.tail, hq.numPage, h.advance_eq h.head_lt]
  exact Ring.used_push h.head_lt h.tail_lt hq.room

theorem waiting_pop (hq : Pop i m m') :
    waiting (m'.ctr.channels i) + 1 = waiting (m.ctr.channels i) := by
  simp only [waiting, hq.head, hq.tail, hq.numPage, h.advance_eq h.tail_lt]
  exact Ring.used_pop h.head_lt h.tail_lt fun e => hq.some (UInt32.toNat_inj.mp e)

/-- Slots other than the one at `head` keep their pages when it is written. -/
theorem pageAt_fill (hq : Fill i m m') {j : Nat} (hj : j ≠ (m.ctr.channels i).head.toNat) :
    pageAt m'.data (m.ctr.channels i).bufOffset.toNat j =
    pageAt m.data (m.ctr.channels i).bufOffset.toNat j := by
  obtain ⟨bs, hlen, hd⟩ := hq.data
  simp only [pageAt, hd, h.pageOffset_eq h.head_lt]
  refine bytesAt_store_disjoint ?_
  simp only [hlen, pageSize]
  rcases Nat.lt_or_gt_of_ne hj with hlt | hlt <;> omega

theorem waitingPages_fill (hq : Fill i m m') : waitingPages m' i = waitingPages m i := by
  simp only [waitingPages, hq.head, hq.tail, hq.numPage, hq.bufOffset]
  refine Ring.items_congr fun j hj => pageAt_fill h hq fun e => ?_
  exact Ring.head_notMem_window h.head_lt h.tail_lt (e ▸ hj)

theorem waitingPages_push (hq : Push i m m') : waitingPages m' i = waitingPages m i ++
    [pageAt m.data (m.ctr.channels i).bufOffset.toNat (m.ctr.channels i).head.toNat] := by
  simp only [waitingPages, hq.head, hq.tail, hq.data, hq.numPage, hq.bufOffset, h.advance_eq h.head_lt]
  exact Ring.items_push (pageAt m.data (m.ctr.channels i).bufOffset.toNat) h.head_lt h.tail_lt hq.room

/-- The first page waiting is the one at `tail`. -/
theorem waitingPages_eq_cons (hne : (m.ctr.channels i).head ≠ (m.ctr.channels i).tail) :
    ∃ later, waitingPages m i =
      pageAt m.data (m.ctr.channels i).bufOffset.toNat (m.ctr.channels i).tail.toNat :: later :=
  ⟨_, Ring.items_pop _ h.head_lt h.tail_lt fun e => hne (UInt32.toNat_inj.mp e)⟩

theorem waitingPages_pop (hq : Pop i m m') : waitingPages m i =
    pageAt m.data (m.ctr.channels i).bufOffset.toNat (m.ctr.channels i).tail.toNat ::
      waitingPages m' i := by
  simp only [waitingPages, hq.head, hq.tail, hq.data, hq.numPage, hq.bufOffset, h.advance_eq h.tail_lt]
  exact Ring.items_pop (pageAt m.data (m.ctr.channels i).bufOffset.toNat) h.head_lt h.tail_lt
    fun e => hq.some (UInt32.toNat_inj.mp e)

end

end Ivshmem
