import Mathlib.Data.Fintype.Basic
import Mathlib.Logic.Function.Basic
import SecureIvshmem.Framework.Word
import SecureIvshmem.Framework.Mem

/-!
# The control section and the data section

`include/ivshmem_secure.h` with `IVSHMEM_TYPE` 2 (page), and the lookup and
the initialisation that both sides share. `Shm` is the mapped memory: the
control section and, after it, the data section, whose offsets count from
`ivshmem_get_data_section`. `sizeof(struct IvshmemControlSection)` is that of
an LP64 target.
-/

namespace Ivshmem

open SharedMem

/-- `IVSHMEM_SIZE`. -/
abbrev ivshmemSize : Nat := 4 * 1024 * 1024

/-- `IVSHMEM_MAX_CHANNELS`. -/
abbrev maxChannels : Nat := 32

instance : NeZero maxChannels := ⟨by decide⟩

/-- `IVSHMEM_PAGE_SIZE`. -/
abbrev pageSize : Nat := 4 * 1024

/-- `IVSHMEM_CHANNEL_INIT_SIZE`. -/
abbrev channelInitSize : Nat := 4 * pageSize

/-- `sizeof(struct IvshmemControlSection)`: 16 bytes of counters, 32 channels
of 64 bytes, the two flags and the candidate. -/
abbrev controlSectionSize : Nat := 2080

/-- `DATA_SECTION_SIZE`. -/
abbrev dataSectionSize : Nat := ivshmemSize - controlSectionSize

/-- `struct IvshmemChannelKey`. -/
structure ChannelKey where
  senderVm : UInt32
  senderPid : UInt32
  receiverVm : UInt32
  deriving DecidableEq, Repr

/-- `struct IvshmemChannel`. -/
structure Channel where
  id : UInt32
  key : ChannelKey
  bufOffset : UInt64
  bufSize : UInt64
  dataSize : UInt64
  tail : UInt32
  head : UInt32
  numPage : Int32
  headTouch : Int32
  lastSentAt : Int64
  deriving DecidableEq, Repr

/-- A channel cleared by `memset`. -/
def Channel.zero : Channel := ⟨0, ⟨0, 0, 0⟩, 0, 0, 0, 0, 0, 0, 0, 0⟩

/-- `struct IvshmemControlSection`. -/
structure ControlSection where
  freeStartOffset : UInt64
  numActiveChannels : Int32
  lastChannelId : UInt32
  channels : Fin maxChannels → Channel
  controlMutex : UInt8
  hasChannelCandidate : Bool
  channelCandidate : ChannelKey

/-- The shared memory: the control section and the data section after it. -/
structure Shm where
  ctr : ControlSection
  data : Mem UInt8

/-- A memory of zeros. -/
def zeroShm : Shm := ⟨⟨0, 0, 0, fun _ => .zero, 0, false, ⟨0, 0, 0⟩⟩, fun _ => 0⟩

namespace ControlSection

/-- The section with channel `i` changed by `f`. -/
def modify (c : ControlSection) (i : Fin maxChannels) (f : Channel → Channel) : ControlSection :=
  { c with channels := Function.update c.channels i (f (c.channels i)) }

/-- Whether slot `i` is below `num_active_channels`. -/
def Active (c : ControlSection) (i : Fin maxChannels) : Prop := (i.val : Int) < c.numActiveChannels.toInt

instance (c : ControlSection) (i : Fin maxChannels) : Decidable (c.Active i) :=
  inferInstanceAs (Decidable (_ < _))

section

variable (c : ControlSection) (i : Fin maxChannels) (f : Channel → Channel)

@[simp] theorem modify_channels_self : (c.modify i f).channels i = f (c.channels i) := by simp [modify]

theorem modify_channels_of_ne {j : Fin maxChannels} (h : j ≠ i) :
    (c.modify i f).channels j = c.channels j := by
  simp [modify, h]

@[simp] theorem modify_freeStartOffset : (c.modify i f).freeStartOffset = c.freeStartOffset := rfl
@[simp] theorem modify_numActiveChannels : (c.modify i f).numActiveChannels = c.numActiveChannels := rfl
@[simp] theorem modify_controlMutex : (c.modify i f).controlMutex = c.controlMutex := rfl
@[simp] theorem modify_hasChannelCandidate :
    (c.modify i f).hasChannelCandidate = c.hasChannelCandidate := rfl
@[simp] theorem modify_channelCandidate : (c.modify i f).channelCandidate = c.channelCandidate := rfl
@[simp] theorem modify_active {j : Fin maxChannels} : (c.modify i f).Active j ↔ c.Active j := .rfl

end

end ControlSection

/-- Whether the key of a channel answers a lookup for `key`: a `sender_pid`
of 0 matches every sender. -/
def keyMatches (chan key : ChannelKey) : Bool :=
  chan.senderVm == key.senderVm && (key.senderPid == 0 || chan.senderPid == key.senderPid) &&
    chan.receiverVm == key.receiverVm

/-- `ivshmem_find_channel`: the first active channel that matches. It ends at
the last slot, as the loop of the source does with up to 32 active
channels. -/
def findChannel (c : ControlSection) (key : ChannelKey) : Option (Fin maxChannels) :=
  (List.finRange maxChannels).find? fun i => decide (c.Active i) && keyMatches (c.channels i).key key

/-- `ivshmem_init_control_section`, which leaves `channel_candidate` as it
was. -/
def initControlSection (m : Shm) : Shm where
  ctr :=
    { m.ctr with
      freeStartOffset := 0
      numActiveChannels := 0
      lastChannelId := 1
      controlMutex := 0
      hasChannelCandidate := false
      channels := fun _ => .zero }
  data := fun x => if 0 ≤ x ∧ x < dataSectionSize then 0 else m.data x

/-! ## Lookup -/

theorem keyMatches_self (key : ChannelKey) : keyMatches key key = true := by
  simp [keyMatches]

/-- What a lookup finds is active and matches. -/
theorem findChannel_some {c : ControlSection} {key : ChannelKey} {i : Fin maxChannels}
    (h : findChannel c key = some i) : c.Active i ∧ keyMatches (c.channels i).key key = true := by
  simpa using List.find?_some h

theorem findChannel_eq_none {c : ControlSection} {key : ChannelKey} :
    findChannel c key = none ↔ ∀ i, c.Active i → keyMatches (c.channels i).key key = false := by
  simp [findChannel]

/-- Lookup reads the keys of active channels only. -/
theorem findChannel_congr {c c' : ControlSection} (hn : c'.numActiveChannels = c.numActiveChannels)
    (hk : ∀ i, c.Active i → (c'.channels i).key = (c.channels i).key) (key : ChannelKey) :
    findChannel c' key = findChannel c key := by
  unfold findChannel
  congr 1
  funext i
  have ha : c'.Active i ↔ c.Active i := by simp only [ControlSection.Active, hn]
  by_cases h : c.Active i
  · simp only [ha, h, hk i h]
  · simp only [ha, h, decide_false, Bool.false_and]

end Ivshmem
