import SecureIvshmem.Proof.Alloc

/-!
# The trusted side on any content

The control section is mapped by the clients, so the trusted calls may find
anything in it. `ivshmem_trusted_rebalancing` has a lower bound on
`num_active_channels` but no upper one, and `ivshmem_create_channel` an upper
bound but no lower one, and a test for space in arithmetic that wraps:
`tolerates_iff` says what content each of them is safe on.
-/

namespace Ivshmem

open SharedMem SharedMem.Word

/-- The two calls stay inside `channels` and divide by no zero, and a channel
that is created lies in the data section. -/
structure Tolerates (malloc : Bool) (c : ControlSection) : Prop where
  rebalancing : ∃ r, trustedRebalancing malloc c = .ok r
  control : ∃ r, trustedControl c = .ok r
  created : c.hasChannelCandidate = true → ∀ c', trustedControl c = .ok (0, c') →
    ∀ i, slot c.numActiveChannels = .ok i →
    (c'.channels i).bufOffset.toNat + channelInitSize ≤ dataSectionSize

/-- A rebalancing copies at most 32 entries, or none. -/
def CopyFits (malloc : Bool) (c : ControlSection) : Prop :=
  c.numActiveChannels.toInt ≤ maxChannels ∨ balanced c = true ∨ malloc = false

/-- The creation of a channel is not asked for or is refused, or the slot is
in `channels` and the sum of the space test does not wrap. -/
def CreationFits (c : ControlSection) : Prop :=
  c.hasChannelCandidate = false ∨ (maxChannels : Int) ≤ c.numActiveChannels.toInt ∨
    .ofNat dataSectionSize < c.freeStartOffset + .ofNat channelInitSize ∨
    0 ≤ c.numActiveChannels.toInt ∧ c.freeStartOffset.toNat + channelInitSize < UInt64.size

/-- On more than 32 channels a rebalancing that gets to the copy leaves the
table. -/
theorem trustedRebalancing_outOfBounds {c : ControlSection}
    (hn : (maxChannels : Int) < c.numActiveChannels.toInt) (hb : balanced c = false) :
    trustedRebalancing true c = .error .outOfBounds := by
  have e : (Int32.ofNat maxChannels).toInt = maxChannels := by decide
  have h0 : ¬ c.numActiveChannels.toInt ≤ 0 := by omega
  rw [balanced, beq_eq_false_iff_ne] at hb
  unfold trustedRebalancing
  simp only [Int32.le_iff_toInt_le, Int32.lt_iff_toInt_lt, e, Int32.toInt_zero, h0, hb, hn, ↓reduceIte,
    Bool.not_true, Bool.false_eq_true]

theorem trustedRebalancing_ok_iff (malloc : Bool) (c : ControlSection) :
    (∃ r, trustedRebalancing malloc c = .ok r) ↔ CopyFits malloc c := by
  constructor
  · rintro ⟨r, e⟩
    by_contra hno
    simp only [CopyFits, not_or, Bool.not_eq_true, Bool.not_eq_false, Int.not_le] at hno
    obtain ⟨hn, hb, rfl⟩ := hno
    rw [trustedRebalancing_outOfBounds hn hb] at e
    cases e
  · rintro (hn | hb | rfl)
    · obtain ⟨-, e⟩ | ⟨-, -, e⟩ | ⟨-, -, -, e⟩ | ⟨-, -, -, e⟩ := trustedRebalancing_cases hn malloc
      all_goals exact ⟨_, e⟩
    · unfold trustedRebalancing
      by_cases h0 : c.numActiveChannels ≤ 0
      · exact ⟨_, if_pos h0⟩
      · exact ⟨(0, { c with controlMutex := 0 }), by rw [if_neg h0]; exact if_pos (eq_of_beq hb)⟩
    · unfold trustedRebalancing
      by_cases h0 : c.numActiveChannels ≤ 0
      · exact ⟨_, if_pos h0⟩
      · rw [if_neg h0]
        by_cases hb : allocatedBufferSize c.numActiveChannels = (c.channels 0).bufSize
        · exact ⟨(0, { c with controlMutex := 0 }), if_pos hb⟩
        · exact ⟨(-1, { c with controlMutex := 1 }), if_neg hb⟩

/-- A negative count with a request and, as it seems, with space: the new
channel is written before the table. -/
theorem trustedControl_outOfBounds {c : ControlSection} (hc : c.hasChannelCandidate = true)
    (hn : c.numActiveChannels.toInt < 0)
    (hspace : ¬ .ofNat dataSectionSize < c.freeStartOffset + .ofNat channelInitSize) :
    trustedControl c = .error .outOfBounds := by
  have e : (Int32.ofNat maxChannels).toInt = maxChannels := by decide
  have hle : ¬ .ofNat maxChannels ≤ c.numActiveChannels := by
    rw [Int32.le_iff_toInt_le, e]
    omega
  have hslot : slot c.numActiveChannels = .error .outOfBounds := dif_neg (by omega)
  simp only [trustedControl, createChannel, hc, hle, hspace, hslot, ↓reduceIte, Bool.not_true,
    Bool.false_eq_true]
  rfl

/-- The outcome of a request that is refused for want of a slot or of space,
whatever the count. -/
theorem trustedControl_refused {c : ControlSection} (hc : c.hasChannelCandidate = true)
    (hr : (maxChannels : Int) ≤ c.numActiveChannels.toInt ∨
      .ofNat dataSectionSize < c.freeStartOffset + .ofNat channelInitSize) :
    trustedControl c = .ok (-1, { c with hasChannelCandidate := false, controlMutex := 0 }) := by
  have e : (Int32.ofNat maxChannels).toInt = maxChannels := by decide
  rw [← e, ← Int32.le_iff_toInt_le] at hr
  by_cases hn : .ofNat maxChannels ≤ c.numActiveChannels
  · simp only [trustedControl, createChannel, hc, hn, ↓reduceIte, Bool.not_true, Bool.false_eq_true]
    rfl
  · simp only [trustedControl, createChannel, hc, hn, hr.resolve_left hn, ↓reduceIte, Bool.not_true,
      Bool.false_eq_true]
    rfl

/-- `tolerates_iff` for `ivshmem_trusted_control`. -/
theorem trustedControl_tolerates_iff (c : ControlSection) :
    ((∃ r, trustedControl c = .ok r) ∧
      (c.hasChannelCandidate = true → ∀ c', trustedControl c = .ok (0, c') →
      ∀ i, slot c.numActiveChannels = .ok i →
        (c'.channels i).bufOffset.toNat + channelInitSize ≤ dataSectionSize)) ↔ CreationFits c := by
  cases hc : c.hasChannelCandidate with
  | false =>
    refine ⟨fun _ => .inl hc, fun _ => ⟨⟨(0, c), ?_⟩, fun h => by cases h⟩⟩
    rw [trustedControl, hc]
    rfl
  | true =>
    by_cases hr : (maxChannels : Int) ≤ c.numActiveChannels.toInt ∨
        .ofNat dataSectionSize < c.freeStartOffset + .ofNat channelInitSize
    · have e := trustedControl_refused hc hr
      refine ⟨fun _ => .inr (hr.imp_right .inl), fun _ => ⟨⟨_, e⟩, fun _ c' e' => ?_⟩⟩
      rw [e] at e'
      cases e'
    · obtain ⟨hn, hspace⟩ := not_or.mp hr
      by_cases h0 : 0 ≤ c.numActiveChannels.toInt
      · obtain ⟨hf, -⟩ | ⟨-, -, hr'⟩ | ⟨-, i, hi, hle, e⟩ := trustedControl_cases h0
        · rw [hc] at hf
          cases hf
        · exact absurd hr' hr
        · have hlt : (UInt64.ofNat dataSectionSize).toNat = dataSectionSize := rfl
          have hadd := UInt64.toNat_add c.freeStartOffset (.ofNat channelInitSize)
          have hinit : (UInt64.ofNat channelInitSize).toNat = channelInitSize := rfl
          have hoff : ((created c i c.channelCandidate).channels i).bufOffset = c.freeStartOffset := by
            simp [created, initChannel]
          rw [UInt64.le_iff_toNat_le, hlt, hadd, hinit] at hle
          constructor
          · rintro ⟨-, hplace⟩
            have := hplace rfl _ e i (slot_eq_ok hi)
            rw [show ((created c i c.channelCandidate).channels i).bufOffset = _ from hoff] at this
            exact .inr (.inr (.inr ⟨h0, Nat.lt_of_le_of_lt this (by decide)⟩))
          · intro hfits
            refine ⟨⟨_, e⟩, fun _ c' e' j hj => ?_⟩
            rw [slot_eq_ok hi] at hj
            cases hj
            obtain rfl := (Prod.mk.inj (Except.ok.inj (e.symm.trans e'))).2
            have hwrap : c.freeStartOffset.toNat + channelInitSize < UInt64.size := by
              obtain hf | hf | hf | hf := hfits
              · rw [hc] at hf
                cases hf
              · exact absurd hf hn
              · exact absurd hf hspace
              · exact hf.2
            rw [show ((created c i c.channelCandidate).channels i).bufOffset = _ from hoff]
            rwa [Nat.mod_eq_of_lt hwrap] at hle
      · have e := trustedControl_outOfBounds hc (by omega) hspace
        constructor
        · rintro ⟨⟨r, e'⟩, -⟩
          rw [e] at e'
          cases e'
        · rintro (hf | hf | hf | hf)
          · rw [hc] at hf
            cases hf
          · exact absurd hf hn
          · exact absurd hf hspace
          · exact absurd hf.1 h0

/-- On any content of the control section: the two calls stay inside
`channels`, divide by no zero and create channels in the data section only,
just if what they copy and what they create fits. -/
theorem tolerates_iff (malloc : Bool) (c : ControlSection) :
    Tolerates malloc c ↔ CopyFits malloc c ∧ CreationFits c := by
  rw [← trustedRebalancing_ok_iff, ← trustedControl_tolerates_iff]
  exact ⟨fun h => ⟨h.rebalancing, h.control, h.created⟩, fun h => ⟨h.1, h.2.1, h.2.2⟩⟩

/-- With 33 channels claimed to be active a rebalancing copies an entry from
behind the table, and with a count of -1 a creation writes one before it. -/
theorem not_tolerates :
    (trustedRebalancing true { zeroShm.ctr with numActiveChannels := 33 } = .error .outOfBounds ∧
    trustedControl { zeroShm.ctr with numActiveChannels := -1, hasChannelCandidate := true } =
      .error .outOfBounds) ∧
    ¬ ∀ malloc c, Tolerates malloc c := by
  have h33 : trustedRebalancing true { zeroShm.ctr with numActiveChannels := 33 } = .error .outOfBounds :=
    trustedRebalancing_outOfBounds (by decide) (by decide)
  refine ⟨⟨h33, trustedControl_outOfBounds rfl (by decide) (by decide)⟩, fun h => ?_⟩
  obtain ⟨r, e⟩ := (h true { zeroShm.ctr with numActiveChannels := 33 }).rebalancing
  rw [h33] at e
  cases e

end Ivshmem
