import SecureIvshmem.Proof.Table

/-!
# Find or create

`ivshmem_find_or_create_channel` as an insertion into the table: it fails
only where it would have to create a channel and cannot, and else returns a
slot that a lookup for the key then finds (`findChannel_created`), with every
other lookup answered as before (`Upserts`).
-/

namespace Ivshmem

/-- What a call for `key` that returns slot `i` makes of the table. -/
structure Upserts (key : ChannelKey) (i : Fin maxChannels) (c c' : ControlSection) : Prop where
  /-- The lookup finds the slot. -/
  found : findChannel c' key = some i
  /-- One slot is added at most, and no other one is changed. -/
  active : ∀ j, c'.Active j ↔ c.Active j ∨ j = i
  kept : ∀ j, c.Active j ∨ j ≠ i → c'.channels j = c.channels j
  /-- A second call does nothing. -/
  again : findOrCreateChannel c' key = .ok (some i, c')
  /-- What a lookup for any key found, it still finds. -/
  others : ∀ key' j, findChannel c key' = some j → findChannel c' key' = some j

section

variable {c : ControlSection} {key : ChannelKey} {i : Fin maxChannels}

/-- A call for a key that the lookup finds. -/
theorem findOrCreateChannel_of_find (h : findChannel c key = some i) :
    findOrCreateChannel c key = .ok (some i, c) := by
  simp only [findOrCreateChannel, h]

theorem upserts_of_find (h : findChannel c key = some i) : Upserts key i c c where
  found := h
  active j := by
    refine ⟨.inl, fun hj => hj.elim id fun e => ?_⟩
    rw [e]
    exact (findChannel_some h).1
  kept _ _ := rfl
  again := findOrCreateChannel_of_find h
  others _ _ := id

/-- A channel created for a key that no channel matched is the one that the
lookup finds: the key matches itself, a `sender_pid` of 0 included. -/
theorem findChannel_created (h : findChannel c key = none) (hi : c.numActiveChannels.toInt = i.val) :
    findChannel (created c i key) key = some i := by
  rw [findChannel_eq_none] at h
  refine findChannel_eq_some_iff.mpr ⟨(created_active hi).mpr (.inr rfl), ?_, fun j hj => ?_⟩
  · rw [created_channels_self]
    exact keyMatches_self key
  · have ha : c.Active j := by
      show (j.val : Int) < c.numActiveChannels.toInt
      rw [hi]
      exact Int.ofNat_lt.mpr hj
    rw [created_channels_of_active hi ha]
    exact h j ha

theorem binds_created (hi : c.numActiveChannels.toInt = i.val) : Binds c (created c i key) := by
  intro _ hj
  rw [created_channels_of_active hi hj]
  exact ⟨(created_active hi).mpr (.inl hj), rfl, rfl⟩

theorem upserts_created (h : findChannel c key = none) (hi : c.numActiveChannels.toInt = i.val) :
    Upserts key i c (created c i key) where
  found := findChannel_created h hi
  active _ := created_active hi
  kept _ hj := created_channels_of_ne (hj.elim (fun ha => ne_of_active ha hi) id)
  again := findOrCreateChannel_of_find (findChannel_created h hi)
  others _ _ hf := (binds_created hi).find hf

end

/-- `ivshmem_find_or_create_channel`, for any key, in any state reached from
`ivshmem_init_control_section`. -/
theorem find_or_create_upserts (m : Shm) (ops : List Op) (key : ChannelKey) :
    let c := (afterOps m ops).ctr
    ∃ p c', findOrCreateChannel c key = .ok (p, c') ∧
      (p = none ↔ (∀ i, c.Active i → keyMatches (c.channels i).key key = false) ∧
        ((maxChannels : Int) ≤ c.numActiveChannels.toInt ∨
          .ofNat dataSectionSize < c.freeStartOffset + .ofNat channelInitSize)) ∧
      (p = none → c' = c) ∧
      ∀ i, p = some i → Upserts key i c c' := by
  intro c
  have h : AllocInv c := allocInv_afterOps m ops
  rw [← findChannel_eq_none]
  obtain ⟨i, hf, e⟩ | ⟨hf, hr, e⟩ | ⟨hf, i, hi, hfree, e⟩ := findOrCreateChannel_cases h.nonneg key
  · refine ⟨some i, c, e, ⟨nofun, fun h' => ?_⟩, nofun, fun k hk => ?_⟩
    · rw [hf] at h'
      exact nomatch h'.1
    · obtain rfl := Option.some.inj hk
      exact upserts_of_find hf
  · exact ⟨none, c, e, ⟨fun _ => ⟨hf, hr⟩, fun _ => rfl⟩, fun _ => rfl, nofun⟩
  · refine ⟨some i, created c i key, e, ⟨nofun, fun ⟨_, hr⟩ => ?_⟩, nofun, fun k hk => ?_⟩
    · have hlt := i.isLt
      obtain hn | hn := hr
      · omega
      · exact absurd hfree (UInt64.not_le.mpr hn)
    · obtain rfl := Option.some.inj hk
      exact upserts_created hf hi

end Ivshmem
