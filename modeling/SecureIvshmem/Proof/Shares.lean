import SecureIvshmem.Proof.Table

/-!
# Even shares

At any time the first `k` channels have the even share of `k`, for the last
number `k` of channels that were given one, and the later ones the initial
size (`SharedOut`). No two numbers of channels have the same share
(`evenPages_inj`), so a rebalancing that finds channel 0 with the share of
`n` finds all `n` channels with it, although it looks at no other:
`evenPartition_of_reachable`.
-/

namespace Ivshmem

open SharedMem SharedMem.Word

/-- `A`, the even share of `n` channels in bytes. -/
def share (n : Nat) : Nat := evenPages n * pageSize

/-- Different numbers of channels have different shares. -/
theorem evenPages_inj {k n : Nat} (hk : 1 ≤ k) (hk' : k ≤ maxChannels) (hn : 1 ≤ n)
    (hn' : n ≤ maxChannels) (h : evenPages k = evenPages n) : k = n := by
  have all : ∀ k n : Fin (maxChannels + 1), 1 ≤ k.val → 1 ≤ n.val → evenPages k.val = evenPages n.val →
      k.val = n.val := by decide +kernel
  exact all ⟨k, Nat.lt_succ_of_le hk'⟩ ⟨n, Nat.lt_succ_of_le hn'⟩ hk hn h

/-- The share of fewer channels is no smaller. -/
theorem evenPages_anti {k n : Nat} (hk : 1 ≤ k) (h : k ≤ n) : evenPages n ≤ evenPages k :=
  Nat.div_le_div_right (Nat.div_le_div_left h hk)

/-- No share is the initial size. -/
theorem share_ne_init {n : Nat} (hn : 1 ≤ n) (hn' : n ≤ maxChannels) : share n ≠ channelInitSize := by
  have := le_evenPages hn hn'
  simp only [share, channelInitSize, pageSize]
  omega

/-- The first `k` active channels have the share of `k`, and the others the
initial size. -/
structure SharedOut (k : Nat) (c : ControlSection) : Prop where
  le : (k : Int) ≤ c.numActiveChannels.toInt
  shared : ∀ i, c.Active i → i.val < k → (c.channels i).bufSize.toNat = share k
  initial : ∀ i, c.Active i → k ≤ i.val → (c.channels i).bufSize.toNat = channelInitSize

theorem TableStep.sharedOut {c c' : ControlSection} (h : TableStep c c') {k : Nat} (hs : SharedOut k c) :
    ∃ k', SharedOut k' c' := by
  cases h with
  | kept count _ _ entry =>
    have ha : ∀ i, c'.Active i → c.Active i :=
      fun i hi => by simpa only [ControlSection.Active, count] using hi
    refine ⟨k, count ▸ hs.le, fun i hi hik => ?_, fun i hi hik => ?_⟩
    · rw [(entry i).bufSize]
      exact hs.shared i (ha i hi) hik
    · rw [(entry i).bufSize]
      exact hs.initial i (ha i hi) hik
  | added i key flag mutex slot eq =>
    have hn : (created c i key).numActiveChannels.toInt = i.val + 1 := created_numActiveChannels slot
    have hle := hs.le
    subst eq
    refine ⟨k, ?_, fun j hj hjk => ?_, fun j hj hjk => ?_⟩
    · show (k : Int) ≤ (created c i key).numActiveChannels.toInt
      omega
    · have hj : (created c i key).Active j := hj
      show ((created c i key).channels j).bufSize.toNat = share k
      obtain hj | rfl := (created_active slot).mp hj
      · rw [created_channels_of_active slot hj]
        exact hs.shared j hj hjk
      · omega
    · have hj : (created c i key).Active j := hj
      show ((created c i key).channels j).bufSize.toNat = channelInitSize
      obtain hj | rfl := (created_active slot).mp hj
      · rw [created_channels_of_active slot hj]
        exact hs.initial j hj hjk
      · rw [created_channels_self]
        rfl
  | rebuilt pos eq =>
    subst eq
    refine ⟨c.numActiveChannels.toInt.toNat, ?_, fun i hi _ => ?_, fun i hi hik => ?_⟩
    · show (c.numActiveChannels.toInt.toNat : Int) ≤ c.numActiveChannels.toInt
      omega
    · rw [rebalanced_channels (rebalanced_active.mp hi)]
      exact allocatedBufferSize_toNat (by omega)
    · have hi' : (i.val : Int) < c.numActiveChannels.toInt := rebalanced_active.mp hi
      omega

theorem sharedOut_afterOps (m : Shm) (ops : List Op) : ∃ k, SharedOut k (afterOps m ops).ctr := by
  refine (run_inv (I := fun m : Shm => AllocInv m.ctr ∧ ∃ k, SharedOut k m.ctr) (fun m op h => ?_)
    ⟨allocInv_init m, 0, ?_⟩ ops).2
  · obtain ⟨ha, k, hs⟩ := h
    exact ⟨ha.apply op, (ha.tableStep op).sharedOut hs⟩
  · refine ⟨by simp [initControlSection], fun i _ hi => absurd hi (Nat.not_lt_zero _), fun i hi => ?_⟩
    have e : (0 : Int32).toInt = 0 := by decide
    simp only [ControlSection.Active, initControlSection, e] at hi
    omega

/-- Channels of one size stand one after another. -/
theorem AllocInv.frontier_of_size {c : ControlSection} (h : AllocInv c) {k A : Nat}
    (hk : (k : Int) ≤ c.numActiveChannels.toInt)
    (hA : ∀ i, c.Active i → i.val < k → (c.channels i).bufSize.toNat = A) :
    ∀ {j : Nat}, j ≤ k → frontier c j = j * A
  | 0, _ => by rw [Nat.zero_mul]; rfl
  | j + 1, hj => by
    have hm := h.le_max
    have ha : c.Active ⟨j, by omega⟩ := by
      show ((j : Nat) : Int) < c.numActiveChannels.toInt
      omega
    have ho := h.offset _ ha
    have ih := h.frontier_of_size hk hA (Nat.le_of_succ_le hj)
    simp only at ho
    rw [frontier_succ c ⟨j, by omega⟩, endOf, ho, ih, hA _ ha hj, Nat.add_mul, Nat.one_mul]

/-! ## The even partition -/

/-- Every active channel has the even share. -/
def EvenShares (c : ControlSection) : Prop :=
  ∀ i, c.Active i → (c.channels i).bufSize.toNat = share c.numActiveChannels.toInt.toNat

section

variable {c : ControlSection} (h : AllocInv c) (h1 : 1 ≤ c.numActiveChannels.toInt)
include h h1

/-- Where channel 0 has the share of all, all have. -/
theorem EvenShares.of_balanced {k : Nat} (hs : SharedOut k c) (hb : balanced c = true) :
    EvenShares c := by
  have hle := h.le_max
  have hk := hs.le
  have ha : c.Active 0 := by
    show ((0 : Nat) : Int) < c.numActiveChannels.toInt
    omega
  have h0 : (c.channels 0).bufSize.toNat = share c.numActiveChannels.toInt.toNat := by
    rw [← eq_of_beq hb]
    exact allocatedBufferSize_toNat h1
  obtain rfl | hpos := Nat.eq_zero_or_pos k
  · have := hs.initial 0 ha (Nat.zero_le _)
    exact absurd (h0.symm.trans this) (share_ne_init (by omega) (by omega))
  · have hk0 := (hs.shared 0 ha hpos).symm.trans h0
    have hp : evenPages k = evenPages c.numActiveChannels.toInt.toNat :=
      Nat.eq_of_mul_eq_mul_right (by decide) hk0
    obtain rfl := evenPages_inj hpos (by omega) (by omega) (by omega) hp
    intro i hi
    have hi' : (i.val : Int) < c.numActiveChannels.toInt := hi
    exact hs.shared i hi (by omega)

variable (he : EvenShares c)
include he

omit h1 in
/-- Even shares stand one after another. -/
theorem EvenShares.frontier {j : Nat} (hj : (j : Int) ≤ c.numActiveChannels.toInt) :
    frontier c j = j * share c.numActiveChannels.toInt.toNat := by
  have h0 := h.nonneg
  exact h.frontier_of_size (k := c.numActiveChannels.toInt.toNat) (by omega) (fun i hi _ => he i hi)
    (by omega)

omit h in
theorem EvenShares.balanced : balanced c = true := by
  have ha : c.Active 0 := by
    show ((0 : Nat) : Int) < c.numActiveChannels.toInt
    omega
  refine beq_iff_eq.mpr (UInt64.toNat_inj.mp ?_)
  rw [he 0 ha]
  exact allocatedBufferSize_toNat h1

omit h1 in
theorem EvenShares.free : c.freeStartOffset.toNat =
    c.numActiveChannels.toInt.toNat * share c.numActiveChannels.toInt.toNat := by
  have h0 := h.nonneg
  rw [h.free, EvenShares.frontier h he (by omega)]

omit h1 in
/-- A pending candidate gets a channel unless all slots are taken. -/
theorem EvenShares.trustedControl (hc : c.hasChannelCandidate = true) :
    ∃ r c', Ivshmem.trustedControl c = .ok (r, c') ∧
    (r = 0 ↔ c.numActiveChannels.toInt < maxChannels) := by
  have hfree := EvenShares.free h he
  have hroom := share_le c.numActiveChannels.toInt.toNat
  have hle := h.free_le
  obtain ⟨hf, -⟩ | ⟨-, e, hr⟩ | ⟨-, i, hi, -, e⟩ := trustedControl_cases h.nonneg
  · rw [hc] at hf
    cases hf
  · refine ⟨-1, _, e, fun h0 => absurd h0 (by decide), fun hlt => ?_⟩
    obtain hr | hr := hr
    · omega
    · rw [UInt64.lt_iff_toNat_lt, add_channelInitSize_toNat hle, hfree] at hr
      exact absurd (Nat.lt_trans hr hroom) (lt_irrefl dataSectionSize)
  · refine ⟨0, _, e, fun _ => ?_, fun _ => rfl⟩
    have := i.isLt
    omega

end

/-- In a state reached from `ivshmem_init_control_section` with `n` active
channels, a rebalancing that returns 0 leaves every channel with the even
share `A`, one after another from offset 0; a second call changes nothing, and
one more channel can be created just if a slot is left. -/
theorem evenPartition_of_reachable (m : Shm) (ops : List Op) (malloc : Bool) (c' : ControlSection)
    (h1 : 1 ≤ (afterOps m ops).ctr.numActiveChannels.toInt)
    (hret : trustedRebalancing malloc (afterOps m ops).ctr = .ok (0, c')) :
    let n := (afterOps m ops).ctr.numActiveChannels.toInt.toNat
    let A := (dataSectionSize - channelInitSize - 1) / n / pageSize * pageSize
    (∀ i : Fin maxChannels, i.val < n →
      (c'.channels i).bufSize.toNat = A ∧ (c'.channels i).bufOffset.toNat = i.val * A) ∧
    c'.freeStartOffset.toNat = n * A ∧
    (∀ malloc', trustedRebalancing malloc' c' = .ok (0, c')) ∧
    ∀ key, ∃ r c'',
      trustedControl { c' with hasChannelCandidate := true, channelCandidate := key } = .ok (r, c'') ∧
      (r = 0 ↔ n < maxChannels) := by
  intro n A
  have h : AllocInv (afterOps m ops).ctr := allocInv_afterOps m ops
  obtain ⟨k, hs⟩ := sharedOut_afterOps m ops
  obtain ⟨hn, hmutex, ha, he⟩ : c'.numActiveChannels = (afterOps m ops).ctr.numActiveChannels ∧
      c'.controlMutex = 0 ∧ AllocInv c' ∧ EvenShares c' := by
    obtain ⟨h0, -⟩ | ⟨-, hb, e⟩ | ⟨-, -, -, e⟩ | ⟨hpos, -, -, e⟩ :=
      trustedRebalancing_cases h.le_max malloc
    · omega
    · rw [e] at hret
      cases hret
      have he : EvenShares (afterOps m ops).ctr := .of_balanced h h1 hs hb
      exact ⟨rfl, rfl, h.of_eq rfl rfl rfl, he⟩
    · rw [e] at hret
      cases hret
    · rw [e] at hret
      cases hret
      refine ⟨rfl, rfl, allocInv_rebalanced h hpos, fun i hi => ?_⟩
      rw [rebalanced_channels (rebalanced_active.mp hi)]
      exact allocatedBufferSize_toNat h1
  have hn' : c'.numActiveChannels.toInt.toNat = n := by rw [hn]
  have h1' : 1 ≤ c'.numActiveChannels.toInt := by rw [hn]; exact h1
  have hA : share n = A := rfl
  refine ⟨fun i hi => ?_, ?_, fun malloc' => ?_, fun key => ?_⟩
  · have hact : c'.Active i := by
      show (i.val : Int) < c'.numActiveChannels.toInt
      omega
    refine ⟨by rw [he i hact, hn', hA], ?_⟩
    rw [ha.offset i hact, EvenShares.frontier ha he (by omega), hn', hA]
  · rw [EvenShares.free ha he, hn', hA]
  · have hb := EvenShares.balanced h1' he
    obtain ⟨h0, -⟩ | ⟨-, -, e⟩ | ⟨-, hb', -⟩ | ⟨-, hb', -⟩ := trustedRebalancing_cases ha.le_max malloc'
    · omega
    · rw [e, ← hmutex]
    · rw [hb] at hb'
      cases hb'
    · rw [hb] at hb'
      cases hb'
  · obtain ⟨r, c'', e, hr⟩ := EvenShares.trustedControl
      (c := { c' with hasChannelCandidate := true, channelCandidate := key })
        (ha.of_eq rfl rfl rfl) he rfl
    refine ⟨r, c'', e, hr.trans ?_⟩
    show c'.numActiveChannels.toInt < maxChannels ↔ n < maxChannels
    omega

/-- `evenPartition_of_reachable` for two channels: each gets 509 pages. -/
theorem evenPartition_of_reachable_two :
    ∃ c', trustedRebalancing true (afterOps zeroShm twoChannels).ctr = .ok (0, c') ∧
    (c'.channels 1).bufSize.toNat = 509 * pageSize ∧
    (c'.channels 1).bufOffset.toNat = 509 * pageSize := by
  have h1 : 1 ≤ (afterOps zeroShm twoChannels).ctr.numActiveChannels.toInt := by decide +kernel
  have hle : (afterOps zeroShm twoChannels).ctr.numActiveChannels.toInt ≤ maxChannels := by decide +kernel
  have hb : balanced (afterOps zeroShm twoChannels).ctr = false := by decide +kernel
  obtain ⟨h0, -⟩ | ⟨-, hb', -⟩ | ⟨-, -, hm, -⟩ | ⟨-, -, -, e⟩ := trustedRebalancing_cases hle true
  · omega
  · rw [hb] at hb'
    cases hb'
  · cases hm
  · have hA : (dataSectionSize - channelInitSize - 1) /
        (afterOps zeroShm twoChannels).ctr.numActiveChannels.toInt.toNat / pageSize * pageSize =
        509 * pageSize := by decide +kernel
    have h := (evenPartition_of_reachable zeroShm twoChannels true _ h1 e).1 1 (by decide +kernel)
    rw [hA] at h
    exact ⟨_, e, h.1, h.2.trans (Nat.one_mul _)⟩

end Ivshmem
