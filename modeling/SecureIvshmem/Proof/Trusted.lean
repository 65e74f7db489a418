import SecureIvshmem.Impl.Trusted

/-!
# The trusted side, in closed form

What each call of the trusted side does where nothing is undefined:
`createChannel_cases`, `trustedControl_cases` and `trustedRebalancing_cases`
list the outcomes, the last with the loop summed up (`rebalanced`). The share
of a rebalancing of `n` channels is `evenPages n` pages
(`rebalancedNumPage_toInt`, `allocatedBufferSize_toNat`), and `n` shares
leave room for one more initial channel (`share_le`).
-/

namespace Ivshmem

open SharedMem SharedMem.Word

/-! ## Creation -/

/-- The section with a channel for `key` added in slot `i`. -/
def created (c : ControlSection) (i : Fin maxChannels) (key : ChannelKey) : ControlSection :=
  { c.modify i fun _ => initChannel c key with
    lastChannelId := c.lastChannelId + 1
    freeStartOffset := c.freeStartOffset + .ofNat channelInitSize
    numActiveChannels := c.numActiveChannels + 1 }

theorem slot_eq_ok {n : Int32} {i : Fin maxChannels} (h : n.toInt = i.val) : slot n = .ok i := by
  have hs : 0 ≤ n.toInt ∧ n.toInt < maxChannels := by
    have := i.isLt
    omega
  rw [slot, dif_pos hs]
  exact congrArg Except.ok (Fin.ext (by simp only; omega))

@[simp] theorem created_controlMutex (c : ControlSection) (i : Fin maxChannels) (key : ChannelKey) :
    (created c i key).controlMutex = c.controlMutex := by
  simp only [created, ControlSection.modify_controlMutex]

/-- `ivshmem_create_channel` refuses for want of a slot or of space, or fills
the first inactive slot. -/
theorem createChannel_cases {c : ControlSection} (h0 : 0 ≤ c.numActiveChannels.toInt) (key : ChannelKey) :
    (createChannel c key = .ok (-1, c) ∧ ((maxChannels : Int) ≤ c.numActiveChannels.toInt ∨
      .ofNat dataSectionSize < c.freeStartOffset + .ofNat channelInitSize)) ∨
    ∃ i : Fin maxChannels, c.numActiveChannels.toInt = i.val ∧
      c.freeStartOffset + .ofNat channelInitSize ≤ .ofNat dataSectionSize ∧
      createChannel c key = .ok (0, created c i key) := by
  have e : (Int32.ofNat maxChannels).toInt = maxChannels := by decide
  unfold createChannel
  simp only [Int32.le_iff_toInt_le, e]
  split
  · rename_i hn; exact .inl ⟨rfl, .inl hn⟩
  · rename_i hn
    split
    · rename_i hf; exact .inl ⟨rfl, .inr hf⟩
    · rename_i hf
      have hi : c.numActiveChannels.toInt =
        (⟨c.numActiveChannels.toInt.toNat, by omega⟩ : Fin maxChannels).val := by
        simp only
        omega
      refine .inr ⟨_, hi, UInt64.not_lt.mp hf, ?_⟩
      rw [slot_eq_ok hi]
      rfl

/-- `ivshmem_trusted_control` does nothing without a request, and else clears
the request, whether or not it creates the channel. -/
theorem trustedControl_cases {c : ControlSection} (h0 : 0 ≤ c.numActiveChannels.toInt) :
    (c.hasChannelCandidate = false ∧ trustedControl c = .ok (0, c)) ∨
    (c.hasChannelCandidate = true ∧
      trustedControl c = .ok (-1, { c with hasChannelCandidate := false, controlMutex := 0 }) ∧
      ((maxChannels : Int) ≤ c.numActiveChannels.toInt ∨
        .ofNat dataSectionSize < c.freeStartOffset + .ofNat channelInitSize)) ∨
    c.hasChannelCandidate = true ∧ ∃ i : Fin maxChannels, c.numActiveChannels.toInt = i.val ∧
      c.freeStartOffset + .ofNat channelInitSize ≤ .ofNat dataSectionSize ∧
      trustedControl c = .ok (0,
        { created c i c.channelCandidate with hasChannelCandidate := false, controlMutex := 0 }) := by
  unfold trustedControl
  cases hc : c.hasChannelCandidate with
  | false => exact .inl ⟨rfl, rfl⟩
  | true =>
    obtain ⟨e, hr⟩ | ⟨i, hi, hf, e⟩ :=
      createChannel_cases (c := { c with controlMutex := 1 }) h0 c.channelCandidate
    all_goals
      rw [hc] at e
      simp only [Bool.not_true, Bool.false_eq_true, ↓reduceIte, e]
    · exact .inr (.inl ⟨trivial, rfl, hr⟩)
    · exact .inr (.inr ⟨trivial, i, hi, hf, rfl⟩)

/-! ## The even share -/

/-- The pages of an even share of the data section among `n` channels. -/
def evenPages (n : Nat) : Nat := (dataSectionSize - channelInitSize - 1) / n / pageSize

theorem evenPages_le (n : Nat) : evenPages n ≤ 1019 := by
  have h : (dataSectionSize - channelInitSize - 1) / n ≤ dataSectionSize - channelInitSize - 1 :=
    Nat.div_le_self _ _
  exact Nat.le_trans (Nat.div_le_div_right h) (by decide)

theorem le_evenPages {n : Nat} (h0 : 1 ≤ n) (h : n ≤ maxChannels) : 31 ≤ evenPages n := by
  have h' : (dataSectionSize - channelInitSize - 1) / maxChannels ≤
      (dataSectionSize - channelInitSize - 1) / n := Nat.div_le_div_left h h0
  exact Nat.le_trans (by decide) (Nat.div_le_div_right (c := pageSize) h')

/-- `n` shares leave room for an initial channel. -/
theorem share_le (n : Nat) :
    n * (evenPages n * pageSize) + channelInitSize < dataSectionSize := by
  have h : evenPages n * pageSize ≤ (dataSectionSize - channelInitSize - 1) / n := Nat.div_mul_le_self _ _
  have h' : n * (evenPages n * pageSize) ≤ dataSectionSize - channelInitSize - 1 :=
    Nat.le_trans (Nat.mul_le_mul_left n h) (Nat.mul_div_le _ _)
  simp only [dataSectionSize, ivshmemSize, channelInitSize, controlSectionSize, pageSize] at h' ⊢
  omega

section

variable {n : Int32} (h : 1 ≤ n.toInt)
include h

theorem rebalancedNumPage_toInt : (rebalancedNumPage n).toInt = evenPages n.toInt.toNat := by
  have e : ((.ofNat dataSectionSize - .ofNat channelInitSize - 1) / intToSize n / .ofNat pageSize :
      UInt64).toNat = evenPages n.toInt.toNat := by
    rw [UInt64.toNat_div, UInt64.toNat_div, intToSize_toNat (by omega)]
    rfl
  have := evenPages_le n.toInt.toNat
  rw [rebalancedNumPage, sizeToInt_toInt (by omega), e]

theorem allocatedBufferSize_toNat :
    (allocatedBufferSize n).toNat = evenPages n.toInt.toNat * pageSize := by
  have e : (rebalancedNumPage n * .ofNat pageSize).toInt = evenPages n.toInt.toNat * pageSize := by
    have := evenPages_le n.toInt.toNat
    rw [Int32.toInt_mul, rebalancedNumPage_toInt h,
      show (Int32.ofNat pageSize).toInt = (pageSize : Int) by decide]
    simp only [pageSize]
    exact Int.bmod_eq_of_le (by omega) (by omega)
  simp only [pageSize] at e ⊢
  rw [allocatedBufferSize, intToSize_toNat (by rw [e]; omega), e]
  omega

end

/-! ## Rebalancing -/

/-- The table and the free offset after `k` turns of the loop. -/
theorem foldl_rebalanceTurn (numPage : Int32) (size : UInt64) (tmp : Fin maxChannels → Channel)
    {c : ControlSection} (hc : c.freeStartOffset = 0) : ∀ k ≤ maxChannels,
    ((List.finRange maxChannels).take k).foldl (rebalanceTurn numPage size tmp) c =
      { c with
        freeStartOffset := .ofNat k * size
        channels := fun i =>
          if i.val < k then rebalanceChannel numPage size (.ofNat i.val * size) (tmp i)
          else c.channels i }
  | 0, _ => by cases c; simp_all
  | k + 1, hk => by
    have hl : k < (List.finRange maxChannels).length := by rw [List.length_finRange]; omega
    rw [List.take_succ_eq_append_getElem hl, List.foldl_append,
      foldl_rebalanceTurn numPage size tmp hc k (by omega), List.foldl_cons, List.foldl_nil,
        List.getElem_finRange]
    simp only [rebalanceTurn, ControlSection.modify]
    congr 1
    · rw [UInt64.ofNat_add, UInt64.add_mul]; simp
    · funext i
      by_cases hi : i = ⟨k, by omega⟩
      · subst hi; simp
      · have hne : i.val ≠ k := fun e => hi (Fin.ext e)
        have : i.val < k + 1 ↔ i.val < k := by omega
        simp [Function.update_of_ne hi, this]

/-- The section after a rebalancing that rebuilds the table. -/
def rebalanced (c : ControlSection) : ControlSection :=
  let n := c.numActiveChannels
  { c with
    freeStartOffset := .ofNat n.toInt.toNat * allocatedBufferSize n
    channels := fun i =>
      if (i.val : Int) < n.toInt then
        rebalanceChannel (rebalancedNumPage n) (allocatedBufferSize n)
          (.ofNat i.val * allocatedBufferSize n) (c.channels i)
      else .zero
    controlMutex := 0 }

/-- Whether a rebalancing finds the table balanced: it looks at channel 0
only. -/
def balanced (c : ControlSection) : Bool :=
  allocatedBufferSize c.numActiveChannels == (c.channels 0).bufSize

/-- The outcomes of `ivshmem_trusted_rebalancing` on a table of at most 32
channels. -/
theorem trustedRebalancing_cases {c : ControlSection} (h : c.numActiveChannels.toInt ≤ maxChannels)
    (malloc : Bool) :
    (c.numActiveChannels.toInt ≤ 0 ∧ trustedRebalancing malloc c = .ok (0, c)) ∨
    (0 < c.numActiveChannels.toInt ∧ balanced c = true ∧
      trustedRebalancing malloc c = .ok (0, { c with controlMutex := 0 })) ∨
    (0 < c.numActiveChannels.toInt ∧ balanced c = false ∧ malloc = false ∧
      trustedRebalancing malloc c = .ok (-1, { c with controlMutex := 1 })) ∨
    (0 < c.numActiveChannels.toInt ∧ balanced c = false ∧ malloc = true ∧
      trustedRebalancing malloc c = .ok (0, rebalanced c)) := by
  have e : (Int32.ofNat maxChannels).toInt = maxChannels := by decide
  unfold trustedRebalancing balanced
  simp only [Int32.le_iff_toInt_le, Int32.lt_iff_toInt_lt, e, Int32.toInt_zero, beq_iff_eq,
    beq_eq_false_iff_ne]
  by_cases h0 : c.numActiveChannels.toInt ≤ 0
  · exact .inl ⟨h0, by simp only [h0, ↓reduceIte]⟩
  by_cases hb : allocatedBufferSize c.numActiveChannels = (c.channels 0).bufSize
  · exact .inr (.inl ⟨by omega, hb, by simp only [h0, hb, ↓reduceIte]⟩)
  have hp : rebalancedNumPage c.numActiveChannels ≠ 0 := fun e0 => by
    have e1 := rebalancedNumPage_toInt (n := c.numActiveChannels) (by omega)
    have := le_evenPages (n := c.numActiveChannels.toInt.toNat) (by omega) (by omega)
    rw [e0, Int32.toInt_zero] at e1
    omega
  have hm : ¬ (maxChannels : Int) < c.numActiveChannels.toInt := by omega
  cases malloc with
  | false => exact .inr (.inr (.inl ⟨by omega, hb, rfl, by simp [h0, hb]⟩))
  | true =>
    refine .inr (.inr (.inr ⟨by omega, hb, rfl, ?_⟩))
    simp only [h0, hb, hp, hm, ↓reduceIte, Bool.not_true, Bool.false_eq_true]
    rw [foldl_rebalanceTurn (c := { c with freeStartOffset := 0, controlMutex := 1 }) _ _ _ rfl _
      (by omega)]
    simp only [rebalanced, clearFrom]
    congr 3
    funext i
    split
    · rename_i hi
      rw [if_pos (by omega)]
    · rfl

end Ivshmem
