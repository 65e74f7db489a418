import SecureIvshmem.Impl.Rebalancer
import SecureIvshmem.Proof.Isolation

/-!
# Exclusion by `control_mutex`

A rebalancing, statement by statement, with any number of clients. The table
while it is being rewritten (`Rewriting`): some entries have all their
assignments, one has the first few, the rest are as copied to `p_chan_tmp`.
Clients test `control_mutex` once in a turn and nothing tells the trusted side
of a turn under way, so exclusion holds just where no client is in its turn
when the mutex is taken (`Quiescent`); then it holds in every state
(`exclusion_of_quiescent`).
-/

namespace Ivshmem

open SharedMem SharedMem.Word

/-! ## The table while it is rewritten -/

/-- How many assignments of its turn come before this one. -/
def EntryWrite.rank : EntryWrite → Nat
  | .entry => 0
  | .bufOffset => 1
  | .bufSize => 2
  | .freeStart => 3
  | .tail => 4
  | .head => 5
  | .numPage => 6
  | .headTouch => 7

/-- How many assignments entry `j` has had, when entry `k` has had `r`. -/
def entryRank (k r j : Nat) : Nat := if j < k then 8 else if j = k then r else 0

/-- An entry of a channel that was `old`, after `r` assignments of its turn,
the `j`-th. -/
structure EntryAt (old : Channel) (numPage : Int32) (size : UInt64) (j r : Nat) (ch : Channel) :
    Prop where
  key : ch.key = old.key
  bufOffset : 2 ≤ r → ch.bufOffset = .ofNat j * size
  bufSize : 3 ≤ r → ch.bufSize = size
  tail : ch.tail = if 5 ≤ r then old.tail % intToU32 numPage else old.tail
  head : ch.head = if 6 ≤ r then old.head % intToU32 numPage else old.head
  numPage : 7 ≤ r → ch.numPage = numPage

/-- The table when entry `k` has had `r` assignments. -/
structure Rewriting (c : ControlSection) (t : Rebalancer) (k r : Nat) : Prop where
  pos : 0 < c.numActiveChannels.toInt
  le_max : c.numActiveChannels.toInt ≤ maxChannels
  numPage : t.numPage = rebalancedNumPage c.numActiveChannels
  size : t.size = allocatedBufferSize c.numActiveChannels
  le : (k : Int) ≤ c.numActiveChannels.toInt
  free : c.freeStartOffset = .ofNat (if 4 ≤ r then k + 1 else k) * t.size
  entries : ∀ j, c.Active j →
    EntryAt (t.tmp j) t.numPage t.size j.val (entryRank k r j.val) (c.channels j)

/-- The program counter does not matter to the table. -/
theorem Rewriting.goto {c : ControlSection} {t : Rebalancer} {k r : Nat} (h : Rewriting c t k r)
    (pc : RebalancePc) :
    Rewriting c { t with pc := pc } k r :=
  ⟨h.pos, h.le_max, h.numPage, h.size, h.le, h.free, h.entries⟩

theorem entryRank_self (k r : Nat) : entryRank k r k = r := by simp [entryRank]

theorem entryRank_of_ne {k r r' j : Nat} (h : j ≠ k) : entryRank k r j = entryRank k r' j := by
  simp [entryRank, h]

/-- An entry with all its assignments is done. -/
theorem entryRank_done (k j : Nat) : entryRank k 8 j = entryRank (k + 1) 0 j := by
  simp only [entryRank]
  split <;> split <;> grind

section

variable {c : ControlSection} {t : Rebalancer} {i : Fin maxChannels} {w : EntryWrite}

theorem writeEntry_active : (writeEntry t c i w).numActiveChannels = c.numActiveChannels := by
  cases w <;> rfl

theorem writeEntry_mutex : (writeEntry t c i w).controlMutex = c.controlMutex := by
  cases w <;> rfl

theorem writeEntry_channels_of_ne {j : Fin maxChannels} (h : j ≠ i) :
    (writeEntry t c i w).channels j = c.channels j := by
  cases w <;> simp [writeEntry, ControlSection.modify_channels_of_ne, h]

theorem writeEntry_free
    (hf : c.freeStartOffset = .ofNat (if 4 ≤ w.rank then i.val + 1 else i.val) * t.size) :
    (writeEntry t c i w).freeStartOffset =
    .ofNat (if 4 ≤ w.rank + 1 then i.val + 1 else i.val) * t.size := by
  cases w
  case freeStart =>
    simp only [writeEntry, EntryWrite.rank] at hf ⊢
    rw [hf]
    simp [UInt64.add_mul]
  all_goals exact hf

/-- An assignment of the loop, seen on its entry. -/
theorem writeEntry_entry
    (hf : c.freeStartOffset = .ofNat (if 4 ≤ w.rank then i.val + 1 else i.val) * t.size)
    (h : EntryAt (t.tmp i) t.numPage t.size i.val w.rank (c.channels i)) :
    EntryAt (t.tmp i) t.numPage t.size i.val (w.rank + 1) ((writeEntry t c i w).channels i) := by
  obtain ⟨hk, ho, hs, ht, hh, hn⟩ := h
  cases w <;> simp only [EntryWrite.rank] at * <;>
    refine ⟨?_, ?_, ?_, ?_, ?_, ?_⟩ <;> simp_all [writeEntry]

/-- An assignment of the loop, seen on the table. -/
theorem Rewriting.write (h : Rewriting c t i.val w.rank) (hi : c.Active i) :
    Rewriting (writeEntry t c i w) t i.val (w.rank + 1) := by
  refine ⟨by rw [writeEntry_active]; exact h.pos, by rw [writeEntry_active]; exact h.le_max,
    by rw [writeEntry_active]; exact h.numPage, by rw [writeEntry_active]; exact h.size,
    by rw [writeEntry_active]; exact h.le, writeEntry_free h.free, fun j hj => ?_⟩
  have hj' : c.Active j := by simpa only [ControlSection.Active, writeEntry_active] using hj
  have hej := h.entries j hj'
  by_cases hji : j = i
  · subst hji
    rw [entryRank_self] at hej ⊢
    exact writeEntry_entry h.free hej
  · rw [writeEntry_channels_of_ne hji, ← entryRank_of_ne (r := w.rank) fun e => hji (Fin.ext e)]
    exact hej

/-- The last assignment of a turn. -/
theorem Rewriting.turn {k : Nat} (h : Rewriting c t k 8) (hk : (k : Int) < c.numActiveChannels.toInt) :
    Rewriting c t (k + 1) 0 :=
  ⟨h.pos, h.le_max, h.numPage, h.size, by omega, h.free, fun j hj => by
    rw [← entryRank_done]; exact h.entries j hj⟩

/-- The table when every entry is done. -/
theorem Rewriting.alloc {k : Nat} (h : Rewriting c t k 0) (hk : (k : Int) = c.numActiveChannels.toInt) :
    AllocInv c := by
  have hp := rebalancedNumPage_toInt (n := c.numActiveChannels) (by have := h.pos; omega)
  have hs := allocatedBufferSize_toNat (n := c.numActiveChannels) (by have := h.pos; omega)
  have hge := le_evenPages (n := c.numActiveChannels.toInt.toNat) (by have := h.pos; omega)
    (by have := h.le_max; omega)
  have hfree := h.free
  rw [if_neg (by omega), h.size, show k = c.numActiveChannels.toInt.toNat by omega] at hfree
  refine allocInv_of_shares h.pos h.le_max hfree fun j hj => ?_
  have hj' : (j.val : Int) < c.numActiveChannels.toInt := hj
  have he := h.entries j hj
  rw [show entryRank k 0 j.val = 8 by simp only [entryRank]; rw [if_pos (by omega)]] at he
  have hn := (he.numPage (by omega)).trans h.numPage
  have hhead := he.head
  have htail := he.tail
  rw [if_pos (by omega), h.numPage, ← hn] at hhead htail
  exact ⟨(he.bufOffset (by omega)).trans (by rw [h.size]), (he.bufSize (by omega)).trans h.size,
    channelOk_of_mod (by rw [hn]; omega) ((he.bufSize (by omega)).trans h.size)
      (by rw [hs, hn, hp, Int.natCast_mul]) hhead htail⟩

end

/-- What holds of the table at each statement of a rebalancing. -/
def TableOk (c : ControlSection) (t : Rebalancer) : Prop :=
  match t.pc with
  | .idle | .unlock => AllocInv c
  | .lock | .share => AllocInv c ∧ 0 < c.numActiveChannels.toInt
  | .compare | .malloc | .snapshot => AllocInv c ∧ 0 < c.numActiveChannels.toInt ∧
      t.numPage = rebalancedNumPage c.numActiveChannels ∧ t.size = allocatedBufferSize c.numActiveChannels
  | .clearFree => Rewriting { c with freeStartOffset := 0 } t 0 0
  | .test k => Rewriting c t k 0
  | .write w i => c.Active i ∧ Rewriting c t i.val w.rank
  | .setActive k | .clear k => (k : Int) = c.numActiveChannels.toInt ∧ Rewriting c t k 0
  | .fault _ => False

/-- Between `control_mutex = 1` and `control_mutex = 0`. -/
def RebalancePc.locked : RebalancePc → Bool
  | .idle | .lock => false
  | _ => true

/-- The counter that a loop over all channels ends with. -/
theorem ofNat_count {n : Int32} {k : Nat} (hn : n.toInt ≤ maxChannels) (hk : (k : Int) = n.toInt) :
    Int32.ofNat k = n := by
  simp only [maxChannels] at hn
  refine Int32.toInt_inj.mp ?_
  rw [Int32.toInt_ofNat_of_lt (by omega)]
  exact hk

/-- The count of active channels, as the loop compares it. -/
theorem lt_count {n : Int32} {k : Nat} (hn : 0 < n.toInt) :
    k < (intToU32 n).toNat ↔ (k : Int) < n.toInt := by
  rw [intToU32_toNat (by omega)]
  omega

theorem rebalanceStep_table {c : ControlSection} {t : Rebalancer} (malloc : Bool) (h : TableOk c t) :
    TableOk (rebalanceStep malloc c t).1 (rebalanceStep malloc c t).2 := by
  unfold TableOk at h
  unfold rebalanceStep
  cases e : t.pc <;> rw [e] at h <;> simp only at h ⊢
  case idle =>
    split
    · exact h
    · rename_i hn
      rw [Int32.not_le, Int32.lt_iff_toInt_lt] at hn
      exact ⟨h, hn⟩
  case lock => exact ⟨h.1.of_eq rfl rfl rfl, h.2⟩
  case share => exact ⟨h.1, h.2, rfl, rfl⟩
  case compare =>
    split
    · exact h.1
    · exact h
  case malloc =>
    split
    · exact h
    · exact h.1
  case snapshot =>
    obtain ⟨ha, hpos, hp, hs⟩ := h
    have hle := ha.le_max
    rw [if_neg
      (by rw [Int32.lt_iff_toInt_lt, show (Int32.ofNat maxChannels).toInt = maxChannels from rfl]; omega)]
    refine ⟨hpos, hle, hp, hs, Int.le_of_lt hpos, ?_, fun j hj => ?_⟩
    · simp
    · rw [show entryRank 0 0 j.val = 0 by simp [entryRank]]
      exact ⟨rfl, by omega, by omega, rfl, rfl, by omega⟩
  case clearFree => exact h.goto _
  case test k =>
    have hle := h.le_max
    split
    · rename_i hk
      rw [lt_count h.pos] at hk
      rw [dif_pos (by omega)]
      exact ⟨hk, h.goto _⟩
    · rename_i hk
      rw [lt_count h.pos] at hk
      exact ⟨Int.le_antisymm h.le (Int.not_lt.mp hk), h.goto _⟩
  case write w i =>
    obtain ⟨hi, h⟩ := h
    have hp := rebalancedNumPage_toInt (n := c.numActiveChannels) (by have := h.pos; omega)
    have hge := le_evenPages (n := c.numActiveChannels.toInt.toNat) (by have := h.pos; omega)
      (by have := h.le_max; omega)
    have hne : t.numPage ≠ 0 := fun e0 => by
      rw [← h.numPage, e0, show (0 : Int32).toInt = 0 from rfl] at hp
      omega
    rw [if_neg fun hf => hne hf.2]
    have hi' : (i.val : Int) < (writeEntry t c i w).numActiveChannels.toInt := by
      rw [writeEntry_active]; exact hi
    have hw := h.write hi
    cases w
    case headTouch => exact (hw.turn hi').goto _
    all_goals exact ⟨hi', hw.goto _⟩
  case setActive k =>
    obtain ⟨hk, h⟩ := h
    rw [ofNat_count h.le_max hk]
    exact ⟨hk, h.goto _⟩
  case clear k =>
    obtain ⟨hk, h⟩ := h
    rw [ofNat_count h.le_max hk]
    exact (h.alloc hk).of_active rfl rfl fun i hi => if_pos hi
  case unlock => exact h.of_eq rfl rfl rfl

/-- No statement of a rebalancing changes which channel a key finds. -/
theorem rebalanceStep_find {c : ControlSection} {t : Rebalancer} (malloc : Bool) (h : TableOk c t)
    (key : ChannelKey) :
    findChannel (rebalanceStep malloc c t).1 key = findChannel c key := by
  unfold TableOk at h
  unfold rebalanceStep
  cases e : t.pc <;> rw [e] at h <;> simp only at h ⊢
  case idle => split <;> rfl
  case malloc => split <;> rfl
  case snapshot => split <;> rfl
  case test k =>
    split
    · split <;> rfl
    · rfl
  case write w i =>
    split
    · rfl
    · refine findChannel_congr writeEntry_active (fun j hj => ?_) key
      by_cases hji : j = i
      · subst hji
        have he := h.2.entries j hj
        have hw := h.2.write h.1
        exact ((hw.entries j
          (by simpa only [ControlSection.Active, writeEntry_active] using hj)).key).trans he.key.symm
      · rw [writeEntry_channels_of_ne hji]
  case setActive k => rw [ofNat_count h.2.le_max h.1]
  case clear k =>
    rw [ofNat_count h.2.le_max h.1]
    have hn : (clearFrom c c.numActiveChannels).numActiveChannels = c.numActiveChannels := rfl
    exact findChannel_congr hn (fun j hj => congrArg Channel.key (if_pos hj)) key
  all_goals rfl

section

variable {c : ControlSection} {t : Rebalancer} (malloc : Bool)

/-- A rebalancing holds `control_mutex` until it clears it, or for ever if
`malloc` fails. -/
theorem rebalanceStep_locked (h : t.pc.locked = true → c.controlMutex ≠ 0)
    (hl : (rebalanceStep malloc c t).2.pc.locked = true) :
    (rebalanceStep malloc c t).1.controlMutex ≠ 0 := by
  unfold rebalanceStep at hl ⊢
  cases e : t.pc <;> rw [e] at h <;> simp only [e] at hl ⊢
  case idle =>
    by_cases hn : c.numActiveChannels ≤ 0 <;> simp [hn, RebalancePc.locked] at hl
  case lock => decide
  case malloc => cases malloc <;> exact h rfl
  case snapshot => split <;> exact h rfl
  case test k =>
    split
    · split <;> exact h rfl
    · exact h rfl
  case write w i =>
    split
    · exact h rfl
    · rw [writeEntry_mutex]
      exact h rfl
  case unlock => cases hl
  all_goals exact h rfl

/-- A rebalancing sets `control_mutex` in one place only. -/
theorem rebalanceStep_mutex (hpc : t.pc ≠ .lock) (hm : (rebalanceStep malloc c t).1.controlMutex ≠ 0) :
    c.controlMutex ≠ 0 := by
  unfold rebalanceStep at hm
  cases e : t.pc <;> simp only [e] at hm
  case lock => exact absurd e hpc
  case idle => split at hm <;> exact hm
  case malloc => split at hm <;> exact hm
  case snapshot => split at hm <;> exact hm
  case test k =>
    split at hm
    · split at hm <;> exact hm
    · exact hm
  case write w i =>
    split at hm
    · exact hm
    · rwa [writeEntry_mutex] at hm
  case unlock => exact absurd rfl hm
  all_goals exact hm

/-- Outside of the lock a rebalancing leaves the table alone. -/
theorem rebalanceStep_channels (h : t.pc.locked = false) :
    (rebalanceStep malloc c t).1.channels = c.channels := by
  unfold rebalanceStep
  cases e : t.pc
  case idle => simp only; split <;> rfl
  case lock => rfl
  all_goals simp [e, RebalancePc.locked] at h

end

/-! ## A client while the table is rewritten -/

section

variable {m m' : Shm} {i : Fin maxChannels} (hw : Within i false m m')
include hw

theorem Within.head_eq (j : Fin maxChannels) : (m'.ctr.channels j).head = (m.ctr.channels j).head := by
  by_cases hj : j = i
  · subst hj
    exact hw.head.resolve_right fun h => Bool.false_ne_true h.1
  · rw [hw.others j hj]

theorem Within.tail_eq (j : Fin maxChannels) : (m'.ctr.channels j).tail = (m.ctr.channels j).tail := by
  by_cases hj : j = i
  · subst hj
    exact hw.tail.resolve_right fun h => Bool.false_ne_true h.1
  · rw [hw.others j hj]

/-- A client that is not in its turn changes no field that a rebalancing
keeps. -/
theorem Within.entryAt {old : Channel} {numPage : Int32} {size : UInt64} {k r : Nat} {j : Fin maxChannels}
    (h : EntryAt old numPage size k r (m.ctr.channels j)) :
    EntryAt old numPage size k r (m'.ctr.channels j) :=
  ⟨by rw [hw.key]; exact h.key, by rw [hw.bufOffset]; exact h.bufOffset,
    by rw [hw.bufSize]; exact h.bufSize, by rw [hw.tail_eq]; exact h.tail,
    by rw [hw.head_eq]; exact h.head, by rw [hw.numPage]; exact h.numPage⟩

theorem Within.active_iff (j : Fin maxChannels) : m'.ctr.Active j ↔ m.ctr.Active j := by
  simp only [ControlSection.Active, hw.active]

theorem Within.rewriting {t : Rebalancer} {k r : Nat} (h : Rewriting m.ctr t k r) :
    Rewriting m'.ctr t k r :=
  ⟨hw.active ▸ h.pos, hw.active ▸ h.le_max, hw.active ▸ h.numPage, hw.active ▸ h.size, hw.active ▸ h.le,
    hw.free.trans h.free, fun j hj => hw.entryAt (h.entries j ((hw.active_iff j).mp hj))⟩

theorem Within.rewriting_zero {t : Rebalancer} (h : Rewriting { m.ctr with freeStartOffset := 0 } t 0 0) :
    Rewriting { m'.ctr with freeStartOffset := 0 } t 0 0 :=
  ⟨hw.active ▸ h.pos, hw.active ▸ h.le_max, hw.active ▸ h.numPage, hw.active ▸ h.size, hw.active ▸ h.le,
    h.free, fun j hj => hw.entryAt (h.entries j ((hw.active_iff j).mp hj))⟩

end

/-- A step of a client that is not in its turn, if the table is being
rewritten. -/
theorem TableOk.within {m m' : Shm} {t : Rebalancer} {i : Fin maxChannels} {turn : Bool}
    (h : TableOk m.ctr t) (hw : Within i turn m m') (hturn : t.pc.locked = true → turn = false) :
    TableOk m'.ctr t := by
  unfold TableOk at h ⊢
  cases e : t.pc <;> rw [e] at h hturn <;> simp only at h ⊢
  case idle => exact hw.alloc h
  case lock => exact ⟨hw.alloc h.1, hw.active ▸ h.2⟩
  all_goals obtain rfl := hturn rfl
  case unlock => exact hw.alloc h
  case share => exact ⟨hw.alloc h.1, hw.active ▸ h.2⟩
  case compare | malloc | snapshot => exact ⟨hw.alloc h.1, by rw [hw.active]; exact h.2⟩
  case clearFree => exact hw.rewriting_zero h
  case test k => exact hw.rewriting h
  case write w k => exact ⟨(hw.active_iff k).mpr h.1, hw.rewriting h.2⟩
  case setActive k | clear k => exact ⟨hw.active ▸ h.1, hw.rewriting h.2⟩

/-- A client that finds `control_mutex` set does not begin a turn. -/
theorem clientStep_waits {m : Shm} {t : Client} (hm : m.ctr.controlMutex ≠ 0) (ht : t.inTurn = false)
    (now : Int64) : (clientStep now m t).2.inTurn = false := by
  cases t with
  | sender t =>
    cases hc : t.calls with
    | nil => simpa only [clientStep, sendStep, hc] using ht
    | cons msg rest =>
      simp only [clientStep, sendStep, hc, sendCallStep]
      cases e : t.pc <;> simp [Client.inTurn, SendPc.inTurn, e] at ht ⊢
      case request pc =>
        cases (requestStep t.key m.ctr pc).2 with
        | returned p => cases p <;> rfl
        | _ => rfl
      case mutex => simp [hm, e]
  | receiver t =>
    cases hc : t.calls with
    | nil => simpa only [clientStep, recvStep, hc] using ht
    | cons call rest =>
      simp only [clientStep, recvStep, hc, recvCallStep]
      cases e : t.pc <;> simp [Client.inTurn, RecvPc.inTurn, e] at ht ⊢
      case find => cases findChannel m.ctr t.key <;> simp
      case mutex => simp [hm, e]

/-! ## Exclusion -/

theorem ClientPlaced.of_find {m m' : Shm} {t : Client} (h : ClientPlaced m t)
    (hf : ∀ key, findChannel m'.ctr key = findChannel m.ctr key)
    (hc : t.inTurn = false ∨ m'.ctr.channels = m.ctr.channels) : ClientPlaced m' t := by
  cases t with
  | sender t =>
    refine ⟨fun hne => by rw [hf]; exact h.chan hne, fun pc e => by rw [hf]; exact h.asks pc e, ?_⟩
    obtain ht | hc := hc
    · cases e : t.pc <;> simp [Client.inTurn, SendPc.inTurn, e] at ht <;> trivial
    · rw [hc]; exact h.pc
  | receiver t =>
    refine ⟨fun hne => by rw [hf]; exact h.chan hne, ?_⟩
    obtain ht | hc := hc
    · cases e : t.pc <;> simp [Client.inTurn, RecvPc.inTurn, e] at ht <;> trivial
    · rw [hc]; exact h.pc

variable {ι : Type*} [DecidableEq ι]

/-- A rebalancing takes `control_mutex` only while no client is in its
turn. -/
def Quiescent (s : Balancing ι) : BalancingTurn ι → Prop
  | .client _ _ => True
  | .trusted _ => s.trusted.pc = .lock → ∀ i, (s.client i).inTurn = false

/-- What `control_mutex` is for, in a state of clients `parties` that started
on the memory `m`. -/
structure Excluded (m : Shm) (parties : ι → Party) (s : Balancing ι) : Prop where
  turn : s.trusted.pc.locked = true ∨ s.shm.ctr.controlMutex ≠ 0 → ∀ i, (s.client i).inTurn = false
  copy : ∀ i a n, (s.client i).copyRange = some (a, n) → ∃ c, findChannel m.ctr (parties i).key = some c ∧
    (s.shm.ctr.channels c).bufOffset.toNat ≤ a ∧ a + n ≤ endOf (s.shm.ctr.channels c)
  /-- What is written back is what the clients left. -/
  head : ∀ w i, s.trusted.pc = .write w i → w.rank ≤ EntryWrite.head.rank →
    (s.shm.ctr.channels i).head = (s.trusted.tmp i).head
  tail : ∀ w i, s.trusted.pc = .write w i → w.rank ≤ EntryWrite.tail.rank →
    (s.shm.ctr.channels i).tail = (s.trusted.tmp i).tail

/-- The invariant of runs with `Quiescent` steps. -/
structure BalancingInv (m : Shm) (parties : ι → Party) (s : Balancing ι) : Prop where
  table : TableOk s.shm.ctr s.trusted
  locked : s.trusted.pc.locked = true → s.shm.ctr.controlMutex ≠ 0
  apart : s.shm.ctr.controlMutex ≠ 0 → ∀ i, (s.client i).inTurn = false
  find : ∀ key, findChannel s.shm.ctr key = findChannel m.ctr key
  keys : ∀ i, (s.client i).key = (parties i).key
  placed : ∀ i, ClientPlaced s.shm (s.client i)

section

variable {m : Shm} {parties : ι → Party} {s : Balancing ι}

omit [DecidableEq ι] in
theorem balancingInv_start (h : AllocInv m.ctr) : BalancingInv m parties (.start m parties) := by
  have hc := clientsInv_start h parties
  refine ⟨h, fun e => absurd e Bool.false_ne_true, fun _ i => ?_, hc.find, hc.keys, hc.placed⟩
  show (parties i).start.inTurn = false
  cases parties i <;> rfl

omit [DecidableEq ι] in
/-- Where a client is in its turn, no table is being rewritten. -/
theorem BalancingInv.alloc (h : BalancingInv m parties s) {i : ι} (ht : (s.client i).inTurn = true) :
    AllocInv s.shm.ctr := by
  have hl : s.trusted.pc.locked ≠ true := fun hl => by
    have := h.apart (h.locked hl) i
    rw [ht] at this
    cases this
  have htable := h.table
  unfold TableOk at htable
  cases e : s.trusted.pc <;> rw [e] at htable hl
  case idle => exact htable
  case lock => exact htable.1
  all_goals exact absurd rfl hl

/-- A step of a client, whatever a rebalancing has come to. -/
theorem BalancingInv.client (h : BalancingInv m parties s) (i : ι) (now : Int64) :
    BalancingInv m parties (balancingStep s (.client i now)) := by
  have hok := fun ht => (h.placed i).chan_ok (h.alloc ht) ht
  obtain ⟨hw, hp⟩ := clientStep_within (h.placed i) hok
    (j := (findChannel s.shm.ctr (s.client i).key).getD 0) (fun c hc => by rw [hc]; rfl) now
  refine ⟨h.table.within hw fun hl => h.apart (h.locked hl) i, fun hl => ?_, fun hm k => ?_,
    fun key => (hw.find key).trans (h.find key), fun k => ?_, fun k => ?_⟩
  · exact hw.mutex ▸ h.locked hl
  all_goals by_cases hk : k = i
  · subst hk
    have hm' : s.shm.ctr.controlMutex ≠ 0 := hw.mutex ▸ hm
    simp only [balancingStep, Function.update_self]
    exact clientStep_waits hm' (h.apart hm' k) now
  · simp only [balancingStep, Function.update_of_ne hk]
    exact h.apart (hw.mutex ▸ hm) k
  · subst hk
    simp only [balancingStep, Function.update_self, clientStep_key]
    exact h.keys k
  · simp only [balancingStep, Function.update_of_ne hk]
    exact h.keys k
  · subst hk
    simp only [balancingStep, Function.update_self]
    exact hp
  · simp only [balancingStep, Function.update_of_ne hk]
    exact hw.placed (h.placed k)

/-- A step of a rebalancing that does not take the mutex from a client in its
turn. -/
theorem BalancingInv.trusted (h : BalancingInv m parties s) (malloc : Bool)
    (hq : s.trusted.pc = .lock → ∀ i, (s.client i).inTurn = false) :
    BalancingInv m parties (balancingStep s (.trusted malloc)) := by
  have hfind := rebalanceStep_find malloc h.table
  refine ⟨rebalanceStep_table malloc h.table, rebalanceStep_locked malloc h.locked, fun hm => ?_,
    fun key => (hfind key).trans (h.find key), h.keys, fun i => (h.placed i).of_find hfind ?_⟩
  · by_cases hpc : s.trusted.pc = .lock
    · exact hq hpc
    · exact h.apart (rebalanceStep_mutex malloc hpc hm)
  · cases hl : s.trusted.pc.locked
    · exact .inr (rebalanceStep_channels malloc hl)
    · exact .inl (h.apart (h.locked hl) i)

theorem BalancingInv.step (h : BalancingInv m parties s) (l : BalancingTurn ι) (hq : Quiescent s l) :
    BalancingInv m parties (balancingStep s l) := by
  cases l with
  | client i now => exact h.client i now
  | trusted malloc => exact h.trusted malloc hq

omit [DecidableEq ι] in
theorem BalancingInv.excluded (h : BalancingInv m parties s) : Excluded m parties s := by
  refine ⟨fun hl => h.apart (hl.elim h.locked id), fun i a n e => ?_, fun w i e hw => ?_,
    fun w i e hw => ?_⟩
  · have ht : (s.client i).inTurn = true := by
      by_contra ht
      have hp := h.placed i
      cases hc : s.client i with
      | sender t =>
        rw [hc] at e ht
        simp only [Client.copyRange] at e
        split at e
        · rename_i hpc _
          exact ht (by simp [Client.inTurn, hpc, SendPc.inTurn])
        · cases e
      | receiver t =>
        rw [hc] at e ht
        simp only [Client.copyRange] at e
        split at e
        · rename_i hpc _
          exact ht (by simp [Client.inTurn, hpc, RecvPc.inTurn])
        · cases e
    obtain ⟨hf, hlo, hhi⟩ := (h.placed i).copy_within (h.alloc ht) e
    rw [h.find, h.keys] at hf
    exact ⟨_, hf, hlo, hhi⟩
  all_goals
    have htable := h.table
    unfold TableOk at htable
    rw [e] at htable
    have he := htable.2.entries i htable.1
    rw [entryRank_self] at he
  · exact he.head.trans (if_neg (Nat.not_le.mpr (Nat.lt_succ_of_le hw)))
  · exact he.tail.trans (if_neg (Nat.not_le.mpr (Nat.lt_succ_of_le hw)))

/-- Exclusion needs every step to be `Quiescent`. -/
theorem quiescent_of_excluded {l : BalancingTurn ι} (h : Excluded m parties (balancingStep s l)) :
    Quiescent s l := by
  cases l with
  | client i now => trivial
  | trusted malloc =>
    intro hpc
    refine h.turn (.inl ?_)
    simp only [balancingStep, rebalanceStep, hpc, RebalancePc.locked]

end

/-- A rebalancing and any number of clients, in every interleaving, on a table
with any history. `control_mutex` keeps them apart in every state of a run
just if, whenever the rebalancing takes it, no client is between its test of
it and its store to `head` or `tail`. -/
theorem excluded_iff_quiescent (m₀ : Shm) (ops : List Op) (parties : ι → Party)
    (turns : List (BalancingTurn ι)) :
    let m := afterOps m₀ ops
    (∀ turns', turns' <+: turns → Excluded m parties (run balancingStep (.start m parties) turns')) ↔
      Guarded balancingStep Quiescent (.start m parties) turns := by
  intro m
  have hstart : BalancingInv m parties (.start m parties) := balancingInv_start (allocInv_afterOps m₀ ops)
  exact (guarded_iff (I := BalancingInv m parties) (fun _ l h hq => h.step l hq) (fun _ h => h.excluded)
    (fun _ _ _ he => quiescent_of_excluded he) hstart).symm

/-- A sender on the second of two channels tests `control_mutex` and reads
`buf_offset` and `head`; then the mutex is taken and the table rewritten, and
the sender's next copy is where its channel was. -/
theorem not_excluded :
    let m := afterOps zeroShm twoChannels
    let parties : Fin 1 → Party := fun _ => .sender ⟨3, 6, 4⟩ [⟨fun _ => 7, 8192⟩]
    let s := fun n =>
      run balancingStep (.start m parties) (.replicate 8 (.client 0 0) ++ .replicate n (.trusted true))
    ((s 2).trusted.pc.locked = true ∧ ((s 2).client 0).inTurn = true) ∧
      ((s 29).trusted.pc = .idle ∧ ((s 29).client 0).copyRange = some (16384, 4096) ∧
        ((s 29).shm.ctr.channels 1).bufOffset.toNat = 2084864) ∧
      ¬ ∀ turns, Excluded m parties (run balancingStep (.start m parties) turns) := by
  intro m parties s
  have hturn : (s 2).trusted.pc.locked = true ∧ ((s 2).client 0).inTurn = true := by decide +kernel
  refine ⟨hturn, by decide +kernel, fun h => ?_⟩
  have := (h _).turn (.inl hturn.1) 0
  rw [hturn.2] at this
  cases this

end Ivshmem
