import SecureIvshmem.Proof.Channel
import SecureIvshmem.Proof.Shares

/-!
# Rebalancing and the pages that wait

A rebalancing moves regions and reduces indices but copies no page, so the
pages waiting in a channel are kept whatever they hold just if each is looked
for where it is. In a ring that shrinks no page is, but in that of channel 0,
and in one that grows all are or none (`places_of_shrunk`,
`places_of_grown`). `waitingPages_rebalancing_iff` says which rings these are
(`StaysPut`).
-/

namespace Ivshmem

open SharedMem SharedMem.Word

/-- The call changes nothing, or nothing waits in channel `i`, or its region
is where an even share would be, and the pages stand in a row that the new
ring holds. -/
def StaysPut (malloc : Bool) (c : ControlSection) (i : Fin maxChannels) : Prop :=
  let ch := c.channels i
  let n' := evenPages c.numActiveChannels.toInt.toNat
  malloc = false ∨ balanced c = true ∨ ch.tail = ch.head ∨
    (ch.bufOffset.toNat = i.val * (n' * pageSize) ∧ ch.tail ≤ ch.head ∧ ch.head.toNat ≤ n')

/-! ## Places -/

/-- Pages hold the same bytes in every memory just if they are in one
place. -/
theorem forall_pageAt_eq_iff {a b j k : Nat} :
    (∀ data : Mem UInt8, pageAt data a j = pageAt data b k) ↔ a + j * pageSize = b + k * pageSize := by
  constructor
  · intro h
    by_contra hne
    -- a memory with 1 in the first byte of the second page only
    have hb := apply_of_bytesAt_eq (h fun x => if x = (b + k * pageSize : Nat) then 1 else 0)
      (show 0 < pageSize by decide)
    have hne' : ((a + j * pageSize : Nat) : Int) ≠ (b + k * pageSize : Nat) :=
      fun e => hne (Int.ofNat.inj e)
    simp only [Int.natCast_zero, Int.add_zero, hne', ↓reduceIte] at hb
    exact absurd hb (by decide)
  · intro h data
    rw [pageAt, pageAt, h]

section

variable {n n' i tail head : Nat}

/-- A page of a ring of `n` pages that shrinks to `n'`, all before it as large,
keeps its place in the first ring only, and there below `n'`. -/
theorem place_of_shrunk {j : Nat} (hpos : 0 < n') (hlt : n' < n)
    (h : i * (n' * pageSize) + j % n' * pageSize = i * (n * pageSize) + j * pageSize) :
    i = 0 ∧ j < n' := by
  rw [← Nat.mul_assoc i n' pageSize, ← Nat.mul_assoc i n pageSize, ← Nat.add_mul, ← Nat.add_mul] at h
  have h := Nat.eq_of_mul_eq_mul_right (show 0 < pageSize by decide) h
  have hmul : i * n' ≤ i * n := Nat.mul_le_mul_left i (Nat.le_of_lt hlt)
  have hmod := Nat.mod_le j n'
  have hlt' := Nat.mod_lt j hpos
  refine ⟨?_, by omega⟩
  by_contra hi
  have := Nat.mul_lt_mul_of_pos_left hlt (Nat.pos_of_ne_zero hi)
  omega

variable (hh : head < n) (ht : tail < n) (hne : tail ≠ head)
include hh ht hne

/-- The pages of a ring that shrinks keep their places just if it is the
first, and they stand in a row within the new size. -/
theorem places_of_shrunk (hpos : 0 < n') (hlt : n' < n) :
    ((tail ≤ head ∨ n' ∣ n) ∧ ∀ j ∈ Ring.window n tail head,
      i * (n' * pageSize) + j % n' * pageSize = i * (n * pageSize) + j * pageSize) ↔
      i * (n * pageSize) = i * (n' * pageSize) ∧ tail ≤ head ∧ head ≤ n' := by
  constructor
  · rintro ⟨-, hplace⟩
    have hin : ∀ j ∈ Ring.window n tail head, i = 0 ∧ j < n' := fun j hj =>
      place_of_shrunk hpos hlt (hplace j hj)
    rcases Nat.lt_or_ge head tail with hwrap | hle
    · -- a wrapped ring uses its last slot, which is past the new size
      have := (hin _ (Ring.last_mem_window ht hwrap)).2
      omega
    · obtain ⟨rfl, hlast⟩ := hin (head - 1) ((Ring.mem_window_of_le hh hle).mpr (by omega))
      exact ⟨by rw [Nat.zero_mul, Nat.zero_mul], hle, by omega⟩
  · rintro ⟨hoff, hle, hfit⟩
    refine ⟨.inl hle, fun j hj => ?_⟩
    have hj := (Ring.mem_window_of_le hh hle).mp hj
    rw [hoff, Nat.mod_eq_of_lt (by omega)]

/-- The pages of a ring that grows, now at `off`, keep their places just if
its region does, and they stand in a row. -/
theorem places_of_grown {off : Nat} (hlt : n < n') :
    ((tail ≤ head ∨ n' ∣ n) ∧ ∀ j ∈ Ring.window n tail head,
      i * (n' * pageSize) + j % n' * pageSize = off + j * pageSize) ↔
      off = i * (n' * pageSize) ∧ tail ≤ head ∧ head ≤ n' := by
  have hmod : ∀ j ∈ Ring.window n tail head, j % n' = j := fun j hj =>
    Nat.mod_eq_of_lt (Nat.lt_trans (Ring.lt_of_mem_window (by omega) hj) hlt)
  constructor
  · rintro ⟨hw, hplace⟩
    have hle : tail ≤ head :=
      hw.resolve_right fun hdvd => absurd (Nat.le_of_dvd (by omega) hdvd) (by omega)
    have hj := (Ring.mem_window_of_le hh hle (i := tail)).mpr (by omega)
    have := hplace tail hj
    rw [hmod tail hj] at this
    exact ⟨by omega, hle, by omega⟩
  · rintro ⟨hoff, hle, -⟩
    exact ⟨.inl hle, fun j hj => by rw [hmod j hj, hoff]⟩

end

/-! ## The rings of a table -/

section

variable {c : ControlSection} (h : AllocInv c) {i : Fin maxChannels} (hi : c.Active i)
  (hb : balanced c = false)
include h hi hb

/-- Where a rebalancing has something to do, the ring of a channel shrinks,
all before it being as large, or it grows. -/
theorem ring_changes {k : Nat} (hs : SharedOut k c) :
    let n := (c.channels i).numPage.toInt.toNat
    let n' := evenPages c.numActiveChannels.toInt.toNat
    n' < n ∧ (c.channels i).bufOffset.toNat = i.val * (n * pageSize) ∨ n < n' := by
  intro n n'
  have hi' : (i.val : Int) < c.numActiveChannels.toInt := hi
  have hmax := h.le_max
  have hk := hs.le
  have hch := h.chan i hi
  have hpos := hch.numPage_pos
  have hsize : (c.channels i).bufSize.toNat = n * pageSize := by
    have := hch.bufSize_eq
    simp only [pageSize] at this ⊢
    omega
  rcases Nat.lt_or_ge i.val k with hik | hik
  · have hshare := hs.shared i hi hik
    have hn : n = evenPages k :=
      Nat.eq_of_mul_eq_mul_right (show 0 < pageSize by decide) (hsize.symm.trans hshare)
    have hne : k ≠ c.numActiveChannels.toInt.toNat := by
      rintro rfl
      have he : EvenShares c := fun j hj => hs.shared j hj (by have : (j.val : Int) < _ := hj; omega)
      rw [EvenShares.balanced (by omega) he] at hb
      cases hb
    have hanti : n' ≤ n := hn ▸ evenPages_anti (by omega) (by omega)
    have hneq : n' ≠ n :=
      fun e => hne (evenPages_inj (by omega) (by omega) (by omega) (by omega) (hn.symm.trans e.symm))
    refine .inl ⟨by omega, ?_⟩
    rw [h.offset i hi, h.frontier_of_size hk hs.shared (by omega), share, ← hn]
  · have hinit := hs.initial i hi hik
    have hge := le_evenPages (n := c.numActiveChannels.toInt.toNat) (by omega) (by omega)
    refine .inr ?_
    simp only [hsize, channelInitSize, pageSize] at hinit
    omega

/-- The pages that wait keep their places just if the ring stays put. -/
theorem places_iff {k : Nat} (hs : SharedOut k c) :
    let ch := c.channels i
    let n := ch.numPage.toInt.toNat
    let n' := evenPages c.numActiveChannels.toInt.toNat
    ((ch.tail ≤ ch.head ∨ n' ∣ n) ∧ ∀ j ∈ Ring.window n ch.tail.toNat ch.head.toNat,
      i.val * (n' * pageSize) + j % n' * pageSize = ch.bufOffset.toNat + j * pageSize) ↔
      StaysPut true c i := by
  intro ch n n'
  have hi' : (i.val : Int) < c.numActiveChannels.toInt := hi
  have hge := le_evenPages (n := c.numActiveChannels.toInt.toNat) (by omega) (by have := h.le_max; omega)
  have hpos : 1 ≤ ch.numPage.toInt := (h.chan i hi).numPage_pos
  have hhead : (ch.head.toNat : Int) < ch.numPage.toInt := (h.chan i hi).head_lt
  have htail : (ch.tail.toNat : Int) < ch.numPage.toInt := (h.chan i hi).tail_lt
  have hh : ch.head.toNat < n := by omega
  have ht : ch.tail.toNat < n := by omega
  simp only [StaysPut, hb, Bool.true_eq_false, Bool.false_eq_true, false_or, UInt32.le_iff_toNat_le]
  rcases eq_or_ne ch.tail ch.head with heq | hne
  · refine iff_of_true ⟨.inl (by rw [heq]), fun j hj => ?_⟩ (.inl heq)
    have hempty : Ring.used n ch.tail.toNat ch.head.toNat = 0 := by rw [heq, Ring.used_self]
    obtain ⟨k, hk, -⟩ := Ring.mem_window.mp hj
    omega
  · have hne' : ch.tail.toNat ≠ ch.head.toNat := fun e => hne (UInt32.toNat_inj.mp e)
    have hor : ∀ p : Prop, ch.tail = ch.head ∨ p ↔ p := fun p => or_iff_right hne
    rw [hor]
    obtain ⟨hlt, hoff⟩ | hlt := ring_changes h hi hb hs
    · rw [hoff]
      exact places_of_shrunk hh ht hne' (by omega) hlt
    · exact places_of_grown hh ht hne' hlt

end

/-! ## Rebalancing -/

/-- The memory after a rebalancing, where it does something. -/
theorem apply_rebalancing {m : Shm} (h : AllocInv m.ctr) (malloc : Bool) {i : Fin maxChannels}
    (hi : m.ctr.Active i) :
    ((malloc = false ∨ balanced m.ctr = true) ∧
      (Op.apply m (.trustedRebalancing malloc)).data = m.data ∧
      (Op.apply m (.trustedRebalancing malloc)).ctr.channels = m.ctr.channels) ∨
    (malloc = true ∧ balanced m.ctr = false ∧
      Op.apply m (.trustedRebalancing malloc) = m.setCtr (rebalanced m.ctr)) := by
  have hi' : (i.val : Int) < m.ctr.numActiveChannels.toInt := hi
  simp only [Op.apply, Op.exec]
  obtain ⟨h0, -⟩ | ⟨-, hb, e⟩ | ⟨-, hb, hm, e⟩ | ⟨-, hb, hm, e⟩ :=
    trustedRebalancing_cases h.le_max malloc
  · omega
  · exact .inl ⟨.inr hb, by simp [e, Except.map]⟩
  · exact .inl ⟨.inl hm, by simp [e, Except.map]⟩
  · exact .inr ⟨hm, hb, by simp [e, Except.map]⟩

/-- The pages that wait after a rebalancing that does something, with room for
them, are those before just if the ring need not be unwrapped and each page
has its bytes where it will be looked for. -/
theorem waitingPages_rebalanced_iff {m : Shm} (h : AllocInv m.ctr) {i : Fin maxChannels}
    (hi : m.ctr.Active i) :
    let ch := m.ctr.channels i
    let n := ch.numPage.toInt.toNat
    let n' := evenPages m.ctr.numActiveChannels.toInt.toNat
    waiting ch < n' → (waitingPages (m.setCtr (rebalanced m.ctr)) i = waitingPages m i ↔
      (ch.tail ≤ ch.head ∨ n' ∣ n) ∧ ∀ j ∈ Ring.window n ch.tail.toNat ch.head.toNat,
        pageAt m.data (i.val * (n' * pageSize)) (j % n') = pageAt m.data ch.bufOffset.toNat j) := by
  dsimp only
  intro hroom
  have hi' : (i.val : Int) < m.ctr.numActiveChannels.toInt := hi
  have hp := rebalancedNumPage_toInt (n := m.ctr.numActiveChannels) (by omega)
  have hge :=
    le_evenPages (n := m.ctr.numActiveChannels.toInt.toNat) (by omega) (by have := h.le_max; omega)
  have hch := h.chan i hi
  have hpos := hch.numPage_pos
  have hhead := hch.head_lt
  have htail := hch.tail_lt
  have hoff := ofNat_mul_share (n := m.ctr.numActiveChannels) (by omega) (k := i.val) (by omega)
  have hmod : ∀ x : UInt32, (x % intToU32 (rebalancedNumPage m.ctr.numActiveChannels)).toNat =
      x.toNat % evenPages m.ctr.numActiveChannels.toInt.toNat := fun x => by
    rw [mod_intToU32 (by omega), hp, Int.toNat_natCast]
  simp only [waiting] at hroom
  simp only [waitingPages, Shm.setCtr_ctr, Shm.setCtr_data, rebalanced_channels hi,
    rebalanceChannel, hoff, hmod, hp, Int.toNat_natCast, UInt32.le_iff_toNat_le]
  constructor
  · intro heq
    have hlen := congrArg List.length heq
    simp only [Ring.length_items] at hlen
    have hw := (Ring.used_resize (by omega) (by omega) hroom).mp hlen
    refine ⟨hw, ?_⟩
    simpa only [Ring.items, Ring.window_resize (by omega) (by omega) hroom hw, List.map_map,
      List.map_inj_left, Function.comp] using heq
  · rintro ⟨hw, hpages⟩
    simpa only [Ring.items, Ring.window_resize (by omega) (by omega) hroom hw, List.map_map,
      List.map_inj_left, Function.comp] using hpages

/-- In every control section reached: a rebalancing with room for the pages
waiting in an active channel keeps them, whatever the data section holds, just
if the ring stays put. -/
theorem waitingPages_rebalancing_iff (m : Shm) (ops : List Op) (malloc : Bool) (i : Fin maxChannels)
    (hi : (afterOps m ops).ctr.Active i)
    (hroom : waiting ((afterOps m ops).ctr.channels i) <
      ((Op.apply (afterOps m ops) (.trustedRebalancing malloc)).ctr.channels i).numPage.toInt.toNat) :
    (∀ data : Mem UInt8,
      waitingPages (Op.apply { afterOps m ops with data := data } (.trustedRebalancing malloc)) i =
      waitingPages { afterOps m ops with data := data } i) ↔ StaysPut malloc (afterOps m ops).ctr i := by
  have h := allocInv_afterOps m ops
  obtain ⟨k, hs⟩ := sharedOut_afterOps m ops
  generalize afterOps m ops = s at *
  have hi' : (i.val : Int) < s.ctr.numActiveChannels.toInt := hi
  have hd (data : Mem UInt8) : AllocInv (Shm.ctr { s with data := data }) := h
  obtain ⟨hn, -⟩ | ⟨rfl, hb, e⟩ := apply_rebalancing h malloc hi
  · refine iff_of_true (fun data => ?_) (hn.imp_right .inl)
    obtain ⟨-, hdata, hchan⟩ | ⟨rfl, hb, -⟩ := apply_rebalancing (hd data) malloc hi
    · simp only [waitingPages, hdata, hchan]
    · exact absurd (hb.symm.trans (hn.resolve_left fun e => by cases e)) Bool.false_ne_true
  · have hp := rebalancedNumPage_toInt (n := s.ctr.numActiveChannels) (by omega)
    simp only [e, Shm.setCtr_ctr, rebalanced_channels hi, rebalanceChannel, hp,
      Int.toNat_natCast] at hroom
    have hkept : ∀ data : Mem UInt8, _ := fun data => waitingPages_rebalanced_iff (hd data) hi hroom
    have happly : ∀ data : Mem UInt8, Op.apply { s with data := data } (.trustedRebalancing true) =
        Shm.setCtr { s with data := data } (rebalanced s.ctr) := fun data =>
      ((apply_rebalancing (hd data) true hi).resolve_left fun hnone =>
        hnone.1.elim (fun e => by cases e) fun e => absurd (hb.symm.trans e) Bool.false_ne_true).2.2
    have hplaces := places_iff h hi hb hs
    dsimp only at hplaces
    simp only [happly, hkept]
    rw [← hplaces, forall_and, forall_const]
    refine and_congr_right fun _ => ?_
    rw [forall_comm]
    refine forall_congr' fun j => ?_
    rw [forall_comm]
    exact forall_congr' fun _ => forall_pageAt_eq_iff

/-! ## A page lost -/

/-- The operations that are whole calls of the trusted functions or whole
turns of the loops. -/
def WholeCall : Op → Bool
  | .request _ | .trustedControl | .trustedRebalancing _ | .send .. | .recv .. => true
  | _ => false

/-- Two channels are created, and a page of sevens is sent through the
second. -/
def sentOnSecond : List Op :=
  [.request ⟨1, 5, 2⟩, .trustedControl, .request ⟨3, 6, 4⟩, .trustedControl,
    .send 0 1 ⟨fun _ => 7, 8192⟩ 0]

/-- `waitingPages_rebalancing_iff` where it fails: the rebalancing moves the
second channel to offset 2084864 and leaves its page at 16384. -/
theorem waitingPages_rebalancing_iff_second :
    (afterOps zeroShm sentOnSecond).ctr.Active 1 ∧
    waiting ((afterOps zeroShm sentOnSecond).ctr.channels 1) <
      ((Op.apply (afterOps zeroShm sentOnSecond) (.trustedRebalancing true)).ctr.channels
        1).numPage.toInt.toNat ∧
    ((∀ data : Mem UInt8,
        waitingPages (Op.apply { afterOps zeroShm sentOnSecond with data := data }
          (.trustedRebalancing true)) 1 =
          waitingPages { afterOps zeroShm sentOnSecond with data := data } 1) ↔
      StaysPut true (afterOps zeroShm sentOnSecond).ctr 1) :=
  have ha : (afterOps zeroShm sentOnSecond).ctr.Active 1 := by decide +kernel
  have hr : waiting ((afterOps zeroShm sentOnSecond).ctr.channels 1) <
      ((Op.apply (afterOps zeroShm sentOnSecond) (.trustedRebalancing true)).ctr.channels
        1).numPage.toInt.toNat := by
    decide +kernel
  ⟨ha, hr, waitingPages_rebalancing_iff zeroShm sentOnSecond true 1 ha hr⟩

/-- Rebalancing does not keep the waiting pages of every active channel that
has room for them. -/
theorem waitingPages_rebalancing_lost :
    ¬ ∀ (m : Shm) (ops : List Op) (malloc : Bool) (i : Fin maxChannels), (∀ op ∈ ops, WholeCall op) →
      (afterOps m ops).ctr.Active i →
      waiting ((afterOps m ops).ctr.channels i) <
        ((Op.apply (afterOps m ops) (.trustedRebalancing malloc)).ctr.channels i).numPage.toInt.toNat →
      waitingPages (Op.apply (afterOps m ops) (.trustedRebalancing malloc)) i =
      waitingPages (afterOps m ops) i := by
  intro h
  have heq := h zeroShm sentOnSecond true 1 (by decide) (by decide +kernel) (by decide +kernel)
  -- the first byte of the first waiting page: 0 after, 7 before
  have hb := congrArg (fun ps => (ps.head?.bind List.head?)) heq
  revert hb
  decide +kernel

end Ivshmem
