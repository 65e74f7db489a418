import SecureIvshmem.Impl.Turns
import SecureIvshmem.Proof.Framing

/-!
# Ranges of the copies

Where in their buffers the loops copy. The sender's `to_sent` is the same in
every turn, so that its ranges cover the message and nothing else just for
whole pages, and not for a single one (`sends_iff`). The receivers count in an
`int`: their ranges cover the buffer as long as the count wraps with the last
chunk at the earliest (`RecvLoop.complete_iff`), which is up to `2³¹` bytes
for pages and up to 513 chunks for the lock (`recv_complete_iff`).
-/

namespace Ivshmem

open SharedMem SharedMem.Word

/-! ## Turns and whole turns -/

theorem sendIteration_eq (now : Int64) (i : Fin maxChannels) (msg : Message) (dataSent : UInt64)
    (m : Shm) :
    sendIteration now i msg dataSent m =
      if (sendTurns i msg.size).outcome m dataSent = .copies then
        (publishPage now i msg dataSent m, (sendTurns i msg.size).next dataSent)
      else (m, dataSent) := by
  simp only [sendIteration, sendTurns, sendOutcome]
  split
  · rfl
  · split
    · rfl
    · split <;> rfl

theorem recvIteration_eq (i : Fin maxChannels) (size : UInt64) (buffer : Mem UInt8)
    (dataReceived : Int32) (m : Shm) :
    recvIteration i size buffer dataReceived m =
      if (recvTurns i size).outcome m dataReceived = .copies then
        (consumePage i (toReceive size dataReceived) m,
          store buffer ((recvTurns i size).range dataReceived).1
            (receivedBytes m.data
              (pageOffset (m.ctr.channels i).bufOffset (m.ctr.channels i).tail) size dataReceived),
          (recvTurns i size).next dataReceived)
      else (m, buffer, dataReceived) := by
  simp only [recvIteration, recvTurns, recvOutcome]
  split
  · rfl
  · split
    · rfl
    · split <;> rfl

theorem lockRecvIteration_eq (key : LockKey) (size : UInt64) (buffer : Mem UInt8) (dataReceived : Int32)
    (m : LockShm) :
    lockRecvIteration key size buffer dataReceived m =
      if (lockRecvTurns key size).outcome m dataReceived = .copies then
        ({ m with refCount := m.refCount - 1, mutex := false },
          store buffer ((lockRecvTurns key size).range dataReceived).1
            (bytesAt m.data 0 ((lockRecvTurns key size).range dataReceived).2),
          (lockRecvTurns key size).next dataReceived)
      else (m, buffer, dataReceived) := by
  simp only [lockRecvIteration, lockRecvTurns, lockRecvOutcome]
  split
  · rfl
  · split
    · rfl
    · split <;> rfl

/-! ## The sender -/

/-- The sender's loop for `size` bytes stays inside its buffer, covers it by
as few pages as hold it, and returns if again and again the ring has a free
slot and `control_mutex` is free. -/
structure Sends (i : Fin maxChannels) (size : UInt64) : Prop where
  inside : ∀ (ms : Nat → Shm) k,
    (sendTurns i size).outcome (ms k) ((sendTurns i size).counter 0 ms k) = .copies →
    0 < (toSent size).toNat ∧ (toSent size).toNat ≤ pageSize ∧
      ((sendTurns i size).counter 0 ms k).toNat + (toSent size).toNat ≤ size.toNat
  tiles : ∀ (ms : Nat → Shm) k,
    Tiles 0 ((sendTurns i size).ranges 0 ms k) ((sendTurns i size).counter 0 ms k).toNat
  covers : ∀ (ms : Nat → Shm) k, (sendTurns i size).ReturnsAt 0 ms k →
    Tiles 0 ((sendTurns i size).ranges 0 ms k) size.toNat ∧
      ((sendTurns i size).ranges 0 ms k).length = chunkCount pageSize size.toNat
  returns : ∀ ms : Nat → Shm,
    (∀ k, ∃ j, k ≤ j ∧ (ms j).ctr.controlMutex = 0 ∧ channelFull ((ms j).ctr.channels i) = false) →
    ∃ k, (sendTurns i size).ReturnsAt 0 ms k

section

variable {i : Fin maxChannels} {size dataSent : UInt64} {m : Shm}

theorem lt_of_send_copies (h : (sendTurns i size).outcome m dataSent = .copies) :
    dataSent.toNat < size.toNat := by
  simp only [sendTurns, sendOutcome] at h
  split at h
  · cases h
  · split at h
    · cases h
    · rename_i hlt
      rw [UInt64.le_iff_toNat_le] at hlt
      omega

theorem le_of_send_returns (h : (sendTurns i size).outcome m dataSent = .returns) :
    size.toNat ≤ dataSent.toNat := by
  simp only [sendTurns, sendOutcome] at h
  split at h
  · cases h
  · split at h
    · rename_i hle
      rwa [UInt64.le_iff_toNat_le] at hle
    · split at h <;> cases h

/-- A turn with a free slot and `control_mutex` free does not wait. -/
theorem send_goes (hm : m.ctr.controlMutex = 0) (hf : channelFull (m.ctr.channels i) = false) :
    (sendTurns i size).outcome m dataSent ≠ .waits := by
  simp only [sendTurns, sendOutcome, hm, hf]
  split
  · rename_i h
    exact absurd rfl h
  · split <;> simp

end

/-- What the sender's loop has copied, for a message of whole pages. -/
structure SentPages (size : UInt64) (rs : List (Int × Nat)) (dataSent : UInt64) : Prop where
  le : dataSent.toNat ≤ size.toNat
  count : dataSent.toNat = pageSize * rs.length
  tiles : Tiles 0 rs dataSent.toNat

section

variable {i : Fin maxChannels} {size dataSent : UInt64} {rs : List (Int × Nat)} {m : Shm}

theorem SentPages.start (size : UInt64) : SentPages size [] 0 := ⟨Nat.zero_le _, rfl, rfl⟩

variable (hd : pageSize ∣ size.toNat) (hi : SentPages size rs dataSent)
  (h : (sendTurns i size).outcome m dataSent = .copies)
include hd hi h

/-- Before a copy, a page or more is left. -/
theorem SentPages.page_le : dataSent.toNat + pageSize ≤ size.toNat := by
  have hlt := lt_of_send_copies h
  obtain ⟨k, hk⟩ := hd
  rw [hi.count, hk] at hlt ⊢
  have hlt := Nat.lt_of_mul_lt_mul_left hlt
  exact Nat.le_trans (Nat.le_of_eq (Nat.mul_succ _ _).symm) (Nat.mul_le_mul_left _ hlt)

variable (ht : (toSent size).toNat = pageSize)
include ht

theorem SentPages.next_toNat : ((sendTurns i size).next dataSent).toNat = dataSent.toNat + pageSize := by
  have hle := hi.page_le hd h
  have hs := size.toNat_lt
  show (dataSent + toSent size).toNat = _
  rw [UInt64.toNat_add, ht, Nat.mod_eq_of_lt (by omega)]

theorem SentPages.copy :
    SentPages size (rs ++ [(sendTurns i size).range dataSent]) ((sendTurns i size).next dataSent) := by
  have hn := hi.next_toNat hd h ht
  refine ⟨?_, ?_, ?_⟩
  · rw [hn]
    exact hi.page_le hd h
  · rw [hn, hi.count, List.length_append, List.length_singleton, Nat.mul_succ]
  · rw [hn, tiles_concat]
    refine ⟨hi.tiles, ?_⟩
    show (dataSent.toNat : Int) + (toSent size).toNat = _
    rw [ht, Int.natCast_add]

end

theorem chunkCount_mul {k : Nat} (hk : 0 < k) (n : Nat) : chunkCount k (k * n) = n := by
  rw [chunkCount, Nat.add_sub_assoc hk, Nat.mul_add_div hk, Nat.div_eq_of_lt (by omega), Nat.add_zero]

/-- Whole pages, and not a single one, are sent page by page. -/
theorem sends_of_pages (i : Fin maxChannels) {size : UInt64} (hd : pageSize ∣ size.toNat)
    (hne : size.toNat ≠ pageSize) : Sends i size := by
  have ht : (toSent size).toNat = pageSize := by
    rw [toSent_toNat, if_pos]
    obtain ⟨k, hk⟩ := hd
    simp only [WholePages, pageSize] at hne hk ⊢
    omega
  have inv := fun ms => CopyLoop.run_inv (L := sendTurns i size) ms (SentPages.start size)
    fun _ _ _ hi h => hi.copy hd h ht
  refine ⟨fun ms k h => ⟨?_, ?_, ?_⟩, fun ms k => (inv ms k).tiles, fun ms k h => ?_, fun ms hfree => ?_⟩
  · rw [ht]
    decide
  · rw [ht]
  · rw [ht]
    exact (inv ms k).page_le hd h
  · have hi := inv ms k
    have heq := Nat.le_antisymm hi.le (le_of_send_returns h)
    refine ⟨heq ▸ hi.tiles, ?_⟩
    rw [← heq, hi.count, chunkCount_mul (by decide)]
  · refine CopyLoop.exists_returns ms (μ := fun d => size.toNat - d.toNat) (SentPages.start size)
      (fun _ _ _ hi h => hi.copy hd h ht) (fun k => ?_) fun _ _ _ hi h => ?_
    · obtain ⟨j, hj, hm, hf⟩ := hfree k
      exact ⟨j, hj, fun _ => send_goes hm hf⟩
    · have hle := hi.page_le hd h
      rw [hi.next_toNat hd h ht]
      simp only [pageSize] at hle ⊢
      omega

/-- All ranges of the sender are of one length. -/
theorem sum_send_ranges (i : Fin maxChannels) (size : UInt64) (ms : Nat → Shm) (k : Nat) :
    (((sendTurns i size).ranges 0 ms k).map Prod.snd).sum =
      ((sendTurns i size).ranges 0 ms k).length * (toSent size).toNat := by
  refine CopyLoop.run_inv (L := sendTurns i size) (c := 0) ms
    (I := fun rs _ => (rs.map Prod.snd).sum = rs.length * (toSent size).toNat) ?_ ?_ k
  · rw [List.map_nil, List.sum_nil, List.length_nil, Nat.zero_mul]
  · intro m rs c ih _
    rw [List.map_append, List.sum_append, ih, List.length_append, List.length_singleton, Nat.succ_mul]
    rfl

/-- The sender's loop keeps to its buffer and comes to its end just for whole
pages, and not for a single one. -/
theorem sends_iff (i : Fin maxChannels) (size : UInt64) :
    Sends i size ↔ pageSize ∣ size.toNat ∧ size.toNat ≠ pageSize := by
  constructor
  · intro h
    obtain ⟨k, hk⟩ :=
      h.returns (fun _ => zeroShm) fun k =>
        ⟨k, Nat.le_refl k, rfl, show channelFull .zero = false by decide⟩
    obtain ⟨htiles, hlen⟩ := h.covers _ _ hk
    -- as many ranges as there are pages, all as long as `to_sent`, make up `size`
    have hsum := htiles.end_eq
    rw [sum_send_ranges, hlen, Int.zero_add, Int.natCast_inj, toSent_toNat] at hsum
    by_cases hw : WholePages size.toNat
    · rw [if_pos hw] at hsum
      refine ⟨⟨_, hsum.trans (Nat.mul_comm _ _)⟩, fun he => ?_⟩
      rw [he] at hw
      exact absurd hw (by decide)
    · rw [if_neg hw] at hsum
      simp only [WholePages, pageSize] at hw
      exfalso
      obtain he | hgt : size.toNat = pageSize ∨ pageSize < size.toNat := by
        simp only [pageSize]
        omega
      · rw [he] at hsum
        exact absurd hsum (by decide)
      · have hc : chunkCount pageSize size.toNat = 2 := by
          simp only [pageSize] at hgt
          rw [chunkCount, pageSize]
          omega
        rw [hc] at hsum
        simp only [pageSize] at hsum hgt
        omega
  · exact fun h => sends_of_pages i h.1 h.2

/-- A message of one page: `to_sent` is 0, and the loop never ends. -/
theorem not_sends_page : ¬ ∀ i size, Sends i size := by
  intro h
  have := (h 0 4096).inside (fun _ => zeroShm) 0 (by decide)
  exact absurd this.1 (by decide)

/-! ## The receivers -/

/-- A receiver's loop for `size` bytes, at most `cap` of them a turn: it waits,
or goes by its counter alone, and some memory lets it go on. -/
structure RecvLoop {M : Type*} (L : CopyLoop M Int32) (cap size : UInt64) : Prop where
  outcome : ∀ m c, L.outcome m c = .waits ∨
    L.outcome m c = if size ≤ intToSize c then .returns else .copies
  goes : ∃ m, ∀ c, L.outcome m c ≠ .waits
  range : ∀ c, L.range c = (c.toInt, (intToSize (sizeToInt (minSize (size - intToSize c) cap))).toNat)
  next : ∀ c, L.next c = c + sizeToInt (minSize (size - intToSize c) cap)

/-- Every return finds `[0, size)` covered by the ranges copied. -/
def Complete {M : Type*} (L : CopyLoop M Int32) (size : UInt64) : Prop :=
  ∀ (ms : Nat → M) k, L.ReturnsAt 0 ms k → Tiles 0 (L.ranges 0 ms k) size.toNat

/-- Where the count of chunks of `n` bytes leaves the range of `int`. -/
def wrapsAt (n : Nat) : Nat := ((2 ^ 31 - 1) / n + 1) * n

section

variable {n d : Nat} (hn : 0 < n) (hd : n ∣ d)

include hn in
theorem le_wrapsAt : 2 ^ 31 ≤ wrapsAt n := by
  have := Nat.lt_mul_div_succ (2 ^ 31 - 1) hn
  rw [wrapsAt, Nat.mul_comm]
  omega

theorem wrapsAt_le (n : Nat) : wrapsAt n ≤ 2 ^ 31 - 1 + n := by
  rw [wrapsAt, Nat.succ_mul]
  exact Nat.add_le_add_right (Nat.div_mul_le_self _ _) n

include hd

theorem lt_of_lt_wrapsAt (h : d < wrapsAt n) : d < 2 ^ 31 := by
  obtain ⟨k, rfl⟩ := hd
  rw [wrapsAt, Nat.mul_comm n k] at h
  have hk := Nat.le_of_lt_succ (Nat.lt_of_mul_lt_mul_right h)
  have := Nat.le_trans (Nat.mul_le_mul_right n hk) (Nat.div_mul_le_self (2 ^ 31 - 1) n)
  rw [Nat.mul_comm]
  omega

include hn in
theorem add_le_wrapsAt (h : d < 2 ^ 31) : d + n ≤ wrapsAt n := by
  obtain ⟨k, rfl⟩ := hd
  have hk : k ≤ (2 ^ 31 - 1) / n := by
    rw [Nat.le_div_iff_mul_le hn, Nat.mul_comm]
    omega
  rw [wrapsAt, Nat.succ_mul, Nat.mul_comm n k]
  exact Nat.add_le_add_right (Nat.mul_le_mul_right n hk) n

end

namespace RecvLoop

variable {M : Type*} {L : CopyLoop M Int32} {cap size : UInt64} (hL : RecvLoop L cap size)
  (hcap : cap.toNat < 2 ^ 31)

section

variable {m : M} {c : Int32}

include hL in
theorem lt_of_copies (h : L.outcome m c = .copies) : (intToSize c).toNat < size.toNat := by
  obtain e | e := hL.outcome m c
  · rw [e] at h
    cases h
  · rw [e] at h
    split at h
    · cases h
    · rename_i hlt
      rw [UInt64.le_iff_toNat_le] at hlt
      omega

include hL in
theorem le_of_returns (h : L.outcome m c = .returns) : size.toNat ≤ (intToSize c).toNat := by
  obtain e | e := hL.outcome m c
  · rw [e] at h
    cases h
  · rw [e] at h
    split at h
    · rename_i hle
      rwa [UInt64.le_iff_toNat_le] at hle
    · cases h

include hL hcap

/-- A copying turn takes what is left, up to `cap`. -/
theorem copies_cases (h : L.outcome m c = .copies) : ∃ n : Int32,
    n.toInt = min (size.toNat - (intToSize c).toNat) cap.toNat ∧
      L.range c = (c.toInt, min (size.toNat - (intToSize c).toNat) cap.toNat) ∧ L.next c = c + n := by
  have hlt := hL.lt_of_copies h
  have hn := capped_toInt hcap (UInt64.le_iff_toNat_le.mpr (Nat.le_of_lt hlt))
  refine ⟨_, hn, ?_, hL.next c⟩
  rw [hL.range, intToSize_toNat (by omega), hn, Int.toNat_natCast]

end

/-! ### Up to the wrap -/

/-- What a receiver has copied: whole chunks, or everything. -/
def Covers (cap size : UInt64) (rs : List (Int × Nat)) (c : Int32) : Prop :=
  (∃ d, cap.toNat ∣ d ∧ d ≤ size.toNat ∧ c.toInt = (d : Nat) ∧ Tiles 0 rs d) ∨
    (size.toNat ≤ (intToSize c).toNat ∧ Tiles 0 rs size.toNat)

include hL hcap in
theorem covers_copy (hle : size.toNat ≤ wrapsAt cap.toNat) {m : M} {rs : List (Int × Nat)} {c : Int32}
    (hi : Covers cap size rs c) (h : L.outcome m c = .copies) :
    Covers cap size (rs ++ [L.range c]) (L.next c) := by
  have hlt := hL.lt_of_copies h
  obtain ⟨d, hd, -, hc, ht⟩ | ⟨hge, -⟩ := hi
  · obtain ⟨n, hn, hrange, hnext⟩ := hL.copies_cases hcap h
    rw [received_toNat hc] at hlt hn hrange
    rw [hrange, hnext, Covers]
    simp only [tiles_concat]
    by_cases hlast : size.toNat - d ≤ cap.toNat
    · -- the last chunk may wrap the count, but the loop ends all the same
      rw [Nat.min_eq_left hlast] at hn ⊢
      refine .inr ⟨?_, hc ▸ ht, by omega⟩
      rcases Nat.lt_or_ge size.toNat (2 ^ 31) with hs | hs
      · have hadd := toInt_add (x := c) (y := n) (by omega) (by omega)
        rw [intToSize_toNat (by omega)]
        omega
      · have hadd := toInt_add_wrap (x := c) (y := n) (by omega)
        have hw := wrapsAt_le cap.toNat
        have := intToSize_toNat_neg (x := c + n) (by omega)
        omega
    · rw [Nat.min_eq_right (by omega)] at hn ⊢
      have hdn := Nat.dvd_add hd (Nat.dvd_refl cap.toNat)
      have := lt_of_lt_wrapsAt hdn (by omega)
      refine .inl ⟨d + cap.toNat, hdn, by omega, ?_, hc ▸ ht, by omega⟩
      rw [toInt_add (by omega) (by omega)]
      omega
  · omega

/-! ### Past the wrap -/

/-- What a receiver has copied whose count leaves the range of `int` too
early: whole chunks, or as much as wraps the count, and then something in
front of the buffer. -/
def Strays (cap : UInt64) (rs : List (Int × Nat)) (c : Int32) : Prop :=
  (∃ d, cap.toNat ∣ d ∧ c.toInt = (d : Nat) ∧ Tiles 0 rs d) ∨
    (c.toInt < 0 ∧ (Tiles 0 rs (wrapsAt cap.toNat) ∨ ∃ r ∈ rs, r.1 < 0))

variable (hpos : 0 < cap.toNat) (hgt : wrapsAt cap.toNat < size.toNat)
include hL hcap hpos hgt

section

variable {m : M} {rs : List (Int × Nat)} {c : Int32} (hi : Strays cap rs c) (h : L.outcome m c = .copies)
include hi h

theorem strays_copy :
    Strays cap (rs ++ [L.range c]) (L.next c) ∧ (intToSize c).toNat < (intToSize (L.next c)).toNat := by
  have hlt := hL.lt_of_copies h
  obtain ⟨n, hn, hrange, hnext⟩ := hL.copies_cases hcap h
  rw [hrange, hnext, Strays]
  simp only [tiles_concat]
  obtain ⟨d, hd, hc, ht⟩ | ⟨hneg, -⟩ := hi
  · rw [received_toNat hc] at hlt hn ⊢
    have hdn := Nat.dvd_add hd (Nat.dvd_refl cap.toNat)
    have hd31 := c.toInt_lt
    have hle := add_le_wrapsAt hpos hd (by omega)
    rw [Nat.min_eq_right (by omega)] at hn ⊢
    rcases Nat.lt_or_ge (d + cap.toNat) (2 ^ 31) with hs | hs
    · have hadd := toInt_add (x := c) (y := n) (by omega) (by omega)
      refine ⟨.inl ⟨d + cap.toNat, hdn, by omega, hc ▸ ht, by omega⟩, ?_⟩
      rw [intToSize_toNat (by omega)]
      omega
    · -- this chunk wraps the count
      have hadd := toInt_add_wrap (x := c) (y := n) (by omega)
      have hw := wrapsAt_le cap.toNat
      have heq : d + cap.toNat = wrapsAt cap.toNat := by
        by_contra hne
        have := lt_of_lt_wrapsAt hdn (by omega)
        omega
      refine ⟨.inr ⟨by omega, .inl ⟨hc ▸ ht, by omega⟩⟩, ?_⟩
      have := intToSize_toNat_neg (x := c + n) (by omega)
      omega
  · have hneg' := intToSize_toNat_neg hneg
    have hs := size.toNat_lt
    have hc := c.le_toInt
    have hadd := toInt_add (x := c) (y := n) (by omega) (by omega)
    have hneg'' := intToSize_toNat_neg (x := c + n) (by omega)
    refine ⟨.inr ⟨by omega, .inr ⟨_, List.mem_append_right _ (List.mem_singleton_self _), hneg⟩⟩, ?_⟩
    omega

end

theorem not_complete : ¬ Complete L size := by
  intro hall
  obtain ⟨m, hgo⟩ := hL.goes
  have h0 : Strays cap [] 0 := .inl ⟨0, Nat.dvd_zero _, rfl, rfl⟩
  obtain ⟨k, hk⟩ :=
    CopyLoop.exists_returns (fun _ => m) (μ := fun c => size.toNat - (intToSize c).toNat) h0
    (fun _ _ _ hi h => (hL.strays_copy hcap hpos hgt hi h).1) (fun k => ⟨k, Nat.le_refl k, hgo⟩)
    fun _ _ _ hi h => by
      have := (hL.strays_copy hcap hpos hgt hi h).2
      have := hL.lt_of_copies h
      omega
  have ht := hall _ k hk
  have hge := hL.le_of_returns hk
  obtain ⟨d, -, hc, -⟩ | ⟨-, hw | ⟨r, hr, hneg⟩⟩ := CopyLoop.run_inv (fun _ => m) h0
    (fun _ _ _ hi h => (hL.strays_copy hcap hpos hgt hi h).1) k
  · have := Int32.toInt_lt (L.counter 0 (fun _ => m) k)
    have := le_wrapsAt hpos
    rw [received_toNat hc] at hge
    omega
  · have := hw.end_eq
    have := ht.end_eq
    omega
  · have := ht.le_start r hr
    omega

omit hgt

/-- A receiver that returns has everything, just as long as its count does not
wrap before the last chunk. -/
theorem complete_iff : Complete L size ↔ size.toNat ≤ wrapsAt cap.toNat := by
  constructor
  · intro h
    by_contra hlt
    exact hL.not_complete hcap hpos (by omega) h
  · intro hle ms k hk
    have hge := hL.le_of_returns hk
    have h0 : Covers cap size [] 0 := .inl ⟨0, Nat.dvd_zero _, Nat.zero_le _, rfl, rfl⟩
    obtain ⟨d, -, hd, hc, ht⟩ | ⟨-, ht⟩ := CopyLoop.run_inv ms h0
      (fun _ _ _ hi h => hL.covers_copy hcap hle hi h) k
    · rw [received_toNat hc] at hge
      exact Nat.le_antisymm hd hge ▸ ht
    · exact ht

end RecvLoop

theorem recvTurns_recvLoop (i : Fin maxChannels) (size : UInt64) :
    RecvLoop (recvTurns i size) (.ofNat pageSize) size where
  outcome m c := by
    simp only [recvTurns, recvOutcome]
    split
    · exact .inl rfl
    · split
      · exact .inr rfl
      · split
        · exact .inl rfl
        · exact .inr rfl
  goes := by
    refine ⟨{ zeroShm with ctr := { zeroShm.ctr with channels := fun _ =>
      { Channel.zero with head := 1 } } }, fun c => ?_⟩
    have he : channelEmpty { Channel.zero with head := 1 } = false := by decide
    simp only [recvTurns, recvOutcome, he, zeroShm]
    split
    · rename_i h
      exact absurd rfl h
    · split <;> simp
  range _ := rfl
  next _ := rfl

theorem lockRecvTurns_recvLoop (key : LockKey) (size : UInt64) :
    RecvLoop (lockRecvTurns key size) (.ofNat lockDataSectionSize) size where
  outcome m c := by
    simp only [lockRecvTurns, lockRecvOutcome]
    split
    · exact .inr rfl
    · split
      · exact .inl rfl
      · split
        · exact .inl rfl
        · exact .inr rfl
  goes := by
    refine ⟨⟨1, false, key, 0, fun _ => 0⟩, fun c => ?_⟩
    have hk : lockNothingFor key ⟨1, false, key, 0, fun _ => 0⟩ = false := by simp [lockNothingFor]
    simp only [lockRecvTurns, lockRecvOutcome, hk]
    split <;> simp
  range _ := rfl
  next _ := rfl

/-- The receivers are complete up to `2³¹` bytes in page mode, and up to 513
chunks with the lock. -/
theorem recv_complete_iff (i : Fin maxChannels) (key : LockKey) (size : UInt64) :
    (Complete (recvTurns i size) size ↔ size.toNat ≤ 2 ^ 31) ∧
      (Complete (lockRecvTurns key size) size ↔ size.toNat ≤ 513 * lockDataSectionSize) :=
  ⟨(recvTurns_recvLoop i size).complete_iff (by decide) (by decide),
    (lockRecvTurns_recvLoop key size).complete_iff (by decide) (by decide)⟩

/-- With one byte more than `int` counts to, page mode returns too early. -/
theorem not_recv_complete : ¬ ∀ i key size, Complete (recvTurns i size) size ∧
    Complete (lockRecvTurns key size) size := by
  intro h
  have := (recvTurns_recvLoop 0 2147483649).complete_iff (by decide) (by decide)
  exact absurd (this.mp (h 0 ⟨0, 0, 0⟩ 2147483649).1) (by decide)

end Ivshmem
