import SecureIvshmem.Impl.Secure

/-!
# Page framing

How the two loops of page mode cut a message into pages. The sender's chunk
is the same in every turn: a whole page for messages below one page or of two
pages and more, the excess over one page in between, and nothing for exactly
one page (`toSent_toNat`). The receiver's is what is left, up to a page
(`toReceive_toInt`). So both loops agree on the number of pages outside
`[IVSHMEM_PAGE_SIZE, 2 * IVSHMEM_PAGE_SIZE)` and on no length inside it
(`roundTrip_iff`).
-/

namespace Ivshmem

open SharedMem SharedMem.Word

/-- Lengths for which `to_sent` is a whole page. -/
def WholePages (n : Nat) : Prop := n < pageSize ∨ 2 * pageSize ≤ n

instance (n : Nat) : Decidable (WholePages n) := inferInstanceAs (Decidable (_ ∨ _))

/-! ## Chunk lengths -/

theorem minSize_toNat (a b : UInt64) : (minSize a b).toNat = min a.toNat b.toNat := by
  unfold minSize
  split <;> rename_i h <;> rw [UInt64.lt_iff_toNat_lt] at h <;> omega

theorem toSent_toNat (size : UInt64) :
    (toSent size).toNat = if WholePages size.toNat then pageSize else size.toNat - pageSize := by
  have hlt := size.toNat_lt
  have hp : (UInt64.ofNat pageSize).toNat = 4096 := rfl
  have hs : (size - .ofNat pageSize).toNat =
      if size.toNat < 4096 then size.toNat + (2 ^ 64 - 4096) else size.toNat - 4096 := by
    rw [UInt64.toNat_sub, hp]
    split <;> omega
  rw [toSent, minSize_toNat, hp, hs]
  by_cases hw : WholePages size.toNat
  · rw [if_pos hw]
    simp only [WholePages, pageSize] at hw ⊢
    split <;> omega
  · rw [if_neg hw]
    simp only [WholePages, pageSize] at hw ⊢
    split <;> omega

theorem toSent_toNat_le (size : UInt64) : (toSent size).toNat ≤ pageSize := by
  rw [toSent_toNat]
  by_cases hw : WholePages size.toNat
  · rw [if_pos hw]
  · rw [if_neg hw]
    simp only [WholePages, pageSize] at hw ⊢
    omega

/-- The receiver never copies more than a page. -/
theorem toReceive_toNat_le (size : UInt64) (dataReceived : Int32) :
    (intToSize (toReceive size dataReceived)).toNat ≤ pageSize := by
  have hp : (UInt64.ofNat pageSize).toNat = pageSize := rfl
  have hm := minSize_toNat (size - intToSize dataReceived) (.ofNat pageSize)
  rw [hp] at hm
  have hle : (minSize (size - intToSize dataReceived) (.ofNat pageSize)).toNat ≤ pageSize := by omega
  have hi := sizeToInt_toInt (x := minSize (size - intToSize dataReceived) (.ofNat pageSize))
    (Nat.lt_of_le_of_lt hle (by decide))
  rw [toReceive, intToSize_toNat (by omega), hi, Int.toNat_natCast]
  exact hle

/-- `MIN` of what is left and some length, for any counter up to `size`. -/
theorem capped_toInt {size cap : UInt64} {dataReceived : Int32} (hcap : cap.toNat < 2 ^ 31)
    (h : intToSize dataReceived ≤ size) :
    (sizeToInt (minSize (size - intToSize dataReceived) cap)).toInt =
      min (size.toNat - (intToSize dataReceived).toNat) cap.toNat := by
  have hm := minSize_toNat (size - intToSize dataReceived) cap
  rw [sizeToInt_toInt (by omega), hm, UInt64.toNat_sub_of_le _ _ h]

section

variable {size : UInt64} {dataReceived : Int32} {d : Nat} (hd : dataReceived.toInt = d)
include hd

theorem received_toNat : (intToSize dataReceived).toNat = d := by
  rw [intToSize_toNat (by omega), hd, Int.toNat_natCast]

/-- The receiver's loop ends when all bytes are there. -/
theorem size_le_received : size ≤ intToSize dataReceived ↔ size.toNat ≤ d := by
  rw [UInt64.le_iff_toNat_le, received_toNat hd]

/-- `MIN` of what is left and some length. -/
theorem rest_toInt {cap : UInt64} (hcap : cap.toNat < 2 ^ 31) (h : d ≤ size.toNat) :
    (sizeToInt (minSize (size - intToSize dataReceived) cap)).toInt = min (size.toNat - d) cap.toNat := by
  have hle : intToSize dataReceived ≤ size := by
    rw [UInt64.le_iff_toNat_le, received_toNat hd]
    exact h
  rw [capped_toInt hcap hle, received_toNat hd]

theorem toReceive_toInt (h : d ≤ size.toNat) :
    (toReceive size dataReceived).toInt = min (size.toNat - d) pageSize :=
  rest_toInt hd (by decide) h

theorem toReceive_toNat (h : d ≤ size.toNat) :
    (intToSize (toReceive size dataReceived)).toNat = min (size.toNat - d) pageSize := by
  have := toReceive_toInt hd h
  rw [intToSize_toNat (by omega)]
  omega

theorem received_add_toInt (h : d ≤ size.toNat) (hs : size.toNat < 2 ^ 31) :
    (dataReceived + toReceive size dataReceived).toInt = (d + min (size.toNat - d) pageSize : Nat) := by
  have := toReceive_toInt hd h
  rw [toInt_add (by omega) (by omega)]
  omega

end

/-! ## Numbers of pages -/

/-- How many chunks of `k` bytes hold `n` bytes. -/
def chunkCount (k n : Nat) : Nat := (n + k - 1) / k

theorem chunkCount_zero {k : Nat} (hk : 0 < k) : chunkCount k 0 = 0 := by
  rw [chunkCount, Nat.zero_add, Nat.div_eq_of_lt (by omega)]

theorem chunkCount_sub {k n : Nat} (hk : 0 < k) (hn : 0 < n) :
    chunkCount k n = chunkCount k (n - k) + 1 := by
  unfold chunkCount
  rcases Nat.lt_or_ge n k with h | h
  · rw [show n - k + k - 1 = k - 1 by omega, Nat.div_eq_of_lt (a := k - 1) (by omega),
      Nat.div_eq_of_lt_le (k := 1) (by omega) (by omega)]
  · rw [show n + k - 1 = (n - k + k - 1) + k by omega, Nat.add_div_right _ hk]

/-- The sender publishes one page for each `to_sent` bytes, and none of them
is ever the last if `to_sent` is 0. -/
theorem sendLoop_length {msg : Message} (hs : msg.size.toNat < 2 ^ 31) :
    ∀ {fuel : Nat} {dataSent : UInt64} {runs : List (List UInt8)}, dataSent.toNat < 2 ^ 32 →
      sendLoop msg fuel dataSent = some runs →
      if (toSent msg.size).toNat = 0 then msg.size.toNat ≤ dataSent.toNat
      else runs.length = chunkCount (toSent msg.size).toNat (msg.size.toNat - dataSent.toNat)
  | 0, _, _, _, h => by simp [sendLoop] at h
  | fuel + 1, dataSent, runs, hd, h => by
    have hle := toSent_toNat_le msg.size
    rw [sendLoop] at h
    split at h
    · rename_i hdone
      rw [UInt64.le_iff_toNat_le] at hdone
      simp only [Option.some.injEq] at h
      subst h
      split
      · exact hdone
      · rw [Nat.sub_eq_zero_of_le hdone, chunkCount_zero (by omega), List.length_nil]
    · rename_i hgo
      rw [UInt64.le_iff_toNat_le] at hgo
      simp only [Option.map_eq_some_iff] at h
      obtain ⟨runs', h', rfl⟩ := h
      have hadd : (dataSent + toSent msg.size).toNat = dataSent.toNat + (toSent msg.size).toNat := by
        rw [UInt64.toNat_add]
        simp only [pageSize] at hle
        omega
      have ih := sendLoop_length hs (by rw [hadd]; simp only [pageSize] at hle; omega) h'
      rw [hadd] at ih
      split
      · rename_i h0
        rw [if_pos h0] at ih
        omega
      · rename_i h0
        rw [if_neg h0] at ih
        rw [List.length_cons, ih,
          chunkCount_sub (n := msg.size.toNat - dataSent.toNat) (by omega) (by omega), Nat.sub_sub]

/-- The receiver takes one page for each page of bytes. -/
theorem recvLoop_length {size : UInt64} (hs : size.toNat < 2 ^ 31) :
    ∀ {pages rest : List (Mem UInt8)} {d : Nat} {dataReceived : Int32} {buffer buffer' : Mem UInt8},
      dataReceived.toInt = d → d ≤ size.toNat →
      recvLoop size pages dataReceived buffer = some (buffer', rest) →
      pages.length = rest.length + chunkCount pageSize (size.toNat - d) := by
  intro pages
  induction pages with
  | nil =>
    intro rest d dataReceived buffer buffer' hd _ h
    rw [recvLoop] at h
    split at h
    · rename_i hdone
      rw [size_le_received hd] at hdone
      simp only [Option.some.injEq, Prod.mk.injEq] at h
      rw [← h.2, Nat.sub_eq_zero_of_le hdone, chunkCount_zero (by decide)]
      rfl
    · cases h
  | cons page pages ih =>
    intro rest d dataReceived buffer buffer' hd hle h
    rw [recvLoop] at h
    split at h
    · rename_i hdone
      rw [size_le_received hd] at hdone
      simp only [Option.some.injEq, Prod.mk.injEq] at h
      rw [← h.2, Nat.sub_eq_zero_of_le hdone, chunkCount_zero (by decide), Nat.add_zero]
    · rename_i hgo
      rw [size_le_received hd] at hgo
      have hsub : size.toNat - (d + min (size.toNat - d) pageSize) = size.toNat - d - pageSize := by omega
      rw [List.length_cons, ih (received_add_toInt hd hle hs) (by omega) h, hsub,
        chunkCount_sub (n := size.toNat - d) (by decide) (by omega), Nat.add_assoc]

/-! ## Whole pages -/

/-- A message of whole pages is published page by page. -/
theorem sendLoop_pieces {msg : Message} (hs : msg.size.toNat < 2 ^ 31) (hw : WholePages msg.size.toNat) :
    ∀ {k fuel : Nat} {dataSent : UInt64}, dataSent.toNat < 2 ^ 32 → k < fuel →
      chunkCount pageSize (msg.size.toNat - dataSent.toNat) = k →
      sendLoop msg fuel dataSent = some (pieces (fun _ => pageSize) msg.buffer dataSent.toNat k)
  | _, 0, _, _, hk, _ => absurd hk (Nat.not_lt_zero _)
  | k, fuel + 1, dataSent, hd, hk, hc => by
    have ht : (toSent msg.size).toNat = pageSize := by rw [toSent_toNat, if_pos hw]
    rw [sendLoop]
    by_cases hdone : msg.size ≤ dataSent
    · rw [if_pos hdone]
      rw [UInt64.le_iff_toNat_le] at hdone
      rw [Nat.sub_eq_zero_of_le hdone, chunkCount_zero (by decide)] at hc
      rw [← hc, pieces_zero]
    · rw [if_neg hdone]
      rw [UInt64.le_iff_toNat_le] at hdone
      rw [chunkCount_sub (by decide) (by omega), Nat.sub_sub] at hc
      obtain ⟨k, rfl⟩ : ∃ k', k = k' + 1 := ⟨_, hc.symm⟩
      have hadd : (dataSent + toSent msg.size).toNat = dataSent.toNat + pageSize := by
        rw [UInt64.toNat_add, ht, pageSize]
        omega
      rw [sendLoop_pieces hs hw (by rw [hadd, pageSize]; omega) (Nat.lt_of_succ_lt_succ hk)
        (by rw [hadd]; exact Nat.succ.inj hc), hadd, Option.map_some, pieces_succ, sentBytes, ht]

/-- A page that holds the run `bs`, and anything after it. -/
def Filled (bs : List UInt8) (page : Mem UInt8) : Prop := bytesAt page 0 bs.length = bs

theorem exists_filled (bs : List UInt8) : ∃ page, Filled bs page :=
  ⟨store (fun _ => 0) 0 bs, bytesAt_store_self _ 0 bs⟩

/-- From the pages of a message the receiver rebuilds it, and leaves what
comes after them. -/
theorem recvLoop_pieces {msg : Message} (hs : msg.size.toNat < 2 ^ 31) {rest : List (Mem UInt8)} :
    ∀ {k d : Nat} {pages : List (Mem UInt8)} {dataReceived : Int32} {buffer : Mem UInt8},
      dataReceived.toInt = d → d ≤ msg.size.toNat → chunkCount pageSize (msg.size.toNat - d) = k →
      List.Forall₂ Filled (pieces (fun _ => pageSize) msg.buffer d k) pages →
      bytesAt buffer 0 d = bytesAt msg.buffer 0 d →
      ∃ buffer', recvLoop msg.size (pages ++ rest) dataReceived buffer = some (buffer', rest) ∧
        bytesAt buffer' 0 msg.size.toNat = bytesAt msg.buffer 0 msg.size.toNat
  | 0, d, pages, dataReceived, buffer, hd, hle, hc, hp, hb => by
    have hdone : msg.size.toNat ≤ d := by
      by_contra hlt
      rw [chunkCount_sub (by decide) (by omega)] at hc
      exact absurd hc (Nat.succ_ne_zero _)
    cases hp
    refine ⟨buffer, ?_, ?_⟩
    · rw [List.nil_append, recvLoop.eq_def, if_pos ((size_le_received hd).mpr hdone)]
    · rw [Nat.le_antisymm hdone hle, hb]
  | k + 1, d, pages, dataReceived, buffer, hd, hle, hc, hp, hb => by
    have hlt : d < msg.size.toNat := by
      by_contra hge
      rw [Nat.sub_eq_zero_of_le (by omega), chunkCount_zero (by decide)] at hc
      exact absurd hc.symm (Nat.succ_ne_zero _)
    rw [chunkCount_sub (by decide) (by omega)] at hc
    rw [pieces_succ] at hp
    obtain ⟨page, pages, hpage, hpages, rfl⟩ := List.forall₂_cons_left_iff.mp hp
    rw [Filled, length_bytesAt] at hpage
    have hrun : receivedBytes page 0 msg.size dataReceived =
        bytesAt msg.buffer d (min (msg.size.toNat - d) pageSize) := by
      rw [receivedBytes, toReceive_toNat hd hle, ← take_bytesAt _ _ (Nat.min_le_right _ pageSize), hpage,
        take_bytesAt _ _ (Nat.min_le_right ..)]
    have hb' : bytesAt (store buffer dataReceived.toInt (receivedBytes page 0 msg.size dataReceived)) 0
        (d + min (msg.size.toNat - d) pageSize) =
        bytesAt msg.buffer 0 (d + min (msg.size.toNat - d) pageSize) := by
      have := bytesAt_store_append buffer 0 d (receivedBytes page 0 msg.size dataReceived)
      rw [hrun, length_bytesAt, Int.zero_add] at this
      rw [hrun, hd, this, hb, bytesAt_add, Int.zero_add]
    rw [List.cons_append, recvLoop, if_neg (by rw [size_le_received hd]; omega)]
    -- the next chunk starts a whole page on, or this one was the last
    by_cases hlast : msg.size.toNat - d ≤ pageSize
    · rw [Nat.min_eq_left hlast] at hb'
      rw [Nat.sub_eq_zero_of_le hlast, chunkCount_zero (by decide)] at hc
      obtain rfl : k = 0 := (Nat.succ.inj hc).symm
      rw [pieces_zero, List.forall₂_nil_left_iff] at hpages
      subst hpages
      refine recvLoop_pieces hs (k := 0) (d := d + (msg.size.toNat - d)) ?_ (by omega) ?_ .nil hb'
      · rw [received_add_toInt hd hle hs, Nat.min_eq_left hlast]
      · rw [Nat.sub_eq_zero_of_le (by omega), chunkCount_zero (by decide)]
    · rw [Nat.min_eq_right (by omega)] at hb'
      refine recvLoop_pieces hs ?_ (by omega) ?_ hpages hb'
      · rw [received_add_toInt hd hle hs, Nat.min_eq_right (by omega)]
      · rw [← Nat.sub_sub]; exact Nat.succ.inj hc

/-! ## Lists of messages -/

/-- The receiver's calls for `msgs`, one after another on the pages `pages`
(one list for each message), each consume the pages of their message and
rebuild it. -/
def Receives : List Message → List (List (Mem UInt8)) → Prop
  | [], _ => True
  | _ :: _, [] => False
  | msg :: msgs, pages :: later =>
    (∀ buffer, ∃ buffer', recvLoop msg.size (pages ++ later.flatten) 0 buffer =
      some (buffer', later.flatten) ∧
      bytesAt buffer' 0 msg.size.toNat = bytesAt msg.buffer 0 msg.size.toNat) ∧ Receives msgs later

/-- The sender's calls for `msgs` publish finitely many pages, and whatever
else those pages hold, the receiver's calls rebuild the messages. -/
def RoundTrip (msgs : List Message) : Prop :=
  ∃ runs, List.Forall₂ (fun msg r => ∃ fuel, sendLoop msg fuel 0 = some r) msgs runs ∧
    ∀ pages, List.Forall₂ (List.Forall₂ Filled) runs pages → Receives msgs pages

theorem exists_filled_pages (runs : List (List UInt8)) : ∃ pages, List.Forall₂ Filled runs pages := by
  induction runs with
  | nil => exact ⟨[], .nil⟩
  | cons bs runs ih =>
    obtain ⟨page, hp⟩ := exists_filled bs
    obtain ⟨pages, hps⟩ := ih
    exact ⟨page :: pages, .cons hp hps⟩

theorem exists_filled_streams (runs : List (List (List UInt8))) :
    ∃ pages, List.Forall₂ (List.Forall₂ Filled) runs pages := by
  induction runs with
  | nil => exact ⟨[], .nil⟩
  | cons r runs ih =>
    obtain ⟨ps, hp⟩ := exists_filled_pages r
    obtain ⟨pss, hps⟩ := ih
    exact ⟨ps :: pss, .cons hp hps⟩

/-- A message whose pages number as many as the receiver takes is one of whole
pages: the excess over one page goes at least three times into a message
below two pages. -/
theorem wholePages_of_length {msg : Message} (hs : msg.size.toNat < 2 ^ 31) {fuel : Nat}
    {run : List (List UInt8)} (hsend : sendLoop msg fuel 0 = some run)
    (hlen : run.length = chunkCount pageSize msg.size.toNat) :
    WholePages msg.size.toNat := by
  by_contra hw
  have hl := sendLoop_length hs (by decide) hsend
  rw [toSent_toNat, if_neg hw, hlen] at hl
  simp only [WholePages, pageSize, UInt64.toNat_zero, Nat.sub_zero] at hw hl
  split at hl
  · omega
  · have h3 : 3 ≤ chunkCount (msg.size.toNat - 4 * 1024) msg.size.toNat :=
      (Nat.le_div_iff_mul_le (by omega)).mpr (by omega)
    have h2 : chunkCount (4 * 1024) msg.size.toNat < 3 := Nat.div_lt_of_lt_mul (by omega)
    omega

theorem wholePages_of_receives :
    ∀ {msgs : List Message} {runs : List (List (List UInt8))}, (∀ msg ∈ msgs, msg.size.toNat < 2 ^ 31) →
      List.Forall₂ (fun msg r => ∃ fuel, sendLoop msg fuel 0 = some r) msgs runs →
      (∀ pages, List.Forall₂ (List.Forall₂ Filled) runs pages → Receives msgs pages) →
      ∀ msg ∈ msgs, WholePages msg.size.toNat
  | [], _, _, _, _, _, hmem => absurd hmem List.not_mem_nil
  | msg :: msgs, _ :: runs, hs, .cons ⟨fuel, hsend⟩ hsends, hrecv, msg', hmem => by
    obtain ⟨pages, hpages⟩ := exists_filled_pages _
    rcases List.mem_cons.mp hmem with rfl | hmem
    · obtain ⟨later, hlater⟩ := exists_filled_streams runs
      obtain ⟨buffer', hr, -⟩ := (hrecv _ (.cons hpages hlater)).1 fun _ => 0
      have hl := recvLoop_length (hs _ List.mem_cons_self) (d := 0) rfl (Nat.zero_le _) hr
      rw [List.length_append, ← hpages.length_eq, Nat.add_comm, Nat.add_left_cancel_iff] at hl
      exact wholePages_of_length (hs _ List.mem_cons_self) hsend hl
    · exact wholePages_of_receives (fun m hm => hs m (List.mem_cons_of_mem _ hm)) hsends
        (fun later hlater => (hrecv _ (.cons hpages hlater)).2) _ hmem

theorem roundTrip_of_wholePages :
    ∀ {msgs : List Message}, (∀ msg ∈ msgs, msg.size.toNat < 2 ^ 31) →
      (∀ msg ∈ msgs, WholePages msg.size.toNat) → RoundTrip msgs
  | [], _, _ => ⟨[], .nil, fun _ _ => trivial⟩
  | msg :: msgs, hs, hw => by
    have hs0 := hs msg List.mem_cons_self
    obtain ⟨runs, hsends, hrecv⟩ := roundTrip_of_wholePages (fun m hm => hs m (List.mem_cons_of_mem _ hm))
      fun m hm => hw m (List.mem_cons_of_mem _ hm)
    refine ⟨_ :: runs,
      .cons ⟨_, sendLoop_pieces hs0 (hw msg List.mem_cons_self) (by decide) (Nat.lt_succ_self _) rfl⟩
      hsends, fun pages hpages => ?_⟩
    cases hpages with
    | cons hpages hlater =>
      exact ⟨fun buffer => recvLoop_pieces hs0 rfl (Nat.zero_le _) rfl hpages rfl, hrecv _ hlater⟩

/-- Messages sent back to back are rebuilt just if none is at least one page
and below two pages long. -/
theorem roundTrip_iff (msgs : List Message) (hs : ∀ msg ∈ msgs, msg.size.toNat < 2 ^ 31) :
    RoundTrip msgs ↔ ∀ msg ∈ msgs, WholePages msg.size.toNat :=
  ⟨fun ⟨_, hsends, hrecv⟩ => wholePages_of_receives hs hsends hrecv, roundTrip_of_wholePages hs⟩

/-- `roundTrip_iff` for a message of two pages and a byte after one of five
bytes. -/
theorem roundTrip_iff_whole :
    (∀ msg ∈ [⟨fun _ => 7, 5⟩, ⟨fun x => .ofInt x, 8193⟩], (msg : Message).size.toNat < 2 ^ 31) ∧
    (RoundTrip [⟨fun _ => 7, 5⟩, ⟨fun x => .ofInt x, 8193⟩] ↔
      ∀ msg ∈ [⟨fun _ => 7, 5⟩, ⟨fun x => .ofInt x, 8193⟩], WholePages (msg : Message).size.toNat) :=
  have hs : ∀ msg ∈ [⟨fun _ => 7, 5⟩, ⟨fun x => .ofInt x, 8193⟩],
    (msg : Message).size.toNat < 2 ^ 31 := by
    intro msg hmem
    simp only [List.mem_cons, List.not_mem_nil, or_false] at hmem
    rcases hmem with rfl | rfl <;> decide
  ⟨hs, roundTrip_iff _ hs⟩

/-- A message of exactly one page is sent for ever: every turn publishes a
page and sends no byte. -/
theorem not_roundTrip_page :
    ¬ ∀ msgs : List Message, (∀ msg ∈ msgs, msg.size.toNat < 2 ^ 31) → RoundTrip msgs := by
  intro h
  obtain ⟨runs, hsends, -⟩ := h [⟨fun _ => 7, 4096⟩] fun msg hmem => by
    rw [List.mem_singleton.mp hmem]; decide
  cases hsends with
  | cons hsend _ =>
    obtain ⟨fuel, hsend⟩ := hsend
    have := sendLoop_length (by decide) (by decide) hsend
    rw [if_pos (by decide)] at this
    exact absurd this (by decide)

end Ivshmem
