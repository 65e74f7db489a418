import SecureIvshmem.Proof.Exclusion
import SecureIvshmem.Proof.Rebalance
import SecureIvshmem.Proof.Shares
import SecureIvshmem.Proof.Transfer

/-!
# Transfer across rebalancings

A sender and a receiver on one channel, any number of clients on others, and
a trusted process that rebalances the table meanwhile, statement by statement.
What the two know about their channel they know about a memory that is at any
time as it will be when the rebalancing under way is over (`mirror`): most
steps leave it as it is (`Alike`), and the one that begins to rewrite the table
resizes the ring, which keeps the pages that wait where `KeepsAt` holds.
`transfer_of_undisturbed` is the result.
-/

namespace Ivshmem

open SharedMem SharedMem.Word

/-! ## Memories that look alike -/

/-- Two memories that a sender and a receiver on channel `i` need not tell
apart. -/
structure Alike (i : Fin maxChannels) (m m' : Shm) : Prop where
  mutex : m'.ctr.controlMutex = m.ctr.controlMutex
  find : ∀ key, findChannel m'.ctr key = findChannel m.ctr key
  bufOffset : (m'.ctr.channels i).bufOffset = (m.ctr.channels i).bufOffset
  numPage : (m'.ctr.channels i).numPage = (m.ctr.channels i).numPage
  head : (m'.ctr.channels i).head = (m.ctr.channels i).head
  tail : (m'.ctr.channels i).tail = (m.ctr.channels i).tail
  pages : ∀ j < (m.ctr.channels i).numPage.toInt.toNat,
    pageAt m'.data (m.ctr.channels i).bufOffset.toNat j =
    pageAt m.data (m.ctr.channels i).bufOffset.toNat j

section

variable {i : Fin maxChannels} {m m' : Shm}

theorem Alike.waiting_eq (h : Alike i m m') :
    waiting (m'.ctr.channels i) = waiting (m.ctr.channels i) := by
  simp only [waiting, h.numPage, h.head, h.tail]

theorem RingOk.of_alike (hr : RingOk i m) (h : Alike i m m') : RingOk i m' := by
  refine ⟨h.mutex ▸ hr.mutex, ?_, ?_, ?_, ?_⟩ <;> simp only [h.numPage, h.head, h.tail]
  exacts [hr.two_le, hr.fits, hr.head_lt, hr.tail_lt]

theorem Alike.waitingPages_eq (h : Alike i m m') (hr : RingOk i m) :
    waitingPages m' i = waitingPages m i := by
  simp only [waitingPages, h.bufOffset, h.numPage, h.head, h.tail]
  exact Ring.items_congr fun j hj => h.pages j (Ring.lt_of_mem_window (by have := hr.two_le; omega) hj)

theorem SendAt.congr {msg : Message} {d : Nat} {pc : SendPc} (h : Alike i m m') (hr : RingOk i m)
    (hat : SendAt (m.ctr.channels i) m.data msg d pc) : SendAt (m'.ctr.channels i) m'.data msg d pc := by
  have hpage := h.pages _ hr.head_lt
  cases pc <;>
    simp only [SendAt, h.bufOffset, h.numPage, h.head, h.tail, h.waiting_eq, hpage] at hat ⊢ <;> exact hat

theorem SenderOk.of_alike {t : Sender} (hs : SenderOk i m t) (hr : RingOk i m) (h : Alike i m m') :
    SenderOk i m' t :=
  ⟨by rw [h.find]; exact hs.find, hs.idle, hs.sizes, hs.chan, hs.bound,
    fun msg rest e => SendAt.congr h hr (hs.pc msg rest e)⟩

theorem ReceiverOk.of_alike {past left : List Message} {t : Receiver} (ht : ReceiverOk i m past left t)
    (h : Alike i m m') : ReceiverOk i m' past left t := by
  refine ⟨by rw [h.find]; exact ht.find, ht.idle, ht.sizes, ht.calls, ht.chan, ht.returned,
    fun msg rest e => ?_⟩
  obtain ⟨d, hd, hle, hat⟩ := ht.bound msg rest e
  exact ⟨d, hd, hle, hat.mono h.bufOffset h.numPage h.tail (by rw [h.head]; exact id)⟩

variable {msgs : List Message} {t : Sender} {r : Receiver}

theorem LinkInv.of_alike (hl : LinkInv i msgs ⟨m, t, r⟩) (h : Alike i m m') :
    LinkInv i msgs ⟨m', t, r⟩ := by
  obtain ⟨hring, hs, hcount, past, left, rfl, hr, hstream⟩ := hl
  refine ⟨hring.of_alike h, hs.of_alike hring h, ?_, past, left, rfl, hr.of_alike h, ?_⟩
  · simp only [h.waiting_eq]
    exact hcount
  · rw [h.waitingPages_eq hring]
    exact hstream

/-- A resizing that keeps the waiting pages, while neither party is in its
turn. -/
theorem LinkInv.of_resized (hl : LinkInv i msgs ⟨m, t, r⟩) (hring : RingOk i m')
    (hfind : ∀ key, findChannel m'.ctr key = findChannel m.ctr key)
    (hpages : waitingPages m' i = waitingPages m i) (hs : t.pc.inTurn = false)
    (hr : r.pc.inTurn = false) : LinkInv i msgs ⟨m', t, r⟩ := by
  obtain ⟨-, hsend, hcount, past, left, rfl, hrecv, hstream⟩ := hl
  have hw : waiting (m'.ctr.channels i) = waiting (m.ctr.channels i) := by
    rw [← length_waitingPages, hpages, length_waitingPages]
  refine ⟨hring, ⟨by rw [hfind]; exact hsend.find, hsend.idle, hsend.sizes, hsend.chan, hsend.bound,
    fun msg rest e => ?_⟩, ?_, past, left, rfl,
    ⟨by rw [hfind]; exact hrecv.find, hrecv.idle, hrecv.sizes, hrecv.calls,
    hrecv.chan, hrecv.returned, fun msg rest e => ?_⟩, ?_⟩
  · have hat := hsend.pc msg rest e
    cases hpc : t.pc <;> rw [hpc] at hat hs <;> first | exact hat | cases hs
  · simp only [hw]
    exact hcount
  · obtain ⟨d, hd, hle, hat⟩ := hrecv.bound msg rest e
    refine ⟨d, hd, hle, ?_⟩
    cases hpc : r.pc <;> rw [hpc] at hat hr <;> first | exact hat | cases hr
  · rw [hpages]
    exact hstream

/-! ## Waiting for the mutex -/

/-- A sender that finds `control_mutex` set does no more than to look its
channel up, or to end the turn before. -/
theorem SenderOk.waits {v : Shm} (hs : SenderOk i v t) (hm : m.ctr.controlMutex ≠ 0)
    (hfind : ∀ key, findChannel m.ctr key = findChannel v.ctr key) (ht : t.pc.inTurn = false)
    (now : Int64) :
    SenderOk i v (sendStep now m t).2 ∧ sendTodo (sendStep now m t).2 = sendTodo t ∧
      (sendStep now m t).2.published = t.published := by
  have same : Quiet i v v := ⟨.refl i v, rfl, rfl, rfl⟩
  cases hc : t.calls with
  | nil => simpa only [sendStep, hc] using ⟨hs, trivial, trivial⟩
  | cons msg rest =>
    have goto : ∀ t' : Sender, t'.key = t.key → t'.calls = t.calls → t'.dataSent = t.dataSent →
        t'.published = t.published → t'.chan = i →
        SendAt (v.ctr.channels i) v.data msg t.dataSent.toNat t'.pc →
        SenderOk i v t' ∧ sendTodo t' = sendTodo t ∧
        t'.published = t.published := fun t' hk hc' hd hp hch hat =>
      ⟨(hs.quiet hc same hk hc' hd hp hch hat).2, by rw [sendTodo, sendTodo, hc', hd], hp⟩
    have hpc := hs.pc msg rest hc
    simp only [sendStep, hc]
    unfold sendCallStep
    cases e : t.pc <;> rw [e] at ht hpc <;> simp only [SendAt] at hpc
    case request pc =>
      subst hpc
      simpa only [requestStep, hfind, hs.find] using
        goto { t with pc := .mutex, chan := i } rfl rfl rfl rfl rfl trivial
    case mutex =>
      simp only [hm, ne_eq, not_false_eq_true, ↓reduceIte]
      exact ⟨hs, trivial, trivial⟩
    case addSize | stamp => exact goto _ rfl rfl rfl rfl (hs.chan (by simp [e])) trivial
    all_goals cases ht

/-- The same for a receiver. -/
theorem ReceiverOk.waits {v : Shm} {past left : List Message} (hr : ReceiverOk i v past left r)
    (hm : m.ctr.controlMutex ≠ 0) (hfind : ∀ key, findChannel m.ctr key = findChannel v.ctr key)
    (ht : r.pc.inTurn = false) :
    ReceiverOk i v past left (recvStep m r).2 ∧ recvTodo left (recvStep m r).2 = recvTodo left r ∧
      (recvStep m r).2.consumed = r.consumed := by
  have same : Quiet i v v := ⟨.refl i v, rfl, rfl, rfl⟩
  cases hc : r.calls with
  | nil => simpa only [recvStep, hc] using ⟨hr, trivial, trivial⟩
  | cons call rest =>
    obtain ⟨msg, left, rfl⟩ := hr.left_eq_cons hc
    obtain ⟨d, hd, hle, hpc⟩ := hr.bound msg left rfl
    have goto : ∀ r' : Receiver, r'.key = r.key → r'.calls = r.calls → r'.dataReceived = r.dataReceived →
        r'.consumed = r.consumed → r'.chan = i → r'.returned = r.returned →
        RecvAt (v.ctr.channels i) msg d r'.buffer r'.pc → ReceiverOk i v past (msg :: left) r' ∧
        recvTodo (msg :: left) r' = recvTodo (msg :: left) r ∧ r'.consumed = r.consumed :=
      fun r' hk hc' hd' hn hch hret hat => by
        refine ⟨(hr.quiet same hk hc' hd' hn hch hret fun d' e => ?_).2,
          by rw [recvTodo, recvTodo, hd'], hn⟩
        obtain rfl : d = d' := by omega
        exact hat
    simp only [recvStep, hc]
    unfold recvCallStep
    cases e : r.pc <;> rw [e] at ht hpc <;> simp only [RecvAt] at hpc
    case find =>
      subst hpc
      simpa only [hfind, hr.find] using
        goto { r with pc := .mutex, chan := i, buffer := call.buffer } rfl rfl rfl rfl rfl rfl rfl
    case mutex =>
      simp only [hm, ne_eq, not_false_eq_true, ↓reduceIte]
      exact ⟨hr, trivial, trivial⟩
    case subSize n => exact goto _ rfl rfl rfl rfl (hr.chan (by simp [e])) rfl hpc
    all_goals cases ht

theorem LinkInv.sender_waits {v : Shm} (hl : LinkInv i msgs ⟨v, t, r⟩) (hm : m.ctr.controlMutex ≠ 0)
    (hfind : ∀ key, findChannel m.ctr key = findChannel v.ctr key) (ht : t.pc.inTurn = false)
    (now : Int64) :
    LinkInv i msgs ⟨v, (sendStep now m t).2, r⟩ := by
  obtain ⟨hring, hs, hcount, past, left, hsplit, hr, hstream⟩ := hl
  obtain ⟨hs', htodo, hp⟩ := hs.waits hm hfind ht now
  exact ⟨hring, hs', hp.trans hcount, past, left, hsplit, hr, htodo ▸ hstream⟩

theorem LinkInv.receiver_waits {v : Shm} (hl : LinkInv i msgs ⟨v, t, r⟩) (hm : m.ctr.controlMutex ≠ 0)
    (hfind : ∀ key, findChannel m.ctr key = findChannel v.ctr key) (ht : r.pc.inTurn = false) :
    LinkInv i msgs ⟨v, t, (recvStep m r).2⟩ := by
  obtain ⟨hring, hs, hcount, past, left, hsplit, hr, hstream⟩ := hl
  obtain ⟨hr', htodo, hn⟩ := hr.waits hm hfind ht
  exact ⟨hring, hs, hn ▸ hcount, past, left, hsplit, hr', htodo.trans hstream⟩

end

/-! ## The memory when a rebalancing is over -/

/-- Between the first store to the table and the last. -/
def RebalancePc.rewrites : RebalancePc → Bool
  | .test _ | .write _ _ | .setActive _ | .clear _ => true
  | _ => false

/-- The entry `i`, now `ch`, when the rebalancing under way is over. -/
def Rebalancer.settle (t : Rebalancer) (i : Fin maxChannels) (ch : Channel) : Channel :=
  if t.pc.rewrites then rebalanceChannel t.numPage t.size (.ofNat i.val * t.size) (t.tmp i) else ch

/-- The memory that a sender and a receiver on channel `i` will find when they
find `control_mutex` clear. -/
def mirror (i : Fin maxChannels) (m : Shm) (t : Rebalancer) : Shm :=
  { m with ctr := { m.ctr.modify i (t.settle i) with controlMutex := 0 } }

/-- When a rebalancing that rewrites the table of `m` keeps the pages waiting
in channel `i`: there is room for them, the ring is not wrapped or the new
number of pages divides the old, and every waiting page already has its bytes
at the place it will be looked for. -/
def KeepsAt (i : Fin maxChannels) (m : Shm) : Prop :=
  let ch := m.ctr.channels i
  let n := ch.numPage.toInt.toNat
  let n' := evenPages m.ctr.numActiveChannels.toInt.toNat
  waiting ch < n' ∧ (ch.tail ≤ ch.head ∨ n' ∣ n) ∧
    ∀ j ∈ Ring.window n ch.tail.toNat ch.head.toNat,
      pageAt m.data (i.val * (n' * pageSize)) (j % n') = pageAt m.data ch.bufOffset.toNat j

instance (i : Fin maxChannels) (m : Shm) : Decidable (KeepsAt i m) :=
  inferInstanceAs (Decidable (_ ∧ _ ∧ _))

section

variable {i : Fin maxChannels} {m : Shm} {t : Rebalancer}

@[simp] theorem mirror_data : (mirror i m t).data = m.data := rfl

@[simp] theorem mirror_channel : (mirror i m t).ctr.channels i = t.settle i (m.ctr.channels i) := by
  simp [mirror]

/-- While the table is rewritten, `Rewriting` says how far. -/
theorem TableOk.rewriting {c : ControlSection} (h : TableOk c t) (hr : t.pc.rewrites = true) :
    ∃ k r, Rewriting c t k r := by
  unfold TableOk at h
  cases e : t.pc <;> rw [e] at h hr
  case test k => exact ⟨_, _, h⟩
  case write w k => exact ⟨_, _, h.2⟩
  case setActive k | clear k => exact ⟨_, _, h.2⟩
  all_goals cases hr

theorem mirror_find (h : TableOk m.ctr t) (key : ChannelKey) :
    findChannel (mirror i m t).ctr key = findChannel m.ctr key := by
  refine findChannel_congr (by rfl) (fun j hj => ?_) key
  by_cases hji : j = i
  · subst hji
    rw [mirror_channel, Rebalancer.settle]
    split
    · rename_i hr
      obtain ⟨k, r, hrw⟩ := h.rewriting hr
      exact (hrw.entries j hj).key.symm
    · rfl
  · exact congrArg Channel.key (ControlSection.modify_channels_of_ne _ _ _ hji)

/-- The number of pages that a rebalancing gives every channel. -/
theorem Rewriting.pages {c : ControlSection} {k r : Nat} (h : Rewriting c t k r) :
    t.numPage.toInt = evenPages c.numActiveChannels.toInt.toNat ∧
    31 ≤ evenPages c.numActiveChannels.toInt.toNat := by
  have hpos := h.pos
  have hle := h.le_max
  rw [h.numPage]
  exact ⟨rebalancedNumPage_toInt (by omega), le_evenPages (by omega) (by omega)⟩

/-- An entry with all its assignments is as a rebalancing leaves it. -/
theorem EntryAt.settled {old ch : Channel} {numPage : Int32} {size : UInt64} {j : Nat}
    (h : EntryAt old numPage size j 8 ch) :
    ch.bufOffset = .ofNat j * size ∧ ch.numPage = numPage ∧ ch.head = old.head % intToU32 numPage ∧
      ch.tail = old.tail % intToU32 numPage :=
  ⟨h.bufOffset (by decide), h.numPage (by decide), h.head.trans (if_pos (by decide)),
    h.tail.trans (if_pos (by decide))⟩

/-- A statement that neither begins nor ends the rewriting of the table leaves
every entry as it will be. -/
theorem settle_step {c : ControlSection} (h : TableOk c t) (hpc : t.pc ≠ .clearFree)
    (hpc' : ∀ k, t.pc ≠ .clear k) (malloc : Bool) :
    (rebalanceStep malloc c t).2.settle i ((rebalanceStep malloc c t).1.channels i) =
      t.settle i (c.channels i) := by
  unfold TableOk at h
  cases e : t.pc <;> rw [e] at h hpc hpc' <;> simp only [rebalanceStep, Rebalancer.settle, e] at h ⊢
  case clearFree => exact absurd rfl hpc
  case clear k => exact absurd rfl (hpc' k)
  case idle => by_cases hn : c.numActiveChannels ≤ 0 <;> simp [hn, RebalancePc.rewrites]
  case compare => by_cases hs : t.size = (c.channels 0).bufSize <;> (simp only [hs, ↓reduceIte]; rfl)
  case malloc => cases malloc <;> rfl
  case snapshot =>
    by_cases hn : .ofNat maxChannels < c.numActiveChannels <;> (simp only [hn, ↓reduceIte]; rfl)
  case test k =>
    have hle := h.le_max
    by_cases hk : k < (intToU32 c.numActiveChannels).toNat <;> simp only [hk, ↓reduceIte]
    · rw [lt_count h.pos] at hk
      have hk' : k < maxChannels := by omega
      simp only [hk', ↓reduceDIte]
      rfl
    · rfl
  case write w k =>
    have hne : t.numPage ≠ 0 := fun e0 => by
      obtain ⟨hp, hge⟩ := h.2.pages
      rw [e0, show (0 : Int32).toInt = 0 from rfl] at hp
      omega
    simp only [hne, and_false, ↓reduceIte]
    cases w <;> rfl
  all_goals rfl

/-- A step of a rebalancing, but for the one that begins to rewrite the table,
leaves the memory as it will be. -/
theorem mirror_trusted (h : TableOk m.ctr t) (hi : m.ctr.Active i) (hpc : t.pc ≠ .clearFree)
    (malloc : Bool) :
    Alike i (mirror i m t) (mirror i { m with ctr := (rebalanceStep malloc m.ctr t).1 }
      (rebalanceStep malloc m.ctr t).2) := by
  have hfind : ∀ key, findChannel
      (mirror i { m with ctr := (rebalanceStep malloc m.ctr t).1 }
        (rebalanceStep malloc m.ctr t).2).ctr key =
        findChannel (mirror i m t).ctr key := fun key => by
    rw [mirror_find (rebalanceStep_table malloc h), mirror_find h]
    exact rebalanceStep_find malloc h key
  by_cases hclear : ∃ k, t.pc = .clear k
  · obtain ⟨k, e⟩ := hclear
    unfold TableOk at h
    rw [e] at h
    obtain ⟨hk, h⟩ := h
    have he := h.entries i hi
    have hi' : (i.val : Int) < m.ctr.numActiveChannels.toInt := hi
    rw [show entryRank k 0 i.val = 8 by simp only [entryRank]; rw [if_pos (by omega)]] at he
    obtain ⟨ho, hn, hh, ht⟩ := he.settled
    refine ⟨rfl, hfind, ?_, ?_, ?_, ?_, fun _ _ => rfl⟩ <;>
      simp only [mirror_channel, Rebalancer.settle, rebalanceStep, e, RebalancePc.rewrites, clearFrom,
        ofNat_count h.le_max hk, if_pos hi', Bool.false_eq_true, ↓reduceIte]
    exacts [ho, hn, hh, ht]
  · have hsame := settle_step (i := i) h hpc (fun k e => hclear ⟨k, e⟩) malloc
    refine ⟨rfl, hfind, ?_, ?_, ?_, ?_, fun _ _ => rfl⟩ <;> simp only [mirror_channel, hsame]

/-- The step that begins to rewrite the table resizes the ring. -/
theorem mirror_clearFree (h : TableOk m.ctr t) (hi : m.ctr.Active i) (hpc : t.pc = .clearFree)
    (hring : RingOk i (mirror i m t)) (hkeeps : KeepsAt i m) (malloc : Bool) :
    let m' := mirror i { m with ctr := (rebalanceStep malloc m.ctr t).1 } (rebalanceStep malloc m.ctr t).2
    RingOk i m' ∧ waitingPages m' i = waitingPages (mirror i m t) i := by
  intro m'
  have hchan : (mirror i m t).ctr.channels i = m.ctr.channels i := by
    simp only [mirror_channel, Rebalancer.settle, hpc, RebalancePc.rewrites, Bool.false_eq_true,
      ↓reduceIte]
  have hchan' : m'.ctr.channels i =
    rebalanceChannel t.numPage t.size (.ofNat i.val * t.size) (t.tmp i) := by
    simp only [m', mirror_channel, Rebalancer.settle, rebalanceStep, hpc, RebalancePc.rewrites,
      ↓reduceIte]
  have hhead := hring.head_lt
  have htail := hring.tail_lt
  rw [hchan] at hhead htail
  unfold TableOk at h
  rw [hpc] at h
  have hpos : 0 < m.ctr.numActiveChannels.toInt := h.pos
  have hi' : (i.val : Int) < m.ctr.numActiveChannels.toInt := hi
  have hsize : t.size = allocatedBufferSize m.ctr.numActiveChannels := h.size
  obtain ⟨hp, hge⟩ : t.numPage.toInt = evenPages m.ctr.numActiveChannels.toInt.toNat ∧
    31 ≤ evenPages m.ctr.numActiveChannels.toInt.toNat := h.pages
  have hle := evenPages_le m.ctr.numActiveChannels.toInt.toNat
  have he : EntryAt (t.tmp i) t.numPage t.size i.val (entryRank 0 0 i.val) (m.ctr.channels i) :=
    h.entries i hi
  rw [show entryRank 0 0 i.val = 0 by simp [entryRank]] at he
  have hmod : ∀ x : UInt32, (x % intToU32 t.numPage).toNat =
    x.toNat % evenPages m.ctr.numActiveChannels.toInt.toNat :=
    fun x => by rw [mod_intToU32 (by omega), hp, Int.toNat_natCast]
  have hh : (m'.ctr.channels i).head.toNat =
      (m.ctr.channels i).head.toNat % evenPages m.ctr.numActiveChannels.toInt.toNat := by
    rw [hchan', rebalanceChannel, he.head, if_neg (by decide), hmod]
  have ht : (m'.ctr.channels i).tail.toNat =
      (m.ctr.channels i).tail.toNat % evenPages m.ctr.numActiveChannels.toInt.toNat := by
    rw [hchan', rebalanceChannel, he.tail, if_neg (by decide), hmod]
  have hn : (m'.ctr.channels i).numPage.toInt.toNat = evenPages m.ctr.numActiveChannels.toInt.toNat := by
    rw [hchan', rebalanceChannel, hp, Int.toNat_natCast]
  have ho : (m'.ctr.channels i).bufOffset.toNat =
      i.val * (evenPages m.ctr.numActiveChannels.toInt.toNat * pageSize) := by
    rw [hchan', rebalanceChannel, hsize, ofNat_mul_share (by omega) (by omega)]
  have hd : m'.data = m.data := rfl
  obtain ⟨hroom, hw, hpages⟩ := hkeeps
  rw [UInt32.le_iff_toNat_le] at hw
  constructor
  · refine ⟨rfl, ?_, ?_, ?_, ?_⟩ <;> simp only [hn, hh, ht]
    · omega
    · simp only [dataSectionSize, ivshmemSize, controlSectionSize, pageSize]
      omega
    · exact Nat.mod_lt _ (by omega)
    · exact Nat.mod_lt _ (by omega)
  · simp only [waitingPages, hchan, hn, hh, ht, ho, Ring.items,
      Ring.window_resize hhead htail hroom hw, List.map_map, List.map_inj_left, Function.comp, hd,
        mirror_data]
    exact hpages

end

/-! ## A sender and a receiver across rebalancings -/

/-- A client leaves the memory as it will be, if it leaves the ring alone and
its pages, unless the table is being rewritten, when it writes none. -/
theorem alike_mirror {i : Fin maxChannels} {m m' : Shm} {t : Rebalancer} (h : TableOk m.ctr t)
    (h' : TableOk m'.ctr t) (hfind : ∀ key, findChannel m'.ctr key = findChannel m.ctr key)
    (hring : SameRing i m m') (ho : (m'.ctr.channels i).bufOffset = (m.ctr.channels i).bufOffset)
    (hpages : m'.data = m.data ∨ t.pc.rewrites = false ∧ ∀ j < (m.ctr.channels i).numPage.toInt.toNat,
      pageAt m'.data (m.ctr.channels i).bufOffset.toNat j =
        pageAt m.data (m.ctr.channels i).bufOffset.toNat j) :
    Alike i (mirror i m t) (mirror i m' t) := by
  obtain ⟨hn, hh, ht⟩ := hring
  refine ⟨rfl, fun key => by rw [mirror_find h', mirror_find h, hfind], ?_, ?_, ?_, ?_, ?_⟩ <;>
    simp only [mirror_channel, mirror_data, Rebalancer.settle]
  · split <;> simp only [ho]
  · split <;> simp only [hn]
  · split <;> simp only [hh]
  · split <;> simp only [ht]
  · obtain hd | ⟨hr, hp⟩ := hpages
    · simp only [hd, implies_true]
    · simpa only [hr, Bool.false_eq_true, ↓reduceIte] using hp

/-- With `control_mutex` clear and no table being rewritten there is nothing
to wait for. -/
theorem alike_of_clear {i : Fin maxChannels} {m : Shm} {t : Rebalancer} (h : TableOk m.ctr t)
    (hm : m.ctr.controlMutex = 0) (hr : t.pc.rewrites = false) :
    Alike i (mirror i m t) m ∧ Alike i m (mirror i m t) := by
  have hs : (mirror i m t).ctr.channels i = m.ctr.channels i := by
    simp only [mirror_channel, Rebalancer.settle, hr, Bool.false_eq_true, ↓reduceIte]
  exact ⟨⟨hm, fun key => (mirror_find h key).symm, by rw [hs], by rw [hs], by rw [hs], by rw [hs],
    fun _ _ => rfl⟩,
    ⟨hm.symm, mirror_find h, by rw [hs], by rw [hs], by rw [hs], by rw [hs], fun _ _ => rfl⟩⟩

/-- A rebalancing takes `control_mutex` only while no client is in its turn,
and rewrites the table only where channel `i` keeps the pages that wait. -/
def Undisturbed {ι : Type*} (i : Fin maxChannels) (s : Balancing ι) : BalancingTurn ι → Prop
  | .client _ _ => True
  | .trusted _ => (s.trusted.pc = .lock → ∀ k, (s.client k).inTurn = false) ∧
      (s.trusted.pc = .clearFree → KeepsAt i s.shm)

instance {ι : Type*} [Fintype ι] (i : Fin maxChannels) (s : Balancing ι) :
    ∀ turn, Decidable (Undisturbed i s turn)
  | .client _ _ => inferInstanceAs (Decidable True)
  | .trusted _ => inferInstanceAs (Decidable ((_ → _) ∧ (_ → _)))

variable {ι : Type*} [DecidableEq ι]

/-- The invariant of runs with `Undisturbed` steps, where client `a` sends the
messages `msgs` on channel `i` and client `b` receives them. -/
structure ResizeInv (m : Shm) (parties : ι → Party) (i : Fin maxChannels) (a b : ι) (msgs : List Message)
    (s : Balancing ι) : Prop where
  base : BalancingInv m parties s
  link : ∃ t r, s.client a = .sender t ∧ s.client b = .receiver r ∧
    LinkInv i msgs ⟨mirror i s.shm s.trusted, t, r⟩

section

variable {m : Shm} {parties : ι → Party} {s : Balancing ι}

omit [DecidableEq ι] in
theorem BalancingInv.not_rewrites (h : BalancingInv m parties s) (hm : s.shm.ctr.controlMutex = 0) :
    s.trusted.pc.rewrites = false := by
  have hl := mt h.locked (not_not.mpr hm)
  cases e : s.trusted.pc <;> rw [e] at hl <;> first | rfl | exact absurd rfl hl

/-- No client touches `control_mutex`. -/
theorem BalancingInv.client_mutex (h : BalancingInv m parties s) (k : ι) (now : Int64) :
    (balancingStep s (.client k now)).shm.ctr.controlMutex = s.shm.ctr.controlMutex :=
  (clientStep_within (h.placed k) (fun ht => (h.placed k).chan_ok (h.alloc ht) ht)
    (j := (findChannel s.shm.ctr (s.client k).key).getD 0) (fun c hc => by rw [hc]; rfl) now).1.mutex

/-- A client of another channel leaves the entry alone. -/
theorem BalancingInv.channel_elsewhere (h : BalancingInv m parties s) {i : Fin maxChannels} {k : ι}
    (hne : findChannel m.ctr (parties k).key ≠ some i) (now : Int64) :
    (balancingStep s (.client k now)).shm.ctr.channels i = s.shm.ctr.channels i :=
  clientStep_elsewhere (h.placed k) (fun ht => (h.placed k).chan_ok (h.alloc ht) ht)
    (by rw [h.find, h.keys]; exact hne) now

/-- It leaves the ring and its pages alone. -/
theorem BalancingInv.elsewhere (h : BalancingInv m parties s) {i : Fin maxChannels}
    (hi : s.shm.ctr.Active i) {k : ι} (hne : findChannel m.ctr (parties k).key ≠ some i) (now : Int64) :
    Alike i (mirror i s.shm s.trusted) (mirror i (balancingStep s (.client k now)).shm s.trusted) := by
  have hok := fun ht => (h.placed k).chan_ok (h.alloc ht) ht
  have hne' : findChannel s.shm.ctr (s.client k).key ≠ some i := by rw [h.find, h.keys]; exact hne
  obtain ⟨hw, -⟩ := clientStep_within (h.placed k) hok
    (j := (findChannel s.shm.ctr (s.client k).key).getD 0) (fun c hc => by rw [hc]; rfl) now
  have hchan := h.channel_elsewhere hne now
  refine alike_mirror h.table (h.client k now).table hw.find ?_ (congrArg Channel.bufOffset hchan) ?_
  · exact ⟨congrArg Channel.numPage hchan, congrArg Channel.head hchan, congrArg Channel.tail hchan⟩
  · cases ht : (s.client k).inTurn
    · left
      rw [ht] at hw
      exact funext fun x => hw.data x fun e => absurd e Bool.false_ne_true
    · right
      -- in its turn, a client has a channel of its own, apart from this one
      have ha := h.alloc ht
      have hm : s.shm.ctr.controlMutex = 0 := by
        by_contra hm
        rw [h.apart hm k] at ht
        cases ht
      refine ⟨h.not_rewrites hm, fun j hj => bytesAt_congr fun x hx => hw.data _ fun _ => ?_⟩
      have hf := (h.placed k).find ht
      have hc := (findChannel_some hf).1
      rw [hf]
      refine ha.apart hi hc (fun e => hne' (e ▸ hf)) (by omega) ?_
      have hsize := (ha.chan i hi).bufSize_eq
      simp only [endOf, pageSize] at hsize hx ⊢
      omega

/-- A client that waits for the mutex leaves every ring and every page
alone. -/
theorem BalancingInv.waits (h : BalancingInv m parties s) {i : Fin maxChannels}
    (hm : s.shm.ctr.controlMutex ≠ 0) (k : ι) (now : Int64) :
    Alike i (mirror i s.shm s.trusted) (mirror i (balancingStep s (.client k now)).shm s.trusted) := by
  have ht := h.apart hm k
  obtain ⟨hw, -⟩ := clientStep_within (h.placed k) (fun e => by rw [ht] at e; cases e)
    (j := (findChannel s.shm.ctr (s.client k).key).getD 0) (fun c hc => by rw [hc]; rfl) now
  rw [ht] at hw
  exact alike_mirror h.table (h.client k now).table hw.find ⟨hw.numPage i, hw.head_eq i,
    hw.tail_eq i⟩ (hw.bufOffset i)
    (.inl (funext fun x => hw.data x fun e => absurd e Bool.false_ne_true))

end

section

variable {m : Shm} {parties : ι → Party} {i : Fin maxChannels} {a b : ι} {msgs : List Message}
  {s : Balancing ι} (h : ResizeInv m parties i a b msgs s)
include h

omit [DecidableEq ι] in
theorem ResizeInv.active : s.shm.ctr.Active i := by
  obtain ⟨t, r, -, -, hl⟩ := h.link
  have hf : findChannel (mirror i s.shm s.trusted).ctr t.key = some i := hl.sender.find
  rw [mirror_find h.base.table] at hf
  exact (findChannel_some hf).1

omit [DecidableEq ι] in
theorem ResizeInv.ne : a ≠ b := by
  rintro rfl
  obtain ⟨t, r, ht, hr, -⟩ := h.link
  rw [ht] at hr
  cases hr

omit [DecidableEq ι] in
/-- With `control_mutex` clear the two are on the memory as it is. -/
theorem ResizeInv.link_of_clear (hm : s.shm.ctr.controlMutex = 0) :
    ∃ t r, s.client a = .sender t ∧ s.client b = .receiver r ∧ LinkInv i msgs ⟨s.shm, t, r⟩ := by
  obtain ⟨t, r, ht, hr, hl⟩ := h.link
  exact ⟨t, r, ht, hr, hl.of_alike (alike_of_clear h.base.table hm (h.base.not_rewrites hm)).1⟩

theorem ResizeInv.sender_step (now : Int64) :
    ResizeInv m parties i a b msgs (balancingStep s (.client a now)) := by
  have hbase := h.base.client a now
  have hab := h.ne
  by_cases hm : s.shm.ctr.controlMutex = 0
  · obtain ⟨t, r, ht, hr, hl⟩ := h.link_of_clear hm
    have hl' := hl.sender_step now
    refine ⟨hbase, (sendStep now s.shm t).2, r, ?_, ?_, ?_⟩
    · simp only [balancingStep, ht, clientStep, Function.update_self]
    · simp only [balancingStep, Function.update_of_ne hab.symm, hr]
    · have hshm : (balancingStep s (.client a now)).shm = (sendStep now s.shm t).1 := by
        simp only [balancingStep, ht, clientStep]
      have htable := hbase.table
      rw [hshm] at htable ⊢
      exact hl'.of_alike (alike_of_clear htable hl'.ring.mutex (h.base.not_rewrites hm)).2
  · obtain ⟨t, r, ht, hr, hl⟩ := h.link
    have hturn := h.base.apart hm a
    rw [ht] at hturn
    have hl' := hl.sender_waits hm (fun key => (mirror_find h.base.table key).symm) hturn now
    refine ⟨hbase, (sendStep now s.shm t).2, r, ?_, ?_, hl'.of_alike (h.base.waits hm a now)⟩
    · simp only [balancingStep, ht, clientStep, Function.update_self]
    · simp only [balancingStep, Function.update_of_ne hab.symm, hr]

theorem ResizeInv.receiver_step (now : Int64) :
    ResizeInv m parties i a b msgs (balancingStep s (.client b now)) := by
  have hbase := h.base.client b now
  have hab := h.ne
  by_cases hm : s.shm.ctr.controlMutex = 0
  · obtain ⟨t, r, ht, hr, hl⟩ := h.link_of_clear hm
    have hl' := hl.receiver_step
    refine ⟨hbase, t, (recvStep s.shm r).2, ?_, ?_, ?_⟩
    · simp only [balancingStep, Function.update_of_ne hab, ht]
    · simp only [balancingStep, hr, clientStep, Function.update_self]
    · have hshm : (balancingStep s (.client b now)).shm = (recvStep s.shm r).1 := by
        simp only [balancingStep, hr, clientStep]
      have htable := hbase.table
      rw [hshm] at htable ⊢
      exact hl'.of_alike (alike_of_clear htable hl'.ring.mutex (h.base.not_rewrites hm)).2
  · obtain ⟨t, r, ht, hr, hl⟩ := h.link
    have hturn := h.base.apart hm b
    rw [hr] at hturn
    have hl' := hl.receiver_waits hm (fun key => (mirror_find h.base.table key).symm) hturn
    refine ⟨hbase, t, (recvStep s.shm r).2, ?_, ?_, hl'.of_alike (h.base.waits hm b now)⟩
    · simp only [balancingStep, Function.update_of_ne hab, ht]
    · simp only [balancingStep, hr, clientStep, Function.update_self]

theorem ResizeInv.other_step {k : ι} (hka : k ≠ a) (hkb : k ≠ b)
    (hne : findChannel m.ctr (parties k).key ≠ some i) (now : Int64) :
    ResizeInv m parties i a b msgs (balancingStep s (.client k now)) := by
  obtain ⟨t, r, ht, hr, hl⟩ := h.link
  refine ⟨h.base.client k now, t, r, ?_, ?_, hl.of_alike (h.base.elsewhere h.active hne now)⟩
  · simp only [balancingStep, Function.update_of_ne hka.symm, ht]
  · simp only [balancingStep, Function.update_of_ne hkb.symm, hr]

theorem ResizeInv.trusted_step (malloc : Bool) (hg : Undisturbed i s (.trusted malloc)) :
    ResizeInv m parties i a b msgs (balancingStep s (.trusted malloc)) := by
  obtain ⟨t, r, ht, hr, hl⟩ := h.link
  refine ⟨h.base.trusted malloc hg.1, t, r, ht, hr, ?_⟩
  by_cases hpc : s.trusted.pc = .clearFree
  · have hm := h.base.locked (by rw [hpc]; rfl)
    obtain ⟨hring, hpages⟩ := mirror_clearFree h.base.table h.active hpc hl.ring (hg.2 hpc) malloc
    have hta := h.base.apart hm a
    have htb := h.base.apart hm b
    rw [ht] at hta
    rw [hr] at htb
    refine hl.of_resized hring (fun key => ?_) hpages hta htb
    rw [mirror_find (rebalanceStep_table malloc h.base.table), mirror_find h.base.table]
    exact rebalanceStep_find malloc h.base.table key
  · exact hl.of_alike (mirror_trusted h.base.table h.active hpc malloc)

end

/-! ## Progress while no rebalancing runs -/

/-- The link that a sender `a` and a receiver `b` make up. -/
structure IsLink (a b : ι) (s : Balancing ι) (l : Link) : Prop where
  shm : s.shm = l.shm
  sender : s.client a = .sender l.sender
  receiver : s.client b = .receiver l.receiver

section

variable {m : Shm} {parties : ι → Party} {i : Fin maxChannels} {a b : ι} {s : Balancing ι} {l l' : Link}
  (h : IsLink a b s l)
include h

omit [DecidableEq ι] in
theorem IsLink.eq (h' : IsLink a b s l') : l = l' := by
  have hs := h.sender.symm.trans h'.sender
  have hr := h.receiver.symm.trans h'.receiver
  have hm := h.shm.symm.trans h'.shm
  cases l
  cases l'
  simp only [Client.sender.injEq, Client.receiver.injEq] at hs hr hm
  subst hs hr hm
  rfl

theorem IsLink.sender_step (hab : a ≠ b) (now : Int64) :
    IsLink a b (balancingStep s (.client a now)) (linkStep l (.sender now)) := by
  refine ⟨?_, ?_, ?_⟩ <;>
    simp only [balancingStep, h.sender, h.receiver, h.shm, clientStep, linkStep, Function.update_self,
      Function.update_of_ne hab.symm]

theorem IsLink.receiver_step (hab : a ≠ b) (now : Int64) :
    IsLink a b (balancingStep s (.client b now)) (linkStep l .receiver) := by
  refine ⟨?_, ?_, ?_⟩ <;>
    simp only [balancingStep, h.sender, h.receiver, h.shm, clientStep, linkStep, Function.update_self,
      Function.update_of_ne hab]

end

section

variable {m : Shm} {parties : ι → Party} {i : Fin maxChannels} {a b : ι} {msgs : List Message}
  {s : Balancing ι} (hown : ∀ k, k ≠ a → k ≠ b → findChannel m.ctr (parties k).key ≠ some i)
include hown

theorem ResizeInv.client_step (h : ResizeInv m parties i a b msgs s) (k : ι) (now : Int64) :
    ResizeInv m parties i a b msgs (balancingStep s (.client k now)) := by
  by_cases hka : k = a
  · subst hka
    exact h.sender_step now
  · by_cases hkb : k = b
    · subst hkb
      exact h.receiver_step now
    · exact h.other_step hka hkb (hown k hka hkb) now

theorem ResizeInv.step (h : ResizeInv m parties i a b msgs s) (turn : BalancingTurn ι)
    (hg : Undisturbed i s turn) :
    ResizeInv m parties i a b msgs (balancingStep s turn) := by
  cases turn with
  | client k now => exact h.client_step hown k now
  | trusted malloc => exact h.trusted_step malloc hg

/-- While no rebalancing runs, every fair schedule of the clients brings the
calls of the two to their end. -/
theorem ResizeInv.exists_done (h : ResizeInv m parties i a b msgs s) (hm : s.shm.ctr.controlMutex = 0)
    {σ : Nat → ι × Int64} (hσ : Fair Prod.fst σ) :
    ∃ k l, IsLink a b (runSeq balancingStep s (fun n => .client (σ n).1 (σ n).2) k) l ∧
    LinkInv i msgs l ∧ Done l := by
  have hab := h.ne
  have inv : ∀ n,
    ResizeInv m parties i a b msgs (runSeq balancingStep s (fun n => .client (σ n).1 (σ n).2) n) ∧
      (runSeq balancingStep s (fun n => .client (σ n).1 (σ n).2) n).shm.ctr.controlMutex = 0 :=
    runSeq_inv (I := fun s => ResizeInv m parties i a b msgs s ∧ s.shm.ctr.controlMutex = 0)
      (G := fun _ turn => ∃ k now, turn = .client k now)
      (fun s turn ⟨h, hm⟩ ⟨k, now, e⟩ => by
        subst e
        exact ⟨h.client_step hown k now, (h.base.client_mutex k now).trans hm⟩)
      ⟨h, hm⟩ fun n => ⟨_, _, rfl⟩
  have links : ∀ n, ∃ l,
    IsLink a b (runSeq balancingStep s (fun n => .client (σ n).1 (σ n).2) n) l ∧ LinkInv i msgs l :=
    fun n => by
      obtain ⟨t, r, ht, hr, hl⟩ := (inv n).1.link_of_clear (inv n).2
      exact ⟨⟨_, t, r⟩, ⟨rfl, ht, hr⟩, hl⟩
  choose l hl hlink using links
  -- what the step `n` is to the link
  have send : ∀ n, (σ n).1 = a → l (n + 1) = linkStep (l n) (.sender (σ n).2) := fun n e => by
    have hstep := (hl n).sender_step hab (σ n).2
    have hnext := hl (n + 1)
    rw [runSeq_succ, e] at hnext
    exact hnext.eq hstep
  have recv : ∀ n, (σ n).1 = b → l (n + 1) = linkStep (l n) .receiver := fun n e => by
    have hstep := (hl n).receiver_step hab (σ n).2
    have hnext := hl (n + 1)
    rw [runSeq_succ, e] at hnext
    exact hnext.eq hstep
  have rest : ∀ n, (σ n).1 ≠ a → (σ n).1 ≠ b → (l (n + 1)).sender = (l n).sender ∧
      (l (n + 1)).receiver = (l n).receiver ∧
      (l (n + 1)).shm.ctr.channels i = (l n).shm.ctr.channels i := fun n hna hnb => by
    obtain ⟨hshm, hs, hr⟩ := hl (n + 1)
    have hchan := (inv n).1.base.channel_elsewhere (hown _ hna hnb) (σ n).2
    rw [runSeq_succ] at hshm hs hr
    simp only [balancingStep, Function.update_of_ne hna.symm, Function.update_of_ne hnb.symm,
      (hl n).sender, (hl n).receiver, Client.sender.injEq, Client.receiver.injEq] at hs hr
    rw [hshm, (hl n).shm] at hchan
    exact ⟨hs.symm, hr.symm, hchan⟩
  suffices hdone : ∃ k, Done (l (0 + k)) by
    obtain ⟨k, hk⟩ := hdone
    exact ⟨0 + k, l (0 + k), hl _, hlink _, hk⟩
  refine @exists_done_of_trace _ _ l (fun n => (σ n).1) Done
    (fun k l => k = a ∧ Ready i l true ∨ k = b ∧ Ready i l false) (work i)
    (fun k l => rankOf i l (decide (k = a))) hσ (fun n hd => ?_) (fun n hready => ?_)
      (fun n p hready hp => ?_) 0
  · obtain ⟨p, hp⟩ := (hlink n).exists_ready hd
    cases p
    · exact ⟨b, .inr ⟨rfl, hp⟩⟩
    · exact ⟨a, .inl ⟨rfl, hp⟩⟩
  · obtain ⟨e, hready⟩ | ⟨e, hready⟩ := hready
    · rw [send n e]
      simpa [e, hab, Turn.ofSender] using (hlink n).mine (.sender (σ n).2) hready
    · rw [recv n e]
      simpa [e, hab.symm, Turn.ofSender] using (hlink n).mine .receiver hready
  · by_cases hna : (σ n).1 = a
    · obtain ⟨e, -⟩ | ⟨e, hready⟩ := hready
      · exact absurd (hna.trans e.symm) hp
      · rw [send n hna]
        simpa [e, hab.symm, Turn.ofSender] using (hlink n).other (.sender (σ n).2) hready
          (by simp [Turn.ofSender])
    · by_cases hnb : (σ n).1 = b
      · obtain ⟨e, hready⟩ | ⟨e, -⟩ := hready
        · rw [recv n hnb]
          simpa [e, hab, Turn.ofSender] using (hlink n).other .receiver hready (by decide)
        · exact absurd (hnb.trans e.symm) hp
      · obtain ⟨hs, hr, hc⟩ := rest n hna hnb
        right
        have hwork : work i (l (n + 1)) = work i (l n) := by simp only [work, sendWork, hs, hr, hc]
        have hsend : Ready i (l (n + 1)) true ↔ Ready i (l n) true := by
          simp only [Ready, SendReady, hs, hc]
        have hrecv : Ready i (l (n + 1)) false ↔ Ready i (l n) false := by
          simp only [Ready, RecvReady, hr, hc]
        have hrank : ∀ q, rankOf i (l (n + 1)) q = rankOf i (l n) q := fun q => by
          cases q <;> simp only [rankOf, hs, hr, hc]
        exact ⟨hwork, by rw [hsend, hrecv]; exact hready, hrank _⟩

end

/-! ## Runs -/

omit [DecidableEq ι] in
/-- Every channel has two pages and more. -/
theorem two_le_numPage (m : Shm) (ops : List Op) {i : Fin maxChannels}
    (hi : (afterOps m ops).ctr.Active i) :
    2 ≤ ((afterOps m ops).ctr.channels i).numPage.toInt := by
  have hsize := ((allocInv_afterOps m ops).chan i hi).bufSize_eq
  have hle := (allocInv_afterOps m ops).le_max
  obtain ⟨k, hs⟩ := sharedOut_afterOps m ops
  have hk := hs.le
  by_cases hik : i.val < k
  · have hge := le_evenPages (n := k) (by omega) (by omega)
    have hb := hs.shared i hi hik
    simp only [share, pageSize] at hb hsize
    omega
  · have hb := hs.initial i hi (by omega)
    simp only [channelInitSize, pageSize] at hb hsize
    omega

omit [DecidableEq ι] in
/-- A sender and a receiver on a channel that starts empty, on a table with any
history. -/
theorem resizeInv_start (m₀ : Shm) (ops : List Op) {parties : ι → Party} {a b : ι} {i : Fin maxChannels}
    {sk rk : ChannelKey} {msgs : List Message} {calls : List RecvCall} (ha : parties a = .sender sk msgs)
    (hb : parties b = .receiver rk calls) (hsk : findChannel (afterOps m₀ ops).ctr sk = some i)
    (hrk : findChannel (afterOps m₀ ops).ctr rk = some i)
    (hempty : ((afterOps m₀ ops).ctr.channels i).head = ((afterOps m₀ ops).ctr.channels i).tail)
    (hsizes : ∀ msg ∈ msgs, 2 * pageSize ≤ msg.size.toNat ∧ msg.size.toNat < 2 ^ 31)
    (hcalls : calls.map (·.size) = msgs.map (·.size)) :
    ResizeInv (afterOps m₀ ops) parties i a b msgs (.start (afterOps m₀ ops) parties) := by
  have hm := allocInv_afterOps m₀ ops
  have hi := (findChannel_some hsk).1
  refine ⟨balancingInv_start hm, .start sk msgs, .start rk calls, ?_, ?_, ?_⟩
  · simp only [Balancing.start, ha, Party.start]
  · simp only [Balancing.start, hb, Party.start]
  · have hch : (mirror i (afterOps m₀ ops) .start).ctr.channels i = (afterOps m₀ ops).ctr.channels i :=
      mirror_channel
    have hfind : ∀ key, findChannel (mirror i (afterOps m₀ ops) .start).ctr key =
      findChannel (afterOps m₀ ops).ctr key :=
      mirror_find (t := .start) hm
    exact linkInv_start rfl ((hfind sk).trans hsk) ((hfind rk).trans hrk) (hch ▸ hm.chan i hi)
      (hch ▸ hm.endOf_le hi)
      (hch ▸ hempty) (hch ▸ two_le_numPage m₀ ops hi) hsizes hcalls

/-- A sender and a receiver on a channel that starts empty, on a table with
any history, any number of clients on other channels, and a trusted process
that rebalances the table any number of times, in every interleaving of their
statements where it takes `control_mutex` only while no client is in its turn
and rewrites the table only where the channel keeps the pages that wait: what
the receiver has returned are the messages, first to last; and whenever
`control_mutex` is clear, every fair schedule of the clients brings all of the
messages over. -/
theorem transfer_of_undisturbed (m₀ : Shm) (ops : List Op) (parties : ι → Party) {a b : ι}
    {i : Fin maxChannels} {sk rk : ChannelKey} {msgs : List Message} {calls : List RecvCall}
    (ha : parties a = .sender sk msgs) (hb : parties b = .receiver rk calls)
    (hsk : findChannel (afterOps m₀ ops).ctr sk = some i)
    (hrk : findChannel (afterOps m₀ ops).ctr rk = some i)
    (hown : ∀ k, k ≠ a → k ≠ b → findChannel (afterOps m₀ ops).ctr (parties k).key ≠ some i)
    (hempty : ((afterOps m₀ ops).ctr.channels i).head = ((afterOps m₀ ops).ctr.channels i).tail)
    (hsizes : ∀ msg ∈ msgs, 2 * pageSize ≤ msg.size.toNat ∧ msg.size.toNat < 2 ^ 31)
    (hcalls : calls.map (·.size) = msgs.map (·.size)) (turns : List (BalancingTurn ι))
    (hturns : Guarded balancingStep (Undisturbed i) (.start (afterOps m₀ ops) parties) turns) :
    let s := run balancingStep (.start (afterOps m₀ ops) parties) turns
    (∃ r, s.client b = .receiver r ∧ List.Forall₂ Rebuilt r.returned (msgs.take r.returned.length)) ∧
    (s.shm.ctr.controlMutex = 0 → ∀ σ : Nat → ι × Int64, Fair Prod.fst σ →
      ∃ k, let s' := runSeq balancingStep s (fun n => .client (σ n).1 (σ n).2) k
        ∃ t r, s'.client a = .sender t ∧ s'.client b = .receiver r ∧ t.calls = [] ∧
          List.Forall₂ Rebuilt r.returned msgs) := by
  intro s
  have hstart := resizeInv_start m₀ ops ha hb hsk hrk hempty hsizes hcalls
  have h : ResizeInv (afterOps m₀ ops) parties i a b msgs s :=
    hturns.run_inv (fun _ turn h hg => h.step hown turn hg) hstart
  refine ⟨?_, fun hclear σ hσ => ?_⟩
  · obtain ⟨t, r, -, hr, hl⟩ := h.link
    exact ⟨r, hr, hl.rebuilt⟩
  · obtain ⟨k, l, hlink, hinv, hd⟩ := h.exists_done hown hclear hσ
    exact ⟨k, l.sender, l.receiver, hlink.sender, hlink.receiver, hd.1, hinv.rebuilt_of_done hd⟩

/-- A sender and a receiver on the second of two channels. -/
def onSecond : Fin 2 → Party
  | 0 => .sender ⟨3, 6, 4⟩ [overTwoPages]
  | 1 => .receiver ⟨3, 6, 4⟩ [⟨fun _ => 0, 8193⟩]

/-- The two in turn. -/
def bothInTurn (k : Nat) : Fin 2 × Int64 :=
  (if k % 2 = 0 then ⟨0, Nat.two_pos⟩ else ⟨1, Nat.one_lt_two⟩, 0)

theorem fair_bothInTurn : Fair Prod.fst bothInTurn := fun p n => by
  rcases Nat.mod_two_eq_zero_or_one n with h | h <;> obtain rfl | rfl : p = 0 ∨ p = 1 := by
    omega
  · exact ⟨0, by simp [bothInTurn, h]⟩
  · exact ⟨1, by simp [bothInTurn, Nat.add_mod, h]⟩
  · exact ⟨1, by simp [bothInTurn, Nat.add_mod, h]⟩
  · exact ⟨0, by simp [bothInTurn, h]⟩

/-- `transfer_of_undisturbed` where the channel is moved after the first of
three pages. -/
theorem transfer_of_undisturbed_moved :
    let s := run balancingStep (.start (afterOps zeroShm twoChannels) onSecond)
      (.replicate 14 (.client 0 0) ++ .replicate 11 (.client 1 0) ++ .replicate 29 (.trusted true))
    ∃ k, let s' := runSeq balancingStep s (fun n => .client (bothInTurn n).1 (bothInTurn n).2) k
      ∃ t r, s'.client 0 = .sender t ∧ s'.client 1 = .receiver r ∧ t.calls = [] ∧
        List.Forall₂ Rebuilt r.returned [overTwoPages] :=
  (transfer_of_undisturbed zeroShm twoChannels onSecond (a := 0) (b := 1) (i := 1) rfl rfl
    (by decide +kernel) (by decide +kernel) (fun k h0 h1 => by omega) (by decide +kernel)
    (fun msg hm => by rw [List.mem_singleton.mp hm]; decide) rfl _ (by decide +kernel)).2
    (by decide +kernel) bothInTurn fair_bothInTurn

end Ivshmem
