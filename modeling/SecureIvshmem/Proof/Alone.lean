import SecureIvshmem.Impl.Turns
import SecureIvshmem.Proof.Exclusion
import SecureIvshmem.Proof.Requests

/-!
# Calls with nothing in between

The functions of the source are modelled twice, by whole calls or turns and
one statement at a time. Where no other process takes a step in between, the
statements come to what the whole does: `sendStep_alone`, `recvStep_alone`
and `lockRecvStep_alone` for the turns of the loops, `controlStep_alone` and
`rebalanceStep_alone` for the calls of the trusted side.
-/

namespace Ivshmem

open SharedMem SharedMem.Word

/-! ## Turns of the loops -/

/-- A sender with nothing in between. -/
def sendAlone (now : Int64) (p : Shm × Sender) : Shm × Sender := sendStep now p.1 p.2

section

variable {now : Int64} {m : Shm} {t : Sender} {msg : Message} {rest : List Message}
  (hc : t.calls = msg :: rest)
include hc

theorem sendAlone_step {pc : SendPc} :
    sendAlone now (m, { t with pc := pc }) = sendCallStep now m { t with pc := pc } msg rest := by
  simp only [sendAlone, sendStep, hc]

/-- The full test. -/
theorem sendAlone_full :
    Reaches (sendAlone now) (m, { t with pc := .fullHead })
      (m, { t with pc := if channelFull (m.ctr.channels t.chan) then .mutex else .copyOffset }) := by
  refine .via (m, { t with pc := .fullTail (m.ctr.channels t.chan).head }) (sendAlone_step hc) ?_
  by_cases h1 : (m.ctr.channels t.chan).head = (m.ctr.channels t.chan).tail - 1
  · have hfull : channelFull (m.ctr.channels t.chan) = true := by simp [channelFull, h1]
    rw [hfull]
    refine ⟨1, (sendAlone_step hc).trans ?_⟩
    simp only [sendCallStep, h1, ↓reduceIte]
  refine .via (m, { t with pc := .lastHead }) ((sendAlone_step hc).trans ?_)
    (.via (m, { t with pc := .lastNumPage (m.ctr.channels t.chan).head }) (sendAlone_step hc) ?_)
  · simp only [sendCallStep, h1, ↓reduceIte]
  by_cases h2 : (m.ctr.channels t.chan).head = intToU32 ((m.ctr.channels t.chan).numPage - 1)
  · refine .via (m, { t with pc := .lastTail }) ((sendAlone_step hc).trans ?_) ⟨1,
      (sendAlone_step hc).trans ?_⟩
    · simp only [sendCallStep, h2, ↓reduceIte]
    · rw [h2] at h1
      simp [sendCallStep, channelFull, h1, h2]
  · refine ⟨1, (sendAlone_step hc).trans ?_⟩
    simp [sendCallStep, channelFull, h1, h2]

/-- The copy and the stores after it. -/
theorem sendAlone_publish :
    Reaches (sendAlone now) (m, { t with pc := .copyOffset })
      (publishPage now t.chan msg t.dataSent m,
        { t with pc := .mutex, dataSent := t.dataSent + toSent msg.size,
                 published := t.published + 1 }) := by
  have hpub : publishPage now t.chan msg t.dataSent m =
      { m with
        ctr := ((m.ctr.modify t.chan fun ch =>
          { ch with head := advance ch.numPage ch.head }).modify t.chan
          fun ch => { ch with dataSize := ch.dataSize + toSent msg.size }).modify t.chan
          fun ch => { ch with lastSentAt := now }
        data := store m.data (pageOffset (m.ctr.channels t.chan).bufOffset (m.ctr.channels t.chan).head)
          (sentBytes msg t.dataSent) } := by
    simp [publishPage, ControlSection.modify]
  refine ⟨8, ?_⟩
  simp only [Function.iterate_succ, Function.iterate_zero, Function.comp_apply, id_eq, sendAlone,
    sendStep, hc, sendCallStep, hpub]
  rfl

end

/-- A turn of the sender's loop with nothing in between is
`sendIteration`. -/
theorem sendStep_alone {now : Int64} {m : Shm} {t : Sender} {msg : Message} {rest : List Message}
    (hc : t.calls = msg :: rest) (hpc : t.pc = .mutex) (hlt : ¬ msg.size ≤ t.dataSent) :
    ∃ n, Reaches (sendAlone now) (m, t) ((sendIteration now t.chan msg t.dataSent m).1,
      { t with dataSent := (sendIteration now t.chan msg t.dataSent m).2, published := n }) := by
  have ht : t = { t with pc := .mutex } := by rw [← hpc]
  unfold sendIteration
  rw [if_neg hlt]
  split
  · exact ⟨t.published, .refl _ _⟩
  · rename_i hm
    have hfull : Reaches (sendAlone now) (m, { t with pc := .fullHead })
        (m, { t with pc := if channelFull (m.ctr.channels t.chan) then .mutex else .copyOffset }) :=
      sendAlone_full hc
    have hstart : Reaches (sendAlone now) (m, t) (m, { t with pc := .fullHead }) := by
      refine ⟨1, ?_⟩
      rw [Function.iterate_one, ht, sendAlone_step hc]
      simp only [sendCallStep, hm, hlt, ↓reduceIte]
    split
    · rename_i hf
      rw [if_pos hf] at hfull
      refine ⟨t.published, ?_⟩
      have := hstart.trans hfull
      rwa [← ht] at this
    · rename_i hf
      rw [if_neg hf] at hfull
      refine ⟨t.published + 1, ?_⟩
      have := (hstart.trans hfull).trans (sendAlone_publish hc)
      rw [hpc]
      exact this

/-- A receiver with nothing in between. -/
def recvAlone (p : Shm × Receiver) : Shm × Receiver := recvStep p.1 p.2

section

variable {m : Shm} {t : Receiver} {call : RecvCall} {rest : List RecvCall} (hc : t.calls = call :: rest)
include hc

theorem recvAlone_step {pc : RecvPc} :
    recvAlone (m, { t with pc := pc }) = recvCallStep m { t with pc := pc } call rest := by
  simp only [recvAlone, recvStep, hc]

/-- The copy and the stores after it. -/
theorem recvAlone_consume :
    Reaches recvAlone (m, { t with pc := .copyOffset })
      (consumePage t.chan (toReceive call.size t.dataReceived) m,
        let page := receivedBytes m.data
          (pageOffset (m.ctr.channels t.chan).bufOffset (m.ctr.channels t.chan).tail) call.size
            t.dataReceived
        { t with
          pc := .mutex
          buffer := store t.buffer t.dataReceived.toInt page
          dataReceived := t.dataReceived + toReceive call.size t.dataReceived
          consumed := t.consumed + 1
          pages := t.pages ++ [page] }) := by
  have hcons : consumePage t.chan (toReceive call.size t.dataReceived) m =
      { m with
        ctr := (m.ctr.modify t.chan fun ch =>
          { ch with tail := advance ch.numPage ch.tail }).modify t.chan
          fun ch =>
            { ch with dataSize := ch.dataSize - intToSize (toReceive call.size t.dataReceived) } } := by
    simp [consumePage, ControlSection.modify]
  refine ⟨7, ?_⟩
  simp only [Function.iterate_succ, Function.iterate_zero, Function.comp_apply, id_eq, recvAlone,
    recvStep, hc, recvCallStep, hcons]
  rfl

end

/-- A turn of the receiver's loop with nothing in between is
`recvIteration`. -/
theorem recvStep_alone {m : Shm} {t : Receiver} {call : RecvCall} {rest : List RecvCall}
    (hc : t.calls = call :: rest) (hpc : t.pc = .mutex) (hlt : ¬ call.size ≤ intToSize t.dataReceived) :
    ∃ n pages, Reaches recvAlone (m, t) ((recvIteration t.chan call.size t.buffer t.dataReceived m).1,
      { t with
        buffer := (recvIteration t.chan call.size t.buffer t.dataReceived m).2.1
        dataReceived := (recvIteration t.chan call.size t.buffer t.dataReceived m).2.2
        consumed := n
        pages := pages }) := by
  have ht : t = { t with pc := .mutex } := by rw [← hpc]
  unfold recvIteration
  simp only
  rw [if_neg hlt]
  split
  · exact ⟨t.consumed, t.pages, .refl _ _⟩
  · rename_i hm
    have hstart : Reaches recvAlone (m, t)
        (m, { t with pc := if channelEmpty (m.ctr.channels t.chan) then .mutex else .copyOffset }) := by
      refine .via (m, { t with pc := .emptyHead }) ?_
        (.via (m, { t with pc := .emptyTail (m.ctr.channels t.chan).head }) (recvAlone_step hc) ⟨1, ?_⟩)
      · rw [ht, recvAlone_step hc]
        simp only [recvCallStep, hm, hlt, ↓reduceIte]
      · rw [Function.iterate_one, recvAlone_step hc]
        simp [recvCallStep, channelEmpty]
    split
    · rename_i hf
      rw [if_pos hf, ← ht] at hstart
      exact ⟨t.consumed, t.pages, hstart⟩
    · rename_i hf
      rw [if_neg hf] at hstart
      have := hstart.trans (recvAlone_consume hc)
      rw [hpc]
      exact ⟨_, _, this⟩

/-- A receiver of the lock-based transport with nothing in between. -/
def lockRecvAlone (p : LockShm × LockReceiver) : LockShm × LockReceiver := lockRecvStep p.1 p.2

section

variable {m : LockShm} {t : LockReceiver} {call : RecvCall} {rest : List RecvCall}
  (hc : t.calls = call :: rest)
include hc

theorem lockRecvAlone_step {pc : LockRecvPc} :
    lockRecvAlone (m, { t with pc := pc }) = lockRecvCallStep m { t with pc := pc } call rest := by
  simp only [lockRecvAlone, lockRecvStep, hc]

/-- The entry test. -/
theorem lockRecvAlone_entry (hlt : ¬ call.size ≤ intToSize t.dataReceived) :
    Reaches lockRecvAlone (m, { t with pc := .loop })
      (m, { t with pc := if lockNothingFor t.key m then .loop else .mutex }) := by
  by_cases h1 : m.key.receiverVm = t.key.receiverVm
  · refine .via (m, { t with pc := .keySender }) ((lockRecvAlone_step hc).trans ?_) ?_
    · simp [lockRecvCallStep, hlt, h1]
    by_cases h2 : m.key.senderVm = t.key.senderVm
    · have hlast : Reaches lockRecvAlone (m, { t with pc := .refCount })
          (m, { t with pc := if m.refCount ≤ 0 then .loop else .mutex }) := ⟨1, lockRecvAlone_step hc⟩
      by_cases h3 : t.key.senderPid = 0
      · refine .via (m, { t with pc := .refCount }) ((lockRecvAlone_step hc).trans ?_) ?_
        · simp [lockRecvCallStep, h2, h3]
        · simpa [lockNothingFor, h1, h2, h3] using hlast
      · refine .via (m, { t with pc := .keyPid }) ((lockRecvAlone_step hc).trans ?_) ?_
        · simp [lockRecvCallStep, h2, h3]
        by_cases h4 : m.key.senderPid = t.key.senderPid
        · refine .via (m, { t with pc := .refCount }) ((lockRecvAlone_step hc).trans ?_) ?_
          · simp [lockRecvCallStep, h4]
          · simpa [lockNothingFor, h1, h2, h3, h4] using hlast
        · refine ⟨1, (lockRecvAlone_step hc).trans ?_⟩
          simp [lockRecvCallStep, lockNothingFor, h1, h2, h3, h4]
    · refine ⟨1, (lockRecvAlone_step hc).trans ?_⟩
      simp [lockRecvCallStep, lockNothingFor, h1, h2]
  · refine ⟨1, (lockRecvAlone_step hc).trans ?_⟩
    simp [lockRecvCallStep, lockNothingFor, hlt, h1]

end

/-- A turn of the receiver's loop with nothing in between is
`lockRecvIteration`. -/
theorem lockRecvStep_alone {m : LockShm} {t : LockReceiver} {call : RecvCall} {rest : List RecvCall}
    (hc : t.calls = call :: rest) (hpc : t.pc = .loop) (hlt : ¬ call.size ≤ intToSize t.dataReceived) :
    ∃ n, Reaches lockRecvAlone (m, t) ((lockRecvIteration t.key call.size call.buffer t.dataReceived m).1,
      { t with
        calls := ⟨(lockRecvIteration t.key call.size call.buffer t.dataReceived m).2.1, call.size⟩ :: rest
        dataReceived := (lockRecvIteration t.key call.size call.buffer t.dataReceived m).2.2
        copied := n }) := by
  have ht : t = { t with pc := .loop } := by rw [← hpc]
  have hcalls : t = { t with calls := ⟨call.buffer, call.size⟩ :: rest } := by rw [← hc]
  have hstart := lockRecvAlone_entry (m := m) hc hlt
  rw [← ht] at hstart
  unfold lockRecvIteration
  rw [if_neg hlt]
  split
  · exact ⟨t.copied, by rw [← hcalls]; exact .refl _ _⟩
  · rename_i hf
    rw [if_neg hf] at hstart
    split
    · rename_i hm
      refine ⟨t.copied, hstart.trans ?_⟩
      rw [← hcalls]
      refine ⟨1, (lockRecvAlone_step hc).trans ?_⟩
      simp only [lockRecvCallStep, hm, ↓reduceIte, ← ht]
    · rename_i hm
      refine ⟨t.copied + 1, hstart.trans (.via (m, { t with pc := .setMutex })
        ((lockRecvAlone_step hc).trans ?_) ⟨5, ?_⟩)⟩
      · simp only [lockRecvCallStep, hm]
        rfl
      · simp only [Function.iterate_succ, Function.iterate_zero, Function.comp_apply, id_eq,
          lockRecvAlone, lockRecvStep, hc, lockRecvCallStep, hpc]

/-! ## `ivshmem_trusted_control` -/

/-- The trusted side with nothing in between. -/
def controlAlone (p : ControlSection × Controller) : ControlSection × Controller := controlStep p.1 p.2

/-- The statements of a call with nothing in between are
`ivshmem_trusted_control`. -/
theorem controlStep_alone {c : ControlSection} (h : AllocInv c) {t : Controller} (hpc : t.pc = .idle) :
    ∃ r c' t', Reaches controlAlone (c, t) (c', t') ∧
      trustedControl c = .ok (r, c') ∧ t'.pc = .idle ∧ t'.returned = t.returned ++ [r] := by
  have emax : (Int32.ofNat maxChannels).toInt = maxChannels := by decide
  obtain ⟨hf, hs⟩ | ⟨hf, hs, hfull⟩ | ⟨hf, i, hi, hspace, hs⟩ := trustedControl_cases h.nonneg
  · refine ⟨0, c, { t with returned := t.returned ++ [0] }, ⟨1, ?_⟩, hs, hpc, rfl⟩
    simp only [Function.iterate_succ, Function.iterate_zero, Function.comp_apply, id_eq,
      controlAlone, controlStep, hpc, hf, Bool.false_eq_true, ↓reduceIte]
  · refine ⟨-1, _, { t with returned := t.returned ++ [-1], ret := -1 }, ⟨5, ?_⟩, hs, hpc, rfl⟩
    rw [← emax, ← Int32.le_iff_toInt_le] at hfull
    by_cases hn : .ofNat maxChannels ≤ c.numActiveChannels
    · simp only [Function.iterate_succ, Function.iterate_zero, Function.comp_apply, id_eq, controlAlone,
        controlStep, hpc, hf, hn, ↓reduceIte]
    · simp only [Function.iterate_succ, Function.iterate_zero, Function.comp_apply, id_eq, controlAlone,
        controlStep, hpc, hf, hn, hfull.resolve_left hn, ↓reduceIte]
  · refine ⟨0, _, { t with returned := t.returned ++ [0], ret := 0, chan := i }, ⟨12, ?_⟩, hs, hpc, rfl⟩
    have hslot : slot c.numActiveChannels = .ok i := slot_eq_ok hi
    have hn : ¬ Int32.ofNat maxChannels ≤ c.numActiveChannels := by
      rw [Int32.le_iff_toInt_le, emax, hi]
      have := i.isLt
      omega
    have hsp : ¬ UInt64.ofNat dataSectionSize < c.freeStartOffset + .ofNat channelInitSize :=
      UInt64.not_lt.mpr hspace
    simp only [Function.iterate_succ, Function.iterate_zero, Function.comp_apply, id_eq,
      controlAlone, controlStep, hpc, hf, hn, hsp, hslot, ↓reduceIte]
    simp [created, ControlSection.modify, initChannel]

/-! ## `ivshmem_trusted_rebalancing` -/

/-- A rebalancing with nothing in between. -/
def rebalanceAlone (malloc : Bool) (p : ControlSection × Rebalancer) : ControlSection × Rebalancer :=
  rebalanceStep malloc p.1 p.2

section

variable (malloc : Bool) {c : ControlSection} {t : Rebalancer} {i : Fin maxChannels}

theorem rebalanceAlone_test (hi : i.val < (intToU32 c.numActiveChannels).toNat) :
    rebalanceAlone malloc (c, { t with pc := .test i.val }) = (c, { t with pc := .write .entry i }) := by
  simp only [rebalanceAlone, rebalanceStep, hi, i.isLt, ↓reduceIte, ↓reduceDIte]

theorem rebalanceAlone_write (hn : t.numPage ≠ 0) (w : EntryWrite) :
    rebalanceAlone malloc (c, { t with pc := .write w i }) =
    (writeEntry t c i w, { t with pc := w.next i }) := by
  simp only [rebalanceAlone, rebalanceStep, hn, and_false, ↓reduceIte]
  rfl

/-- The assignments of a turn together. -/
theorem writeEntry_turn :
    [EntryWrite.entry, .bufOffset, .bufSize, .freeStart, .tail, .head, .numPage, .headTouch].foldl
      (fun c w => writeEntry t c i w) c = rebalanceTurn t.numPage t.size t.tmp c i := by
  simp [writeEntry, rebalanceTurn, ControlSection.modify, rebalanceChannel]

theorem rebalanceAlone_turn (hi : i.val < (intToU32 c.numActiveChannels).toNat) (hn : t.numPage ≠ 0) :
    Reaches (rebalanceAlone malloc) (c, { t with pc := .test i.val })
      (rebalanceTurn t.numPage t.size t.tmp c i, { t with pc := .test (i.val + 1) }) := by
  rw [← writeEntry_turn]
  refine .via _ (rebalanceAlone_test malloc hi) ?_
  refine .via _ (rebalanceAlone_write malloc hn .entry)
    (.via _ (rebalanceAlone_write malloc hn .bufOffset) ?_)
  refine .via _ (rebalanceAlone_write malloc hn .bufSize)
    (.via _ (rebalanceAlone_write malloc hn .freeStart) ?_)
  refine .via _ (rebalanceAlone_write malloc hn .tail) (.via _ (rebalanceAlone_write malloc hn .head) ?_)
  refine .via _ (rebalanceAlone_write malloc hn .numPage)
    (.via _ (rebalanceAlone_write malloc hn .headTouch) ?_)
  exact .refl _ _

/-- The table after `k` turns. -/
def turns (t : Rebalancer) (c : ControlSection) (k : Nat) : ControlSection :=
  ((List.finRange maxChannels).take k).foldl (rebalanceTurn t.numPage t.size t.tmp) c

theorem turns_succ {k : Nat} (hk : k < maxChannels) :
    turns t c (k + 1) = rebalanceTurn t.numPage t.size t.tmp (turns t c k) ⟨k, hk⟩ := by
  have hl : k < (List.finRange maxChannels).length := by rw [List.length_finRange]; exact hk
  rw [turns, turns, List.take_succ_eq_append_getElem hl, List.foldl_append, List.foldl_cons,
    List.foldl_nil, List.getElem_finRange]
  rfl

theorem turns_active (k : Nat) : (turns t c k).numActiveChannels = c.numActiveChannels := by
  unfold turns
  induction (List.finRange maxChannels).take k generalizing c with
  | nil => rfl
  | cons i is ih => exact ih

theorem rebalanceAlone_turns (hn : t.numPage ≠ 0) :
    ∀ k, k ≤ (intToU32 c.numActiveChannels).toNat → k ≤ maxChannels →
      Reaches (rebalanceAlone malloc) (c, { t with pc := .test 0 }) (turns t c k,
        { t with pc := .test k })
  | 0, _, _ => .refl _ _
  | k + 1, hk, hmax => by
    rw [turns_succ (by omega)]
    exact (rebalanceAlone_turns hn k (by omega) (by omega)).trans
      (rebalanceAlone_turn malloc (i := ⟨k, by omega⟩) (by rw [turns_active]; exact hk) hn)

end

section

variable (malloc : Bool) {c : ControlSection} {t : Rebalancer}

/-- The statements of a call up to its comparison of the sizes. -/
theorem rebalanceAlone_start (hpc : t.pc = .idle) (h0 : ¬ c.numActiveChannels ≤ 0) :
    Reaches (rebalanceAlone malloc) (c, t)
      ({ c with controlMutex := 1 }, { t with
        pc := .compare
        numPage := rebalancedNumPage c.numActiveChannels
        size := allocatedBufferSize c.numActiveChannels }) := by
  refine .via (c, { t with pc := .lock }) ?_
    (.via ({ c with controlMutex := 1 }, { t with pc := .share }) rfl ⟨1, rfl⟩)
  simp only [rebalanceAlone, rebalanceStep, hpc, h0, ↓reduceIte]

/-- The statements of a call that rebuilds the table, from the copy of it
on. -/
theorem rebalanceAlone_rebuild (hpc : t.pc = .snapshot) (h0 : 0 < c.numActiveChannels.toInt)
    (hle : c.numActiveChannels.toInt ≤ maxChannels) (hn : t.numPage ≠ 0) :
    Reaches (rebalanceAlone malloc) (c, t)
      ({ clearFrom
            (turns { t with tmp := c.channels } { c with freeStartOffset := 0 }
              c.numActiveChannels.toInt.toNat)
            c.numActiveChannels with controlMutex := 0 },
        { t with pc := .idle, tmp := c.channels, returned := t.returned ++ [0] }) := by
  have hmax : ¬ .ofNat maxChannels < c.numActiveChannels := by
    rw [Int32.lt_iff_toInt_lt, show (Int32.ofNat maxChannels).toInt = maxChannels from rfl]
    omega
  have hcount : (intToU32 c.numActiveChannels).toNat = c.numActiveChannels.toInt.toNat :=
    intToU32_toNat (by omega)
  have hnum : Int32.ofNat c.numActiveChannels.toInt.toNat = c.numActiveChannels :=
    ofNat_count hle (by omega)
  refine .via (c, { t with pc := .clearFree, tmp := c.channels }) ?_
    (.via ({ c with freeStartOffset := 0 }, { t with pc := .test 0, tmp := c.channels }) rfl ?_)
  · simp only [rebalanceAlone, rebalanceStep, hpc, hmax, ↓reduceIte]
  refine (rebalanceAlone_turns malloc (t := { t with tmp := c.channels }) hn
    c.numActiveChannels.toInt.toNat (by rw [hcount]) (by omega)).trans ?_
  have hact : (turns { t with tmp := c.channels } { c with freeStartOffset := 0 }
      c.numActiveChannels.toInt.toNat).numActiveChannels = c.numActiveChannels :=
    turns_active c.numActiveChannels.toInt.toNat
  generalize turns { t with tmp := c.channels } { c with freeStartOffset := 0 }
    c.numActiveChannels.toInt.toNat = ct at hact ⊢
  have hset : { ct with numActiveChannels := .ofNat c.numActiveChannels.toInt.toNat } = ct := by
    rw [hnum, ← hact]
  refine .via (ct, { t with pc := .setActive c.numActiveChannels.toInt.toNat, tmp := c.channels }) ?_
    (.via (ct, { t with pc := .clear c.numActiveChannels.toInt.toNat, tmp := c.channels }) ?_
      (.via (clearFrom ct c.numActiveChannels, { t with pc := .unlock, tmp := c.channels }) ?_ ⟨1, rfl⟩))
  · simp only [rebalanceAlone, rebalanceStep, hact, hcount, Nat.lt_irrefl, ↓reduceIte]
  · simp only [rebalanceAlone, rebalanceStep, hset]
  · simp only [rebalanceAlone, rebalanceStep, hnum]

end

/-- The statements of a call with nothing in between are
`ivshmem_trusted_rebalancing`. -/
theorem rebalanceStep_alone {c : ControlSection} (h : AllocInv c) {t : Rebalancer} (hpc : t.pc = .idle)
    (malloc : Bool) :
    ∃ r c' t', Reaches (rebalanceAlone malloc) (c, t) (c', t') ∧
      trustedRebalancing malloc c = .ok (r, c') ∧ t'.pc = .idle ∧ t'.returned = t.returned ++ [r] := by
  unfold trustedRebalancing
  by_cases h0 : c.numActiveChannels ≤ 0
  · refine ⟨0, c, { t with returned := t.returned ++ [0] }, ⟨1, ?_⟩, by rw [if_pos h0], hpc, rfl⟩
    simp only [Function.iterate_one, rebalanceAlone, rebalanceStep, hpc, h0, ↓reduceIte]
  have hstart := rebalanceAlone_start malloc hpc h0
  rw [if_neg h0]
  simp only
  by_cases hb : allocatedBufferSize c.numActiveChannels = (c.channels 0).bufSize
  · refine ⟨0, _, _, hstart.trans (.via ({ c with controlMutex := 1 }, { t with
        pc := .unlock
        numPage := rebalancedNumPage c.numActiveChannels
        size := allocatedBufferSize c.numActiveChannels }) ?_ ⟨1, rfl⟩), by rw [if_pos hb], rfl, rfl⟩
    simp only [rebalanceAlone, rebalanceStep, hb, ↓reduceIte]
  rw [if_neg hb]
  have hmalloc := hstart.trans (.via ({ c with controlMutex := 1 }, { t with
      pc := .malloc
      numPage := rebalancedNumPage c.numActiveChannels
      size := allocatedBufferSize c.numActiveChannels })
    (by simp only [rebalanceAlone, rebalanceStep, hb, ↓reduceIte]) (.refl _ _))
  cases malloc with
  | false => exact ⟨-1, _, _, hmalloc.trans ⟨1, rfl⟩, rfl, rfl, rfl⟩
  | true =>
    have hpos : 0 < c.numActiveChannels.toInt := by
      rw [Int32.not_le, Int32.lt_iff_toInt_lt] at h0
      exact h0
    have hn : rebalancedNumPage c.numActiveChannels ≠ 0 := fun e0 => by
      have e1 := rebalancedNumPage_toInt (n := c.numActiveChannels) (by omega)
      have := le_evenPages (n := c.numActiveChannels.toInt.toNat) (by omega) (by have := h.le_max; omega)
      rw [e0, Int32.toInt_zero] at e1
      omega
    have hmax : ¬ .ofNat maxChannels < c.numActiveChannels := by
      rw [Int32.lt_iff_toInt_lt, show (Int32.ofNat maxChannels).toInt = maxChannels from rfl]
      have := h.le_max
      omega
    have hrebuild := rebalanceAlone_rebuild true (t := { t with
      pc := .snapshot
      numPage := rebalancedNumPage c.numActiveChannels
      size := allocatedBufferSize c.numActiveChannels })
        (c := { c with controlMutex := 1 }) rfl hpos h.le_max hn
    refine ⟨0, _, _, hmalloc.trans (.trans ⟨1, rfl⟩ hrebuild), ?_, rfl, rfl⟩
    rw [if_neg hmax, if_neg hn]
    rfl

end Ivshmem
