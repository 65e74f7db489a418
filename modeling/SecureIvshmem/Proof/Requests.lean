import Mathlib.Data.Fintype.Card
import SecureIvshmem.Impl.Requests
import SecureIvshmem.Proof.Alloc

/-!
# Requests for channels

Any number of processes that call `ivshmem_request_channel`, and the trusted
process, in every interleaving. They share one flag and one candidate with no
claim on either, so two requests at a time overwrite one another. `Untorn`
says that no two requesters are between their stores to the flag and to the
last word of the candidate, and that the trusted side copies no word that is
still to be written: then the table has requested keys only, each once
(`keys_of_untorn`). `OneAtATime` says besides that no requester raises a flag
that is up: then every request is answered (`returned_of_oneAtATime`).
-/

namespace Ivshmem

open SharedMem SharedMem.Word

/-- How many words of the candidate a requester has still to write. -/
def RequestPc.owes : RequestPc → Nat
  | .writeSenderVm => 3
  | .writeSenderPid => 2
  | .writeReceiverVm => 1
  | _ => 0

/-- How many words of the candidate a step of the trusted side does not
need. -/
def ControlPc.spares : ControlPc → Nat
  | .copySenderVm => 2
  | .copySenderPid => 1
  | .copyReceiverVm => 0
  | _ => 3

/-- How many channels are in `free_start_offset` but not in
`num_active_channels`. -/
def ControlPc.ahead : ControlPc → Nat
  | .count => 1
  | _ => 0

/-- The candidate holds what a requester with `n` words to go has written of
`key`. -/
structure Carries (key candidate : ChannelKey) (n : Nat) : Prop where
  senderVm : n ≤ 2 → candidate.senderVm = key.senderVm
  senderPid : n ≤ 1 → candidate.senderPid = key.senderPid
  receiverVm : n = 0 → candidate.receiverVm = key.receiverVm

variable {ι : Type*}

/-- The table of `c` is that of `c₀` and one channel for each process of
`D`. -/
structure Extends (c₀ : ControlSection) (keys : ι → ChannelKey) (D : Finset ι)
    (c : ControlSection) : Prop where
  active : c.numActiveChannels.toInt = c₀.numActiveChannels.toInt + D.card
  le_max : c.numActiveChannels.toInt ≤ maxChannels
  made : ∀ j, c.Active j → ¬ c₀.Active j → ∃ i ∈ D, (c.channels j).key = keys i
  has : ∀ i ∈ D, ∃ j, c.Active j ∧ (c.channels j).key = keys i
  inj : ∀ j j', c.Active j → c.Active j' → ¬ c₀.Active j → ¬ c₀.Active j' →
    (c.channels j).key = (c.channels j').key → j = j'

/-- The process `i` was the last to raise the flag, and has no channel. -/
structure Holder (keys : ι → ChannelKey) (D : Finset ι) (s : Requests ι) (i : ι) : Prop where
  fresh : i ∉ D
  pc : 0 < (s.client i).owes ∨ s.client i = .poll
  others : ∀ k, k ≠ i → (s.client k).owes = 0
  carries : Carries (keys i) s.ctr.channelCandidate (s.client i).owes

/-- The process `i` waits for the channel that is being created. -/
structure Taken (keys : ι → ChannelKey) (D : Finset ι) (s : Requests ι) (i : ι) : Prop where
  fresh : i ∉ D
  pc : s.client i = .poll
  key : (s.ctr.channels s.trusted.chan).key = keys i

/-- There is room for the channel that is being created. -/
structure Room (c : ControlSection) (t : Controller) : Prop where
  slot : c.numActiveChannels.toInt = t.chan.val
  space : c.freeStartOffset.toNat + channelInitSize ≤ dataSectionSize

/-- What holds at each statement of `ivshmem_trusted_control`. -/
def ControlOk (keys : ι → ChannelKey) (D : Finset ι) (s : Requests ι) : Prop :=
  match s.trusted.pc with
  | .idle | .unlock => s.ctr.hasChannelCandidate = true → ∃ i, Holder keys D s i
  | .lock | .check => s.ctr.hasChannelCandidate = true ∧ ∃ i, Holder keys D s i
  | .copySenderVm => s.ctr.hasChannelCandidate = true ∧ Room s.ctr s.trusted ∧ ∃ i, Holder keys D s i
  | .copySenderPid => s.ctr.hasChannelCandidate = true ∧ Room s.ctr s.trusted ∧ ∃ i, Holder keys D s i ∧
      (s.ctr.channels s.trusted.chan).key.senderVm = (keys i).senderVm
  | .copyReceiverVm => s.ctr.hasChannelCandidate = true ∧ Room s.ctr s.trusted ∧ ∃ i, Holder keys D s i ∧
      (s.ctr.channels s.trusted.chan).key.senderVm = (keys i).senderVm ∧
      (s.ctr.channels s.trusted.chan).key.senderPid = (keys i).senderPid
  | .init | .lastId | .freeStart => s.ctr.hasChannelCandidate = true ∧ Room s.ctr s.trusted ∧
      ∃ i, Taken keys D s i
  | .count => s.ctr.hasChannelCandidate = true ∧ s.ctr.numActiveChannels.toInt = s.trusted.chan.val ∧
      ∃ i, Taken keys D s i
  | .clearFlag => s.ctr.hasChannelCandidate = true
  | .fault _ => False

/-- No two requesters write the candidate at a time, and none while it is
copied; the trusted side copies no word that is still to be written. -/
def Untorn (s : Requests ι) : RequestTurn ι → Prop
  | .client i => s.client i = .raise → (∀ k, (s.client k).owes = 0) ∧ s.trusted.pc ≠ .copySenderPid ∧
      s.trusted.pc ≠ .copyReceiverVm
  | .trusted => ∀ k, (s.client k).owes ≤ s.trusted.pc.spares

instance [Fintype ι] (s : Requests ι) : ∀ turn, Decidable (Untorn s turn)
  | .client _ => inferInstanceAs (Decidable (_ → _))
  | .trusted => inferInstanceAs (Decidable (∀ _, _))

/-- The invariant of runs with `Untorn` steps: the processes of `D` have got
channels since the table was that of `c₀`. -/
structure MailboxInv (c₀ : ControlSection) (keys : ι → ChannelKey) (D : Finset ι) (s : Requests ι) :
    Prop where
  table : Extends c₀ keys D s.ctr
  free : s.ctr.freeStartOffset.toNat =
    c₀.freeStartOffset.toNat + (D.card + s.trusted.pc.ahead) * channelInitSize
  free_le : s.ctr.freeStartOffset.toNat ≤ dataSectionSize
  fresh : ∀ i, s.client i = .raise ∨ 0 < (s.client i).owes → i ∉ D
  control : ControlOk keys D s

/-! ## Steps of a requester -/

/-- A step that changes no more than the candidate and one requester. -/
theorem ControlOk.congr {keys : ι → ChannelKey} {D : Finset ι} {s s' : Requests ι}
    (h : ControlOk keys D s) (ht : s'.trusted = s.trusted)
    (hf : s'.ctr.hasChannelCandidate = s.ctr.hasChannelCandidate)
    (hn : s'.ctr.numActiveChannels = s.ctr.numActiveChannels)
    (hs : s'.ctr.freeStartOffset = s.ctr.freeStartOffset) (hc : s'.ctr.channels = s.ctr.channels)
    (holder : s.ctr.hasChannelCandidate = true → ∀ k, Holder keys D s k → Holder keys D s' k)
    (poll : s.ctr.hasChannelCandidate = true → ∀ k, s.client k = .poll → s'.client k = .poll) :
    ControlOk keys D s' := by
  have room : Room s.ctr s.trusted → Room s'.ctr s'.trusted := fun hr =>
    ⟨by rw [hn, ht]; exact hr.slot, by rw [hs]; exact hr.space⟩
  have taken : s.ctr.hasChannelCandidate = true → ∀ k, Taken keys D s k →
    Taken keys D s' k := fun hup k hk =>
    ⟨hk.fresh, poll hup k hk.pc, by rw [hc, ht]; exact hk.key⟩
  unfold ControlOk at h ⊢
  rw [ht, hf, hc, hn] at *
  cases e : s.trusted.pc <;> rw [e] at h <;> simp only at h ⊢
  case idle | unlock => exact fun hup => (h hup).imp (holder hup)
  case lock | check => exact ⟨h.1, h.2.imp (holder h.1)⟩
  case copySenderVm => exact ⟨h.1, room h.2.1, h.2.2.imp (holder h.1)⟩
  case copySenderPid | copyReceiverVm =>
    exact ⟨h.1, room h.2.1, h.2.2.imp fun k hk => ⟨holder h.1 k hk.1, hk.2⟩⟩
  case init | lastId | freeStart => exact ⟨h.1, room h.2.1, h.2.2.imp (taken h.1)⟩
  case count => exact ⟨h.1, h.2.1, h.2.2.imp (taken h.1)⟩
  case clearFlag => exact h

variable [DecidableEq ι]

section

variable {c₀ : ControlSection} {keys : ι → ChannelKey} {D : Finset ι} {s : Requests ι}
  (h : MailboxInv c₀ keys D s) {i : ι}
include h

/-- A step of a requester that writes nothing. -/
theorem MailboxInv.quiet {pc : RequestPc} (hi : (s.client i).owes = 0)
    (hpoll : s.client i = .poll → s.ctr.hasChannelCandidate = false) (hpc : pc.owes = 0)
    (hraise : pc = .raise → i ∉ D) :
    MailboxInv c₀ keys D { s with client := Function.update s.client i pc } := by
  have ne : s.ctr.hasChannelCandidate = true → ∀ k, 0 < (s.client k).owes ∨ s.client k = .poll →
    k ≠ i := by
    rintro hup k hk rfl
    obtain hk | hk := hk
    · omega
    · rw [hpoll hk] at hup; cases hup
  refine ⟨h.table, h.free, h.free_le, fun k hk => ?_,
    h.control.congr rfl rfl rfl rfl rfl (fun hup k hk => ?_)
    fun hup k hk => ?_⟩
  · by_cases hki : k = i
    · subst hki
      simp only [Function.update_self, hpc, Nat.lt_irrefl, or_false] at hk
      exact hraise hk
    · simp only [Function.update_of_ne hki] at hk
      exact h.fresh k hk
  · have hki := ne hup k hk.pc
    refine ⟨hk.fresh, ?_, fun j hj => ?_, ?_⟩
    · simp only [Function.update_of_ne hki]; exact hk.pc
    · by_cases hji : j = i
      · subst hji
        simp only [Function.update_self, hpc]
      · simp only [Function.update_of_ne hji]; exact hk.others j hj
    · simp only [Function.update_of_ne hki]; exact hk.carries
  · simp only [Function.update_of_ne (ne hup k (.inr hk)), hk]

/-- The store of a word of the candidate. -/
theorem MailboxInv.write {pc : RequestPc} {cand : ChannelKey} (hi : 0 < (s.client i).owes)
    (hpc : 0 < pc.owes ∨ pc = .poll)
    (hcand : Carries (keys i) s.ctr.channelCandidate (s.client i).owes → Carries (keys i) cand pc.owes) :
    MailboxInv c₀ keys D
      { s with ctr := { s.ctr with channelCandidate := cand },
               client := Function.update s.client i pc } := by
  refine ⟨⟨h.table.active, h.table.le_max, h.table.made, h.table.has, h.table.inj⟩, h.free,
    h.free_le, fun k hk => ?_,
    h.control.congr rfl rfl rfl rfl rfl (fun hup k hk => ?_) fun hup k hk => ?_⟩
  · by_cases hki : k = i
    · subst hki
      exact h.fresh k (.inr hi)
    · simp only [Function.update_of_ne hki] at hk
      exact h.fresh k hk
  · have hik : i = k := by
      by_contra hik
      have := hk.others i hik
      omega
    subst hik
    refine ⟨hk.fresh, ?_, fun j hj => ?_, ?_⟩
    · simp only [Function.update_self]; exact hpc
    · simp only [Function.update_of_ne hj]; exact hk.others j hj
    · simp only [Function.update_self]; exact hcand hk.carries
  · have hki : k ≠ i := by
      rintro rfl
      rw [hk] at hi
      exact absurd hi (by decide)
    simp only [Function.update_of_ne hki, hk]

/-- The store to the flag. -/
theorem MailboxInv.raise (hi : s.client i = .raise) (hg : Untorn s (.client i)) :
    MailboxInv c₀ keys D
      { s with
        ctr := { s.ctr with hasChannelCandidate := true }
        client := Function.update s.client i .writeSenderVm } := by
  obtain ⟨hothers, hpid, hvm⟩ := hg hi
  have hfresh := h.fresh i (.inl hi)
  refine ⟨⟨h.table.active, h.table.le_max, h.table.made, h.table.has, h.table.inj⟩, h.free,
    h.free_le, fun k hk => ?_, ?_⟩
  · by_cases hki : k = i
    · subst hki
      exact hfresh
    · simp only [Function.update_of_ne hki] at hk
      exact h.fresh k hk
  · have holder : Holder keys D
        { s with
          ctr := { s.ctr with hasChannelCandidate := true }
          client := Function.update s.client i .writeSenderVm } i := by
      refine ⟨hfresh, ?_, fun k hk => ?_, ?_⟩
      · simp [RequestPc.owes]
      · simp only [Function.update_of_ne hk]; exact hothers k
      · simp only [Function.update_self, RequestPc.owes]
        exact ⟨by omega, by omega, by omega⟩
    have taken : ∀ k, Taken keys D s k → Taken keys D
        { s with
          ctr := { s.ctr with hasChannelCandidate := true }
          client := Function.update s.client i .writeSenderVm } k := fun k hk => by
      have hki : k ≠ i := by
        rintro rfl
        have := hk.pc
        rw [hi] at this
        cases this
      exact ⟨hk.fresh, by simp only [Function.update_of_ne hki, hk.pc], hk.key⟩
    have hc := h.control
    unfold ControlOk at hc ⊢
    cases e : s.trusted.pc <;> rw [e] at hc hpid hvm <;> simp only at hc ⊢
    case idle | unlock => exact fun _ => ⟨i, holder⟩
    case lock | check => exact ⟨trivial, i, holder⟩
    case copySenderVm => exact ⟨trivial, ⟨hc.2.1.slot, hc.2.1.space⟩, i, holder⟩
    case copySenderPid => exact absurd rfl hpid
    case copyReceiverVm => exact absurd rfl hvm
    case init | lastId | freeStart => exact ⟨trivial, ⟨hc.2.1.slot, hc.2.1.space⟩, hc.2.2.imp taken⟩
    case count => exact ⟨trivial, hc.2.1, hc.2.2.imp taken⟩

omit [DecidableEq ι] in
/-- A process with a channel finds one. -/
theorem MailboxInv.find_ne_none (hi : i ∈ D) : findChannel s.ctr (keys i) ≠ none := fun hn => by
  obtain ⟨j, hj, hk⟩ := h.table.has i hi
  have := findChannel_eq_none.mp hn j hj
  rw [hk, keyMatches_self] at this
  cases this

/-- A step of a requester. -/
theorem MailboxInv.client (i : ι) (hg : Untorn s (.client i)) :
    MailboxInv c₀ keys D (requestsStep keys s (.client i)) := by
  have owes : ∀ {pc}, s.client i = pc → (s.client i).owes = pc.owes := fun e => by rw [e]
  have poll : ∀ {pc}, s.client i = pc → pc ≠ .poll → s.client i = .poll →
    s.ctr.hasChannelCandidate = false :=
    fun e hne he => absurd (e.symm.trans he) hne
  cases e : s.client i <;> simp only [requestsStep, e, requestStep]
  case find =>
    cases hf : findChannel s.ctr (keys i) with
    | some j => exact h.quiet (owes e) (poll e (by simp)) rfl (by simp)
    | none => exact h.quiet (owes e) (poll e (by simp)) rfl fun _ hi => h.find_ne_none hi hf
  case raise => exact h.raise e hg
  case writeSenderVm =>
    refine h.write (by rw [e]; decide) (.inl (by decide)) fun hc => ?_
    exact ⟨fun _ => rfl, fun hn => absurd hn (by decide), fun hn => absurd hn (by decide)⟩
  case writeSenderPid =>
    refine h.write (by rw [e]; decide) (.inl (by decide)) fun hc => ?_
    rw [owes e] at hc
    exact ⟨fun _ => hc.senderVm (by decide), fun _ => rfl, fun hn => absurd hn (by decide)⟩
  case writeReceiverVm =>
    refine h.write (by rw [e]; decide) (.inr rfl) fun hc => ?_
    rw [owes e] at hc
    exact ⟨fun _ => hc.senderVm (by decide), fun _ => hc.senderPid (by decide), fun _ => rfl⟩
  case poll =>
    split
    · rw [← e, Function.update_eq_self]
      exact h
    · rename_i hf
      exact h.quiet (owes e) (fun _ => by simpa using hf) rfl (by simp)
  case findAgain => exact h.quiet (owes e) (poll e (by simp)) rfl (by simp)
  case returned p => exact h.quiet (owes e) (poll e (by simp)) rfl (by simp)

/-! ## Steps of the trusted side -/

omit [DecidableEq ι] in
/-- A step of the trusted side that counts no channel. -/
theorem MailboxInv.goto {c : ControlSection} {t : Controller}
    (hn : c.numActiveChannels = s.ctr.numActiveChannels)
    (hk : ∀ j, s.ctr.Active j → (c.channels j).key = (s.ctr.channels j).key)
    (hf : c.freeStartOffset.toNat =
      c₀.freeStartOffset.toNat + (D.card + t.pc.ahead) * channelInitSize)
      (hle : c.freeStartOffset.toNat ≤ dataSectionSize)
      (hc : ControlOk keys D { s with ctr := c, trusted := t }) :
    MailboxInv c₀ keys D { s with ctr := c, trusted := t } := by
  have ha : ∀ j, c.Active j ↔ s.ctr.Active j := fun j => by simp only [ControlSection.Active, hn]
  refine ⟨⟨by rw [hn]; exact h.table.active, by rw [hn]; exact h.table.le_max, fun j hj hj₀ => ?_,
    fun i hi => ?_, fun j j' hj hj' hj₀ hj₀' e => ?_⟩, hf, hle, h.fresh, hc⟩
  · rw [hk j ((ha j).mp hj)]
    exact h.table.made j ((ha j).mp hj) hj₀
  · obtain ⟨j, hj, e⟩ := h.table.has i hi
    exact ⟨j, (ha j).mpr hj, (hk j hj).trans e⟩
  · rw [hk j ((ha j).mp hj), hk j' ((ha j').mp hj')] at e
    exact h.table.inj j j' ((ha j).mp hj) ((ha j').mp hj') hj₀ hj₀' e

omit [DecidableEq ι] h in
/-- The slot that is being filled is not active. -/
theorem slot_key {f : Channel → Channel} {i : Fin maxChannels}
    (hi : s.ctr.numActiveChannels.toInt = i.val) (j : Fin maxChannels) (hj : s.ctr.Active j) :
    ((s.ctr.modify i f).channels j).key = (s.ctr.channels j).key := by
  rw [ControlSection.modify_channels_of_ne _ _ _ (ne_of_active hj hi)]

omit [DecidableEq ι] h in
/-- The trusted side finds a slot and space for the channel, or one of them
is missing. -/
theorem controlStep_check {c : ControlSection} {t : Controller} (hpc : t.pc = .check)
    (h0 : 0 ≤ c.numActiveChannels.toInt) (hle : c.freeStartOffset.toNat ≤ dataSectionSize) :
    (controlStep c t = (c, { t with pc := .clearFlag, ret := -1 }) ∧
      ((maxChannels : Int) ≤ c.numActiveChannels.toInt ∨
        dataSectionSize < c.freeStartOffset.toNat + channelInitSize)) ∨
    ∃ i, controlStep c t = (c, { t with pc := .copySenderVm, chan := i }) ∧
      Room c { t with pc := .copySenderVm, chan := i } := by
  have e : (Int32.ofNat maxChannels).toInt = maxChannels := by decide
  have ed : (UInt64.ofNat dataSectionSize).toNat = dataSectionSize := by decide
  simp only [controlStep, hpc, Int32.le_iff_toInt_le, UInt64.lt_iff_toNat_lt,
    add_channelInitSize_toNat hle, e, ed]
  split
  · rename_i hn; exact .inl ⟨rfl, .inl hn⟩
  · rename_i hn
    split
    · rename_i hf; exact .inl ⟨rfl, .inr hf⟩
    · rename_i hf
      have hs : 0 ≤ c.numActiveChannels.toInt ∧ c.numActiveChannels.toInt < maxChannels := ⟨h0, by omega⟩
      have hslot : slot c.numActiveChannels = .ok ⟨c.numActiveChannels.toInt.toNat, by omega⟩ :=
        dif_pos hs
      simp only [hslot]
      exact .inr ⟨_, rfl, (Int.toNat_of_nonneg h0).symm, Nat.not_lt.mp hf⟩

omit [DecidableEq ι] h in
/-- A step of the trusted side leaves the candidate to its holder. -/
theorem Holder.of_trusted {c : ControlSection} {t : Controller} {i : ι} (hi : Holder keys D s i)
    (hc : c.channelCandidate = s.ctr.channelCandidate) :
    Holder keys D { s with ctr := c, trusted := t } i :=
  ⟨hi.fresh, hi.pc, hi.others, hc ▸ hi.carries⟩

omit [DecidableEq ι] h in
/-- A channel that is being created has its key when the last word is
copied. -/
theorem Holder.taken {c : ControlSection} {t : Controller} {i : ι} (hi : Holder keys D s i)
    (howes : (s.client i).owes = 0)
    (hvm : (s.ctr.channels s.trusted.chan).key.senderVm = (keys i).senderVm)
    (hpid : (s.ctr.channels s.trusted.chan).key.senderPid = (keys i).senderPid)
    (hc : (c.channels t.chan).key = ⟨(s.ctr.channels s.trusted.chan).key.senderVm,
      (s.ctr.channels s.trusted.chan).key.senderPid, s.ctr.channelCandidate.receiverVm⟩) :
    Taken keys D { s with ctr := c, trusted := t } i := by
  refine ⟨hi.fresh, hi.pc.resolve_left (by omega), hc.trans ?_⟩
  rw [hvm, hpid, hi.carries.receiverVm howes]

/-- A step of the trusted side, but for the one that counts a channel. -/
theorem MailboxInv.trusted (h₀ : 0 ≤ c₀.numActiveChannels.toInt) (hg : Untorn s .trusted)
    (hpc : s.trusted.pc ≠ .count) :
    MailboxInv c₀ keys D (requestsStep keys s .trusted) := by
  have hc := h.control
  have hfree := h.free
  have hle := h.free_le
  unfold ControlOk at hc
  simp only [requestsStep]
  cases e : s.trusted.pc <;> rw [e] at hc hfree hpc <;> simp only [ControlPc.ahead] at hc hfree
  case count => exact absurd rfl hpc
  case idle =>
    simp only [controlStep, e]
    split
    · rename_i hup
      exact h.goto rfl (fun _ _ => rfl) hfree hle ⟨hup, (hc hup).imp fun _ hi => hi.of_trusted rfl⟩
    · rename_i hdown
      exact h.goto rfl (fun _ _ => rfl) hfree hle fun hup => absurd hup hdown
  case lock =>
    simp only [controlStep, e]
    exact h.goto rfl (fun _ _ => rfl) hfree hle ⟨hc.1, hc.2.imp fun _ hi => hi.of_trusted rfl⟩
  case check =>
    have h0 : 0 ≤ s.ctr.numActiveChannels.toInt := by have := h.table.active; omega
    obtain ⟨hs, -⟩ | ⟨i, hs, hr⟩ := controlStep_check e h0 hle
    · rw [hs]
      exact h.goto rfl (fun _ _ => rfl) hfree hle hc.1
    · rw [hs]
      exact h.goto rfl (fun _ _ => rfl) hfree hle ⟨hc.1, hr, hc.2.imp fun _ hi => hi.of_trusted rfl⟩
  case copySenderVm =>
    obtain ⟨hup, hr, i, hi⟩ := hc
    simp only [controlStep, e]
    refine h.goto rfl (slot_key hr.slot) hfree hle ⟨hup, ⟨hr.slot, hr.space⟩, i, hi.of_trusted rfl, ?_⟩
    simp only [ControlSection.modify_channels_self]
    exact hi.carries.senderVm (by have := hg i; rwa [e] at this)
  case copySenderPid =>
    obtain ⟨hup, hr, i, hi, hvm⟩ := hc
    simp only [controlStep, e]
    refine h.goto rfl (slot_key hr.slot) hfree hle ⟨hup, ⟨hr.slot, hr.space⟩, i, hi.of_trusted rfl, ?_⟩
    simp only [ControlSection.modify_channels_self]
    exact ⟨hvm, hi.carries.senderPid (by have := hg i; rwa [e] at this)⟩
  case copyReceiverVm =>
    obtain ⟨hup, hr, i, hi, hvm, hpid⟩ := hc
    simp only [controlStep, e]
    refine h.goto rfl (slot_key hr.slot) hfree hle ⟨hup, ⟨hr.slot, hr.space⟩, i, hi.taken ?_ hvm hpid ?_⟩
    · have := hg i
      rw [e] at this
      exact Nat.le_zero.mp this
    · simp only [ControlSection.modify_channels_self]
  case init =>
    obtain ⟨hup, hr, i, hi⟩ := hc
    simp only [controlStep, e]
    refine h.goto rfl (slot_key hr.slot) hfree hle ⟨hup, ⟨hr.slot, hr.space⟩, i, hi.fresh, hi.pc, ?_⟩
    simp only [ControlSection.modify_channels_self]
    exact hi.key
  case lastId =>
    obtain ⟨hup, hr, i, hi⟩ := hc
    simp only [controlStep, e]
    exact h.goto rfl (fun _ _ => rfl) hfree hle ⟨hup, ⟨hr.slot, hr.space⟩, i, hi.fresh, hi.pc, hi.key⟩
  case freeStart =>
    obtain ⟨hup, hr, i, hi⟩ := hc
    have hadd := add_channelInitSize_toNat hle
    simp only [controlStep, e]
    refine h.goto rfl (fun _ _ => rfl) ?_ ?_ ⟨hup, hr.slot, i, hi.fresh, hi.pc, hi.key⟩
    · rw [hadd, hfree, Nat.add_zero]
      simp only [ControlPc.ahead, Nat.add_mul, Nat.one_mul, Nat.add_assoc]
    · rw [hadd]
      exact hr.space
  case clearFlag =>
    simp only [controlStep, e]
    exact h.goto rfl (fun _ _ => rfl) hfree hle fun hup => by cases hup
  case unlock =>
    simp only [controlStep, e]
    exact h.goto rfl (fun _ _ => rfl) hfree hle fun hup => (hc hup).imp fun _ hi => hi.of_trusted rfl

/-- The trusted side counts the channel of a process that waits for it. -/
theorem MailboxInv.count (hkeys : Function.Injective keys)
    (hpc : s.trusted.pc = .count) :
    ∃ i, Taken keys D s i ∧ MailboxInv c₀ keys (insert i D) (requestsStep keys s .trusted) := by
  have hc := h.control
  have hfree := h.free
  unfold ControlOk at hc
  rw [hpc] at hc hfree
  obtain ⟨hup, hn, i, hi⟩ := hc
  have hcard : (insert i D).card = D.card + 1 := Finset.card_insert_of_notMem hi.fresh
  have hlt := s.trusted.chan.isLt
  have e1 : (1 : Int32).toInt = 1 := by decide
  have hn' : (s.ctr.numActiveChannels + 1).toInt = s.trusted.chan.val + 1 := by
    simp only [maxChannels] at hlt
    rw [toInt_add (by omega) (by omega), hn, e1]
  have hact := h.table.active
  -- the new channel is the only one that was not active
  have hnew : ∀ j : Fin maxChannels, (j.val : Int) < (s.ctr.numActiveChannels + 1).toInt →
      s.ctr.Active j ∨ j = s.trusted.chan := fun j hj => by
    simp only [ControlSection.Active, Fin.ext_iff]
    omega
  have hno : ∀ j, s.ctr.Active j → ¬ c₀.Active j →
    (s.ctr.channels j).key ≠ keys i := fun j hj hj₀ ej => by
    obtain ⟨k, hk, ek⟩ := h.table.made j hj hj₀
    exact hi.fresh (hkeys (ek.symm.trans ej) ▸ hk)
  refine ⟨i, hi, ?_⟩
  simp only [requestsStep, controlStep, hpc]
  refine ⟨⟨?_, ?_, fun j hj hj₀ => ?_, fun k hk => ?_, fun j j' hj hj' hj₀ hj₀' ej => ?_⟩, ?_,
    h.free_le, fun k hk => ?_, hup⟩
  · simp only [hn', hcard]
    omega
  · simp only [hn']
    omega
  · obtain ha | rfl := hnew j hj
    · obtain ⟨k, hk, ek⟩ := h.table.made j ha hj₀
      exact ⟨k, Finset.mem_insert_of_mem hk, ek⟩
    · exact ⟨i, Finset.mem_insert_self i D, hi.key⟩
  · obtain rfl | hk := Finset.mem_insert.mp hk
    · exact ⟨s.trusted.chan, by simp only [ControlSection.Active, hn']; omega, hi.key⟩
    · obtain ⟨j, hj, ej⟩ := h.table.has k hk
      exact ⟨j, by simp only [ControlSection.Active] at hj ⊢; omega, ej⟩
  · obtain ha | rfl := hnew j hj
    · obtain ha' | rfl := hnew j' hj'
      · exact h.table.inj j j' ha ha' hj₀ hj₀' ej
      · exact absurd (ej.trans hi.key) (hno j ha hj₀)
    · obtain ha' | rfl := hnew j' hj'
      · exact absurd (ej.symm.trans hi.key) (hno j' ha' hj₀')
      · rfl
  · rw [hcard]
    exact hfree
  · rw [Finset.mem_insert, not_or]
    refine ⟨?_, h.fresh k hk⟩
    rintro rfl
    simp [hi.pc, RequestPc.owes] at hk

end

/-! ## Requested keys only, each once -/

omit [DecidableEq ι] in
/-- The start, on a table as the allocator leaves it; a request that is
waiting is one of these processes'. -/
theorem mailboxInv_start {c : ControlSection} (hc : AllocInv c) {keys : ι → ChannelKey}
    (hpend : c.hasChannelCandidate = true → ∃ i, keys i = c.channelCandidate) :
    MailboxInv c keys ∅ (.start c keys) := by
  have howes : ∀ k, ((Requests.start c keys).client k).owes = 0 := fun k => by
    simp only [Requests.start]
    split <;> rfl
  refine ⟨⟨by simp [Requests.start], hc.le_max, fun j hj hj₀ => absurd hj hj₀, by simp,
    fun j j' hj _ hj₀ => absurd hj hj₀⟩,
    by simp [Requests.start, Controller.start, ControlPc.ahead], hc.free_le, by simp, fun hup => ?_⟩
  obtain ⟨i, hi⟩ := hpend hup
  refine ⟨i, by simp, .inr (if_pos ⟨hup, hi.symm⟩), fun k _ => howes k, ?_⟩
  simp only [howes]
  exact ⟨fun _ => by rw [hi]; rfl, fun _ => by rw [hi]; rfl, fun _ => by rw [hi]; rfl⟩

theorem mailboxInv_step {c₀ : ControlSection} {keys : ι → ChannelKey} {s : Requests ι}
    {turn : RequestTurn ι} (h₀ : 0 ≤ c₀.numActiveChannels.toInt) (hkeys : Function.Injective keys)
    (h : ∃ D, MailboxInv c₀ keys D s) (hg : Untorn s turn) :
    ∃ D, MailboxInv c₀ keys D (requestsStep keys s turn) := by
  obtain ⟨D, h⟩ := h
  cases turn with
  | client i => exact ⟨D, h.client i hg⟩
  | trusted =>
    by_cases hpc : s.trusted.pc = .count
    · obtain ⟨i, -, hi⟩ := h.count hkeys hpc
      exact ⟨_, hi⟩
    · exact ⟨D, h.trusted h₀ hg hpc⟩

/-- Any number of requesters with distinct keys and the trusted side, from
the initialisation on, in any interleaving where no two requests are written
at a time or while one is copied: every active channel has the key of a
requester, and no two have the same. -/
theorem keys_of_untorn (m : Shm) {keys : ι → ChannelKey} (hkeys : Function.Injective keys)
    (turns : List (RequestTurn ι))
    (h : Guarded (requestsStep keys) Untorn (.start (initControlSection m).ctr keys) turns) :
    let c := (run (requestsStep keys) (.start (initControlSection m).ctr keys) turns).ctr
    (∀ j, c.Active j → ∃ i, (c.channels j).key = keys i) ∧
      ∀ j j', c.Active j → c.Active j' → (c.channels j).key = (c.channels j').key → j = j' := by
  intro c
  have hc := allocInv_init m
  have hstart : MailboxInv (initControlSection m).ctr keys ∅ (.start (initControlSection m).ctr keys) :=
    mailboxInv_start hc fun hup => by cases hup
  obtain ⟨D, hD⟩ := h.run_inv (I := fun s => ∃ D, MailboxInv (initControlSection m).ctr keys D s)
    (fun _ _ => mailboxInv_step hc.nonneg hkeys) ⟨∅, hstart⟩
  have hnone : ∀ j, ¬ (initControlSection m).ctr.Active j := fun j hj => by
    have : (j.val : Int) < 0 := hj
    omega
  refine ⟨fun j hj => ?_, fun j j' hj hj' => hD.table.inj j j' hj hj' (hnone j) (hnone j')⟩
  obtain ⟨i, -, e⟩ := hD.table.made j hj (hnone j)
  exact ⟨i, e⟩

/-- Two keys. -/
def twoKeys : Fin 2 → ChannelKey := fun i => if i = 0 then ⟨1, 5, 2⟩ else ⟨3, 6, 4⟩

/-- `keys_of_untorn` where two requests are served in turn. -/
theorem keys_of_untorn_two :
    ∃ i, ((run (requestsStep twoKeys) (.start (initControlSection zeroShm).ctr twoKeys)
      (.replicate 5 (.client 0) ++ .replicate 12 .trusted ++ .replicate 5 (.client 1) ++
        .replicate 12 .trusted)).ctr.channels 1).key = twoKeys i :=
  (keys_of_untorn zeroShm (by decide) _ (by decide +kernel)).1 1 (by decide +kernel)

/-- The trusted side copies the candidate before the requester writes it, and
creates a channel that nobody asked for; or a second requester raises the flag
over the candidate of the first, which gets its channel again. -/
theorem not_keys_of_torn :
    let s := run (requestsStep twoKeys) (.start (initControlSection zeroShm).ctr twoKeys)
    let unasked := (s (.replicate 2 (.client 0) ++ .replicate 10 .trusted)).ctr
    let again := (s (.replicate 5 (.client 0) ++ .replicate 12 .trusted ++ .replicate 2 (.client 1) ++
      .replicate 10 .trusted)).ctr
    (unasked.Active 0 ∧ ∀ i, (unasked.channels 0).key ≠ twoKeys i) ∧
      again.Active 0 ∧ again.Active 1 ∧ (again.channels 0).key = (again.channels 1).key := by
  decide +kernel

/-! ## No request is lost -/

/-- A requester raises the flag only while it is down, and the trusted side
copies no word that is still to be written. -/
def OneAtATime (s : Requests ι) : RequestTurn ι → Prop
  | .client i => s.client i = .raise → s.ctr.hasChannelCandidate = false
  | .trusted => ∀ k, (s.client k).owes ≤ s.trusted.pc.spares

instance [Fintype ι] (s : Requests ι) : ∀ turn, Decidable (OneAtATime s turn)
  | .client _ => inferInstanceAs (Decidable (_ → _))
  | .trusted => inferInstanceAs (Decidable (∀ _, _))

/-- The process `i` has raised the flag and got no channel yet. -/
def Pending (D : Finset ι) (s : Requests ι) (i : ι) : Prop :=
  i ∉ D ∧ (0 < (s.client i).owes ∨ s.client i = .poll)

/-- The invariant of runs with `OneAtATime` steps. -/
structure AnswerInv (c₀ : ControlSection) (keys : ι → ChannelKey) (D : Finset ι) (s : Requests ι) :
    Prop where
  mail : MailboxInv c₀ keys D s
  one : ∀ k k', Pending D s k → Pending D s k' → k = k'
  up : ∀ k, Pending D s k → s.ctr.hasChannelCandidate = true ∧ s.trusted.pc ≠ .clearFlag
  told : ∀ k, s.client k = .findAgain → k ∈ D
  got : ∀ k p, s.client k = .returned p →
    ∃ j, p = some j ∧ s.ctr.Active j ∧ keyMatches (s.ctr.channels j).key (keys k) = true

section

variable {c₀ : ControlSection} {keys : ι → ChannelKey} {D : Finset ι} {s : Requests ι}
  (h : AnswerInv c₀ keys D s)
include h

omit [DecidableEq ι] in
/-- While the flag is down nobody is at the candidate. -/
theorem AnswerInv.untorn {turn : RequestTurn ι} (hg : OneAtATime s turn) : Untorn s turn := by
  cases turn with
  | trusted => exact hg
  | client i =>
    intro hi
    have hdown := hg hi
    refine ⟨fun k => ?_, fun e => ?_, fun e => ?_⟩
    · by_contra hk
      have hk := Nat.pos_of_ne_zero hk
      have := (h.up k ⟨h.mail.fresh k (.inr hk), .inl hk⟩).1
      rw [hdown] at this
      cases this
    all_goals
      have hc := h.mail.control
      unfold ControlOk at hc
      rw [e, hdown] at hc
      cases hc.1

/-- A step of a requester, but for the store to the flag. -/
theorem AnswerInv.move {i : ι} {c : ControlSection} {pc : RequestPc}
    (hmail : MailboxInv c₀ keys D { s with ctr := c, client := Function.update s.client i pc })
    (hn : c.numActiveChannels = s.ctr.numActiveChannels) (hc : c.channels = s.ctr.channels)
    (hf : c.hasChannelCandidate = s.ctr.hasChannelCandidate)
    (hpend : 0 < pc.owes ∨ pc = .poll → 0 < (s.client i).owes ∨ s.client i = .poll)
    (htold : pc = .findAgain → i ∈ D)
    (hgot : ∀ p, pc = .returned p →
      ∃ j, p = some j ∧ s.ctr.Active j ∧ keyMatches (s.ctr.channels j).key (keys i) = true) :
    AnswerInv c₀ keys D { s with ctr := c, client := Function.update s.client i pc } := by
  have pending : ∀ k, Pending D { s with ctr := c, client := Function.update s.client i pc } k →
    Pending D s k := by
    rintro k ⟨hk, hpk⟩
    by_cases hki : k = i
    · subst hki
      simp only [Function.update_self] at hpk
      exact ⟨hk, hpend hpk⟩
    · simp only [Function.update_of_ne hki] at hpk
      exact ⟨hk, hpk⟩
  refine
    { mail := hmail
      one := fun k k' hk hk' => h.one k k' (pending k hk) (pending k' hk')
      up := fun k hk => by rw [hf]; exact h.up k (pending k hk)
      told := fun k hk => ?_
      got := fun k p hk => ?_ }
  all_goals by_cases hki : k = i
  · subst hki
    simp only [Function.update_self] at hk
    exact htold hk
  · simp only [Function.update_of_ne hki] at hk
    exact h.told k hk
  all_goals simp only [ControlSection.Active, hn, hc]
  · subst hki
    simp only [Function.update_self] at hk
    exact hgot p hk
  · simp only [Function.update_of_ne hki] at hk
    exact h.got k p hk

/-- The store to a flag that is down. -/
theorem AnswerInv.raise {i : ι} (hi : s.client i = .raise) (hdown : s.ctr.hasChannelCandidate = false)
    (hmail : MailboxInv c₀ keys D
      { s with
        ctr := { s.ctr with hasChannelCandidate := true }
        client := Function.update s.client i .writeSenderVm }) :
    AnswerInv c₀ keys D
      { s with
        ctr := { s.ctr with hasChannelCandidate := true }
        client := Function.update s.client i .writeSenderVm } := by
  have alone : ∀ k, Pending D
      { s with
        ctr := { s.ctr with hasChannelCandidate := true }
        client := Function.update s.client i .writeSenderVm } k → k = i := by
    rintro k ⟨hk, hpk⟩
    by_contra hki
    simp only [Function.update_of_ne hki] at hpk
    have := (h.up k ⟨hk, hpk⟩).1
    rw [hdown] at this
    cases this
  refine
    { mail := hmail
      one := fun k k' hk hk' => (alone k hk).trans (alone k' hk').symm
      up := fun k hk => ⟨rfl, fun e => ?_⟩
      told := fun k hk => ?_
      got := fun k p hk => ?_ }
  · have hc := h.mail.control
    unfold ControlOk at hc
    rw [show s.trusted.pc = .clearFlag from e, hdown] at hc
    cases hc
  all_goals
    have hki : k ≠ i := by
      rintro rfl
      simp only [Function.update_self] at hk
      cases hk
    simp only [Function.update_of_ne hki] at hk
  · exact h.told k hk
  · exact h.got k p hk

theorem AnswerInv.client (i : ι) (hg : OneAtATime s (.client i)) :
    AnswerInv c₀ keys D (requestsStep keys s (.client i)) := by
  have hmail := h.mail.client i (h.untorn hg)
  have found : ∀ {j}, findChannel s.ctr (keys i) = some j →
      ∃ j', some j = some j' ∧ s.ctr.Active j' ∧ keyMatches (s.ctr.channels j').key (keys i) = true :=
    fun hf => ⟨_, rfl, findChannel_some hf⟩
  cases e : s.client i <;> simp only [requestsStep, e, requestStep] at hmail ⊢
  case find =>
    cases hf : findChannel s.ctr (keys i) with
    | some j =>
      rw [hf] at hmail
      exact h.move hmail rfl rfl rfl (by simp [RequestPc.owes]) (by simp) fun p hp => by
        cases hp; exact found hf
    | none =>
      rw [hf] at hmail
      exact h.move hmail rfl rfl rfl (by simp [RequestPc.owes]) (by simp) (by simp)
  case raise => exact h.raise e (hg e) hmail
  case writeSenderVm | writeSenderPid | writeReceiverVm =>
    exact h.move hmail rfl rfl rfl (fun _ => .inl (by rw [e]; decide)) (by simp) (by simp)
  case poll =>
    split
    · rw [← e, Function.update_eq_self]
      exact h
    · rename_i hf
      rw [if_neg hf] at hmail
      refine h.move hmail rfl rfl rfl (fun _ => .inr e) (fun _ => ?_) (by simp)
      -- the flag came down, so the request was answered
      by_contra hi
      exact hf (h.up i ⟨hi, .inr e⟩).1
  case findAgain =>
    have hi := h.mail.find_ne_none (h.told i e)
    cases hf : findChannel s.ctr (keys i) with
    | some j =>
      rw [hf] at hmail
      exact h.move hmail rfl rfl rfl (by simp [RequestPc.owes]) (by simp) fun p hp => by
        cases hp; exact found hf
    | none => exact absurd hf hi
  case returned p => exact h.move hmail rfl rfl rfl (by simp [RequestPc.owes]) (by simp) (by simp)

omit [DecidableEq ι] in
/-- A step of the trusted side leaves the active channels active, with their
keys. -/
theorem AnswerInv.keeps {j : Fin maxChannels} (hj : s.ctr.Active j) :
    (controlStep s.ctr s.trusted).1.Active j ∧
      ((controlStep s.ctr s.trusted).1.channels j).key = (s.ctr.channels j).key := by
  have hc := h.mail.control
  have hle := h.mail.table.le_max
  unfold ControlOk at hc
  have same : s.ctr.Active j ∧ (s.ctr.channels j).key = (s.ctr.channels j).key := ⟨hj, rfl⟩
  cases e : s.trusted.pc <;> rw [e] at hc <;> simp only [controlStep, e]
  case idle => split <;> exact same
  case check =>
    split
    · exact same
    · split
      · exact same
      · split <;> exact same
  case copySenderVm | copySenderPid | copyReceiverVm | init => exact ⟨hj, slot_key hc.2.1.slot j hj⟩
  case count =>
    have hn := hc.2.1
    have hlt := s.trusted.chan.isLt
    have e1 : (1 : Int32).toInt = 1 := by decide
    simp only [ControlSection.Active, maxChannels, and_true] at hj hlt ⊢
    rw [toInt_add (by omega) (by omega), hn, e1]
    omega
  all_goals
    have hj' : (j.val : Int) < s.ctr.numActiveChannels.toInt := hj
    exact ⟨hj', trivial⟩

omit [DecidableEq ι] in
/-- A process without a channel has room for one. -/
theorem AnswerInv.check_room [Fintype ι] (h₀ : 0 ≤ c₀.numActiveChannels.toInt)
    (hroom : c₀.numActiveChannels.toInt + Fintype.card ι ≤ maxChannels)
    (hspace : c₀.freeStartOffset.toNat + Fintype.card ι * channelInitSize ≤ dataSectionSize) {k : ι}
    (hk : k ∉ D) (hpc : s.trusted.pc = .check) :
    ∃ i, controlStep s.ctr s.trusted = (s.ctr, { s.trusted with pc := .copySenderVm, chan := i }) := by
  have hcard : D.card < Fintype.card ι := Finset.card_lt_univ_of_notMem hk
  have hact := h.mail.table.active
  have hfree := h.mail.free
  have hle := h.mail.free_le
  rw [hpc] at hfree
  have hmul : (D.card + 1) * channelInitSize ≤ Fintype.card ι * channelInitSize :=
    Nat.mul_le_mul_right _ hcard
  simp only [ControlPc.ahead, Nat.add_zero, Nat.add_mul, Nat.one_mul] at hfree hmul
  obtain ⟨-, hfull⟩ | ⟨i, hs, -⟩ := controlStep_check hpc (by omega) hle
  · omega
  · exact ⟨i, hs⟩

/-- A step of the trusted side, if there is room for the channels of all
processes. -/
theorem AnswerInv.trusted [Fintype ι] (h₀ : 0 ≤ c₀.numActiveChannels.toInt)
    (hkeys : Function.Injective keys) (hroom : c₀.numActiveChannels.toInt + Fintype.card ι ≤ maxChannels)
    (hspace : c₀.freeStartOffset.toNat + Fintype.card ι * channelInitSize ≤ dataSectionSize)
    (hg : OneAtATime s .trusted) : ∃ D', AnswerInv c₀ keys D' (requestsStep keys s .trusted) := by
  have got : ∀ k p, s.client k = .returned p → ∃ j, p = some j ∧
    (controlStep s.ctr s.trusted).1.Active j ∧
      keyMatches ((controlStep s.ctr s.trusted).1.channels j).key (keys k) = true := fun k p hk => by
    obtain ⟨j, rfl, hj, hm⟩ := h.got k p hk
    obtain ⟨hj', e⟩ := h.keeps hj
    exact ⟨j, rfl, hj', by rw [e]; exact hm⟩
  by_cases hpc : s.trusted.pc = .count
  · obtain ⟨i, hi, hmail⟩ := h.mail.count hkeys hpc
    -- the channel that is counted is that of the only process that waits
    have none_pending : ∀ k, ¬ Pending (insert i D) (requestsStep keys s .trusted) k := by
      rintro k ⟨hk, hpk⟩
      rw [Finset.mem_insert, not_or] at hk
      exact hk.1 (h.one k i ⟨hk.2, hpk⟩ ⟨hi.fresh, .inr hi.pc⟩)
    exact ⟨insert i D,
      { mail := hmail
        one := fun k _ hk => absurd hk (none_pending k)
        up := fun k hk => absurd hk (none_pending k)
        told := fun k hk => Finset.mem_insert_of_mem (h.told k hk)
        got := got }⟩
  · -- the flag stays up for the one that waits
    have up : ∀ k, Pending D s k → (requestsStep keys s .trusted).ctr.hasChannelCandidate = true ∧
        (requestsStep keys s .trusted).trusted.pc ≠ .clearFlag := fun k hk => by
      obtain ⟨hup, hne⟩ := h.up k hk
      cases e : s.trusted.pc
      case count => exact absurd e hpc
      case clearFlag => exact absurd e hne
      case check =>
        obtain ⟨i, hs⟩ := h.check_room h₀ hroom hspace hk.1 e
        simp only [requestsStep, hs]
        exact ⟨hup, by simp⟩
      case idle =>
        simp only [requestsStep, controlStep, e, hup, ↓reduceIte]
        exact ⟨by trivial, by simp⟩
      all_goals
        simp only [requestsStep, controlStep, e]
        exact ⟨hup, by simp⟩
    exact ⟨D,
      { mail := h.mail.trusted h₀ (h.untorn hg) hpc
        one := h.one
        up := up
        told := h.told
        got := got }⟩

end

omit [DecidableEq ι] in
/-- The start of a run of `OneAtATime` steps. -/
theorem answerInv_start {c : ControlSection} (hc : AllocInv c) {keys : ι → ChannelKey}
    (hkeys : Function.Injective keys)
    (hpend : c.hasChannelCandidate = true → ∃ i, keys i = c.channelCandidate) :
    AnswerInv c keys ∅ (.start c keys) := by
  have waits : ∀ k, Pending ∅ (.start c keys) k → c.hasChannelCandidate = true ∧
    c.channelCandidate = keys k := by
    rintro k ⟨-, hk⟩
    by_contra hno
    simp [Requests.start, if_neg hno, RequestPc.owes] at hk
  refine
    { mail := mailboxInv_start hc hpend
      one := fun k k' hk hk' => hkeys ((waits k hk).2.symm.trans (waits k' hk').2)
      up := fun k hk => ⟨(waits k hk).1, by simp [Requests.start, Controller.start]⟩
      told := fun k hk => ?_
      got := fun k p hk => ?_ }
  all_goals
    simp only [Requests.start] at hk
    split at hk <;> cases hk

/-- Any number of requesters with distinct keys and the trusted side, on a
table with any history and with room for a channel for each of them, in any
interleaving where the flag is raised only while it is down and no word is
copied that is still to be written: every request that returns returns an
active channel that matches its key. -/
theorem returned_of_oneAtATime [Fintype ι] (m : Shm) (ops : List Op) {keys : ι → ChannelKey}
    (hkeys : Function.Injective keys)
    (hroom : (afterOps m ops).ctr.numActiveChannels.toInt + Fintype.card ι ≤ maxChannels)
    (hspace : (afterOps m ops).ctr.freeStartOffset.toNat + Fintype.card ι * channelInitSize ≤
      dataSectionSize)
    (hpend : (afterOps m ops).ctr.hasChannelCandidate = true →
      ∃ i, keys i = (afterOps m ops).ctr.channelCandidate)
    (turns : List (RequestTurn ι))
    (h : Guarded (requestsStep keys) OneAtATime (.start (afterOps m ops).ctr keys) turns) :
    let s := run (requestsStep keys) (.start (afterOps m ops).ctr keys) turns
    ∀ i p, s.client i = .returned p →
      ∃ j, p = some j ∧ s.ctr.Active j ∧ keyMatches (s.ctr.channels j).key (keys i) = true := by
  intro s
  have hc := allocInv_afterOps m ops
  obtain ⟨D, hD⟩ := h.run_inv (I := fun s => ∃ D, AnswerInv (afterOps m ops).ctr keys D s)
    (fun s turn ⟨D, hD⟩ hg => by
      cases turn with
      | client i => exact ⟨D, hD.client i hg⟩
      | trusted => exact hD.trusted hc.nonneg hkeys hroom hspace hg)
    ⟨∅, answerInv_start hc hkeys hpend⟩
  exact hD.got

/-- `returned_of_oneAtATime` for the second of two requests. -/
theorem returned_of_oneAtATime_two :
    let s := run (requestsStep twoKeys) (.start (afterOps zeroShm []).ctr twoKeys)
      (.replicate 5 (.client 0) ++ .replicate 12 .trusted ++ .replicate 5 (.client 1) ++
        .replicate 12 .trusted ++
        .replicate 2 (.client 1))
    ∃ j, (some 1 : Option (Fin maxChannels)) = some j ∧ s.ctr.Active j ∧
      keyMatches (s.ctr.channels j).key (twoKeys 1) = true :=
  returned_of_oneAtATime zeroShm [] (by decide) (by decide +kernel) (by decide +kernel)
    (fun hup => absurd hup (by decide +kernel)) _ (by decide +kernel) 1 (some 1) (by decide +kernel)

/-- A second requester writes its key over that of the first, whose call
returns no channel. -/
theorem not_returned_of_two :
    let s := run (requestsStep twoKeys) (.start (initControlSection zeroShm).ctr twoKeys)
      (.replicate 5 (.client 0) ++ .replicate 5 (.client 1) ++ .replicate 12 .trusted ++
        .replicate 2 (.client 0))
    s.ctr.numActiveChannels.toInt = 1 ∧ s.client 0 = .returned none := by
  decide +kernel

end Ivshmem
