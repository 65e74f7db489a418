import SecureIvshmem.Framework.Run
import SecureIvshmem.Proof.Clients

/-!
# Isolation of channels

Any number of clients on one table, in every interleaving, while no trusted
operation runs. The table stays as it is but for indices and counters
(`ClientsInv`), so every copy is in the region of the client's own channel
and no step touches another. Two runs in which the clients of one channel
take the same steps then agree on all that these see (`Agree`). `isolation_ok`
is the result.
-/

namespace Ivshmem

open SharedMem SharedMem.Word

variable {ι : Type*} [DecidableEq ι]

theorem sendCallStep_key (now : Int64) (m : Shm) (t : Sender) (msg : Message) (rest : List Message) :
    (sendCallStep now m t msg rest).2.key = t.key := by
  unfold sendCallStep
  cases t.pc <;> simp only <;> repeat' split
  all_goals rfl

theorem recvCallStep_key (m : Shm) (t : Receiver) (call : RecvCall) (rest : List RecvCall) :
    (recvCallStep m t call rest).2.key = t.key := by
  unfold recvCallStep
  cases t.pc <;> simp only <;> repeat' split
  all_goals rfl

theorem clientStep_key (now : Int64) (m : Shm) (t : Client) : (clientStep now m t).2.key = t.key := by
  cases t with
  | sender t =>
    cases hc : t.calls with
    | nil => simp only [clientStep, sendStep, hc]
    | cons msg rest =>
      simp only [clientStep, sendStep, hc, Client.key]
      exact sendCallStep_key now m t msg rest
  | receiver t =>
    cases hc : t.calls with
    | nil => simp only [clientStep, recvStep, hc]
    | cons call rest =>
      simp only [clientStep, recvStep, hc, Client.key]
      exact recvCallStep_key m t call rest

/-- The invariant of clients with the keys `keys`, on the table of `m`. -/
structure ClientsInv (m : Shm) (keys : ι → ChannelKey) (s : Clients ι) : Prop where
  alloc : AllocInv s.shm.ctr
  active : s.shm.ctr.numActiveChannels = m.ctr.numActiveChannels
  mutex : s.shm.ctr.controlMutex = m.ctr.controlMutex
  find : ∀ key, findChannel s.shm.ctr key = findChannel m.ctr key
  bufOffset : ∀ j, (s.shm.ctr.channels j).bufOffset = (m.ctr.channels j).bufOffset
  bufSize : ∀ j, (s.shm.ctr.channels j).bufSize = (m.ctr.channels j).bufSize
  keys : ∀ i, (s.client i).key = keys i
  placed : ∀ i, ClientPlaced s.shm (s.client i)

omit [DecidableEq ι] in
theorem clientsInv_start {m : Shm} (h : AllocInv m.ctr) (parties : ι → Party) :
    ClientsInv m (fun i => (parties i).key) (.start m parties) := by
  refine ⟨h, rfl, rfl, fun _ => rfl, fun _ => rfl, fun _ => rfl, fun i => ?_, fun i => ?_⟩
  · cases e : parties i <;>
      simp [Clients.start, e, Party.start, Party.key, Client.key, Sender.start, Receiver.start]
  · simp only [Clients.start]
    cases parties i with
    | sender key calls => exact .asking (.inl rfl) rfl
    | receiver key calls => exact ⟨fun hne => absurd rfl hne, trivial⟩

/-- The channel of a client in its turn is the one that its key finds. -/
theorem ClientPlaced.find {m : Shm} {t : Client} (h : ClientPlaced m t) (ht : t.inTurn = true) :
    findChannel m.ctr t.key = some t.chan := by
  cases t with
  | sender t => exact h.chan fun pc e => by simp [Client.inTurn, e, SendPc.inTurn] at ht
  | receiver t => exact h.chan fun e => by simp [Client.inTurn, e, RecvPc.inTurn] at ht

/-- The channel of a client in its turn is as the allocator leaves it. -/
theorem ClientPlaced.chan_ok {m : Shm} {t : Client} (ha : AllocInv m.ctr) (h : ClientPlaced m t)
    (ht : t.inTurn = true) :
    ChannelOk (m.ctr.channels t.chan) ∧ endOf (m.ctr.channels t.chan) ≤ dataSectionSize := by
  have hact := (findChannel_some (h.find ht)).1
  exact ⟨ha.chan _ hact, ha.endOf_le hact⟩

/-- The copy that comes next is in the client's own channel. -/
theorem ClientPlaced.copy_within {m : Shm} {t : Client} (ha : AllocInv m.ctr) (h : ClientPlaced m t)
    {a : Int} {n : Nat} (e : t.copyRange = some (a, n)) :
    findChannel m.ctr t.key = some t.chan ∧ (m.ctr.channels t.chan).bufOffset.toNat ≤ a ∧
      a + n ≤ endOf (m.ctr.channels t.chan) := by
  have hfind := @ClientPlaced.find _ _ h
  have hok := @ClientPlaced.chan_ok _ _ ha h
  have hpl := h
  cases t with
  | sender t =>
    simp only [Client.copyRange] at e
    split at e
    · rename_i off head msg _ hpc _
      simp only [Option.some.injEq, Prod.mk.injEq] at e
      obtain ⟨rfl, rfl⟩ := e
      have ht : (Client.sender t).inTurn = true := by simp [Client.inTurn, hpc, SendPc.inTurn]
      have hpl := hpl.pc
      rw [hpc] at hpl
      obtain ⟨rfl, hlt⟩ := hpl
      obtain ⟨hlo, hhi⟩ := pageOffset_within (hok ht).1 (hok ht).2 hlt
      refine ⟨hfind ht, hlo, ?_⟩
      rw [sentBytes, length_bytesAt]
      exact Int.le_trans (Int.add_le_add_left (Int.ofNat_le.mpr (toSent_toNat_le msg.size)) _) hhi
    · cases e
  | receiver t =>
    simp only [Client.copyRange] at e
    split at e
    · rename_i off tail call _ hpc _
      simp only [Option.some.injEq, Prod.mk.injEq] at e
      obtain ⟨rfl, rfl⟩ := e
      have ht : (Client.receiver t).inTurn = true := by simp [Client.inTurn, hpc, RecvPc.inTurn]
      have hpl := hpl.pc
      rw [hpc] at hpl
      obtain ⟨rfl, hlt⟩ := hpl
      obtain ⟨hlo, hhi⟩ := pageOffset_within (hok ht).1 (hok ht).2 hlt
      have hle := toReceive_toNat_le call.size t.dataReceived
      exact ⟨hfind ht, hlo, Int.le_trans (Int.add_le_add_left (Int.ofNat_le.mpr hle) _) hhi⟩
    · cases e

section

variable {m : Shm} {keys : ι → ChannelKey} {s : Clients ι} (h : ClientsInv m keys s)
include h

/-- What a step of client `i` leaves alone. -/
theorem ClientsInv.within (i : ι) (now : Int64) {j : Fin maxChannels}
    (hj : ∀ c, findChannel m.ctr (keys i) = some c → c = j) :
    Within j (s.client i).inTurn s.shm (clientsStep s (i, now)).shm :=
  (clientStep_within (h.placed i) ((h.placed i).chan_ok h.alloc)
    (fun c hc => hj c (by rw [← h.find, ← h.keys]; exact hc)) now).1

theorem ClientsInv.step (l : ι × Int64) : ClientsInv m keys (clientsStep s l) := by
  obtain ⟨i, now⟩ := l
  have hw := h.within i now (j := (findChannel m.ctr (keys i)).getD 0) fun c hc => by rw [hc]; rfl
  have hp := (clientStep_within (h.placed i) ((h.placed i).chan_ok h.alloc)
    (j := (findChannel s.shm.ctr (s.client i).key).getD 0) (fun c hc => by rw [hc]; rfl) now).2
  refine ⟨hw.alloc h.alloc, hw.active.trans h.active, hw.mutex.trans h.mutex,
    fun key => (hw.find key).trans (h.find key),
    fun j => (hw.bufOffset j).trans (h.bufOffset j), fun j => (hw.bufSize j).trans (h.bufSize j),
    fun k => ?_, fun k => ?_⟩
  · by_cases hk : k = i
    · subst hk
      simp only [clientsStep, Function.update_self, clientStep_key]
      exact h.keys k
    · simp only [clientsStep, Function.update_of_ne hk]
      exact h.keys k
  · by_cases hk : k = i
    · subst hk
      simp only [clientsStep, Function.update_self]
      exact hp
    · simp only [clientsStep, Function.update_of_ne hk]
      exact hw.placed (h.placed k)

end

/-! ## Other channels -/

/-- The regions of two active channels share no byte. -/
theorem AllocInv.apart {c : ControlSection} (h : AllocInv c) {i j : Fin maxChannels} (hi : c.Active i)
    (hj : c.Active j) (hij : i ≠ j) {x : Int} (hlo : ((c.channels i).bufOffset.toNat : Int) ≤ x)
    (hhi : x < endOf (c.channels i)) : x < (c.channels j).bufOffset.toNat ∨ endOf (c.channels j) ≤ x := by
  rcases Nat.lt_or_gt_of_ne fun e => hij (Fin.ext e) with hlt | hlt
  · have := h.disjoint hj hlt; omega
  · have := h.disjoint hi hlt; omega

section

variable {m : Shm} {keys : ι → ChannelKey} {s : Clients ι} (h : ClientsInv m keys s) {i : ι}
  {c : Fin maxChannels} (hne : findChannel m.ctr (keys i) ≠ some c)
include h hne

theorem ClientsInv.channel_elsewhere (now : Int64) :
    (clientsStep s (i, now)).shm.ctr.channels c = s.shm.ctr.channels c :=
  clientStep_elsewhere (h.placed i) ((h.placed i).chan_ok h.alloc) (by rw [h.find, h.keys]; exact hne) now

theorem ClientsInv.data_elsewhere (now : Int64) (hc : s.shm.ctr.Active c) {x : Int}
    (hlo : ((s.shm.ctr.channels c).bufOffset.toNat : Int) ≤ x) (hhi : x < endOf (s.shm.ctr.channels c)) :
    (clientsStep s (i, now)).shm.data x = s.shm.data x := by
  cases hf : findChannel m.ctr (keys i) with
  | some j =>
    have hj : s.shm.ctr.Active j := (findChannel_some ((h.find _).trans hf)).1
    refine (h.within i now fun d hd => ?_).data x fun _ =>
      h.alloc.apart hc hj (fun e => hne (e ▸ hf)) hlo hhi
    rw [hf] at hd
    exact (Option.some.inj hd).symm
  | none =>
    -- without a channel the client is not in its turn
    have hturn : (s.client i).inTurn = false := by
      by_contra ht
      have := (h.placed i).find (Bool.eq_true_of_not_eq_false ht)
      rw [h.find, h.keys, hf] at this
      cases this
    have hw : Within c (s.client i).inTurn s.shm (clientsStep s (i, now)).shm :=
      h.within i now fun d hd => by rw [hf] at hd; cases hd
    exact hw.data x fun e => absurd (hturn.symm.trans e) (by decide)

end

/-! ## Two runs -/

/-- Two memories that a client of channel `c` cannot tell apart. -/
structure SameChannel (c : Fin maxChannels) (m m' : Shm) : Prop where
  chan : m.ctr.channels c = m'.ctr.channels c
  data : ∀ x : Int, (m.ctr.channels c).bufOffset.toNat ≤ x → x < endOf (m.ctr.channels c) →
    m.data x = m'.data x

section

variable {c : Fin maxChannels} {m m' : Shm} (hs : SameChannel c m m')
  (hmutex : m.ctr.controlMutex = m'.ctr.controlMutex)
include hs hmutex

theorem sendCallStep_agree {t : Sender} (hp : SenderPlaced m t) (hf : findChannel m.ctr t.key = some c)
    (hf' : findChannel m'.ctr t.key = some c) (now : Int64) (msg : Message) (rest : List Message) :
    (sendCallStep now m t msg rest).2 = (sendCallStep now m' t msg rest).2 ∧
      SameChannel c (sendCallStep now m t msg rest).1 (sendCallStep now m' t msg rest).1 := by
  obtain ⟨hch, hdata⟩ := hs
  cases e : t.pc
  case request pc =>
    obtain rfl | ⟨hbad, -⟩ := hp.asks pc e
    · simp only [sendCallStep, e, requestStep, hf, hf']
      exact ⟨by trivial, hch, hdata⟩
    · rw [hf] at hbad; cases hbad
  all_goals
    obtain rfl : t.chan = c := by
      have := hp.chan (by simp [e])
      rw [hf] at this
      exact (Option.some.inj this).symm
    simp only [sendCallStep, e, ← hch, ← hmutex]
  case mutex =>
    split
    · exact ⟨by trivial, hch, hdata⟩
    · split <;> exact ⟨by trivial, hch, hdata⟩
  case copy off head => exact ⟨by trivial, hch, fun x hlo hhi => store_congr (hdata x hlo hhi) _ _⟩
  case storeHead | addSize | stamp =>
    refine ⟨by trivial, ?_, fun x => ?_⟩
    · simp only [ControlSection.modify_channels_self, hch]
    · simp only [ControlSection.modify_channels_self, endOf]
      exact hdata x
  all_goals exact ⟨by trivial, hch, hdata⟩

omit hmutex in
/-- The receiver copies the same bytes out of both memories. -/
theorem SameChannel.receivedBytes_eq {j : UInt32} (hok : ChannelOk (m.ctr.channels c))
    (hend : endOf (m.ctr.channels c) ≤ dataSectionSize)
    (hj : (j.toNat : Int) < (m.ctr.channels c).numPage.toInt) (size : UInt64) (dataReceived : Int32) :
    receivedBytes m.data (pageOffset (m.ctr.channels c).bufOffset j) size dataReceived =
      receivedBytes m'.data (pageOffset (m.ctr.channels c).bufOffset j) size dataReceived := by
  obtain ⟨hlo, hhi⟩ := pageOffset_within hok hend hj
  have hle := toReceive_toNat_le size dataReceived
  exact bytesAt_congr fun k hk => hs.data _ (by omega) (by omega)

theorem recvCallStep_agree {t : Receiver} (hp : ReceiverPlaced m t)
    (hok : t.pc.inTurn = true →
      ChannelOk (m.ctr.channels t.chan) ∧ endOf (m.ctr.channels t.chan) ≤ dataSectionSize)
    (hf : findChannel m.ctr t.key = some c) (hf' : findChannel m'.ctr t.key = some c) (call : RecvCall)
    (rest : List RecvCall) :
    (recvCallStep m t call rest).2 = (recvCallStep m' t call rest).2 ∧
      SameChannel c (recvCallStep m t call rest).1 (recvCallStep m' t call rest).1 := by
  have hbytes := @SameChannel.receivedBytes_eq _ _ _ hs
  obtain ⟨hch, hdata⟩ := hs
  have hpl := hp.pc
  cases e : t.pc
  case find =>
    simp only [recvCallStep, e, hf, hf']
    exact ⟨by trivial, hch, hdata⟩
  all_goals
    obtain rfl : t.chan = c := by
      have := hp.chan (by simp [e])
      rw [hf] at this
      exact (Option.some.inj this).symm
    rw [e] at hok hpl
    simp only [recvCallStep, e, ← hch, ← hmutex]
  case mutex =>
    split
    · exact ⟨by trivial, hch, hdata⟩
    · split <;> exact ⟨by trivial, hch, hdata⟩
  case copy off tail =>
    obtain ⟨rfl, hlt⟩ := hpl
    rw [hbytes (hok rfl).1 (hok rfl).2 hlt]
    exact ⟨rfl, hch, hdata⟩
  case storeTail | subSize =>
    refine ⟨by trivial, ?_, fun x => ?_⟩
    · simp only [ControlSection.modify_channels_self, hch]
    · simp only [ControlSection.modify_channels_self, endOf]
      exact hdata x
  all_goals exact ⟨by trivial, hch, hdata⟩

/-- A client of channel `c` takes the same step in two memories that it
cannot tell apart, and cannot tell them apart afterwards. -/
theorem clientStep_agree {t : Client} (hp : ClientPlaced m t)
    (hok : t.inTurn = true →
      ChannelOk (m.ctr.channels t.chan) ∧ endOf (m.ctr.channels t.chan) ≤ dataSectionSize)
    (hf : findChannel m.ctr t.key = some c) (hf' : findChannel m'.ctr t.key = some c) (now : Int64) :
    (clientStep now m t).2 = (clientStep now m' t).2 ∧
      SameChannel c (clientStep now m t).1 (clientStep now m' t).1 := by
  cases t with
  | sender t =>
    cases hc : t.calls with
    | nil => simp only [clientStep, sendStep, hc]; exact ⟨by trivial, hs⟩
    | cons msg rest =>
      simp only [clientStep, sendStep, hc, Client.sender.injEq]
      exact sendCallStep_agree hs hmutex hp hf hf' now msg rest
  | receiver t =>
    cases hc : t.calls with
    | nil => simp only [clientStep, recvStep, hc]; exact ⟨by trivial, hs⟩
    | cons call rest =>
      simp only [clientStep, recvStep, hc, Client.receiver.injEq]
      exact recvCallStep_agree hs hmutex hp hok hf hf' call rest

end

/-- Two states that the clients of channel `c` cannot tell apart. -/
structure Agree (m : Shm) (keys : ι → ChannelKey) (c : Fin maxChannels) (s s' : Clients ι) : Prop where
  shm : SameChannel c s.shm s'.shm
  client : ∀ i, findChannel m.ctr (keys i) = some c → s.client i = s'.client i

omit [DecidableEq ι] in
theorem Agree.symm {m : Shm} {keys : ι → ChannelKey} {c : Fin maxChannels} {s s' : Clients ι}
    (h : Agree m keys c s s') : Agree m keys c s' s :=
  ⟨⟨h.shm.chan.symm, fun x hlo hhi => (h.shm.data x (h.shm.chan ▸ hlo) (h.shm.chan ▸ hhi)).symm⟩,
    fun i hi => (h.client i hi).symm⟩

section

variable {m : Shm} {keys : ι → ChannelKey} {c : Fin maxChannels} {s s' : Clients ι}
  (h : ClientsInv m keys s) (ha : Agree m keys c s s')
include h ha

/-- A step of a client of channel `c` on both sides. -/
theorem Agree.mine (h' : ClientsInv m keys s') {l : ι × Int64}
    (hl : findChannel m.ctr (keys l.1) = some c) :
    Agree m keys c (clientsStep s l) (clientsStep s' l) := by
  obtain ⟨i, now⟩ := l
  have hi := ha.client i hl
  have hf : findChannel s.shm.ctr (s.client i).key = some c := by rw [h.find, h.keys]; exact hl
  have hf' : findChannel s'.shm.ctr (s.client i).key = some c := by rw [h'.find, h.keys]; exact hl
  obtain ⟨ht, hs⟩ := clientStep_agree ha.shm (h.mutex.trans h'.mutex.symm) (h.placed i)
    ((h.placed i).chan_ok h.alloc) hf hf' now
  refine ⟨by simp only [clientsStep, ← hi]; exact hs, fun k hk => ?_⟩
  by_cases hki : k = i
  · subst hki
    simp only [clientsStep, Function.update_self, ← hi]
    exact ht
  · simp only [clientsStep, Function.update_of_ne hki]
    exact ha.client k hk

/-- A step of another client on one side. -/
theorem Agree.other (hc : m.ctr.Active c) {l : ι × Int64} (hl : ¬ findChannel m.ctr (keys l.1) = some c) :
    Agree m keys c (clientsStep s l) s' := by
  obtain ⟨i, now⟩ := l
  have hc' : s.shm.ctr.Active c := by simpa only [ControlSection.Active, h.active] using hc
  have hch := h.channel_elsewhere hl now
  refine ⟨⟨hch.trans ha.shm.chan, fun x hlo hhi => ?_⟩, fun k hk => ?_⟩
  · rw [hch] at hlo hhi
    rw [h.data_elsewhere hl now hc' hlo hhi]
    exact ha.shm.data x hlo hhi
  · have hki : k ≠ i := fun e => hl (e ▸ hk)
    simp only [clientsStep, Function.update_of_ne hki]
    exact ha.client k hk

end

omit [DecidableEq ι] in
/-- The copy that comes next is in the client's own channel. -/
theorem ClientsInv.copy_within {m : Shm} {keys : ι → ChannelKey} {s : Clients ι}
    (h : ClientsInv m keys s) {i : ι} {a : Int} {n : Nat} (e : (s.client i).copyRange = some (a, n)) :
    ∃ c, findChannel m.ctr (keys i) = some c ∧ (s.shm.ctr.channels c).bufOffset.toNat ≤ a ∧
      a + n ≤ endOf (s.shm.ctr.channels c) := by
  obtain ⟨hfind, hlo, hhi⟩ := (h.placed i).copy_within h.alloc e
  rw [h.find, h.keys] at hfind
  exact ⟨_, hfind, hlo, hhi⟩

/-- Any number of senders and receivers, with messages of any lengths and in
every interleaving, on a table with any history: every copy is inside the
region of the client's own channel, no step touches the entry or the pages of
another channel, and what the clients of one channel come to hold, the pages
received among it, depends on their own steps only, whatever the others
do. -/
theorem isolation_ok (m₀ : Shm) (ops : List Op) (parties : ι → Party) :
    let m := afterOps m₀ ops
    (∀ ls : List (ι × Int64), let s := run clientsStep (.start m parties) ls
      (∀ i a n, (s.client i).copyRange = some (a, n) → ∃ c, findChannel m.ctr (parties i).key = some c ∧
        (s.shm.ctr.channels c).bufOffset.toNat ≤ a ∧ a + n ≤ endOf (s.shm.ctr.channels c)) ∧
      ∀ (l : ι × Int64) (c : Fin maxChannels), m.ctr.Active c →
      findChannel m.ctr (parties l.1).key ≠ some c →
        (clientsStep s l).shm.ctr.channels c = s.shm.ctr.channels c ∧
        ∀ x : Int, (s.shm.ctr.channels c).bufOffset.toNat ≤ x → x < endOf (s.shm.ctr.channels c) →
          (clientsStep s l).shm.data x = s.shm.data x) ∧
    ∀ (parties' : ι → Party) (c : Fin maxChannels) (ls ls' : List (ι × Int64)),
      (∀ i, (parties' i).key = (parties i).key) →
      (∀ i, findChannel m.ctr (parties i).key = some c → parties' i = parties i) →
      ls.filter (fun l => findChannel m.ctr (parties l.1).key = some c) =
        ls'.filter (fun l => findChannel m.ctr (parties l.1).key = some c) →
      ∀ i, findChannel m.ctr (parties i).key = some c →
        (run clientsStep (.start m parties) ls).client i =
        (run clientsStep (.start m parties') ls').client i := by
  intro m
  have hm : AllocInv m.ctr := allocInv_afterOps m₀ ops
  have start := clientsInv_start hm parties
  refine ⟨fun ls => ?_, fun parties' c ls ls' hkeys hown hsched i hi => ?_⟩
  · intro s
    have h : ClientsInv m (fun i => (parties i).key) s := run_inv (fun _ l h => h.step l) start ls
    refine ⟨fun i a n e => h.copy_within e,
      fun l c hc hne => ⟨h.channel_elsewhere hne l.2, fun x hlo hhi => ?_⟩⟩
    exact h.data_elsewhere hne l.2 (by simpa only [ControlSection.Active, h.active] using hc) hlo hhi
  · have start' := clientsInv_start hm parties'
    simp only [hkeys] at start'
    have hc := (findChannel_some hi).1
    have agree : Agree m (fun i => (parties i).key) c (.start m parties) (.start m parties') :=
      ⟨⟨rfl, fun _ _ _ => rfl⟩, fun k hk => by simp only [Clients.start, hown k hk]⟩
    have hrun :=
      run_agree (I := ClientsInv m fun i => (parties i).key) (R := Agree m (fun i => (parties i).key) c)
      (fun _ l h => h.step l)
      (fun s s' l h h' ha (hl : findChannel m.ctr (parties l.1).key = some c) => ha.mine h h' hl)
      (fun s s' l h ha hl => ha.other h hc hl)
        (fun _ _ ha => ha.symm) ls ls' _ _ start start' agree hsched
    exact hrun.client i hi

/-- A sender and a receiver on one channel, and a sender of bytes `b` on
another. -/
def threeParties (b : UInt8) : Fin 3 → Party
  | 0 => .sender ⟨1, 5, 2⟩ [⟨fun _ => 7, 8192⟩]
  | 1 => .receiver ⟨1, 5, 2⟩ [⟨fun _ => 0, 8192⟩]
  | 2 => .sender ⟨3, 6, 4⟩ [⟨fun _ => b, 8192⟩]

/-- The other sender goes first. -/
def otherFirst : List (Fin 3 × Int64) :=
  List.replicate 28 (2, 0) ++ List.replicate 28 (0, 0) ++ List.replicate 20 (1, 0)

/-- The two senders take turns. -/
def otherInTurns : List (Fin 3 × Int64) :=
  (List.replicate 28 [(0, 0), (2, 0)]).flatten ++ List.replicate 20 (1, 0)

/-- How many pages a client has received. -/
def Client.received : Client → Nat
  | .sender _ => 0
  | .receiver t => t.pages.length

/-- `isolation_ok` for the receiver, which receives two pages, whether the
other sender sends ones before or twos meanwhile. -/
theorem isolation_ok_three :
    let s := run clientsStep (.start (afterOps zeroShm twoChannels) (threeParties 1)) otherFirst
    (s.client 1).received = 2 ∧
      s.client 1 = (run clientsStep (.start (afterOps zeroShm twoChannels) (threeParties 2))
        otherInTurns).client 1 := by
  refine ⟨by decide +kernel,
    (isolation_ok zeroShm twoChannels (threeParties 1)).2 (threeParties 2) 0 _ _ ?_ ?_
    (by decide +kernel) 1 (by decide +kernel)⟩
  · exact fun | 0 => rfl | 1 => rfl | 2 => rfl
  · exact fun | 0, _ => rfl | 1, _ => rfl | 2, hi => absurd hi (by decide +kernel)

end Ivshmem
