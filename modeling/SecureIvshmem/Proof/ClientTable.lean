import SecureIvshmem.Proof.ClientCommand
import SecureIvshmem.Proof.IvshmemClient

/-!
# The peers that the client knows

`Registry` is what a server has told a client since it connected: which
clients there are, in the order in which they were first announced, and the
descriptors of each. The table of the client holds the first 64 of them
(`Mirrors`), so the commands reach what was announced, and no other client
(`turn_events`).
-/

namespace Ivshmem

open SharedMem
open IvshmemClient (addVector notify alsoNotify notifyAllVects notifyBroadcast handleEventFrom)

/-- What a server tells. -/
inductive ServerWord where
  | welcome (id : Int64)
  | vector (id : Int64) (fd : Int)
  | gone (id : Int64)

/-- What it has told: the client's own id, the ids of others, and the
descriptors of all. -/
structure Registry where
  own : Int64
  ids : List Int64
  fds : Int64 → List Int

namespace Registry

/-- Nothing. -/
def empty : Registry := ⟨-1, [], fun _ => []⟩

/-- A word more. A client does not leave its own table. -/
def tell (r : Registry) : ServerWord → Registry
  | .welcome id => ⟨id, [], fun _ => []⟩
  | .vector id fd =>
    { r with
      ids := if id = r.own ∨ id ∈ r.ids then r.ids else r.ids ++ [id]
      fds := Function.update r.fds id (r.fds id ++ [fd]) }
  | .gone id =>
    if id = r.own then r else { r with ids := r.ids.erase id, fds := Function.update r.fds id [] }

/-- The descriptors for which the client has room. -/
def shown (r : Registry) (id : Int64) : List Int := (r.fds id).take clientMaxVectors

/-- The descriptors that a command is to notify. -/
def writes (r : Registry) : ClientCommand → List Int
  | .help | .dump | .invalid => []
  | .intAll => r.ids.flatMap r.shown
  | .intVector peerId vector => (r.shown peerId.toInt64)[vector.toUInt32.toNat]?.toList
  | .intPeer peerId => r.shown peerId.toInt64

end Registry

/-- The word that a message is, for a client that has the memory to hear
it. -/
def RecvMsg.word (calloc : Bool) (msg : RecvMsg) (c : IvshmemClient) : List ServerWord :=
  if ¬ msg.ret < 8 ∧ (calloc = true ∨ c.searchPeer msg.index ≠ none) then
    [if msg.fd = -1 then .gone msg.index else .vector msg.index msg.fd]
  else []

/-- What the server tells in a turn. -/
def clientTold (s : ClientProcess) : ClientTurn → List ServerWord
  | .connect o => if 0 ≤ (s.client.connect o s.held).1 then [.welcome o.id.index] else []
  | .poll o => if o.Reads s.client then o.msg.word o.calloc s.client else []

/-- A peer of the table, with the first of the descriptors `fds`. -/
structure IvshmemClientPeer.Keeps (peer : IvshmemClientPeer) (fds : List Int) : Prop where
  fds : peer.fds = fds.take clientMaxVectors
  count : peer.vectorsCount ≤ clientMaxVectors

/-- The table of the client is that of the registry. -/
structure Mirrors (c : IvshmemClient) (r : Registry) : Prop where
  id : c.own.id = r.own
  own : c.own.Keeps (r.fds r.own)
  ids : c.peerList.map IvshmemClientPeer.id = r.ids
  peers : ∀ peer ∈ c.peerList, peer.Keeps (r.fds peer.id)
  nodup : (r.own :: r.ids).Nodup
  others : ∀ id, id ∉ r.own :: r.ids → r.fds id = []

theorem IvshmemClientPeer.Keeps.addVector {peer : IvshmemClientPeer} {fds : List Int}
    (h : peer.Keeps fds) (fd : Int) :
    (addVector peer fd).2.Keeps (fds ++ [fd]) :=
  ⟨addVector_fds fd h.count h.fds, addVector_count_le fd h.count⟩

/-- A peer without room keeps what it has. -/
theorem IvshmemClientPeer.Keeps.full {peer : IvshmemClientPeer} {fds : List Int}
    (h : peer.Keeps fds) (fd : Int) (hcount : clientMaxVectors ≤ peer.vectorsCount) :
    peer.Keeps (fds ++ [fd]) := by
  have := h.addVector fd
  rwa [addVector_of_le fd hcount] at this

section

variable {c : IvshmemClient} {r : Registry} (h : Mirrors c r)
include h

theorem Mirrors.mem_ids {id : Int64} : id ∈ r.ids ↔ ∃ peer ∈ c.peerList, peer.id = id := by
  rw [← h.ids, List.mem_map]

theorem Mirrors.searchPeer_ne_none {id : Int64} (hid : id ∈ r.own :: r.ids) : c.searchPeer id ≠ none := by
  intro hnone
  obtain ⟨hown, hpeers⟩ := searchPeer_none hnone
  obtain rfl | hid := List.mem_cons.mp hid
  · exact hown h.id.symm
  · obtain ⟨peer, hmem, rfl⟩ := h.mem_ids.mp hid
    exact hpeers peer hmem rfl

theorem Mirrors.notMem_of_search {id : Int64} (hid : c.searchPeer id = none) : id ∉ r.own :: r.ids :=
  fun hmem => h.searchPeer_ne_none hmem hid

/-- A word about a client that the table does not have. -/
theorem Mirrors.gone_of_notMem {id : Int64} (hid : id ∉ r.own :: r.ids) : r.tell (.gone id) = r := by
  obtain ⟨hown, hids⟩ := not_or.mp (List.mem_cons.not.mp hid)
  rw [Registry.tell, if_neg hown, List.erase_of_not_mem hids, ← h.others id hid, Function.update_eq_self]

/-- A peer is the one with its id. -/
theorem Mirrors.eq_of_id {n m : Nat} {hn : n < c.peerList.length} {hm : m < c.peerList.length}
    (e : c.peerList[n].id = c.peerList[m].id) : n = m := by
  have hnodup := (List.nodup_cons.mp h.nodup).2
  rw [← h.ids] at hnodup
  have hn' : n < (c.peerList.map (·.id)).length := by simpa using hn
  have hm' : m < (c.peerList.map (·.id)).length := by simpa using hm
  exact (@List.Nodup.getElem_inj_iff _ _ hnodup n hn' m hm').mp (by simpa only [List.getElem_map] using e)

/-- A table that a new vector has changed only where it belongs. -/
theorem Mirrors.vector {c' : IvshmemClient} {id : Int64} {fd : Int} (hid : c'.own.id = c.own.id)
    (hown : c'.own.Keeps (Function.update r.fds id (r.fds id ++ [fd]) r.own))
    (hids : c'.peerList.map IvshmemClientPeer.id = if id = r.own ∨ id ∈ r.ids then r.ids
      else r.ids ++ [id])
    (hpeers : ∀ peer ∈ c'.peerList, peer.Keeps (Function.update r.fds id (r.fds id ++ [fd]) peer.id)) :
    Mirrors c' (r.tell (.vector id fd)) := by
  refine ⟨hid.trans h.id, hown, hids, hpeers, ?_, ?_⟩
  · obtain ⟨hnot, hnodup⟩ := List.nodup_cons.mp h.nodup
    simp only [Registry.tell]
    split
    · exact h.nodup
    · rename_i hnew
      obtain ⟨hne, hids⟩ := not_or.mp hnew
      refine List.nodup_cons.mpr ⟨?_, List.nodup_append.mpr ⟨hnodup, List.nodup_singleton _, ?_⟩⟩
      · rw [List.mem_append, List.mem_singleton]
        exact not_or.mpr ⟨hnot, fun e => hne e.symm⟩
      · rintro x hx y hy rfl
        exact hids (List.mem_singleton.mp hy ▸ hx)
  · intro x hx
    have hne : x ≠ id := by
      rintro rfl
      refine hx ?_
      simp only [Registry.tell]
      split <;> simp_all
    refine (Function.update_of_ne hne _ _).trans (h.others x fun hmem => hx ?_)
    simp only [Registry.tell]
    split
    · exact hmem
    · exact (List.mem_cons.mp hmem).elim (fun e => e ▸ List.mem_cons_self) fun hmem =>
        List.mem_cons_of_mem _ (List.mem_append_left _ hmem)

/-- Peers of other ids are as they were. -/
theorem Mirrors.peers_update {id : Int64} {fds : List Int} {peer : IvshmemClientPeer}
    (hmem : peer ∈ c.peerList) (hid : peer.id ≠ id) :
    peer.Keeps (Function.update r.fds id fds peer.id) := by
  rw [Function.update_of_ne hid]
  exact h.peers peer hmem

end

/-- What a message leaves of the table. -/
theorem ServerMsgStep.mirrors {calloc : Bool} {msg : RecvMsg} {c c' : IvshmemClient} {ret : Int32}
    {closed : List Int} (hstep : ServerMsgStep calloc msg c ret c' closed) {r : Registry}
    (h : Mirrors c r) :
    Mirrors c' ((msg.word calloc c).foldl Registry.tell r) := by
  have heard : ¬ msg.ret < 8 → c.searchPeer msg.index ≠ none → (msg.word calloc c).foldl Registry.tell r =
      r.tell (if msg.fd = -1 then .gone msg.index else .vector msg.index msg.fd) := fun hret hsearch => by
    rw [RecvMsg.word, if_pos ⟨hret, .inr hsearch⟩]
    rfl
  cases hstep with
  | unread hret =>
    rw [RecvMsg.word, if_neg fun hw => hw.1 hret]
    exact h
  | noMemory hret hfd hsearch hcalloc =>
    rw [RecvMsg.word, if_neg fun hw => hw.2.elim (by simp [hcalloc]) fun hs => hs hsearch]
    exact h
  | notListed hret hfd hsearch =>
    unfold RecvMsg.word
    split
    · rw [List.foldl_cons, List.foldl_nil]
      obtain hsearch | hsearch := hsearch
      · rwa [h.gone_of_notMem (h.notMem_of_search hsearch)]
      · rwa [Registry.tell, if_pos ((searchPeer_own.mp hsearch).trans h.id)]
    · exact h
  | deleted n peer hret hfd hown hn hid =>
    obtain ⟨hlt, rfl⟩ := List.getElem?_eq_some_iff.mp hn
    have hmem : msg.index ∈ r.ids := h.mem_ids.mpr ⟨_, List.getElem_mem hlt, hid⟩
    obtain ⟨hnot, hnodup⟩ := List.nodup_cons.mp h.nodup
    have hids : (c.peerList.eraseIdx n).map IvshmemClientPeer.id = r.ids.erase msg.index := by
      have hlen : n < r.ids.length := by rwa [← h.ids, List.length_map]
      have hget : r.ids[n] = msg.index := by
        rw [← hid]
        simp only [← h.ids, List.getElem_map]
      rw [← List.eraseIdx_map, h.ids, ← hget, hnodup.erase_getElem]
    rw [heard hret (h.searchPeer_ne_none (List.mem_cons_of_mem _ hmem)), if_pos hfd, Registry.tell,
      if_neg (h.id ▸ hown)]
    refine ⟨h.id, ?_, hids, fun peer hpeer => ?_, ?_, ?_⟩
    · dsimp only
      rw [Function.update_of_ne (h.id ▸ hown.symm)]
      exact h.own
    · refine h.peers_update (List.mem_of_mem_eraseIdx hpeer) fun e => ?_
      have := hids ▸ List.mem_map_of_mem hpeer
      exact hnodup.not_mem_erase (e ▸ this)
    · exact List.nodup_cons.mpr ⟨fun hm => hnot (List.mem_of_mem_erase hm), hnodup.erase _⟩
    · intro x hx
      by_cases e : x = msg.index
      · exact e ▸ Function.update_self _ _ _
      · refine (Function.update_of_ne e _ _).trans (h.others x fun hm => hx ?_)
        exact (List.mem_cons.mp hm).elim (fun e => e ▸ List.mem_cons_self) fun hm =>
          List.mem_cons_of_mem _ ((List.mem_erase_of_ne e).mpr hm)
  | full ptr peer hret hfd hsearch hpeer hid hcount =>
    rw [heard hret (by rw [hsearch]; exact Option.some_ne_none _), if_neg hfd]
    obtain ⟨hnot, hnodup⟩ := List.nodup_cons.mp h.nodup
    cases ptr with
    | own =>
      cases hpeer
      have hown : msg.index = r.own := hid.symm.trans h.id
      refine h.vector rfl ?_ (by rw [h.ids, if_pos (.inl hown)]) fun peer hmem => ?_
      · rw [hown, Function.update_self]
        exact h.own.full _ hcount
      · exact h.peers_update hmem fun e => hnot (hown ▸ e ▸ h.mem_ids.mpr ⟨peer, hmem, rfl⟩)
    | listed n =>
      obtain ⟨hne, -⟩ := searchPeer_listed hsearch
      obtain ⟨hlt, rfl⟩ := List.getElem?_eq_some_iff.mp hpeer
      have hmem : msg.index ∈ r.ids := h.mem_ids.mpr ⟨_, List.getElem_mem hlt, hid⟩
      refine h.vector rfl ?_ (by rw [h.ids, if_pos (.inr hmem)]) fun peer hpeer' => ?_
      · rw [Function.update_of_ne (h.id ▸ hne.symm)]
        exact h.own
      · by_cases e : peer.id = msg.index
        · obtain ⟨m, hm, rfl⟩ := List.mem_iff_getElem.mp hpeer'
          obtain rfl := h.eq_of_id (e.trans hid.symm)
          rw [e, Function.update_self, ← e]
          exact (h.peers _ hpeer').full _ hcount
        · exact h.peers_update hpeer' e
  | own hret hfd hid hcount =>
    have hsearch : c.searchPeer msg.index = some .own := searchPeer_own.mpr hid.symm
    have hown : msg.index = r.own := hid.symm.trans h.id
    obtain ⟨hnot, hnodup⟩ := List.nodup_cons.mp h.nodup
    rw [heard hret (by rw [hsearch]; exact Option.some_ne_none _), if_neg hfd]
    refine h.vector (addVector_id _ _) ?_ (by rw [h.ids, if_pos (.inl hown)]) fun peer hmem => ?_
    · rw [hown, Function.update_self]
      exact h.own.addVector _
    · exact h.peers_update hmem fun e => hnot (hown ▸ e ▸ h.mem_ids.mpr ⟨peer, hmem, rfl⟩)
  | listed n peer hret hfd hown hn hid hcount =>
    obtain ⟨hlt, rfl⟩ := List.getElem?_eq_some_iff.mp hn
    have hmem : msg.index ∈ r.ids := h.mem_ids.mpr ⟨_, List.getElem_mem hlt, hid⟩
    rw [heard hret (h.searchPeer_ne_none (List.mem_cons_of_mem _ hmem)), if_neg hfd]
    refine h.vector rfl ?_ ?_ fun peer hpeer => ?_
    · rw [Function.update_of_ne (h.id ▸ hown.symm)]
      exact h.own
    · have hlt' : n < (c.peerList.map IvshmemClientPeer.id).length := by simpa using hlt
      have hget : (c.peerList.map IvshmemClientPeer.id)[n] = (addVector c.peerList[n] msg.fd).2.id := by
        rw [List.getElem_map, addVector_id]
      rw [if_pos (.inr hmem), List.map_set, ← hget, List.set_getElem_self, h.ids]
    · obtain ⟨m, hm, rfl⟩ := List.mem_iff_getElem.mp hpeer
      rw [List.length_set] at hm
      by_cases e : n = m
      · subst e
        rw [List.getElem_set_self, addVector_id, hid, Function.update_self, ← hid]
        exact (h.peers _ (List.getElem_mem hlt)).addVector _
      · rw [List.getElem_set_ne e]
        exact h.peers_update (List.getElem_mem hm) fun e' => e (h.eq_of_id (hid.trans e'.symm))
  | created hret hfd hsearch hcalloc =>
    have hnot := h.notMem_of_search hsearch
    rw [RecvMsg.word, if_pos ⟨hret, .inl hcalloc⟩, if_neg hfd]
    obtain ⟨hown, hids⟩ := not_or.mp (List.mem_cons.not.mp hnot)
    refine h.vector rfl ?_ ?_ fun peer hpeer => ?_
    · rw [Function.update_of_ne (Ne.symm hown)]
      exact h.own
    · rw [if_neg (not_or.mpr ⟨hown, hids⟩), List.map_append, h.ids, List.map_singleton, addVector_id]
    · obtain hpeer | hpeer := List.mem_append.mp hpeer
      · exact h.peers_update hpeer fun e => hids (e ▸ h.mem_ids.mpr ⟨peer, hpeer, rfl⟩)
      · rw [List.mem_singleton.mp hpeer, addVector_id, Function.update_self, h.others _ hnot]
        exact IvshmemClientPeer.Keeps.addVector ⟨rfl, Nat.zero_le _⟩ _

/-- A client that has connected knows its id alone. -/
theorem ConnectStep.mirrors {o : IvshmemClient.ConnectOutcome} {c c' : IvshmemClient} {closed : List Int}
    (hstep : ConnectStep o c 0 c' closed) (hc : c.Closed) (r : Registry) :
    Mirrors c' (r.tell (.welcome o.id.index)) := by
  cases hstep with
  | connected =>
    refine ⟨rfl, ⟨?_, ?_⟩, ?_, ?_, List.nodup_singleton _, fun _ _ => rfl⟩
    · simp only [IvshmemClientPeer.fds, hc.own, List.take_zero, Registry.tell, List.take_nil]
    · exact hc.own.le.trans (Nat.zero_le _)
    · exact congrArg (List.map _) hc.peers
    · intro peer hpeer
      rw [hc.peers] at hpeer
      exact absurd hpeer List.not_mem_nil

/-- The table after a turn. -/
theorem pollTurn_mirrors {s : ClientProcess} {o : IvshmemClient.PollOutcome}
    {r : Bool × (IvshmemClient × Ledger Int) × List ClientEvent}
    (hpoll : s.client.pollTurn o s.held = some r) {reg : Registry} (h : Mirrors s.client reg) :
    Mirrors r.2.1.1 ((clientTold s (.poll o)).foldl Registry.tell reg) := by
  rw [pollTurn_client hpoll, clientTold]
  by_cases hreads : o.Reads s.client
  · rw [if_pos hreads, if_pos hreads]
    obtain ⟨ret, c', closed, hret, hstep⟩ := handleServerMsg_step o.calloc o.msg s.client s.held
    rw [hret]
    exact hstep.mirrors h
  · rw [if_neg hreads, if_neg hreads]
    exact h

/-- The account of a process, with what the server has told. -/
def Informed (s : ClientProcess) (words : List ServerWord) : Prop :=
  (∃ lost, ClientAccount s lost) ∧
    (s.connected = true → Mirrors s.client (words.foldl Registry.tell .empty))

theorem Informed.next {s : ClientProcess} {turn : ClientTurn} {words : List ServerWord}
    (h : Informed s words) (hturn : turn.Sound s) :
    Informed (s.next turn) (words ++ clientTold s turn) := by
  obtain ⟨⟨lost, account⟩, hmirrors⟩ := h
  refine ⟨⟨_, account.next hturn⟩, fun hconnected => ?_⟩
  obtain ⟨⟨s', es⟩, hs⟩ := Option.isSome_iff_exists.mp hturn.defined
  have hnext : s.next turn = s' := by rw [ClientProcess.next, hs]; rfl
  rw [hnext] at hconnected ⊢
  rw [List.foldl_append]
  cases turn with
  | connect o =>
    obtain ⟨hapart, -, rfl⟩ := clientTurn_connect hs
    obtain ⟨ret, c', closed, hret, hstep⟩ := connect_step o s.client s.held
    have hok : 0 ≤ ret := by
      rw [hret] at hconnected
      exact of_decide_eq_true hconnected
    have htold : clientTold s (.connect o) = [.welcome o.id.index] := by rw [clientTold, hret, if_pos hok]
    obtain rfl : ret = 0 := by
      cases hstep with
      | connected => rfl
      | _ => exact absurd hok (by decide)
    rw [htold, hret]
    exact hstep.mirrors (account.apart hapart) (words.foldl Registry.tell .empty)
  | poll o =>
    obtain ⟨hjoined, goesOn, r, hpoll, rfl⟩ := clientTurn_poll hs hturn.waits
    cases goesOn with
    | false => exact absurd hconnected Bool.false_ne_true
    | true => exact pollTurn_mirrors hpoll (hmirrors hjoined)

/-! ## Notifications -/

section

variable {c : IvshmemClient} {r : Registry} (h : Mirrors c r)
include h

/-- The descriptors of a client, as the table has them. -/
theorem Mirrors.lookup_eq (id : Int64) :
    ((c.searchPeer id).bind c.peer).elim [] IvshmemClientPeer.fds = r.shown id := by
  match hsearch : c.searchPeer id with
  | none =>
    rw [Registry.shown, h.others id (h.notMem_of_search hsearch)]
    rfl
  | some .own =>
    obtain rfl := (searchPeer_own.mp hsearch).trans h.id
    exact h.own.fds
  | some (.listed n) =>
    obtain ⟨-, peer, hpeer, rfl⟩ := searchPeer_listed hsearch
    simp only [Option.bind_some, IvshmemClient.peer, hpeer, Option.elim_some]
    exact (h.peers peer (List.mem_of_getElem? hpeer)).fds

theorem Mirrors.flatMap_shown : r.ids.flatMap r.shown = c.peerList.flatMap IvshmemClientPeer.fds := by
  rw [← h.ids, List.flatMap_map]
  exact List.flatMap_congr fun peer hpeer => (h.peers peer hpeer).fds.symm

/-- The vectors of a peer of the table are few enough for a loop over
them. -/
theorem Mirrors.count_le {id : Int64} {peer : IvshmemClientPeer}
    (hpeer : (c.searchPeer id).bind c.peer = some peer) :
    peer.vectorsCount ≤ clientMaxVectors := by
  match hsearch : c.searchPeer id with
  | none => simp [hsearch] at hpeer
  | some .own =>
    rw [hsearch] at hpeer
    cases hpeer
    exact h.own.count
  | some (.listed n) =>
    rw [hsearch] at hpeer
    exact (h.peers peer (List.mem_of_getElem? hpeer)).count

end

theorem notify_events (write : Int → Bool) (peer : IvshmemClientPeer) (vector : UInt32) :
    (notify write peer vector).2 = (peer.fds[vector.toNat]?).toList.map .wrote := by
  unfold notify
  split <;> simp_all

/-- A loop over all vectors notifies each once, in order. -/
theorem notifyAllVects_events (write : Int → Bool) {peer : IvshmemClientPeer}
    (hcount : peer.vectorsCount ≤ clientMaxVectors) :
    (notifyAllVects write peer).2 = peer.fds.map .wrote := by
  suffices hloop : ∀ n ≤ peer.vectorsCount, ((List.range n).foldl (fun r vector =>
      alsoNotify r (notify write peer (.ofNat vector))) (0, [])).2 = (peer.fds.take n).map .wrote by
    refine (hloop _ (Nat.le_refl _)).trans ?_
    rw [List.take_of_length_le (IvshmemClientPeer.length_fds hcount).le]
  intro n hn
  induction n with
  | zero => rfl
  | succ n ih =>
    have hvector : (UInt32.ofNat n).toNat = n :=
      UInt32.toNat_ofNat_of_lt (Nat.lt_of_lt_of_le (Nat.lt_of_lt_of_le hn hcount) (by decide))
    rw [List.range_succ, List.foldl_append, List.foldl_cons, List.foldl_nil, List.take_add_one,
      List.map_append, ← ih (Nat.le_of_succ_le hn), alsoNotify]
    rw [notify_events, hvector]

theorem Mirrors.notifyBroadcast_events {c : IvshmemClient} {r : Registry} (h : Mirrors c r)
    (write : Int → Bool) :
    (c.notifyBroadcast write).2 = (r.ids.flatMap r.shown).map .wrote := by
  suffices hloop : ∀ (peers : List IvshmemClientPeer) (ret : Int32) (es : List ClientEvent),
      (∀ peer ∈ peers, peer.Keeps (r.fds peer.id)) →
        (peers.foldl (fun r peer => alsoNotify r (notifyAllVects write peer)) (ret, es)).2 =
          es ++ ((peers.map IvshmemClientPeer.id).flatMap r.shown).map .wrote by
    refine (hloop c.peerList 0 [] h.peers).trans ?_
    rw [h.ids, List.nil_append]
  intro peers
  induction peers with
  | nil => simp
  | cons peer peers ih =>
    intro ret es hpeers
    obtain ⟨hpeer, hpeers⟩ := List.forall_mem_cons.mp hpeers
    rw [List.foldl_cons, alsoNotify, ih _ _ hpeers, notifyAllVects_events write hpeer.count, hpeer.fds]
    simp [Registry.shown]

/-- A command notifies what the server has announced. -/
theorem Mirrors.runCommand_events {c : IvshmemClient} {r : Registry} (h : Mirrors c r)
    (write : Int → Bool) (command : ClientCommand) :
    c.runCommand write command = (r.writes command).map .wrote := by
  cases command with
  | help | dump | invalid => rfl
  | intAll => exact h.notifyBroadcast_events write
  | intVector peerId vector =>
    rw [IvshmemClient.runCommand, Registry.writes, ← h.lookup_eq]
    cases hpeer : (c.searchPeer peerId.toInt64).bind c.peer with
    | none => rfl
    | some peer => exact notify_events write peer _
  | intPeer peerId =>
    rw [IvshmemClient.runCommand, Registry.writes, ← h.lookup_eq]
    cases hpeer : (c.searchPeer peerId.toInt64).bind c.peer with
    | none => rfl
    | some peer => exact notifyAllVects_events write (h.count_le hpeer)

/-- What a client does about the vectors `fds`, numbered from `i` on, whose
descriptors are `ready`. -/
def kicks (ready fds : List Int) (i : Nat) : List ClientEvent :=
  ((fds.zipIdx i).filter fun p => decide (p.1 ∈ ready)).flatMap fun p => [.read p.1, .notified p.2]

theorem kicks_cons (ready : List Int) (fd : Int) (fds : List Int) (i : Nat) :
    kicks ready (fd :: fds) i =
    (if fd ∈ ready then [.read fd, .notified i] else []) ++ kicks ready fds (i + 1) := by
  unfold kicks
  rw [List.zipIdx_cons, List.filter_cons]
  split <;> simp_all

/-- The ready vectors are read and notified in order, up to one that cannot be
read. -/
theorem handleEventFrom_events (read : Int → Int) {ready : List Int} {maxfd : Int}
    (hready : ∀ fd ∈ ready, fd < maxfd) :
    ∀ (fds : List Int) (i : Nat), (handleEventFrom read ready maxfd i fds).2.2 <+: kicks ready fds i ∧
      (0 ≤ (handleEventFrom read ready maxfd i fds).1 →
        (handleEventFrom read ready maxfd i fds).2.2 = kicks ready fds i)
  | [], _ => ⟨List.nil_prefix, fun _ => rfl⟩
  | fd :: fds, i => by
    obtain ⟨hpre, hall⟩ := handleEventFrom_events read hready fds (i + 1)
    rw [kicks_cons, handleEventFrom]
    by_cases hfd : fd ∈ ready
    · have hskip : ¬ (maxfd ≤ fd ∨ fd ∉ ready) :=
        not_or.mpr ⟨Int.not_le.mpr (hready fd hfd), not_not.mpr hfd⟩
      have hstop : ∀ rest : List ClientEvent,
          [ClientEvent.read fd] <+: [.read fd, .notified i] ++ rest := fun rest =>
        ⟨.notified i :: rest, rfl⟩
      rw [if_neg hskip, if_pos hfd]
      have hfailed : ¬ (0 : Int32) ≤ -1 := by decide
      by_cases hneg : read fd < 0
      · rw [if_pos hneg]
        exact ⟨hstop _, fun hret => absurd hret hfailed⟩
      by_cases height : read fd ≠ 8
      · rw [if_neg hneg, if_pos height]
        exact ⟨hstop _, fun hret => absurd hret hfailed⟩
      rw [if_neg hneg, if_neg height]
      generalize handleEventFrom read ready maxfd (i + 1) fds = e at hpre hall ⊢
      obtain ⟨ret, einval, es⟩ := e
      exact ⟨(List.prefix_append_right_inj [ClientEvent.read fd, .notified i]).mpr hpre, fun hret =>
        congrArg ([ClientEvent.read fd, .notified i] ++ ·) (hall hret)⟩
    · rw [if_pos (.inr hfd), if_neg hfd, List.nil_append]
      exact ⟨hpre, hall⟩

theorem handleFds_events (o : IvshmemClient.PollOutcome) {ready : List Int} {maxfd : Int}
    (hready : ∀ fd ∈ ready, fd < maxfd) (c : IvshmemClient) (held : Ledger Int) :
    let r := c.handleFds o ready maxfd held
    r.2.2 <+: kicks ready r.2.1.1.own.fds 0 ∧
      (0 ≤ r.1 → o.readEintr = false → r.2.2 = kicks ready r.2.1.1.own.fds 0) := by
  have hfailed : ¬ (0 : Int32) ≤ -1 := by decide
  unfold IvshmemClient.handleFds
  generalize (if c.sockFd < maxfd ∧ c.sockFd ∈ ready then c.handleServerMsg o.calloc o.msg held
    else (0, c, held)) = m
  obtain ⟨ret, c, held⟩ := m
  dsimp only
  by_cases hstop : ret < 0 ∧ o.msgEintr = false
  · rw [if_pos hstop]
    exact ⟨List.nil_prefix, fun hret => absurd hret hfailed⟩
  rw [if_neg hstop]
  have hevents := handleEventFrom_events o.read hready c.own.fds 0
  rw [← IvshmemClient.handleEvent] at hevents
  generalize c.handleEvent o.read ready maxfd = e at hevents
  refine ⟨hevents.1, fun hret heintr => hevents.2 ?_⟩
  by_cases hneg : e.1 < 0
  · dsimp only at hret
    rw [if_pos ⟨hneg, by rw [heintr, Bool.not_false, Bool.or_true]⟩] at hret
    exact absurd hret hfailed
  · exact Int32.not_lt.mp hneg

/-- A turn of a client with the table of `r`. -/
theorem Mirrors.turn {s s' : ClientProcess} {r : Registry} (h : Mirrors s.client r)
    {o : IvshmemClient.PollOutcome} {es : List ClientEvent}
    (hturn : clientTurn s (.poll o) = some (s', es)) (hselect : o.select ≠ 0)
    (hready : ∀ fd ∈ o.ready, fd ∈ 0 :: s.client.watched) :
    let r' := (clientTold s (.poll o)).foldl Registry.tell r
    ∃ es', es = ((o.commands.getD []).flatMap r.writes).map .wrote ++ es' ∧
      es' <+: kicks o.ready (r'.shown r'.own) 0 ∧
      (s'.connected = true → 0 ≤ o.select → o.readEintr = false →
        es' = kicks o.ready (r'.shown r'.own) 0) := by
  obtain ⟨hconnected, goesOn, c', hpoll, rfl⟩ := clientTurn_poll hturn hselect
  have hown := (pollTurn_mirrors hpoll h).own.fds
  rw [← Registry.shown] at hown
  have hlt : ∀ fd ∈ o.ready, fd < s.client.maxfd := fun fd hfd =>
    lt_maxfd ((List.mem_cons.mp (hready fd hfd)).imp_left fun e => e.trans_lt Int.zero_lt_one)
  rw [pollTurn_eq] at hpoll
  split at hpoll
  swap
  · cases hpoll
  obtain ⟨commands, hcommands, hr⟩ := Option.map_eq_some_iff.mp hpoll
  have hwrites : commands.flatMap (s.client.runCommand o.write) =
    (commands.flatMap r.writes).map .wrote := by
    rw [List.map_flatMap]
    exact List.flatMap_congr fun command _ => h.runCommand_events o.write command
  rw [hcommands, Option.getD_some]
  intro r'
  rw [← hown]
  by_cases hneg : o.select < 0
  · have hnone : commands = [] := by
      rw [IvshmemClient.PollOutcome.commands, if_neg fun hc => Int.not_lt.mpr hc.1 hneg] at hcommands
      exact (Option.some.inj hcommands).symm
    rw [if_pos hneg] at hr
    cases hr
    rw [hnone]
    exact ⟨[], rfl, List.nil_prefix, fun _ hpos => absurd hneg (Int.not_lt.mpr hpos)⟩
  rw [if_neg hneg] at hr
  by_cases hstops : o.Stops
  · have hnone : commands = [] := by
      rw [IvshmemClient.PollOutcome.commands, if_pos ⟨Int.not_lt.mp hneg, hstops.1⟩,
        hstops.2.1] at hcommands
      exact (Option.some.inj hcommands).symm
    rw [if_pos hstops] at hr
    cases hr
    rw [hnone]
    exact ⟨[], rfl, List.nil_prefix, fun hc => absurd hc Bool.false_ne_true⟩
  rw [if_neg hstops] at hr
  obtain ⟨hpre, hall⟩ := handleFds_events o hlt s.client s.held
  cases hr
  refine ⟨_, by rw [hwrites], hpre, fun hgo _ heintr => hall ?_ heintr⟩
  by_cases hok : 0 ≤ (s.client.handleFds o o.ready s.client.maxfd s.held).1
  · exact hok
  · rw [decide_eq_false hok] at hgo
    exact absurd hgo Bool.false_ne_true

theorem informed_of_guarded {path : List UInt8} (hpath : path.length < pathMax) {turns : List ClientTurn}
    (h : Guarded ClientProcess.next (fun s turn => turn.Sound s) (.start path) turns) :
    Informed (run ClientProcess.next (.start path) turns)
      (events ClientProcess.next clientTold (.start path) turns) :=
  have hstart : Informed (.start path) [] :=
    ⟨⟨_, ClientAccount.start hpath⟩, fun hc => (Bool.false_ne_true hc).elim⟩
  Guarded.run_inv_events (I := Informed) (fun _ _ _ h hturn => h.next hturn) hstart h

/-- In every run, a client that is connected knows the peers that the server
has announced to it since, and not said gone, each with its first 64
descriptors; no two of these are the same. -/
theorem peers_announced {path : List UInt8} (hpath : path.length < pathMax) {turns : List ClientTurn}
    (h : Guarded ClientProcess.next (fun s turn => turn.Sound s) (.start path) turns)
    (hconnected : (run ClientProcess.next (.start path) turns).connected = true) :
    let c := (run ClientProcess.next (.start path) turns).client
    let r := (events ClientProcess.next clientTold (.start path) turns).foldl Registry.tell .empty
    c.own.id = r.own ∧ c.peerList.map IvshmemClientPeer.id = r.ids ∧ (r.own :: r.ids).Nodup ∧
      (∀ id, ((c.searchPeer id).bind c.peer).elim [] IvshmemClientPeer.fds = r.shown id) ∧
      ((r.own :: r.ids).flatMap r.shown).Nodup := by
  obtain ⟨⟨lost, account⟩, hmirrors⟩ := informed_of_guarded hpath h
  have mirrors := hmirrors hconnected
  refine ⟨mirrors.id, mirrors.ids, mirrors.nodup, mirrors.lookup_eq, ?_⟩
  have hsub := List.nodup_append.mp account.held.nodup
  obtain ⟨hpeers, hown, hdisjoint⟩ := List.nodup_append.mp hsub.2.1
  obtain ⟨hpeers, -, -⟩ := List.nodup_append.mp hpeers
  rw [List.flatMap_cons, mirrors.flatMap_shown, Registry.shown, ← mirrors.own.fds]
  exact List.nodup_append.mpr ⟨hown, hpeers,
    fun x hx y hy => (hdisjoint y (List.mem_append_left _ hy) x hx).symm⟩

theorem peers_announced_session :
    let c := (run ClientProcess.next (.start []) sampleSession).client
    c.own.id = 5 ∧ c.peerList.map IvshmemClientPeer.id = [2] ∧
      ((c.searchPeer 7).bind c.peer).elim [] IvshmemClientPeer.fds = [] ∧
      ((c.searchPeer 2).bind c.peer).elim [] IvshmemClientPeer.fds = [8] := by
  obtain ⟨hid, hids, -, hlookup, -⟩ :=
    @peers_announced [] (by decide) sampleSession (by decide) (by decide)
  exact ⟨hid.trans (by decide), hids.trans (by decide), (hlookup 7).trans (by decide),
    (hlookup 2).trans (by decide)⟩

/-- What a turn of a connected client does: it notifies the descriptors that
the commands name, as the server announced them, and reads and reports its own
ready vectors in order, all of them if it goes on. -/
theorem turn_events {path : List UInt8} (hpath : path.length < pathMax) {turns : List ClientTurn}
    (h : Guarded ClientProcess.next (fun s turn => turn.Sound s) (.start path) turns)
    {o : IvshmemClient.PollOutcome} {s' : ClientProcess} {es : List ClientEvent}
    (hturn : clientTurn (run ClientProcess.next (.start path) turns) (.poll o) = some (s', es))
    (hselect : o.select ≠ 0)
    (hready : ∀ fd ∈ o.ready, fd ∈ 0 :: (run ClientProcess.next (.start path) turns).client.watched) :
    let r := (events ClientProcess.next clientTold (.start path) turns).foldl Registry.tell .empty
    let r' := (clientTold (run ClientProcess.next (.start path) turns) (.poll o)).foldl Registry.tell r
    ∃ es', es = ((o.commands.getD []).flatMap r.writes).map .wrote ++ es' ∧
      es' <+: kicks o.ready (r'.shown r'.own) 0 ∧
      (s'.connected = true → 0 ≤ o.select → o.readEintr = false →
        es' = kicks o.ready (r'.shown r'.own) 0) := by
  obtain ⟨hconnected, -⟩ := clientTurn_poll hturn hselect
  exact ((informed_of_guarded hpath h).2 hconnected).turn hturn hselect hready

/-- Client 5 of `sampleSession` reads two commands and a notification. -/
def sampleTurn : IvshmemClient.PollOutcome where
  select := 2
  selectEintr := false
  ready := [0, 6]
  input := some ['i', 'n', 't', ' ', 'a', 'l', 'l', '\n', 'i', 'n', 't', ' ', '5', ' ', '0', '\n']
  inputEintr := false
  msg := ⟨0, 0, []⟩
  calloc := true
  msgEintr := false
  read := fun _ => 8
  readEintr := false
  write := fun _ => true

theorem turn_events_session :
    ∃ s', clientTurn (run ClientProcess.next (.start []) sampleSession) (.poll sampleTurn) =
    some (s', [.wrote 8, .wrote 6, .read 6, .notified 0]) := by
  have hgoes : (clientTurn (run ClientProcess.next (.start []) sampleSession) (.poll sampleTurn)).map
      (·.1.connected) = some true := by decide
  obtain ⟨⟨s', es⟩, hs, hconnected⟩ := Option.map_eq_some_iff.mp hgoes
  obtain ⟨es', hes, -, hall⟩ :=
    @turn_events [] (by decide) sampleSession (by decide) sampleTurn s' es hs (by decide)
    (by decide)
  rw [hall hconnected (by decide) rfl] at hes
  exact ⟨s', hs.trans (congrArg (fun es => some (s', es)) (hes.trans (by decide)))⟩

/-- The commands that a turn runs are defined just if the numbers that it reads
are `int`s. -/
theorem commands_isSome_iff (o : IvshmemClient.PollOutcome) :
    o.commands.isSome ↔ (0 ≤ o.select → 0 ∈ o.ready → ∀ input ∈ o.input,
      ∀ token ∈ commandTokens (input.take commandMax), ∀ x ∈ scanNumbers token, IsInt x) := by
  rw [IvshmemClient.PollOutcome.commands]
  by_cases hread : 0 ≤ o.select ∧ 0 ∈ o.ready
  · rw [if_pos hread]
    cases o.input with
    | none => exact iff_of_true rfl fun _ _ _ hinput => absurd hinput (Option.not_mem_none _)
    | some input =>
      simp only [Option.elim_some, parseCommands_isSome_iff, hread.1, hread.2, true_implies,
        Option.mem_some_iff, forall_eq']
  · rw [if_neg hread]
    exact iff_of_true rfl fun hselect hready => absurd ⟨hselect, hready⟩ hread

/-- A turn of a connected client is defined just if `select` has room for the
socket and for its vectors, and every number in the commands that it reads is
an `int`. -/
theorem poll_defined_iff {path : List UInt8} (hpath : path.length < pathMax) {turns : List ClientTurn}
    (h : Guarded ClientProcess.next (fun s turn => turn.Sound s) (.start path) turns)
    (hconnected : (run ClientProcess.next (.start path) turns).connected = true)
    (o : IvshmemClient.PollOutcome) :
    (clientTurn (run ClientProcess.next (.start path) turns) (.poll o)).isSome ↔
      (∀ fd ∈ (run ClientProcess.next (.start path) turns).client.watched, fd < IvshmemClient.fdSetSize) ∧
        (0 ≤ o.select → 0 ∈ o.ready → ∀ input ∈ o.input,
          ∀ token ∈ commandTokens (input.take commandMax), ∀ x ∈ scanNumbers token, IsInt x) := by
  obtain ⟨⟨lost, account⟩, -⟩ := informed_of_guarded hpath h
  rw [← commands_isSome_iff]
  generalize run ClientProcess.next (.start path) turns = s at *
  have hpos : ∀ fd ∈ s.client.watched, 0 ≤ fd := by
    rw [IvshmemClient.watched, List.forall_mem_cons]
    refine ⟨account.sock hconnected, fun fd hfd => ?_⟩
    rw [← account.own.filter_eq] at hfd
    exact of_decide_eq_true (List.mem_filter.mp hfd).2
  have hiff : (clientTurn s (.poll o)).isSome ↔ (s.client.pollTurn o s.held).isSome := by
    rw [clientTurn, if_pos hconnected]
    cases s.client.pollTurn o s.held with
    | none => rfl
    | some r =>
      obtain ⟨goesOn, ⟨c, held⟩, es⟩ := r
      cases goesOn <;> by_cases hselect : o.select = 0 <;> simp [hselect]
  rw [hiff, pollTurn_eq]
  by_cases hset : ∀ fd ∈ s.client.watched, fd < IvshmemClient.fdSetSize
  · rw [if_pos fun fd hfd => ⟨hpos fd hfd, hset fd hfd⟩, Option.isSome_map]
    exact (and_iff_right hset).symm
  · rw [if_neg fun hall => hset fun fd hfd => (hall fd hfd).2]
    exact iff_of_false Bool.false_ne_true fun hboth => hset hboth.1

theorem poll_defined_iff_session :
    (clientTurn (run ClientProcess.next (.start []) sampleSession) (.poll sampleTurn)).isSome = true :=
  (@poll_defined_iff [] (by decide) sampleSession (by decide) (by decide) sampleTurn).mpr (by decide)

end Ivshmem
