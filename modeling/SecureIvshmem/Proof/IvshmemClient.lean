import Mathlib.Data.List.FinRange
import SecureIvshmem.Framework.Run
import SecureIvshmem.Impl.IvshmemClient

/-!
# What the client holds

The client keeps the descriptors that the server sends in its table of peers,
and `ivshmem_client_close` closes them. `ClientAccount` says that they, the
socket and the memory are all it holds, beside the standard streams and the
descriptors `lost`: those that came with a message that it did not want, or
that had no room. It never closes one that it does not hold.
-/

namespace Ivshmem

open SharedMem
open IvshmemClient (addVector searchPeer freePeer freePeers closeOwn readOneMsg handleServerMsg)

/-! ## Vectors -/

/-- Its vectors hold descriptors below the count, and only there. -/
def IvshmemClientPeer.Filled (peer : IvshmemClientPeer) : Prop :=
  ∀ i, 0 ≤ peer.vectors i ↔ i.val < peer.vectorsCount

theorem IvshmemClientPeer.length_fds {peer : IvshmemClientPeer}
    (h : peer.vectorsCount ≤ clientMaxVectors) :
    peer.fds.length = peer.vectorsCount := by
  rw [IvshmemClientPeer.fds, List.length_take, List.length_ofFn, Nat.min_eq_left h]

theorem addVector_of_lt {peer : IvshmemClientPeer} (fd : Int) (h : peer.vectorsCount < clientMaxVectors) :
    addVector peer fd = (0, { peer with
      vectors := Function.update peer.vectors ⟨peer.vectorsCount, h⟩ fd
      vectorsCount := peer.vectorsCount + 1 }) := dif_pos h

theorem addVector_of_le {peer : IvshmemClientPeer} (fd : Int) (h : clientMaxVectors ≤ peer.vectorsCount) :
    addVector peer fd = (-1, peer) := dif_neg (Nat.not_lt.mpr h)

@[simp] theorem addVector_id (peer : IvshmemClientPeer) (fd : Int) :
    (addVector peer fd).2.id = peer.id := by
  unfold addVector
  split <;> rfl

theorem addVector_count_le {peer : IvshmemClientPeer} (fd : Int)
    (h : peer.vectorsCount ≤ clientMaxVectors) :
    (addVector peer fd).2.vectorsCount ≤ clientMaxVectors := by
  obtain hlt | hle := Nat.lt_or_ge peer.vectorsCount clientMaxVectors
  · rw [addVector_of_lt fd hlt]
    exact hlt
  · rwa [addVector_of_le fd hle]

/-- A vector goes behind those there are. -/
theorem addVector_fds_of_lt {peer : IvshmemClientPeer} (fd : Int)
    (h : peer.vectorsCount < clientMaxVectors) :
    (addVector peer fd).2.fds = peer.fds ++ [fd] := by
  rw [addVector_of_lt fd h]
  simp only [IvshmemClientPeer.fds]
  rw [List.take_add_one]
  congr 1
  · refine List.ext_getElem (by simp only [List.length_take, List.length_ofFn]) fun i hi _ => ?_
    rw [List.length_take, List.length_ofFn, Nat.lt_min] at hi
    simp only [List.getElem_take, List.getElem_ofFn]
    exact Function.update_of_ne (Fin.ne_of_lt hi.1) _ _
  · rw [List.getElem?_eq_getElem (by rwa [List.length_ofFn]), List.getElem_ofFn, Function.update_self]
    rfl

/-- The descriptors are the first that came. -/
theorem addVector_fds {peer : IvshmemClientPeer} (fd : Int) {fds : List Int}
    (h : peer.vectorsCount ≤ clientMaxVectors) (hfds : peer.fds = fds.take clientMaxVectors) :
    (addVector peer fd).2.fds = (fds ++ [fd]).take clientMaxVectors := by
  have hlen : peer.vectorsCount = min clientMaxVectors fds.length := by
    rw [← IvshmemClientPeer.length_fds h, hfds, List.length_take]
  obtain hlt | hle := Nat.lt_or_ge peer.vectorsCount clientMaxVectors
  · have hshort : fds.length < clientMaxVectors := by omega
    rw [addVector_fds_of_lt fd hlt, hfds, List.take_of_length_le (Nat.le_of_lt hshort),
      List.take_of_length_le (by rwa [List.length_append, List.length_singleton])]
  · rw [addVector_of_le fd hle, hfds, List.take_append_of_le_length (by omega)]

theorem IvshmemClientPeer.Filled.addVector {peer : IvshmemClientPeer} {fd : Int} (h : peer.Filled)
    (hfd : 0 ≤ fd) :
    (addVector peer fd).2.Filled := by
  obtain hlt | hle := Nat.lt_or_ge peer.vectorsCount clientMaxVectors
  · rw [addVector_of_lt fd hlt]
    intro i
    by_cases hi : i = ⟨peer.vectorsCount, hlt⟩
    · subst hi
      simpa using hfd
    · have hval : i.val ≠ peer.vectorsCount := fun e => hi (Fin.ext e)
      simp only [Function.update_of_ne hi, h i]
      omega
  · rwa [addVector_of_le fd hle]

/-- The descriptors of a filled peer are the entries that
`ivshmem_client_close` closes. -/
theorem IvshmemClientPeer.Filled.filter_eq {peer : IvshmemClientPeer} (h : peer.Filled) :
    (List.ofFn peer.vectors).filter (fun fd => decide (0 ≤ fd)) = peer.fds := by
  have htake : ∀ fd ∈ (List.ofFn peer.vectors).take peer.vectorsCount, decide (0 ≤ fd) =
    true := fun fd hfd => by
    obtain ⟨i, hi, rfl⟩ := List.mem_iff_getElem.mp hfd
    rw [List.length_take, List.length_ofFn, Nat.lt_min] at hi
    rw [List.getElem_take, List.getElem_ofFn]
    exact decide_eq_true ((h ⟨i, hi.2⟩).mpr hi.1)
  have hdrop : ∀ fd ∈ (List.ofFn peer.vectors).drop peer.vectorsCount, ¬ decide (0 ≤ fd) =
    true := fun fd hfd => by
    obtain ⟨i, hi, rfl⟩ := List.mem_iff_getElem.mp hfd
    rw [List.length_drop, List.length_ofFn] at hi
    rw [List.getElem_drop, List.getElem_ofFn, decide_eq_true_eq]
    exact (h ⟨peer.vectorsCount + i, by omega⟩).not.mpr (Nat.not_lt.mpr (Nat.le_add_right _ _))
  rw [← List.take_append_drop peer.vectorsCount (List.ofFn peer.vectors), List.filter_append,
    List.filter_eq_self.mpr htake, List.filter_eq_nil_iff.mpr hdrop, List.append_nil]
  rfl

/-! ## Closing -/

/-- The descriptors that a client has kept, in the order in which
`ivshmem_client_close` closes them. -/
def IvshmemClient.handles (c : IvshmemClient) : List Int :=
  c.peerList.flatMap IvshmemClientPeer.fds ++
    ([c.shmFd, c.sockFd].filter fun fd => decide (0 ≤ fd)) ++ c.own.fds

theorem freePeers_eq (c : IvshmemClient) (held : Ledger Int) :
    c.freePeers held =
      ({ c with peerList := [] }, held.releaseAll (c.peerList.flatMap IvshmemClientPeer.fds)) := by
  suffices h : ∀ (peers : List IvshmemClientPeer) (c : IvshmemClient) (held : Ledger Int),
    c.peerList = peers →
      peers.foldl (fun r _ => r.1.freePeer 0 r.2) (c, held) =
        ({ c with peerList := [] },
          held.releaseAll (peers.flatMap IvshmemClientPeer.fds)) from h _ c held rfl
  intro peers
  induction peers with
  | nil => rintro ⟨_, _, _, _, _⟩ held rfl; rfl
  | cons peer peers ih =>
    intro c held e
    rw [List.foldl_cons, List.flatMap_cons, Ledger.releaseAll_append, ih _ _ (by simp [freePeer, e])]
    simp [freePeer, e]

/-- The loop over the own vectors, from the vectors `is` on. -/
theorem closeOwn_loop {r : IvshmemClientPeer × Ledger Int} :
    ∀ {is : List (Fin clientMaxVectors)} {own : IvshmemClientPeer} {held : Ledger Int}, is.Nodup →
      is.foldl (fun (r : IvshmemClientPeer × Ledger Int) i =>
        if 0 ≤ r.1.vectors i then
          ({ r.1 with vectors := Function.update r.1.vectors i (-1) }, r.2.release (r.1.vectors i))
        else r) (own, held) = r →
      r.2 = held.releaseAll ((is.map own.vectors).filter fun fd => decide (0 ≤ fd)) ∧
        (∀ i, r.1.vectors i = if i ∈ is ∧ 0 ≤ own.vectors i then -1 else own.vectors i) ∧ r.1.id = own.id
  | [], _, _, _, e => by
    subst e
    simp
  | i :: is, own, held, hn, e => by
    obtain ⟨hi, hn⟩ := List.nodup_cons.mp hn
    rw [List.foldl_cons] at e
    by_cases hfd : 0 ≤ own.vectors i
    · rw [if_pos hfd] at e
      obtain ⟨hheld, hvec, hid⟩ := closeOwn_loop hn e
      have hmap : is.map (Function.update own.vectors i (-1)) = is.map own.vectors :=
        List.map_congr_left fun j hj => Function.update_of_ne (ne_of_mem_of_not_mem hj hi) _ _
      refine ⟨?_, fun j => ?_, hid⟩
      · rw [hheld, hmap, List.map_cons, List.filter_cons_of_pos (by simpa using hfd),
          Ledger.releaseAll_cons]
      · rw [hvec j]
        by_cases hj : j = i
        · subst hj
          simp [hi, hfd]
        · simp [hj]
    · rw [if_neg hfd] at e
      obtain ⟨hheld, hvec, hid⟩ := closeOwn_loop hn e
      refine ⟨?_, fun j => ?_, hid⟩
      · rw [hheld, List.map_cons, List.filter_cons_of_neg (by simpa using hfd)]
      · rw [hvec j]
        by_cases hj : j = i
        · subst hj
          simp [hfd]
        · simp [hj]

theorem closeOwn_spec {own : IvshmemClientPeer} (h : own.Filled) (held : Ledger Int) :
    (closeOwn own held).2 = held.releaseAll own.fds ∧ ∀ i, (closeOwn own held).1.vectors i < 0 := by
  obtain ⟨hheld, hvec, -⟩ :=
    @closeOwn_loop (closeOwn own held) _ own held (List.nodup_finRange clientMaxVectors) rfl
  refine ⟨hheld.trans (by rw [← List.ofFn_eq_map, h.filter_eq]), fun i => (hvec i).trans_lt ?_⟩
  by_cases hi : 0 ≤ own.vectors i
  · rw [if_pos ⟨List.mem_finRange i, hi⟩]
    exact Int.negSucc_lt_zero 0
  · rw [if_neg fun h => hi h.2]
    exact Int.not_le.mp hi

/-- No connection, and no descriptor. -/
structure IvshmemClient.Closed (c : IvshmemClient) : Prop where
  peers : c.peerList = []
  shm : c.shmFd < 0
  sock : c.sockFd < 0
  own : c.own.vectorsCount = 0

theorem IvshmemClient.Closed.handles_eq {c : IvshmemClient} (h : c.Closed) : c.handles = [] := by
  simp [IvshmemClient.handles, IvshmemClientPeer.fds, h.peers, h.own, Int.not_le.mpr h.shm,
    Int.not_le.mpr h.sock]

theorem close_eq (c : IvshmemClient) (held : Ledger Int) :
    c.close held =
      let r := closeOwn { c.own with id := -1 } (held.releaseAll
        (c.peerList.flatMap IvshmemClientPeer.fds ++
          [c.shmFd, c.sockFd].filter fun fd => decide (0 ≤ fd)))
      ({ c with
        peerList := []
        shmFd := if 0 ≤ c.shmFd then -1 else c.shmFd
        sockFd := if 0 ≤ c.sockFd then -1 else c.sockFd
        own := { r.1 with vectorsCount := 0 } }, r.2) := by
  by_cases hshm : 0 ≤ c.shmFd <;> by_cases hsock : 0 ≤ c.sockFd <;>
    simp only [IvshmemClient.close, freePeers_eq, hshm, hsock, ↓reduceIte, List.filter_cons,
      List.filter_nil, decide_true, decide_false, Bool.false_eq_true, Ledger.releaseAll_append,
        Ledger.releaseAll_cons, Ledger.releaseAll_nil]

theorem close_spec {c : IvshmemClient} (h : c.own.Filled) (held : Ledger Int) :
    (c.close held).2 = held.releaseAll c.handles ∧ (c.close held).1.Closed ∧
    (c.close held).1.own.Filled := by
  have hneg : ∀ fd : Int, (if 0 ≤ fd then -1 else fd) < 0 := fun fd => by
    split <;> omega
  have hown : IvshmemClientPeer.Filled { c.own with id := -1 } := h
  rw [close_eq, IvshmemClient.handles, Ledger.releaseAll_append _ _ c.own.fds]
  obtain ⟨hheld, hvec⟩ := closeOwn_spec hown (held.releaseAll
    (c.peerList.flatMap IvshmemClientPeer.fds ++ [c.shmFd, c.sockFd].filter fun fd => decide (0 ≤ fd)))
  dsimp only at hheld hvec ⊢
  generalize closeOwn _ _ = r at hheld hvec ⊢
  exact ⟨hheld, ⟨rfl, hneg _, hneg _, rfl⟩,
    fun i => iff_of_false (Int.not_le.mpr (hvec i)) (Nat.not_lt_zero _)⟩

/-! ## Messages of the server -/

theorem RecvMsg.fd_mem {msg : RecvMsg} (h : msg.fd ≠ -1) : msg.fd ∈ msg.fds := by
  suffices ∀ (control : List (List Int)) (fd : Int),
      control.foldl fdAfter fd = fd ∨ control.foldl fdAfter fd ∈ control.flatten from
    (this msg.control (-1)).resolve_left h
  intro control
  induction control with
  | nil => exact fun fd => .inl rfl
  | cons rights control ih =>
    intro fd
    rw [List.foldl_cons, List.flatten_cons]
    obtain e | hmem := ih (fdAfter fd rights)
    · rw [e]
      match rights with
      | [] | _ :: _ :: _ => exact .inl rfl
      | [x] => exact .inr List.mem_cons_self
    · exact .inr (List.mem_append_right _ hmem)

theorem searchPeer_own {c : IvshmemClient} {id : Int64} :
    c.searchPeer id = some .own ↔ id = c.own.id := by
  unfold searchPeer
  split
  · simpa
  · simpa

theorem searchPeer_listed {c : IvshmemClient} {id : Int64} {n : Nat}
    (h : c.searchPeer id = some (.listed n)) :
    id ≠ c.own.id ∧ ∃ peer, c.peerList[n]? = some peer ∧ peer.id = id := by
  unfold searchPeer at h
  split at h
  · cases h
  · rename_i hid
    obtain ⟨m, hm, e⟩ := Option.map_eq_some_iff.mp h
    cases e
    obtain ⟨hlt, hp, -⟩ := List.findIdx?_eq_some_iff_getElem.mp hm
    exact ⟨hid, _, List.getElem?_eq_getElem hlt, by simpa using hp⟩

theorem searchPeer_none {c : IvshmemClient} {id : Int64} (h : c.searchPeer id = none) :
    id ≠ c.own.id ∧ ∀ peer ∈ c.peerList, peer.id ≠ id := by
  unfold searchPeer at h
  split at h
  · cases h
  · rename_i hid
    exact ⟨hid, by simpa using h⟩

/-- What a message does: the result of `ivshmem_client_handle_server_msg`, the
client after it, and the descriptors that it closes. -/
inductive ServerMsgStep (calloc : Bool) (msg : RecvMsg) (c : IvshmemClient) :
    Int32 → IvshmemClient → List Int → Prop
  | unread (hret : msg.ret < 8) : ServerMsgStep calloc msg c (-1) c []
  | notListed (hret : ¬ msg.ret < 8) (hfd : msg.fd = -1)
      (hsearch : c.searchPeer msg.index = none ∨
        c.searchPeer msg.index = some .own) : ServerMsgStep calloc msg c (-1) c []
  | deleted (n : Nat) (peer : IvshmemClientPeer) (hret : ¬ msg.ret < 8) (hfd : msg.fd = -1)
    (hown : msg.index ≠ c.own.id)
      (hn : c.peerList[n]? = some peer) (hid : peer.id = msg.index) :
      ServerMsgStep calloc msg c 0 { c with peerList := c.peerList.eraseIdx n } peer.fds
  | full (ptr : PeerPtr) (peer : IvshmemClientPeer) (hret : ¬ msg.ret < 8) (hfd : msg.fd ≠ -1)
      (hsearch : c.searchPeer msg.index = some ptr) (hpeer : c.peer ptr = some peer)
        (hid : peer.id = msg.index)
      (hcount : clientMaxVectors ≤ peer.vectorsCount) : ServerMsgStep calloc msg c (-1) c []
  | own (hret : ¬ msg.ret < 8) (hfd : msg.fd ≠ -1) (hid : c.own.id = msg.index)
      (hcount : c.own.vectorsCount < clientMaxVectors) :
      ServerMsgStep calloc msg c 0 { c with own := (addVector c.own msg.fd).2 } []
  | listed (n : Nat) (peer : IvshmemClientPeer) (hret : ¬ msg.ret < 8) (hfd : msg.fd ≠ -1)
      (hown : msg.index ≠ c.own.id) (hn : c.peerList[n]? = some peer) (hid : peer.id = msg.index)
      (hcount : peer.vectorsCount < clientMaxVectors) :
      ServerMsgStep calloc msg c 0 { c with peerList := c.peerList.set n (addVector peer msg.fd).2 } []
  | noMemory (hret : ¬ msg.ret < 8) (hfd : msg.fd ≠ -1) (hsearch : c.searchPeer msg.index = none)
      (hcalloc : calloc = false) : ServerMsgStep calloc msg c (-1) c []
  | created (hret : ¬ msg.ret < 8) (hfd : msg.fd ≠ -1) (hsearch : c.searchPeer msg.index = none)
      (hcalloc : calloc = true) :
      ServerMsgStep calloc msg c 0
        { c with peerList := c.peerList ++ [(addVector ⟨msg.index, fun _ => 0, 0⟩ msg.fd).2] } []

theorem handleServerMsg_step (calloc : Bool) (msg : RecvMsg) (c : IvshmemClient) (held : Ledger Int) :
    ∃ ret c' closed, c.handleServerMsg calloc msg held =
    (ret, c', (held.acquireAll msg.fds).releaseAll closed) ∧
      ServerMsgStep calloc msg c ret c' closed := by
  unfold handleServerMsg readOneMsg
  by_cases hret : msg.ret < 8
  · rw [if_pos hret]
    exact ⟨_, _, _, rfl, .unread hret⟩
  rw [if_neg hret]
  dsimp only
  by_cases hfd : msg.fd = -1
  · rw [if_pos hfd]
    match hsearch : c.searchPeer msg.index with
    | none => exact ⟨_, _, _, rfl, .notListed hret hfd (.inl hsearch)⟩
    | some .own => exact ⟨_, _, _, rfl, .notListed hret hfd (.inr hsearch)⟩
    | some (.listed n) =>
      obtain ⟨hown, peer, hn, hid⟩ := searchPeer_listed hsearch
      refine ⟨_, _, _, ?_, .deleted n peer hret hfd hown hn hid⟩
      simp only [freePeer, hn, Option.elim_some]
  · rw [if_neg hfd]
    match hsearch : c.searchPeer msg.index with
    | none =>
      cases calloc with
      | false => exact ⟨_, _, _, rfl, .noMemory hret hfd hsearch rfl⟩
      | true => exact ⟨_, _, _, rfl, .created hret hfd hsearch rfl⟩
    | some .own =>
      have hid := searchPeer_own.mp hsearch
      obtain hlt | hle := Nat.lt_or_ge c.own.vectorsCount clientMaxVectors
      · refine ⟨_, _, _, ?_, .own hret hfd hid.symm hlt⟩
        simp only [addVector_of_lt _ hlt, Ledger.releaseAll_nil]
      · refine ⟨_, _, _, ?_, .full .own c.own hret hfd hsearch rfl hid.symm hle⟩
        simp only [addVector_of_le _ hle, Ledger.releaseAll_nil]
    | some (.listed n) =>
      obtain ⟨hown, peer, hn, hid⟩ := searchPeer_listed hsearch
      have hmodify : c.peerList.modify n (fun peer => (addVector peer msg.fd).2) =
          c.peerList.set n (addVector peer msg.fd).2 := by
        rw [List.modify_eq_set_getElem?, hn]
        rfl
      obtain hlt | hle := Nat.lt_or_ge peer.vectorsCount clientMaxVectors
      · refine ⟨_, _, _, ?_, .listed n peer hret hfd hown hn hid hlt⟩
        simp only [hn, hmodify, Option.elim_some, addVector_of_lt _ hlt, Ledger.releaseAll_nil]
      · refine ⟨_, _, _, ?_, .full (.listed n) peer hret hfd hsearch hn hid hle⟩
        have hset : c.peerList.set n peer = c.peerList := by
          obtain ⟨hlt, rfl⟩ := List.getElem?_eq_some_iff.mp hn
          exact List.set_getElem_self hlt
        simp only [hn, hmodify, hset, Option.elim_some, addVector_of_le _ hle, Ledger.releaseAll_nil]

/-- The descriptors of a message that the client does not keep: all that came
where it returns an error, else all but the one that it took. -/
def RecvMsg.lost (msg : RecvMsg) (ret : Int32) : List Int :=
  if ret = 0 then msg.fds.erase msg.fd else msg.fds

/-- The descriptors of the peers after an entry of the list has changed. -/
theorem flatMap_set_perm {peers : List IvshmemClientPeer} {n : Nat} {peer : IvshmemClientPeer}
    (hn : peers[n]? = some peer) (peer' : IvshmemClientPeer) :
    ((peers.set n peer').flatMap IvshmemClientPeer.fds ++ peer.fds).Perm
      (peers.flatMap IvshmemClientPeer.fds ++ peer'.fds) := by
  obtain ⟨hlt, rfl⟩ := List.getElem?_eq_some_iff.mp hn
  have hset := (List.set_perm_cons_eraseIdx hlt peer').flatMap_right IvshmemClientPeer.fds
  have hget := (List.getElem_cons_eraseIdx_perm hlt).flatMap_right IvshmemClientPeer.fds
  rw [List.flatMap_cons] at hset hget
  refine ((hset.append_right _).trans ?_).trans (hget.append_right _)
  refine List.perm_iff_count.mpr fun x => ?_
  simp only [List.count_append]
  omega

/-- The descriptors that came are kept, lost or closed again. -/
theorem ServerMsgStep.perm {calloc : Bool} {msg : RecvMsg} {c c' : IvshmemClient} {ret : Int32}
    {closed : List Int} (h : ServerMsgStep calloc msg c ret c' closed) (hfds : ∀ fd ∈ msg.fds, 0 ≤ fd) :
    (c.handles ++ msg.fds).Perm (msg.lost ret ++ c'.handles ++ closed) := by
  have refused : (c.handles ++ msg.fds).Perm (msg.lost (-1) ++ c.handles ++ []) := by
    rw [List.append_nil]
    exact List.perm_append_comm
  -- a descriptor that is kept is the one of the message
  have kept : ∀ c' : IvshmemClient, msg.fd ≠ -1 → c'.handles.Perm (c.handles ++ [msg.fd]) →
      (c.handles ++ msg.fds).Perm (msg.lost 0 ++ c'.handles ++ []) := fun c' hfd hperm => by
    have hmem := List.perm_iff_count.mp (List.perm_cons_erase (RecvMsg.fd_mem hfd))
    refine List.perm_iff_count.mpr fun x => ?_
    have hx := hmem x
    have hx' := List.perm_iff_count.mp hperm x
    simp only [List.count_append, List.count_cons, List.count_nil, RecvMsg.lost, ↓reduceIte] at hx hx' ⊢
    omega
  cases h with
  | unread | notListed | full | noMemory => exact refused
  | deleted n peer _ hfd _ hn _ =>
    have hlost : msg.lost 0 = msg.fds := by
      rw [RecvMsg.lost, if_pos rfl, List.erase_of_not_mem fun hmem => ?_]
      have := hfds _ hmem
      omega
    obtain ⟨hlt, rfl⟩ := List.getElem?_eq_some_iff.mp hn
    have hget :=
      List.perm_iff_count.mp ((List.getElem_cons_eraseIdx_perm hlt).flatMap_right IvshmemClientPeer.fds)
    refine List.perm_iff_count.mpr fun x => ?_
    have hx := hget x
    simp only [IvshmemClient.handles, hlost, List.count_append, List.flatMap_cons] at hx ⊢
    omega
  | own _ hfd _ hcount =>
    refine kept _ hfd ?_
    simp only [IvshmemClient.handles, addVector_fds_of_lt _ hcount, List.append_assoc]
    exact List.Perm.refl _
  | listed n peer _ hfd _ hn _ hcount =>
    refine kept _ hfd (List.perm_iff_count.mpr fun x => ?_)
    have hx := List.perm_iff_count.mp (flatMap_set_perm hn (addVector peer msg.fd).2) x
    simp only [IvshmemClient.handles, addVector_fds_of_lt _ hcount, List.count_append] at hx ⊢
    omega
  | created _ hfd _ _ =>
    refine kept _ hfd (List.perm_iff_count.mpr fun x => ?_)
    have hnew : (addVector ⟨msg.index, fun _ => 0, 0⟩ msg.fd).2.fds = [msg.fd] :=
      addVector_fds_of_lt _ (Nat.zero_lt_succ _)
    simp only [IvshmemClient.handles, List.flatMap_append, List.flatMap_singleton, hnew,
      List.count_append]
    omega

/-! ## Connecting -/

namespace IvshmemClient.ConnectOutcome

variable (o : ConnectOutcome)

/-- The server speaks the protocol that the client knows. -/
def VersionOk : Prop := ¬ o.version.ret < 8 ∧ o.version.index = 0 ∧ o.version.fd = -1

/-- It has an id for the client. -/
def IdOk : Prop := ¬ o.id.ret < 8 ∧ ¬ o.id.index < 0 ∧ o.id.fd = -1

instance : Decidable o.VersionOk := inferInstanceAs (Decidable (_ ∧ _))

instance : Decidable o.IdOk := inferInstanceAs (Decidable (_ ∧ _))

/-- The messages that `ivshmem_client_connect` receives. -/
def msgs (path : List UInt8) : List RecvMsg :=
  if sunPathMax ≤ path.length ∨ o.connects = false then []
  else o.version :: if o.VersionOk then o.id :: if o.IdOk then [o.shm] else [] else []

/-- The descriptors that the process gets meanwhile. -/
def came (path : List UInt8) : List Int :=
  if o.socket < 0 then [] else o.socket :: (o.msgs path).flatMap RecvMsg.fds

/-- Those that it does not look at: only the third message may bring one. -/
def lost (path : List UInt8) : List Int :=
  if o.socket < 0 then []
  else ((o.msgs path).take 2).flatMap RecvMsg.fds ++
    ((o.msgs path).drop 2).flatMap fun msg => if msg.ret < 8 then msg.fds else msg.fds.erase msg.fd

end IvshmemClient.ConnectOutcome

/-- What `ivshmem_client_connect` does: its result, the client after it, and
the descriptors that it closes. -/
inductive ConnectStep (o : IvshmemClient.ConnectOutcome) (c : IvshmemClient) :
    Int32 → IvshmemClient → List Int → Prop
  | noSocket (hsocket : o.socket < 0) : ConnectStep o c (-1) { c with sockFd := o.socket } []
  | refused (hsocket : ¬ o.socket < 0) (id : Int64)
      (hmsgs : ∀ msg ∈ (o.msgs c.unixSockPath).drop 2, msg.ret < 8) :
      ConnectStep o c (-1) { c with sockFd := -1, own := { c.own with id := id } } [o.socket]
  | noShm (hsocket : ¬ o.socket < 0) (id : Int64)
      (hmsgs : o.msgs c.unixSockPath = [o.version, o.id, o.shm])
      (hret : ¬ o.shm.ret < 8) :
      ConnectStep o c (-1) { c with sockFd := -1, own := { c.own with id := id } }
        ((if 0 ≤ o.shm.fd then [o.shm.fd] else []) ++ [o.socket])
  | connected (hsocket : ¬ o.socket < 0) (hmsgs : o.msgs c.unixSockPath = [o.version, o.id, o.shm])
      (hret : ¬ o.shm.ret < 8) (hindex : o.shm.index = -1) (hfd : 0 ≤ o.shm.fd) :
      ConnectStep o c 0 { c with sockFd := o.socket, shmFd := o.shm.fd,
                                 own := { c.own with id := o.id.index } } []

theorem readId_eq (o : IvshmemClient.ConnectOutcome) (c : IvshmemClient) (held : Ledger Int) :
    c.readId o held =
      let c : IvshmemClient := { c with own := { c.own with id := o.id.index } }
      let held := held.acquireAll o.id.fds
      if o.IdOk then c.readShm o held else c.errClose held := by
  unfold IvshmemClient.readId readOneMsg IvshmemClient.ConnectOutcome.IdOk
  by_cases hret : o.id.ret < 8
  · simp only [hret, ↓reduceIte, not_true_eq_false, false_and]
  · by_cases hindex : o.id.index < 0 <;> by_cases hfd : o.id.fd = -1 <;> simp [hret, hindex, hfd]

theorem connect_eq (o : IvshmemClient.ConnectOutcome) (c : IvshmemClient) (held : Ledger Int)
    (hsocket : ¬ o.socket < 0) :
    c.connect o held =
      let c : IvshmemClient := { c with sockFd := o.socket }
      let held := held.acquire o.socket
      if sunPathMax ≤ c.unixSockPath.length ∨ o.connects = false then c.errClose held
      else if o.VersionOk then c.readId o (held.acquireAll o.version.fds)
      else c.errClose (held.acquireAll o.version.fds) := by
  unfold IvshmemClient.connect readOneMsg IvshmemClient.ConnectOutcome.VersionOk
  by_cases hpath : sunPathMax ≤ c.unixSockPath.length
  · simp only [hsocket, hpath, ↓reduceIte, true_or]
  cases hconnects : o.connects with
  | false => simp [hsocket, hpath]
  | true =>
    by_cases hret : o.version.ret < 8
    · simp [hsocket, hpath, hret]
    · by_cases hindex : o.version.index = 0 <;> by_cases hfd : o.version.fd = -1 <;>
        simp [hsocket, hpath, hret, hindex, hfd]

theorem connect_step (o : IvshmemClient.ConnectOutcome) (c : IvshmemClient) (held : Ledger Int) :
    ∃ ret c' closed, c.connect o held =
    (ret, c', (held.acquireAll (o.came c.unixSockPath)).releaseAll closed) ∧
      ConnectStep o c ret c' closed := by
  by_cases hsocket : o.socket < 0
  · refine ⟨_, _, _, ?_, .noSocket hsocket⟩
    simp only [IvshmemClient.connect, hsocket, ↓reduceIte, IvshmemClient.ConnectOutcome.came]
    rfl
  rw [connect_eq o c held hsocket]
  dsimp only
  by_cases hreach : sunPathMax ≤ c.unixSockPath.length ∨ o.connects = false
  · have hmsgs : o.msgs c.unixSockPath = [] := if_pos hreach
    refine ⟨_, _, _, ?_, .refused hsocket c.own.id (by simp [hmsgs])⟩
    rw [if_pos hreach, IvshmemClient.ConnectOutcome.came, if_neg hsocket, hmsgs]
    rfl
  rw [if_neg hreach]
  by_cases hversion : o.VersionOk
  · rw [if_pos hversion, readId_eq]
    dsimp only
    by_cases hid : o.IdOk
    · have hmsgs : o.msgs c.unixSockPath = [o.version, o.id, o.shm] := by
        rw [IvshmemClient.ConnectOutcome.msgs, if_neg hreach, if_pos hversion, if_pos hid]
      have hcame : o.came c.unixSockPath = o.socket :: (o.version.fds ++ (o.id.fds ++ o.shm.fds)) := by
        rw [IvshmemClient.ConnectOutcome.came, if_neg hsocket, hmsgs]
        simp
      have hheld : held.acquireAll (o.came c.unixSockPath) =
          (((held.acquire o.socket).acquireAll o.version.fds).acquireAll o.id.fds).acquireAll
            o.shm.fds := by
        rw [hcame, Ledger.acquireAll_cons, Ledger.acquireAll_append, Ledger.acquireAll_append]
      rw [if_pos hid, IvshmemClient.readShm, readOneMsg, hheld]
      by_cases hret : o.shm.ret < 8
      · rw [if_pos hret]
        exact ⟨_, _, _, rfl, .refused hsocket o.id.index (by simpa [hmsgs] using hret)⟩
      rw [if_neg hret]
      dsimp only
      by_cases hbad : o.shm.index ≠ -1 ∨ o.shm.fd < 0
      · rw [if_pos hbad]
        refine ⟨_, _, _, ?_, .noShm hsocket o.id.index hmsgs hret⟩
        by_cases hfd : 0 ≤ o.shm.fd
        · rw [if_pos hfd, if_pos hfd]
          rfl
        · rw [if_neg hfd, if_neg hfd]
          rfl
      · rw [if_neg hbad]
        obtain ⟨hindex, hfd⟩ := not_or.mp hbad
        exact ⟨_, _, _, rfl, .connected hsocket hmsgs hret (not_ne_iff.mp hindex) (Int.not_lt.mp hfd)⟩
    · have hmsgs : o.msgs c.unixSockPath = [o.version, o.id] := by
        rw [IvshmemClient.ConnectOutcome.msgs, if_neg hreach, if_pos hversion, if_neg hid]
      refine ⟨_, _, _, ?_, .refused hsocket o.id.index (by simp [hmsgs])⟩
      rw [if_neg hid, IvshmemClient.ConnectOutcome.came, if_neg hsocket, hmsgs, List.flatMap_cons,
        List.flatMap_cons, Ledger.acquireAll_cons, Ledger.acquireAll_append, Ledger.acquireAll_append]
      rfl
  · have hmsgs : o.msgs c.unixSockPath = [o.version] := by
      rw [IvshmemClient.ConnectOutcome.msgs, if_neg hreach, if_neg hversion]
    refine ⟨_, _, _, ?_, .refused hsocket c.own.id (by simp [hmsgs])⟩
    rw [if_neg hversion, IvshmemClient.ConnectOutcome.came, if_neg hsocket, hmsgs, List.flatMap_cons,
      Ledger.acquireAll_cons, Ledger.acquireAll_append]
    rfl

/-- The descriptors that came are kept, lost or closed again. -/
theorem ConnectStep.perm {o : IvshmemClient.ConnectOutcome} {c c' : IvshmemClient} {ret : Int32}
    {closed : List Int} (h : ConnectStep o c ret c' closed) (hc : c.Closed)
    (hfds : ∀ fd ∈ o.came c.unixSockPath, 0 ≤ fd) :
    (c.handles ++ o.came c.unixSockPath).Perm (o.lost c.unixSockPath ++ c'.handles ++ closed) := by
  have hown : c.own.fds = [] := by rw [IvshmemClientPeer.fds, hc.own, List.take_zero]
  have closed' : ∀ id,
    ({ c with sockFd := -1, own := { c.own with id := id } } : IvshmemClient).handles = [] := fun id =>
    IvshmemClient.Closed.handles_eq ⟨hc.peers, hc.shm, Int.negSucc_lt_zero 0, hc.own⟩
  -- what the third message brings, beside the descriptor that the client looks at
  have third : ¬ o.socket < 0 → o.msgs c.unixSockPath = [o.version, o.id, o.shm] →
      o.shm.fds.Perm ((if 0 ≤ o.shm.fd then [o.shm.fd] else []) ++ o.shm.fds.erase o.shm.fd) :=
        fun hsocket hmsgs => by
    by_cases hfd : 0 ≤ o.shm.fd
    · rw [if_pos hfd]
      exact List.perm_cons_erase (RecvMsg.fd_mem (by omega))
    · rw [if_neg hfd, List.erase_of_not_mem fun hmem => hfd (hfds _ ?_)]
      · exact List.Perm.refl _
      · rw [IvshmemClient.ConnectOutcome.came, if_neg hsocket, hmsgs]
        simp [hmem]
  rw [hc.handles_eq, List.nil_append]
  cases h with
  | noSocket hsocket =>
    rw [IvshmemClient.ConnectOutcome.came, IvshmemClient.ConnectOutcome.lost, if_pos hsocket,
      if_pos hsocket,
      @IvshmemClient.Closed.handles_eq { c with sockFd := o.socket } ⟨hc.peers, hc.shm, hsocket, hc.own⟩]
    exact List.Perm.refl _
  | refused hsocket id hmsgs =>
    have hlost : ((o.msgs c.unixSockPath).drop 2).flatMap
        (fun msg => if msg.ret < 8 then msg.fds else msg.fds.erase msg.fd) =
        ((o.msgs c.unixSockPath).drop 2).flatMap RecvMsg.fds :=
      List.flatMap_congr fun msg hmsg => if_pos (hmsgs msg hmsg)
    rw [IvshmemClient.ConnectOutcome.came, IvshmemClient.ConnectOutcome.lost, if_neg hsocket,
      if_neg hsocket, closed', hlost, ← List.flatMap_append, List.take_append_drop, List.append_nil]
    exact (List.perm_append_singleton _ _).symm
  | noShm hsocket id hmsgs hret =>
    rw [IvshmemClient.ConnectOutcome.came, IvshmemClient.ConnectOutcome.lost, if_neg hsocket,
      if_neg hsocket, closed', hmsgs]
    refine List.perm_iff_count.mpr fun x => ?_
    have hx := List.perm_iff_count.mp (third hsocket hmsgs) x
    simp only [List.take_succ_cons, List.take_zero, List.drop_succ_cons, List.drop_zero,
      List.flatMap_cons, List.flatMap_nil, hret, ↓reduceIte, List.count_append, List.count_cons,
        List.count_nil] at hx ⊢
    omega
  | connected hsocket hmsgs hret hindex hfd =>
    have hhandles : ({ c with
        sockFd := o.socket, shmFd := o.shm.fd,
          own := { c.own with id := o.id.index } } : IvshmemClient).handles =
        [o.shm.fd, o.socket] := by
      have hown' : IvshmemClientPeer.fds { c.own with id := o.id.index } = c.own.fds := rfl
      simp only [IvshmemClient.handles, hc.peers, hown', hown, List.flatMap_nil, List.nil_append,
        List.append_nil, List.filter_cons, List.filter_nil, hfd, Int.not_lt.mp hsocket, decide_true,
          ↓reduceIte]
    rw [IvshmemClient.ConnectOutcome.came, IvshmemClient.ConnectOutcome.lost, if_neg hsocket,
      if_neg hsocket, hhandles, hmsgs]
    refine List.perm_iff_count.mpr fun x => ?_
    have hx := List.perm_iff_count.mp (third hsocket hmsgs) x
    simp only [List.take_succ_cons, List.take_zero, List.drop_succ_cons, List.drop_zero,
      List.flatMap_cons, List.flatMap_nil, hret, hfd, ↓reduceIte, List.count_append,
        List.count_cons, List.count_nil] at hx ⊢
    omega

/-! ## Turns of `ivshmem_client_poll_events` -/

/-- The descriptors that `select` watches. -/
def IvshmemClient.watched (c : IvshmemClient) : List Int := c.sockFd :: c.own.fds

theorem foldlM_fdSet : ∀ (fds : List Int) (r : List Int × Int),
    fds.foldlM IvshmemClient.fdSet r =
      if ∀ fd ∈ fds, 0 ≤ fd ∧ fd < IvshmemClient.fdSetSize then
        some (r.1 ++ fds, fds.foldl (fun maxfd fd => if maxfd ≤ fd then fd + 1 else maxfd) r.2)
      else none
  | [], r => by simp
  | fd :: fds, r => by
    rw [List.foldlM_cons, IvshmemClient.fdSet]
    by_cases hfd : 0 ≤ fd ∧ fd < IvshmemClient.fdSetSize
    · simp only [hfd, and_self, ↓reduceIte, Option.bind_eq_bind, Option.bind_some, foldlM_fdSet fds,
        List.forall_mem_cons, true_and, List.append_assoc, List.singleton_append, List.foldl_cons]
    · rw [if_neg hfd, if_neg fun h => hfd (h fd List.mem_cons_self)]
      rfl

/-- `maxfd` is past every descriptor of the set. -/
theorem lt_maxfd {fd : Int} : ∀ {fds : List Int} {m : Int}, fd < m ∨ fd ∈ fds →
    fd < fds.foldl (fun maxfd fd => if maxfd ≤ fd then fd + 1 else maxfd) m
  | [], _, h => h.resolve_right List.not_mem_nil
  | x :: fds, m, h => by
    rw [List.foldl_cons]
    refine lt_maxfd ?_
    rw [List.mem_cons] at h
    obtain h | rfl | h := h
    · left
      split <;> omega
    · left
      split <;> omega
    · exact .inr h

/-- A turn in which the socket is read. -/
def IvshmemClient.PollOutcome.Reads (o : IvshmemClient.PollOutcome) (c : IvshmemClient) : Prop :=
  0 ≤ o.select ∧ (0 ∉ o.ready ∨ o.input.isSome ∨ o.inputEintr) ∧ c.sockFd ∈ o.ready

instance (o : IvshmemClient.PollOutcome) (c : IvshmemClient) : Decidable (o.Reads c) :=
  inferInstanceAs (Decidable (_ ∧ _))

/-- The commands that a turn runs. -/
def IvshmemClient.PollOutcome.commands (o : IvshmemClient.PollOutcome) : Option (List ClientCommand) :=
  if 0 ≤ o.select ∧ 0 ∈ o.ready then o.input.elim (some []) fun input =>
    parseCommands (input.take commandMax)
  else some []

/-- A turn that reads the standard input in vain, and ends the loop. -/
def IvshmemClient.PollOutcome.Stops (o : IvshmemClient.PollOutcome) : Prop :=
  0 ∈ o.ready ∧ o.input = none ∧ o.inputEintr = false

instance (o : IvshmemClient.PollOutcome) : Decidable o.Stops := inferInstanceAs (Decidable (_ ∧ _))

/-- `maxfd` when `select` is called. -/
def IvshmemClient.maxfd (c : IvshmemClient) : Int :=
  c.watched.foldl (fun maxfd fd => if maxfd ≤ fd then fd + 1 else maxfd) 1

theorem pollTurn_eq (o : IvshmemClient.PollOutcome) (c : IvshmemClient) (held : Ledger Int) :
    c.pollTurn o held =
      if ∀ fd ∈ c.watched, 0 ≤ fd ∧ fd < IvshmemClient.fdSetSize then
        o.commands.map fun commands =>
          if o.select < 0 then (o.selectEintr, (c, held), [])
          else if o.Stops then (false, (c, held), [])
          else
            let r := c.handleFds o o.ready c.maxfd held
            (decide (0 ≤ r.1), r.2.1, commands.flatMap (c.runCommand o.write) ++ r.2.2)
      else none := by
  rw [IvshmemClient.pollTurn, IvshmemClient.getFds, foldlM_fdSet]
  by_cases hset : ∀ fd ∈ c.watched, 0 ≤ fd ∧ fd < IvshmemClient.fdSetSize
  swap
  · rw [if_neg hset]
    exact congrArg (Option.bind · _) (if_neg hset)
  rw [if_pos hset]
  refine (congrArg (Option.bind · _)
    ((if_pos hset).trans (b := some ([0] ++ c.watched, c.maxfd)) rfl)).trans ?_
  rw [Option.bind_some]
  dsimp only [IvshmemClient.PollOutcome.commands]
  by_cases hselect : o.select < 0
  · simp [hselect, Int.not_le.mpr hselect]
  rw [if_neg hselect]
  simp only [Int.not_lt.mp hselect, true_and]
  by_cases hready : 0 ∈ o.ready
  · rw [if_pos hready, if_pos hready]
    cases hinput : o.input with
    | none =>
      cases heintr : o.inputEintr with
      | false =>
        simp [IvshmemClient.handleStdinCommand, IvshmemClient.PollOutcome.Stops, hselect, hready,
          hinput, heintr]
      | true =>
        simp [IvshmemClient.handleStdinCommand, IvshmemClient.PollOutcome.Stops, hselect, hinput, heintr]
    | some input =>
      cases hparse : parseCommands (input.take commandMax) with
      | none => simp [IvshmemClient.handleStdinCommand, hparse]
      | some commands =>
        simp [IvshmemClient.handleStdinCommand, IvshmemClient.PollOutcome.Stops, hselect, hinput, hparse]
  · rw [if_neg hready, if_neg hready]
    simp [IvshmemClient.PollOutcome.Stops, hselect, hready]

/-- The client after a turn: it has read a message, or is as it was. -/
theorem pollTurn_client {o : IvshmemClient.PollOutcome} {c : IvshmemClient} {held : Ledger Int}
    {r : Bool × (IvshmemClient × Ledger Int) × List ClientEvent} (h : c.pollTurn o held = some r) :
    r.2.1 = if o.Reads c then (c.handleServerMsg o.calloc o.msg held).2 else (c, held) := by
  have hmax : c.sockFd < c.maxfd := lt_maxfd (.inr List.mem_cons_self)
  rw [pollTurn_eq] at h
  split at h
  swap
  · cases h
  obtain ⟨commands, -, rfl⟩ := Option.map_eq_some_iff.mp h
  unfold IvshmemClient.PollOutcome.Reads
  by_cases hselect : o.select < 0
  · simp only [hselect, Int.not_le.mpr hselect, ↓reduceIte, false_and]
  by_cases hstops : o.Stops
  · obtain ⟨hready, hinput, heintr⟩ := hstops
    simp [hselect, hready, hinput, heintr, IvshmemClient.PollOutcome.Stops]
  have hgo : 0 ∉ o.ready ∨ o.input.isSome ∨ o.inputEintr := by
    unfold IvshmemClient.PollOutcome.Stops at hstops
    cases hinput : o.input <;> cases heintr : o.inputEintr <;> simp_all
  simp only [hselect, hstops, ↓reduceIte, IvshmemClient.handleFds, hmax, true_and,
    Int.not_lt.mp hselect, hgo]
  split <;> split <;> rfl

/-! ## Runs of the process -/

/-- The process after a turn. -/
def ClientProcess.next (s : ClientProcess) (turn : ClientTurn) : ClientProcess :=
  ((clientTurn s turn).map Prod.fst).getD s

/-- The descriptors that come in a turn. -/
def clientCame (s : ClientProcess) : ClientTurn → List Int
  | .connect o => o.came s.client.unixSockPath
  | .poll o => if o.Reads s.client then o.msg.fds else []

/-- Those that the client neither keeps nor closes. -/
def clientLost (s : ClientProcess) : ClientTurn → List Int
  | .connect o => o.lost s.client.unixSockPath
  | .poll o =>
    if o.Reads s.client then o.msg.lost (s.client.handleServerMsg o.calloc o.msg s.held).1 else []

/-- `select`, which waits without a limit, does not return 0. -/
def ClientTurn.Waits : ClientTurn → Prop
  | .connect _ => True
  | .poll o => o.select ≠ 0

instance : ∀ turn : ClientTurn, Decidable turn.Waits
  | .connect _ => isTrue trivial
  | .poll o => inferInstanceAs (Decidable (o.select ≠ 0))

/-- The turn is defined, and the descriptors that come are new. -/
structure ClientTurn.Sound (s : ClientProcess) (turn : ClientTurn) : Prop where
  defined : (clientTurn s turn).isSome
  nodup : (clientCame s turn).Nodup
  fresh : ∀ fd ∈ clientCame s turn, 0 ≤ fd ∧ fd ∉ s.held.live
  waits : turn.Waits

instance (s : ClientProcess) (turn : ClientTurn) : Decidable (turn.Sound s) :=
  decidable_of_iff ((clientTurn s turn).isSome ∧ (clientCame s turn).Nodup ∧
      (∀ fd ∈ clientCame s turn, 0 ≤ fd ∧ fd ∉ s.held.live) ∧ turn.Waits)
    ⟨fun ⟨hdefined, hnodup, hfresh, hwaits⟩ => ⟨hdefined, hnodup, hfresh, hwaits⟩,
      fun h => ⟨h.defined, h.nodup, h.fresh, h.waits⟩⟩

theorem clientTurn_connect {s s' : ClientProcess} {o : IvshmemClient.ConnectOutcome}
    {es : List ClientEvent} (h : clientTurn s (.connect o) = some (s', es)) :
    s.connected = false ∧ es = [] ∧
      s' = ⟨(s.client.connect o s.held).2.1, (s.client.connect o s.held).2.2,
        decide (0 ≤ (s.client.connect o s.held).1)⟩ := by
  rw [clientTurn] at h
  cases hc : s.connected with
  | true => simp [hc] at h
  | false =>
    simp only [hc, Bool.false_eq_true, ↓reduceIte, Option.some.injEq, Prod.mk.injEq] at h
    exact ⟨rfl, h.2.symm, h.1.symm⟩

theorem clientTurn_poll {s s' : ClientProcess} {o : IvshmemClient.PollOutcome} {es : List ClientEvent}
    (h : clientTurn s (.poll o) = some (s', es)) (hselect : o.select ≠ 0) :
    s.connected = true ∧ ∃ goesOn r, s.client.pollTurn o s.held = some (goesOn, r, es) ∧
      s' = if goesOn then ⟨r.1, r.2, true⟩ else ⟨(r.1.close r.2).1, (r.1.close r.2).2, false⟩ := by
  rw [clientTurn] at h
  cases hc : s.connected with
  | false => simp [hc] at h
  | true =>
    rw [hc, if_pos rfl] at h
    obtain ⟨⟨goesOn, r, es'⟩, hpoll, h⟩ := Option.bind_eq_some_iff.mp h
    refine ⟨rfl, goesOn, r, ?_⟩
    cases goesOn with
    | true =>
      simp only [↓reduceIte, pure, Option.some.injEq, Prod.mk.injEq] at h
      exact ⟨by rw [hpoll, h.2], h.1.symm⟩
    | false =>
      simp only [Bool.false_eq_true, ↓reduceIte, hselect, pure, Option.some.injEq, Prod.mk.injEq] at h
      exact ⟨by rw [hpoll, h.2], h.1.symm⟩

/-- The account of a process that has lost the descriptors `lost`. -/
structure ClientAccount (s : ClientProcess) (lost : List Int) : Prop where
  held : s.held.Holds ([0, 1, 2] ++ lost ++ s.client.handles)
  own : s.client.own.Filled
  apart : s.connected = false → s.client.Closed
  sock : s.connected = true → 0 ≤ s.client.sockFd

theorem ServerMsgStep.filled {calloc : Bool} {msg : RecvMsg} {c c' : IvshmemClient} {ret : Int32}
    {closed : List Int} (h : ServerMsgStep calloc msg c ret c' closed)
    (hfds : ∀ fd ∈ msg.fds, 0 ≤ fd) (hown : c.own.Filled) :
    c'.own.Filled ∧ c'.sockFd = c.sockFd := by
  cases h with
  | own _ hfd => exact ⟨hown.addVector (hfds _ (RecvMsg.fd_mem hfd)), rfl⟩
  | _ => exact ⟨hown, rfl⟩

theorem ClientAccount.next {s : ClientProcess} {turn : ClientTurn} {lost : List Int}
    (h : ClientAccount s lost) (hturn : turn.Sound s) :
    ClientAccount (s.next turn) (lost ++ clientLost s turn) := by
  obtain ⟨⟨s', es⟩, hs⟩ := Option.isSome_iff_exists.mp hturn.defined
  have hpos : ∀ fd ∈ clientCame s turn, 0 ≤ fd := fun fd hfd => (hturn.fresh fd hfd).1
  have hfresh : ∀ fd ∈ clientCame s turn, fd ∉ s.held.live := fun fd hfd => (hturn.fresh fd hfd).2
  -- what comes is kept, lost or closed again
  have holds : ∀ kept' closed,
    (s.client.handles ++ clientCame s turn).Perm (clientLost s turn ++ kept' ++ closed) →
      ((s.held.acquireAll (clientCame s turn)).releaseAll closed).Holds
        ([0, 1, 2] ++ (lost ++ clientLost s turn) ++ kept') := fun kept' closed hperm => by
    refine h.held.exchange hturn.nodup hfresh (List.perm_iff_count.mpr fun x => ?_)
    have hx := List.perm_iff_count.mp hperm x
    simp only [List.count_append] at hx ⊢
    omega
  rw [show s.next turn = s' by rw [ClientProcess.next, hs]; rfl]
  cases turn with
  | connect o =>
    obtain ⟨hconnected, -, rfl⟩ := clientTurn_connect hs
    obtain ⟨ret, c', closed, hret, hstep⟩ := connect_step o s.client s.held
    have hclosed := h.apart hconnected
    rw [hret]
    refine ⟨holds _ _ (hstep.perm hclosed hpos), ?_, ?_, ?_⟩
    · cases hstep <;> exact h.own
    · cases hstep with
      | noSocket hsocket => exact fun _ => ⟨hclosed.peers, hclosed.shm, hsocket, hclosed.own⟩
      | refused | noShm => exact fun _ => ⟨hclosed.peers, hclosed.shm, Int.negSucc_lt_zero 0, hclosed.own⟩
      | connected => exact fun h => (Bool.false_ne_true (show false = true from h.symm)).elim
    · cases hstep with
      | noSocket | refused | noShm => exact fun h => (Bool.false_ne_true h).elim
      | connected hsocket => exact fun _ => Int.not_lt.mp hsocket
  | poll o =>
    obtain ⟨hconnected, goesOn, r, hpoll, rfl⟩ := clientTurn_poll hs hturn.waits
    have hclient : r = _ := pollTurn_client hpoll
    have hr : r.2.Holds ([0, 1, 2] ++ (lost ++ clientLost s (.poll o)) ++ r.1.handles) ∧ r.1.own.Filled ∧
        r.1.sockFd = s.client.sockFd := by
      by_cases hreads : o.Reads s.client
      · obtain ⟨ret, c', closed, hret, hstep⟩ := handleServerMsg_step o.calloc o.msg s.client s.held
        have hcame : clientCame s (.poll o) = o.msg.fds := if_pos hreads
        have hlost : clientLost s (.poll o) = o.msg.lost ret := by rw [clientLost, if_pos hreads, hret]
        rw [if_pos hreads, hret] at hclient
        rw [hcame] at hpos
        subst hclient
        refine ⟨?_, hstep.filled hpos h.own⟩
        rw [← hcame]
        exact holds c'.handles closed (by rw [hcame, hlost]; exact hstep.perm hpos)
      · have hcame : clientCame s (.poll o) = [] := if_neg hreads
        have hlost : clientLost s (.poll o) = [] := if_neg hreads
        rw [if_neg hreads] at hclient
        rw [hclient, hlost, List.append_nil]
        exact ⟨h.held, h.own, rfl⟩
    cases goesOn with
    | true =>
      exact ⟨hr.1, hr.2.1, fun h => (Bool.false_ne_true h.symm).elim, fun _ => hr.2.2 ▸ h.sock hconnected⟩
    | false =>
      obtain ⟨hheld, hclosed, hown⟩ := close_spec hr.2.1 r.2
      rw [if_neg Bool.false_ne_true]
      generalize r.1.close r.2 = r' at hheld hclosed hown ⊢
      refine ⟨?_, hown, fun _ => hclosed, fun h => (Bool.false_ne_true h).elim⟩
      rw [hheld, hclosed.handles_eq, List.append_nil]
      exact hr.1.releaseAll

theorem ClientAccount.start {path : List UInt8} (hpath : path.length < pathMax) :
    ClientAccount (.start path) [] := by
  have hinit : IvshmemClient.init path = (0, ⟨path, -1, -1, [], ⟨-1, fun _ => -1, 0⟩⟩) :=
    if_neg (Nat.not_le.mpr hpath)
  have hclosed : (ClientProcess.start path).client.Closed := by
    rw [ClientProcess.start, hinit]
    exact ⟨rfl, Int.negSucc_lt_zero 0, Int.negSucc_lt_zero 0, rfl⟩
  refine ⟨?_, ?_, fun _ => hclosed, fun h => (Bool.false_ne_true h).elim⟩
  · rw [hclosed.handles_eq]
    exact ⟨by rfl, by decide, rfl⟩
  · rw [ClientProcess.start, hinit]
    exact fun i => iff_of_false (Int.not_le.mpr (Int.negSucc_lt_zero 0)) (Nat.not_lt_zero _)

/-- In every run the descriptors of the process are the standard streams,
those that the client keeps, and those that it has lost: it closes none that it
does not hold, and keeps none once it is disconnected. -/
theorem descriptors_accounted {path : List UInt8} (hpath : path.length < pathMax)
    {turns : List ClientTurn}
    (h : Guarded ClientProcess.next (fun s turn => turn.Sound s) (.start path) turns) :
    let s := run ClientProcess.next (.start path) turns
    s.held.Holds ([0, 1, 2] ++ events ClientProcess.next clientLost (.start path) turns ++
      s.client.handles) ∧
      (s.connected = false → s.client.handles = []) := by
  have account : ClientAccount (run ClientProcess.next (.start path) turns)
      ([] ++ events ClientProcess.next clientLost (.start path) turns) :=
    Guarded.run_inv_events (fun _ _ _ h hturn => h.next hturn) (ClientAccount.start hpath) h
  exact ⟨account.held, fun hc => (account.apart hc).handles_eq⟩

/-- A turn that reads the message `msg`. -/
def messageTurn (msg : RecvMsg) : ClientTurn :=
  .poll {
    select := 1, selectEintr := false, ready := [3], input := none, inputEintr := false
    msg := msg, calloc := true, msgEintr := false, read := fun _ => 8, readEintr := false, write := fun _ => true }

/-- Client 5 connects. It gets a vector of its own, one of client 7, two
descriptors at once, which it takes for a word that 7 is gone, and a vector of
client 2. -/
def sampleSession : List ClientTurn :=
  [.connect ⟨3, true, ⟨8, 0, []⟩, ⟨8, 5, []⟩, ⟨8, -1, [[4]]⟩⟩, messageTurn ⟨8, 5, [[6]]⟩,
    messageTurn ⟨8, 7, [[8]]⟩, messageTurn ⟨8, 7, [[9, 10]]⟩, messageTurn ⟨8, 2, [[8]]⟩]

theorem descriptors_accounted_session :
    (run ClientProcess.next (.start []) sampleSession).held.Holds ([0, 1, 2] ++ [9, 10] ++
      [8, 4, 3, 6]) := by
  have hlost : events ClientProcess.next clientLost (.start []) sampleSession = [9, 10] := by decide
  have hhandles : (run ClientProcess.next (.start []) sampleSession).client.handles =
    [8, 4, 3, 6] := by decide
  have := (@descriptors_accounted [] (by decide) sampleSession (by decide)).1
  rwa [hlost, hhandles] at this

end Ivshmem
