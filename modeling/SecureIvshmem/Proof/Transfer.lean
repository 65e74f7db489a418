import SecureIvshmem.Impl.Parties
import SecureIvshmem.Proof.Alloc
import SecureIvshmem.Proof.Channel
import SecureIvshmem.Proof.Framing

/-!
# Transfer

A sender and a receiver on one channel, in every interleaving. The ring is a
queue of pages: the pages that the receiver still needs are those waiting in
the ring and then those that the sender has still to publish (`LinkInv`).
Each party's program counter says what it knows about the ring (`SendAt`,
`RecvAt`), and what the other may do meanwhile (`SendEffect`, `RecvEffect`)
leaves that true. `transfer_ok` is the result.
-/

namespace Ivshmem

open SharedMem SharedMem.Word

/-! ## Pages still to go -/

/-- The pages of a message from byte `d` on. -/
def pagesFrom (msg : Message) (d : Nat) : List (List UInt8) :=
  pieces (fun _ => pageSize) msg.buffer d (chunkCount pageSize (msg.size.toNat - d))

/-- The pages of the messages `msgs`, from byte `d` of the first on. -/
def todo : Nat → List Message → List (List UInt8)
  | _, [] => []
  | d, msg :: msgs => pagesFrom msg d ++ todo 0 msgs

theorem pagesFrom_done {msg : Message} {d : Nat} (h : msg.size.toNat ≤ d) : pagesFrom msg d = [] := by
  rw [pagesFrom, Nat.sub_eq_zero_of_le h, chunkCount_zero (by decide), pieces_zero]

theorem todo_done {msg : Message} {msgs : List Message} {d : Nat} (h : msg.size.toNat ≤ d) :
    todo d (msg :: msgs) = todo 0 msgs := by
  rw [todo, pagesFrom_done h, List.nil_append]

theorem todo_next {msg : Message} {msgs : List Message} {d : Nat} (h : d < msg.size.toNat) :
    todo d (msg :: msgs) = bytesAt msg.buffer d pageSize :: todo (d + pageSize) (msg :: msgs) := by
  rw [todo, todo, pagesFrom, chunkCount_sub (by decide) (by omega), pieces_succ, List.cons_append,
    Nat.sub_sub]
  rfl

/-- After the last page it does not matter how far beyond the end the next
one would be. -/
theorem todo_congr {msg : Message} {msgs : List Message} {d d' : Nat}
    (h : d = d' ∨ msg.size.toNat ≤ d ∧ msg.size.toNat ≤ d') :
    todo d (msg :: msgs) = todo d' (msg :: msgs) := by
  rcases h with rfl | ⟨h, h'⟩
  · rfl
  · rw [todo_done h, todo_done h']

/-- What the sender has still to publish. -/
def sendTodo (t : Sender) : List (List UInt8) := todo t.dataSent.toNat t.calls

/-! ## What the sender knows -/

/-- What a sender at a program counter knows, in its call for `msg` on the
channel `ch` with `d` bytes sent. -/
def SendAt (ch : Channel) (data : Mem UInt8) (msg : Message) (d : Nat) : SendPc → Prop
  | .request pc => pc = .find
  | .mutex | .addSize | .stamp => True
  | .fullHead => d < msg.size.toNat
  | .fullTail head => d < msg.size.toNat ∧ head = ch.head
  | .lastHead => d < msg.size.toNat ∧ ch.head.toNat + 1 ≠ ch.tail.toNat
  | .lastNumPage head => d < msg.size.toNat ∧ ch.head.toNat + 1 ≠ ch.tail.toNat ∧ head = ch.head
  | .lastTail => d < msg.size.toNat ∧ ch.head.toNat + 1 ≠ ch.tail.toNat ∧
      ch.head.toNat + 1 = ch.numPage.toInt.toNat
  | .copyOffset => d < msg.size.toNat ∧ waiting ch + 1 < ch.numPage.toInt.toNat
  | .copyHead off => d < msg.size.toNat ∧ waiting ch + 1 < ch.numPage.toInt.toNat ∧ off = ch.bufOffset
  | .copy off head => d < msg.size.toNat ∧ waiting ch + 1 < ch.numPage.toInt.toNat ∧ off = ch.bufOffset ∧
      head = ch.head
  | .nextHead => d < msg.size.toNat ∧ waiting ch + 1 < ch.numPage.toInt.toNat ∧
      pageAt data ch.bufOffset.toNat ch.head.toNat = bytesAt msg.buffer d pageSize
  | .nextNumPage head => d < msg.size.toNat ∧ waiting ch + 1 < ch.numPage.toInt.toNat ∧
      pageAt data ch.bufOffset.toNat ch.head.toNat = bytesAt msg.buffer d pageSize ∧ head = ch.head
  | .storeHead head => d < msg.size.toNat ∧ waiting ch + 1 < ch.numPage.toInt.toNat ∧
      pageAt data ch.bufOffset.toNat ch.head.toNat = bytesAt msg.buffer d pageSize ∧
      head = advance ch.numPage ch.head

/-- A sender on channel `i` with messages of two pages and more. -/
structure SenderOk (i : Fin maxChannels) (m : Shm) (t : Sender) : Prop where
  find : findChannel m.ctr t.key = some i
  idle : t.calls = [] → t.pc = .request .find
  sizes : ∀ msg ∈ t.calls, 2 * pageSize ≤ msg.size.toNat ∧ msg.size.toNat < 2 ^ 31
  chan : (∀ pc, t.pc ≠ .request pc) → t.chan = i
  bound : ∀ msg rest, t.calls = msg :: rest → t.dataSent.toNat < msg.size.toNat + pageSize
  pc : ∀ msg rest, t.calls = msg :: rest →
    SendAt (m.ctr.channels i) m.data msg t.dataSent.toNat t.pc

/-- What a step of the sender does to the channel and to its pages. -/
inductive SendEffect (i : Fin maxChannels) (m m' : Shm) (t t' : Sender) : Prop
  | quiet (h : Quiet i m m') (todo : sendTodo t' = sendTodo t) (count : t'.published = t.published)
  | fill (h : Fill i m m') (todo : sendTodo t' = sendTodo t) (count : t'.published = t.published)
  | push (h : Push i m m') (todo : sendTodo t =
      pageAt m.data (m.ctr.channels i).bufOffset.toNat (m.ctr.channels i).head.toNat :: sendTodo t')
    (count : t'.published = t.published + 1)

section

variable {i : Fin maxChannels} {m : Shm} {t : Sender} {msg : Message} {rest : List Message}
  (h : RingOk i m) (hs : SenderOk i m t) (hc : t.calls = msg :: rest)
include h hs hc

omit h in
/-- A step that leaves the message and what was sent of it. -/
theorem SenderOk.quiet {m' : Shm} {t' : Sender} (hq : Quiet i m m') (hk : t'.key = t.key)
    (hc' : t'.calls = t.calls) (hd : t'.dataSent = t.dataSent) (hp : t'.published = t.published)
    (hch : t'.chan = i) (hpc : SendAt (m'.ctr.channels i) m'.data msg t.dataSent.toNat t'.pc) :
    SendEffect i m m' t t' ∧ SenderOk i m' t' := by
  refine ⟨.quiet hq (by rw [sendTodo, sendTodo, hc', hd]) hp, ?_, ?_, ?_, fun _ => hch, ?_, ?_⟩
  · rw [hk, hq.find]; exact hs.find
  · simp [hc', hc]
  · rw [hc']; exact hs.sizes
  · rw [hc', hd]; exact hs.bound
  · intro msg' rest' e
    obtain ⟨rfl, -⟩ : msg = msg' ∧ rest = rest' := by simpa [hc', hc] using e
    rw [hd]
    exact hpc

omit h in
/-- The return of a call. -/
theorem SenderOk.return (hd : msg.size.toNat ≤ t.dataSent.toNat) (r : List Int32) :
    SendEffect i m m t { t with pc := .request .find, calls := rest, dataSent := 0, returned := r } ∧
      SenderOk i m { t with pc := .request .find, calls := rest, dataSent := 0, returned := r } := by
  have hmem : ∀ msg' ∈ rest, msg' ∈ t.calls := fun _ hm => hc ▸ List.mem_cons_of_mem _ hm
  refine ⟨.quiet ⟨.refl i m, rfl, rfl, rfl⟩ ?_ rfl, hs.find, fun _ => rfl,
    fun _ hm => hs.sizes _ (hmem _ hm), ?_, ?_, ?_⟩
  · simp only [sendTodo, hc]
    exact (todo_done hd).symm
  · exact fun hne => absurd rfl (hne .find)
  · exact fun _ _ _ => Nat.add_pos_right _ (by decide)
  · exact fun _ _ _ => rfl

/-- The copy into the page at `head`. -/
theorem SenderOk.copied (hpc : t.pc = .copy (m.ctr.channels i).bufOffset (m.ctr.channels i).head)
    (hd : t.dataSent.toNat < msg.size.toNat)
    (hroom : waiting (m.ctr.channels i) + 1 < (m.ctr.channels i).numPage.toInt.toNat) {m' : Shm}
    (hctr : m'.ctr = m.ctr)
    (hdata : m'.data = store m.data (pageOffset (m.ctr.channels i).bufOffset (m.ctr.channels i).head)
      (sentBytes msg t.dataSent)) :
    SendEffect i m m' t { t with pc := .nextHead } ∧ SenderOk i m' { t with pc := .nextHead } := by
  have hsize := (hs.sizes msg (hc ▸ List.mem_cons_self)).1
  have hlen : (sentBytes msg t.dataSent).length = pageSize := by
    rw [sentBytes, length_bytesAt, toSent_toNat, if_pos (.inr hsize)]
  have hbs : sentBytes msg t.dataSent = bytesAt msg.buffer t.dataSent.toNat pageSize := by
    rw [sentBytes, toSent_toNat, if_pos (.inr hsize)]
  have hfill : Fill i m m' :=
    ⟨by constructor <;> simp only [hctr, implies_true], by rw [hctr], by rw [hctr], _, hlen, hdata⟩
  refine ⟨.fill hfill rfl rfl, ?_, by simp [hc], hs.sizes,
    fun _ => hs.chan (by simp [hpc]), hs.bound, ?_⟩
  · rw [hfill.find]; exact hs.find
  · intro msg' rest' e
    obtain ⟨rfl, -⟩ : msg = msg' ∧ rest = rest' := by simpa [hc] using e
    rw [hctr]
    refine ⟨hd, hroom, ?_⟩
    rw [pageAt, hdata, h.pageOffset_eq h.head_lt, ← hbs]
    exact bytesAt_store_eq _ _ hlen

omit h in
/-- The store to `head`. -/
theorem SenderOk.published
    (hpc : t.pc = .storeHead (advance (m.ctr.channels i).numPage (m.ctr.channels i).head))
    (hd : t.dataSent.toNat < msg.size.toNat)
    (hroom : waiting (m.ctr.channels i) + 1 < (m.ctr.channels i).numPage.toInt.toNat)
    (hpage : pageAt m.data (m.ctr.channels i).bufOffset.toNat (m.ctr.channels i).head.toNat =
      bytesAt msg.buffer t.dataSent.toNat pageSize) {m' : Shm} {t' : Sender}
    (hm : m' = { m with ctr := m.ctr.modify i fun ch => { ch with head := advance ch.numPage ch.head } })
    (ht : t' = { t with pc := .addSize, dataSent := t.dataSent + toSent msg.size,
                        published := t.published + 1 }) :
    SendEffect i m m' t t' ∧ SenderOk i m' t' := by
  obtain ⟨hsize, hsize'⟩ := hs.sizes msg (hc ▸ List.mem_cons_self)
  have hadd : (t.dataSent + toSent msg.size).toNat = t.dataSent.toNat + pageSize := by
    rw [UInt64.toNat_add, toSent_toNat, if_pos (.inr hsize), pageSize]
    omega
  have hpush : Push i m m' := by
    subst hm
    exact ⟨.modify rfl rfl rfl, by simp, by simp, rfl, hroom⟩
  subst ht
  refine ⟨.push hpush ?_ rfl, ?_, by simp [hc], hs.sizes,
    fun _ => hs.chan (by simp [hpc]), ?_, ?_⟩
  · simp only [sendTodo, hc, hadd]
    rw [todo_next hd, hpage]
  · rw [hpush.find]; exact hs.find
  · intro msg' rest' e
    obtain ⟨rfl, -⟩ : msg = msg' ∧ rest = rest' := by simpa [hc] using e
    rw [hadd]
    omega
  · exact fun _ _ _ => trivial

theorem sendCallStep_ok (now : Int64) :
    SendEffect i m (sendCallStep now m t msg rest).1 t (sendCallStep now m t msg rest).2 ∧
      SenderOk i (sendCallStep now m t msg rest).1 (sendCallStep now m t msg rest).2 := by
  have hpc := hs.pc msg rest hc
  have hbound := hs.bound msg rest hc
  have same : Quiet i m m := ⟨.refl i m, rfl, rfl, rfl⟩
  -- a step that only reads
  have goto : ∀ pc', t.chan = i → SendAt (m.ctr.channels i) m.data msg t.dataSent.toNat pc' →
      SendEffect i m m t { t with pc := pc' } ∧ SenderOk i m { t with pc := pc' } := fun pc' hch hat =>
    hs.quiet hc same rfl rfl rfl rfl hch hat
  unfold sendCallStep
  cases e : t.pc <;> rw [e] at hpc <;> simp only [SendAt] at hpc
  case request pc =>
    subst hpc
    simp only [requestStep, hs.find]
    exact hs.quiet hc same rfl rfl rfl rfl rfl trivial
  all_goals
    have hch : t.chan = i := hs.chan (by simp [e])
    subst hch
    simp only
  case mutex =>
    simp only [h.mutex, ne_eq, not_true_eq_false, ↓reduceIte]
    split
    · rename_i hdone
      exact hs.return hc (UInt64.le_iff_toNat_le.mp hdone) _
    · rename_i hgo
      exact goto .fullHead rfl (by rw [UInt64.le_iff_toNat_le] at hgo; simp only [SendAt]; omega)
  case fullHead => exact goto (.fullTail _) rfl ⟨hpc, rfl⟩
  case fullTail head =>
    obtain ⟨hd, rfl⟩ := hpc
    split
    · exact goto .mutex rfl trivial
    · rename_i hne
      exact goto .lastHead rfl ⟨hd, fun hh => hne (h.head_eq_iff.mpr hh)⟩
  case lastHead => exact goto (.lastNumPage _) rfl ⟨hpc.1, hpc.2, rfl⟩
  case lastNumPage head =>
    obtain ⟨hd, hne, rfl⟩ := hpc
    have hlast := h.lastSlot_toNat
    have h2 := h.two_le
    split
    · rename_i hl
      exact goto .lastTail rfl ⟨hd, hne, by rw [hl, hlast]; omega⟩
    · rename_i hl
      refine goto .copyOffset rfl ⟨hd, h.room_iff.mpr ⟨hne, fun hh => absurd ?_ hl⟩⟩
      exact UInt32.toNat_inj.mp (by rw [hlast]; omega)
  case lastTail =>
    obtain ⟨hd, hne, hl⟩ := hpc
    split
    · exact goto .mutex rfl trivial
    · rename_i h0
      exact goto .copyOffset rfl ⟨hd, h.room_iff.mpr ⟨hne, fun _ ht => h0 (UInt32.toNat_inj.mp ht)⟩⟩
  case copyOffset => exact goto (.copyHead _) rfl ⟨hpc.1, hpc.2, rfl⟩
  case copyHead off => exact goto (.copy _ _) rfl ⟨hpc.1, hpc.2.1, hpc.2.2, rfl⟩
  case copy off head =>
    obtain ⟨hd, hroom, rfl, rfl⟩ := hpc
    exact SenderOk.copied h hs hc e hd hroom rfl rfl
  case nextHead => exact goto (.nextNumPage _) rfl ⟨hpc.1, hpc.2.1, hpc.2.2, rfl⟩
  case nextNumPage head =>
    obtain ⟨hd, hroom, hpage, rfl⟩ := hpc
    exact goto (.storeHead _) rfl ⟨hd, hroom, hpage, rfl⟩
  case storeHead head =>
    obtain ⟨hd, hroom, hpage, rfl⟩ := hpc
    exact hs.published hc e hd hroom hpage rfl rfl
  case addSize =>
    exact hs.quiet hc ⟨.modify rfl rfl rfl, by simp, by simp, rfl⟩ rfl rfl rfl rfl rfl trivial
  case stamp =>
    exact hs.quiet hc ⟨.modify rfl rfl rfl, by simp, by simp, rfl⟩ rfl rfl rfl rfl rfl trivial

end

/-! ## What the receiver knows -/

/-- What the receiver has still to consume, with the messages `left` to come,
the first of them by the call under way. -/
def recvTodo (left : List Message) (t : Receiver) : List (List UInt8) :=
  todo t.dataReceived.toInt.toNat left

/-- `buffer` holds the first `d` bytes of a message. -/
def Holds (msg : Message) (buffer : Mem UInt8) (d : Nat) : Prop := bytesAt buffer 0 d =
    bytesAt msg.buffer 0 d

/-- What a receiver at a program counter knows, in its call for `msg` on the
channel `ch` with `d` bytes received. -/
def RecvAt (ch : Channel) (msg : Message) (d : Nat) (buffer : Mem UInt8) : RecvPc → Prop
  | .find => d = 0
  | .mutex | .subSize _ => Holds msg buffer d
  | .emptyHead => d < msg.size.toNat ∧ Holds msg buffer d
  | .emptyTail head => d < msg.size.toNat ∧ Holds msg buffer d ∧ (head ≠ ch.tail → ch.head ≠ ch.tail)
  | .copyOffset => d < msg.size.toNat ∧ Holds msg buffer d ∧ ch.head ≠ ch.tail
  | .copyTail off => d < msg.size.toNat ∧ Holds msg buffer d ∧ ch.head ≠ ch.tail ∧ off = ch.bufOffset
  | .copy off tail => d < msg.size.toNat ∧ Holds msg buffer d ∧ ch.head ≠ ch.tail ∧ off = ch.bufOffset ∧
      tail = ch.tail
  | .nextTail => d < msg.size.toNat ∧ Holds msg buffer (d + min (msg.size.toNat - d) pageSize) ∧
      ch.head ≠ ch.tail
  | .nextNumPage tail => d < msg.size.toNat ∧ Holds msg buffer (d + min (msg.size.toNat - d) pageSize) ∧
      ch.head ≠ ch.tail ∧ tail = ch.tail
  | .storeTail tail => d < msg.size.toNat ∧ Holds msg buffer (d + min (msg.size.toNat - d) pageSize) ∧
      ch.head ≠ ch.tail ∧ tail = advance ch.numPage ch.tail

/-- A call that returned 0 with the message in its buffer. -/
def Rebuilt (r : Int32 × Mem UInt8) (msg : Message) : Prop := r.1 = 0 ∧ Holds msg r.2 msg.size.toNat

/-- A receiver on channel `i` that has returned the messages `past` and has
the messages `left` to come. -/
structure ReceiverOk (i : Fin maxChannels) (m : Shm) (past left : List Message) (t : Receiver) :
    Prop where
  find : findChannel m.ctr t.key = some i
  idle : t.calls = [] → t.pc = .find
  sizes : ∀ msg ∈ left, msg.size.toNat < 2 ^ 31
  calls : t.calls.map (·.size) = left.map (·.size)
  chan : t.pc ≠ .find → t.chan = i
  returned : List.Forall₂ Rebuilt t.returned past
  bound : ∀ msg rest, left = msg :: rest → ∃ d : Nat, t.dataReceived.toInt = d ∧ d ≤ msg.size.toNat ∧
    RecvAt (m.ctr.channels i) msg d t.buffer t.pc

/-- What a step of the receiver does to the channel and to its pages. -/
inductive RecvEffect (i : Fin maxChannels) (m m' : Shm) (left left' : List Message)
    (t t' : Receiver) : Prop
  | quiet (h : Quiet i m m') (todo : recvTodo left' t' = recvTodo left t)
  (count : t'.consumed = t.consumed)
  | pop (h : Pop i m m') (todo : recvTodo left t =
      pageAt m.data (m.ctr.channels i).bufOffset.toNat (m.ctr.channels i).tail.toNat :: recvTodo left' t')
    (count : t'.consumed = t.consumed + 1)

theorem ReceiverOk.left_eq_cons {i : Fin maxChannels} {m : Shm} {past left : List Message} {t : Receiver}
    {call : RecvCall} {rest : List RecvCall} (hr : ReceiverOk i m past left t)
    (hc : t.calls = call :: rest) :
    ∃ msg left', left = msg :: left' := by
  have := hr.calls
  cases left with
  | nil => rw [hc] at this; cases this
  | cons msg left => exact ⟨msg, left, rfl⟩

section

variable {i : Fin maxChannels} {m : Shm} {t : Receiver} {call : RecvCall} {rest : List RecvCall}
  {past : List Message} {msg : Message} {left : List Message} (h : RingOk i m)
  (hr : ReceiverOk i m past (msg :: left) t) (hc : t.calls = call :: rest)
include hr

/-- A step that leaves what was received of the message. -/
theorem ReceiverOk.quiet {m' : Shm} {t' : Receiver} (hq : Quiet i m m') (hk : t'.key = t.key)
    (hc' : t'.calls = t.calls) (hd : t'.dataReceived = t.dataReceived) (hn : t'.consumed = t.consumed)
    (hch : t'.chan = i) (hret : t'.returned = t.returned)
    (hpc : ∀ d : Nat, t.dataReceived.toInt = d → RecvAt (m'.ctr.channels i) msg d t'.buffer t'.pc) :
    RecvEffect i m m' (msg :: left) (msg :: left) t t' ∧ ReceiverOk i m' past (msg :: left) t' := by
  refine ⟨.quiet hq (by rw [recvTodo, recvTodo, hd]) hn, ?_, ?_, hr.sizes, ?_, fun _ => hch, ?_, ?_⟩
  · rw [hk, hq.find]; exact hr.find
  · intro e
    have := hr.calls
    rw [← hc', e] at this
    cases this
  · rw [hc']; exact hr.calls
  · rw [hret]; exact hr.returned
  · intro msg' left' e
    obtain ⟨d, hd', hle, -⟩ := hr.bound msg left rfl
    obtain ⟨rfl, -⟩ := List.cons.inj e
    exact ⟨d, hd ▸ hd', hle, hpc d hd'⟩

include hc

theorem ReceiverOk.size_eq : call.size = msg.size := by
  have := hr.calls
  rw [hc, List.map_cons, List.map_cons] at this
  exact (List.cons.inj this).1

/-- The return of a call. -/
theorem ReceiverOk.return {d : Nat} (hd : t.dataReceived.toInt = d) (hdone : msg.size.toNat ≤ d)
    (hb : Holds msg t.buffer d) {t' : Receiver}
    (ht : t' = { t with pc := .find, calls := rest, dataReceived := 0,
                        returned := t.returned ++ [(0, t.buffer)] }) :
    RecvEffect i m m (msg :: left) left t t' ∧ ReceiverOk i m (past ++ [msg]) left t' := by
  subst ht
  obtain ⟨d', hd', hle, -⟩ := hr.bound msg left rfl
  obtain rfl : d = d' := by omega
  refine ⟨.quiet ⟨.refl i m, rfl, rfl, rfl⟩ ?_ rfl, hr.find, fun _ => rfl,
    fun _ hm => hr.sizes _ (List.mem_cons_of_mem _ hm), ?_, ?_, ?_, ?_⟩
  · simp only [recvTodo, hd, Int.toNat_natCast]
    exact (todo_done hdone).symm
  · have := hr.calls
    rw [hc, List.map_cons, List.map_cons] at this
    exact (List.cons.inj this).2
  · exact fun hne => absurd rfl hne
  · exact List.rel_append hr.returned (.cons ⟨rfl, by rwa [Nat.le_antisymm hdone hle]⟩ .nil)
  · exact fun _ _ _ => ⟨0, rfl, Nat.zero_le _, rfl⟩

variable {later : List (List UInt8)} (hstream : recvTodo (msg :: left) t = waitingPages m i ++ later)
include h hstream

omit hr hc in
/-- The page at `tail` holds the next bytes of the message. -/
theorem pageAt_tail {d : Nat} (hd : t.dataReceived.toInt = d) (hlt : d < msg.size.toNat)
    (hne : (m.ctr.channels i).head ≠ (m.ctr.channels i).tail) :
    pageAt m.data (m.ctr.channels i).bufOffset.toNat (m.ctr.channels i).tail.toNat =
      bytesAt msg.buffer d pageSize := by
  obtain ⟨l, hl⟩ := waitingPages_eq_cons h hne
  rw [recvTodo, hd, Int.toNat_natCast, todo_next hlt, hl, List.cons_append] at hstream
  exact (List.cons.inj hstream).1.symm

/-- The copy out of the page at `tail`. -/
theorem ReceiverOk.copied {d : Nat} (hd : t.dataReceived.toInt = d)
    (hpc : t.pc = .copy (m.ctr.channels i).bufOffset (m.ctr.channels i).tail)
    (hat : RecvAt (m.ctr.channels i) msg d t.buffer t.pc) {t' : Receiver} {page : List UInt8}
    (hp : page =
      receivedBytes m.data (pageOffset (m.ctr.channels i).bufOffset (m.ctr.channels i).tail) call.size
      t.dataReceived)
    (ht : t' = { t with
      pc := .nextTail, buffer := store t.buffer t.dataReceived.toInt page, pages := t.pages ++ [page] }) :
    RecvEffect i m m (msg :: left) (msg :: left) t t' ∧ ReceiverOk i m past (msg :: left) t' := by
  rw [hpc] at hat
  obtain ⟨hlt, hb, hne, -, -⟩ := hat
  have hpage : page = bytesAt msg.buffer d (min (msg.size.toNat - d) pageSize) := by
    have htake :=
      congrArg (List.take (min (msg.size.toNat - d) pageSize)) (pageAt_tail h hstream hd hlt hne)
    rw [pageAt, take_bytesAt _ _ (Nat.min_le_right ..), take_bytesAt _ _ (Nat.min_le_right ..)] at htake
    rw [hp, hr.size_eq hc, receivedBytes, toReceive_toNat hd (by omega), h.pageOffset_eq h.tail_lt, htake]
  subst ht
  refine hr.quiet ⟨.refl i m, rfl, rfl,
    rfl⟩ rfl rfl rfl rfl (hr.chan (by simp [hpc])) rfl fun d' hd' => ?_
  obtain rfl : d = d' := by omega
  refine ⟨hlt, ?_, hne⟩
  have := bytesAt_store_append t.buffer 0 d page
  rw [hpage, length_bytesAt, Int.zero_add] at this
  rw [Holds, hd, hpage, this, hb, bytesAt_add, Int.zero_add]

/-- The store to `tail`. -/
theorem ReceiverOk.consumed {d : Nat} (hd : t.dataReceived.toInt = d)
    (hpc : t.pc = .storeTail (advance (m.ctr.channels i).numPage (m.ctr.channels i).tail))
    (hat : RecvAt (m.ctr.channels i) msg d t.buffer t.pc) {m' : Shm} {t' : Receiver}
    (hm : m' = { m with ctr := m.ctr.modify i fun ch => { ch with tail := advance ch.numPage ch.tail } })
    (ht : t' = { t with
      pc := .subSize (toReceive call.size t.dataReceived)
      dataReceived := t.dataReceived + toReceive call.size t.dataReceived
      consumed := t.consumed + 1 }) :
    RecvEffect i m m' (msg :: left) (msg :: left) t t' ∧ ReceiverOk i m' past (msg :: left) t' := by
  rw [hpc] at hat
  obtain ⟨hlt, hb, hne, -⟩ := hat
  have hsize := hr.sizes msg List.mem_cons_self
  have hadd : (t.dataReceived + toReceive call.size t.dataReceived).toInt =
      (d + min (call.size.toNat - d) pageSize : Nat) :=
    received_add_toInt hd (by rw [hr.size_eq hc]; omega) (by rw [hr.size_eq hc]; exact hsize)
  have hpop : Pop i m m' := by
    subst hm
    exact ⟨.modify rfl rfl rfl, by simp, by simp, rfl, hne⟩
  subst ht
  refine ⟨.pop hpop ?_ rfl, ?_, by simp [hc], hr.sizes, hr.calls,
    fun _ => hr.chan (by simp [hpc]), hr.returned, ?_⟩
  · simp only [recvTodo, hd, hadd, Int.toNat_natCast]
    rw [todo_next hlt, pageAt_tail h hstream hd hlt hne, hr.size_eq hc]
    exact congrArg _ (todo_congr (by omega))
  · rw [hpop.find]; exact hr.find
  · intro msg' left' e
    obtain ⟨rfl, -⟩ := List.cons.inj e
    exact ⟨_, hadd, by rw [hr.size_eq hc]; omega, by rw [hr.size_eq hc]; exact hb⟩

theorem recvCallStep_ok : ∃ past' left', past' ++ left' = past ++ msg :: left ∧
    RecvEffect i m (recvCallStep m t call rest).1 (msg :: left) left' t (recvCallStep m t call rest).2 ∧
      ReceiverOk i (recvCallStep m t call rest).1 past' left' (recvCallStep m t call rest).2 := by
  obtain ⟨d, hd, hle, hpc⟩ := hr.bound msg left rfl
  have same : Quiet i m m := ⟨.refl i m, rfl, rfl, rfl⟩
  have stay : ∀ m' t', (RecvEffect i m m' (msg :: left) (msg :: left) t t' ∧
    ReceiverOk i m' past (msg :: left) t') →
      ∃ past' left', past' ++ left' = past ++ msg :: left ∧
        RecvEffect i m m' (msg :: left) left' t t' ∧ ReceiverOk i m' past' left' t' := fun m' t' h' =>
    ⟨past, msg :: left, rfl, h'⟩
  -- a step that only reads
  have goto : ∀ pc', t.chan = i → RecvAt (m.ctr.channels i) msg d t.buffer pc' →
      RecvEffect i m m (msg :: left) (msg :: left) t { t with pc := pc' } ∧
        ReceiverOk i m past (msg :: left) { t with pc := pc' } := fun pc' hch hat => by
    refine hr.quiet same rfl rfl rfl rfl hch rfl fun d' hd' => ?_
    obtain rfl : d = d' := by omega
    exact hat
  unfold recvCallStep
  cases e : t.pc <;> rw [e] at hpc <;> simp only [RecvAt] at hpc
  case find =>
    subst hpc
    simp only [hr.find]
    refine stay _ _ (hr.quiet same rfl rfl rfl rfl rfl rfl fun d' hd' => ?_)
    obtain rfl : 0 = d' := by omega
    rfl
  all_goals
    have hch : t.chan = i := hr.chan (by simp [e])
    subst hch
    simp only
  case mutex =>
    simp only [h.mutex, ne_eq, not_true_eq_false, ↓reduceIte, hr.size_eq hc]
    split
    · rename_i hdone
      exact ⟨past ++ [msg], left, by rw [List.append_assoc]; rfl,
        hr.return hc hd ((size_le_received hd).mp hdone) hpc rfl⟩
    · rename_i hgo
      exact stay _ _ (goto .emptyHead rfl ⟨by rw [size_le_received hd] at hgo; omega, hpc⟩)
  case emptyHead => exact stay _ _ (goto (.emptyTail _) rfl ⟨hpc.1, hpc.2, id⟩)
  case emptyTail head =>
    obtain ⟨hlt, hb, himp⟩ := hpc
    split
    · exact stay _ _ (goto .mutex rfl hb)
    · rename_i hne
      exact stay _ _ (goto .copyOffset rfl ⟨hlt, hb, himp hne⟩)
  case copyOffset => exact stay _ _ (goto (.copyTail _) rfl ⟨hpc.1, hpc.2.1, hpc.2.2, rfl⟩)
  case copyTail off =>
    obtain ⟨hlt, hb, hne, rfl⟩ := hpc
    exact stay _ _ (goto (.copy _ _) rfl ⟨hlt, hb, hne, rfl, rfl⟩)
  case copy off tail =>
    obtain ⟨hlt, hb, hne, rfl, rfl⟩ := hpc
    exact stay _ _ (hr.copied h hc hstream hd e (by rw [e]; exact ⟨hlt, hb, hne, rfl, rfl⟩) rfl rfl)
  case nextTail => exact stay _ _ (goto (.nextNumPage _) rfl ⟨hpc.1, hpc.2.1, hpc.2.2, rfl⟩)
  case nextNumPage tail =>
    obtain ⟨hlt, hb, hne, rfl⟩ := hpc
    exact stay _ _ (goto (.storeTail _) rfl ⟨hlt, hb, hne, rfl⟩)
  case storeTail tail =>
    obtain ⟨hlt, hb, hne, rfl⟩ := hpc
    exact stay _ _ (hr.consumed h hc hstream hd e (by rw [e]; exact ⟨hlt, hb, hne, rfl⟩) rfl rfl)
  case subSize n =>
    refine stay _ _
      (hr.quiet ⟨.modify rfl rfl rfl, by simp, by simp, rfl⟩ rfl rfl rfl rfl rfl rfl fun d' hd' => ?_)
    obtain rfl : d = d' := by omega
    exact hpc

end

/-! ## What the other party does meanwhile -/

/-- What a sender knows stays true while its `head` stays and no more pages
wait. -/
theorem SendAt.mono {ch ch' : Channel} {data data' : Mem UInt8} {msg : Message} {d : Nat} {pc : SendPc}
    (h : SendAt ch data msg d pc) (ho : ch'.bufOffset = ch.bufOffset) (hn : ch'.numPage = ch.numPage)
    (hh : ch'.head = ch.head) (hd : data' = data) (hw : waiting ch' ≤ waiting ch)
    (ht : ch.head.toNat + 1 ≠ ch.tail.toNat → ch.head.toNat + 1 ≠ ch'.tail.toNat) :
    SendAt ch' data' msg d pc := by
  have hroom : waiting ch + 1 < ch.numPage.toInt.toNat →
    waiting ch' + 1 < ch.numPage.toInt.toNat := by omega
  subst hd
  cases pc <;> simp only [SendAt, ho, hn, hh] at h ⊢
  case lastHead => exact ⟨h.1, ht h.2⟩
  case lastNumPage | lastTail => exact ⟨h.1, ht h.2.1, h.2.2⟩
  case copyOffset => exact ⟨h.1, hroom h.2⟩
  case copyHead | copy | nextHead | nextNumPage | storeHead => exact ⟨h.1, hroom h.2.1, h.2.2⟩
  all_goals exact h

theorem SenderOk.of_recv {i : Fin maxChannels} {m m' : Shm} {left left' : List Message} {r r' : Receiver}
    {t : Sender} (h : RingOk i m) (hs : SenderOk i m t) (he : RecvEffect i m m' left left' r r') :
    SenderOk i m' t := by
  cases he with
  | quiet hq _ _ =>
    refine ⟨by rw [hq.find]; exact hs.find, hs.idle, hs.sizes, hs.chan, hs.bound, fun msg rest e => ?_⟩
    exact (hs.pc msg rest e).mono hq.bufOffset hq.numPage hq.head hq.data
      (Nat.le_of_eq (waiting_quiet hq))
      (by rw [hq.tail]; exact id)
  | pop hq _ _ =>
    refine ⟨by rw [hq.find]; exact hs.find, hs.idle, hs.sizes, hs.chan, hs.bound, fun msg rest e => ?_⟩
    have hw := Nat.le_of_succ_le (Nat.le_of_eq (waiting_pop h hq))
    refine (hs.pc msg rest e).mono hq.bufOffset hq.numPage hq.head hq.data hw fun hne => ?_
    -- the receiver stops at `head`, so it does not come to stand after it
    have hneq : (m.ctr.channels i).head.toNat ≠ (m.ctr.channels i).tail.toNat :=
      fun e => hq.some (UInt32.toNat_inj.mp e)
    rw [hq.tail, h.advance_eq h.tail_lt, Ring.next_eq h.tail_lt]
    split <;> omega

theorem RecvAt.mono {ch ch' : Channel} {msg : Message} {d : Nat} {buffer : Mem UInt8} {pc : RecvPc}
    (h : RecvAt ch msg d buffer pc) (ho : ch'.bufOffset = ch.bufOffset) (hn : ch'.numPage = ch.numPage)
    (ht : ch'.tail = ch.tail) (hne : ch.head ≠ ch.tail → ch'.head ≠ ch.tail) :
    RecvAt ch' msg d buffer pc := by
  cases pc <;> simp only [RecvAt, ho, hn, ht] at h ⊢ <;> tauto

theorem ReceiverOk.of_send {i : Fin maxChannels} {m m' : Shm} {past left : List Message} {r : Receiver}
    {t t' : Sender} (h : RingOk i m) (hr : ReceiverOk i m past left r) (he : SendEffect i m m' t t') :
    ReceiverOk i m' past left r := by
  have same : ∀ {m'}, Frame i m m' → (m'.ctr.channels i).tail = (m.ctr.channels i).tail →
      ((m.ctr.channels i).head ≠ (m.ctr.channels i).tail →
        (m'.ctr.channels i).head ≠ (m.ctr.channels i).tail) →
      ReceiverOk i m' past left r := fun hf ht hne => by
    refine ⟨by rw [hf.find]; exact hr.find, hr.idle, hr.sizes, hr.calls, hr.chan, hr.returned,
      fun msg rest e => ?_⟩
    obtain ⟨d, hd, hle, hat⟩ := hr.bound msg rest e
    exact ⟨d, hd, hle, hat.mono hf.bufOffset hf.numPage ht hne⟩
  cases he with
  | quiet hq _ _ => exact same hq.toFrame hq.tail (by rw [hq.head]; exact id)
  | fill hq _ _ => exact same hq.toFrame hq.tail (by rw [hq.head]; exact id)
  | push hq _ _ =>
    refine same hq.toFrame hq.tail fun _ e => ?_
    -- a ring just filled is not empty
    have hw := waiting_push h hq
    have hempty : ∀ n tail, Ring.used n tail tail = 0 := fun _ _ => Ring.used_self
    simp only [waiting, e, hq.tail, hq.numPage, hempty] at hw
    omega

/-! ## Runs -/

/-- The invariant of a link that carries the messages `msgs` over channel
`i`. -/
structure LinkInv (i : Fin maxChannels) (msgs : List Message) (l : Link) : Prop where
  ring : RingOk i l.shm
  sender : SenderOk i l.shm l.sender
  count : l.sender.published = l.receiver.consumed + waiting (l.shm.ctr.channels i)
  receiver : ∃ past left, past ++ left = msgs ∧ ReceiverOk i l.shm past left l.receiver ∧
    recvTodo left l.receiver = waitingPages l.shm i ++ sendTodo l.sender

section

variable {i : Fin maxChannels} {msgs : List Message} {l : Link} (h : LinkInv i msgs l)
include h

theorem LinkInv.sender_step (now : Int64) : LinkInv i msgs (linkStep l (.sender now)) := by
  obtain ⟨hring, hs, hcount, past, left, rfl, hr, hstream⟩ := h
  cases hc : l.sender.calls with
  | nil => simpa only [linkStep, sendStep, hc] using ⟨hring, hs, hcount, past, left, rfl, hr, hstream⟩
  | cons msg rest =>
    simp only [linkStep, sendStep, hc]
    obtain ⟨he, hs'⟩ := sendCallStep_ok hring hs hc now
    have hr' := hr.of_send hring he
    cases he with
    | quiet hq htodo hn =>
      refine ⟨hring.of_quiet hq, hs', ?_, past, left, rfl, hr', ?_⟩
      · rw [hn, waiting_quiet hq, hcount]
      · rw [hstream, waitingPages_quiet hq, htodo]
    | fill hq htodo hn =>
      refine ⟨hring.of_fill hq, hs', ?_, past, left, rfl, hr', ?_⟩
      · rw [hn, hcount, waiting, waiting, hq.head, hq.tail, hq.numPage]
      · rw [hstream, waitingPages_fill hring hq, htodo]
    | push hq htodo hn =>
      refine ⟨hring.of_push hq, hs', ?_, past, left, rfl, hr', ?_⟩
      · rw [hn, waiting_push hring hq, hcount, Nat.add_assoc]
      · rw [hstream, waitingPages_push hring hq, htodo, List.append_assoc]
        rfl

theorem LinkInv.receiver_step : LinkInv i msgs (linkStep l .receiver) := by
  obtain ⟨hring, hs, hcount, past, left, rfl, hr, hstream⟩ := h
  cases hc : l.receiver.calls with
  | nil => simpa only [linkStep, recvStep, hc] using ⟨hring, hs, hcount, past, left, rfl, hr, hstream⟩
  | cons call rest =>
    obtain ⟨msg, left, rfl⟩ := hr.left_eq_cons hc
    simp only [linkStep, recvStep, hc]
    obtain ⟨past', left', hsplit, he, hr'⟩ := recvCallStep_ok hring hr hc hstream
    have hs' := hs.of_recv hring he
    cases he with
    | quiet hq htodo hn =>
      refine ⟨hring.of_quiet hq, hs', ?_, past', left', hsplit, hr', ?_⟩
      · rw [hn, waiting_quiet hq, hcount]
      · rw [htodo, hstream, waitingPages_quiet hq]
    | pop hq htodo hn =>
      refine ⟨hring.of_pop hq, hs', ?_, past', left', hsplit, hr', ?_⟩
      · have hw := waiting_pop hring hq
        simp only [hn, hcount]
        omega
      · rw [htodo, waitingPages_pop hring hq, List.cons_append] at hstream
        exact (List.cons.inj hstream).2

theorem LinkInv.step (turn : Turn) : LinkInv i msgs (linkStep l turn) := by
  cases turn with
  | sender now => exact h.sender_step now
  | receiver => exact h.receiver_step

end

/-! ## Progress -/

/-- Steps from a program counter of a sender to its next store to `head` or
its return. -/
def SendPc.rank : SendPc → Nat
  | .addSize => 15
  | .stamp | .request _ => 14
  | .mutex => 13
  | .fullHead => 12
  | .fullTail _ => 11
  | .lastHead => 10
  | .lastNumPage _ => 9
  | .lastTail => 8
  | .copyOffset => 7
  | .copyHead _ => 6
  | .copy _ _ => 5
  | .nextHead => 4
  | .nextNumPage _ => 3
  | .storeHead _ => 2

/-- Steps from a program counter of a receiver to its next store to `tail` or
its return; a `head` read while the ring was empty costs another turn. -/
def RecvPc.rank (tail : UInt32) : RecvPc → Nat
  | .subSize _ | .find => 10
  | .mutex => 9
  | .emptyHead => 8
  | .emptyTail head => if head = tail then 10 else 7
  | .copyOffset => 6
  | .copyTail _ => 5
  | .copy _ _ => 4
  | .nextTail => 3
  | .nextNumPage _ => 2
  | .storeTail _ => 1

/-- The sender has something to do: its call is over, or there is room. -/
def SendReady (i : Fin maxChannels) (m : Shm) (t : Sender) : Prop :=
  ∃ msg rest, t.calls = msg :: rest ∧ (msg.size.toNat ≤ t.dataSent.toNat ∨
    waiting (m.ctr.channels i) + 1 < (m.ctr.channels i).numPage.toInt.toNat)

/-- The receiver has something to do: its call is over, or a page waits. -/
def RecvReady (i : Fin maxChannels) (m : Shm) (t : Receiver) : Prop :=
  ∃ call rest, t.calls = call :: rest ∧ (call.size ≤ intToSize t.dataReceived ∨
    (m.ctr.channels i).head ≠ (m.ctr.channels i).tail)

section

variable {i : Fin maxChannels} {m : Shm}

theorem sendCallStep_calls (now : Int64) (t : Sender) (msg : Message) (rest : List Message) :
    (sendCallStep now m t msg rest).2.calls = rest ∨
    (sendCallStep now m t msg rest).2.calls = t.calls := by
  unfold sendCallStep
  cases t.pc <;> simp only <;> repeat' split
  all_goals simp

theorem recvCallStep_calls (t : Receiver) (call : RecvCall) (rest : List RecvCall) :
    (recvCallStep m t call rest).2.calls = rest ∨ (recvCallStep m t call rest).2.calls = t.calls := by
  unfold recvCallStep
  cases t.pc <;> simp only <;> repeat' split
  all_goals simp

/-- A sender that is ready returns, stores `head`, or comes closer to it. -/
theorem sendCallStep_rank {t : Sender} {msg : Message} {rest : List Message} (h : RingOk i m)
    (hs : SenderOk i m t) (hc : t.calls = msg :: rest) (hready : SendReady i m t) (now : Int64) :
    (sendCallStep now m t msg rest).2.calls = rest ∨
    (sendCallStep now m t msg rest).2.published = t.published + 1 ∨
    (sendCallStep now m t msg rest).2.dataSent = t.dataSent ∧
      (sendCallStep now m t msg rest).2.pc.rank < t.pc.rank := by
  obtain ⟨msg', rest', e, hready⟩ := hready
  obtain ⟨rfl, rfl⟩ := List.cons.inj (hc.symm.trans e)
  have hpc := hs.pc msg rest hc
  have hroom := h.room_iff
  unfold sendCallStep
  cases e : t.pc <;> rw [e] at hpc <;> simp only [SendAt] at hpc
  case request pc =>
    subst hpc
    simp [requestStep, hs.find, SendPc.rank]
  all_goals
    have hch : t.chan = i := hs.chan (by simp [e])
    subst hch
  case mutex =>
    simp only [h.mutex, ne_eq, not_true_eq_false, ↓reduceIte]
    split <;> simp [SendPc.rank]
  case fullTail head =>
    obtain ⟨hd, rfl⟩ := hpc
    have hne := mt h.head_eq_iff.mp (hroom.mp (hready.resolve_left (by omega))).1
    simp [SendPc.rank, hne]
  case lastNumPage head =>
    simp only
    split <;> simp [SendPc.rank]
  case lastTail =>
    obtain ⟨hd, -, hl⟩ := hpc
    have hne : (m.ctr.channels t.chan).tail ≠ 0 := fun h0 =>
      (hroom.mp (hready.resolve_left (by omega))).2 hl (by rw [h0]; rfl)
    simp [SendPc.rank, hne]
  all_goals simp [SendPc.rank]

/-- A receiver that is ready returns, stores `tail`, or comes closer to
it. -/
theorem recvCallStep_rank {t : Receiver} {call : RecvCall} {rest : List RecvCall}
    {past left : List Message} (h : RingOk i m) (hr : ReceiverOk i m past left t)
    (hc : t.calls = call :: rest) (hready : RecvReady i m t) :
    (recvCallStep m t call rest).2.calls = rest ∨
    (recvCallStep m t call rest).2.consumed = t.consumed + 1 ∨
    (recvCallStep m t call rest).2.dataReceived = t.dataReceived ∧
      (recvCallStep m t call rest).2.pc.rank (m.ctr.channels i).tail <
        t.pc.rank (m.ctr.channels i).tail := by
  obtain ⟨call', rest', e, hready⟩ := hready
  obtain ⟨rfl, rfl⟩ := List.cons.inj (hc.symm.trans e)
  obtain ⟨msg, left, rfl⟩ := hr.left_eq_cons hc
  obtain ⟨d, hd, hle, hpc⟩ := hr.bound msg left rfl
  rw [hr.size_eq hc, size_le_received hd] at hready
  unfold recvCallStep
  cases e : t.pc <;> rw [e] at hpc <;> simp only [RecvAt] at hpc
  case find => simp [hr.find, RecvPc.rank]
  all_goals
    have hch : t.chan = i := hr.chan (by simp [e])
    subst hch
  case mutex =>
    simp only [h.mutex, ne_eq, not_true_eq_false, ↓reduceIte]
    split <;> simp [RecvPc.rank]
  case emptyHead => simp [RecvPc.rank, hready.resolve_left (by omega)]
  case emptyTail head =>
    simp only
    split <;> simp [RecvPc.rank, *]
  all_goals simp [RecvPc.rank]

end

/-- What a sender and the ring have left to do: its calls, two stores for
every page to publish, and one for every page that waits. -/
def sendWork (i : Fin maxChannels) (m : Shm) (t : Sender) : Nat :=
  t.calls.length + 2 * (sendTodo t).length + waiting (m.ctr.channels i)

/-- The ring has the same indices. -/
def SameRing (i : Fin maxChannels) (m m' : Shm) : Prop :=
  (m'.ctr.channels i).numPage = (m.ctr.channels i).numPage ∧
    (m'.ctr.channels i).head = (m.ctr.channels i).head ∧
    (m'.ctr.channels i).tail = (m.ctr.channels i).tail

section

variable {i : Fin maxChannels} {m : Shm} (h : RingOk i m)
include h

/-- A step of the sender lowers the work, or leaves the ring alone and brings
a sender that is ready closer to lowering it. -/
theorem sendCallStep_work {t : Sender} {msg : Message} {rest : List Message} (hs : SenderOk i m t)
    (hc : t.calls = msg :: rest) (now : Int64) {r : Shm × Sender}
    (hr : sendCallStep now m t msg rest = r) :
    sendWork i r.1 r.2 < sendWork i m t ∨
    sendWork i r.1 r.2 = sendWork i m t ∧ SameRing i m r.1 ∧
      (SendReady i m t → SendReady i r.1 r.2 ∧ r.2.pc.rank < t.pc.rank) := by
  have hrank := fun hready => sendCallStep_rank h hs hc hready now
  have hcalls := sendCallStep_calls (m := m) now t msg rest
  obtain ⟨he, -⟩ := sendCallStep_ok h hs hc now
  rw [hr] at hrank hcalls he
  have hlen : t.calls.length = rest.length + 1 := by rw [hc, List.length_cons]
  have hstep : (SameRing i m r.1 ∧ sendTodo r.2 = sendTodo t ∧ r.2.published = t.published) ∨
      Push i m r.1 ∧ (sendTodo t).length = (sendTodo r.2).length + 1 := by
    cases he with
    | quiet hq htodo hp => exact .inl ⟨⟨hq.numPage, hq.head, hq.tail⟩, htodo, hp⟩
    | fill hq htodo hp => exact .inl ⟨⟨hq.numPage, hq.head, hq.tail⟩, htodo, hp⟩
    | push hq htodo _ => exact .inr ⟨hq, by rw [htodo, List.length_cons]⟩
  obtain ⟨⟨hn, hh, ht⟩, htodo, hp⟩ | ⟨hq, hl⟩ := hstep
  · have hw : waiting (r.1.ctr.channels i) = waiting (m.ctr.channels i) := by
      simp only [waiting, hn, hh, ht]
    rcases hcalls with e | e
    · exact .inl (by simp only [sendWork, e, htodo, hw, hlen]; omega)
    · refine .inr ⟨by simp only [sendWork, e, htodo, hw], ⟨hn, hh, ht⟩, fun hready => ?_⟩
      obtain hret | hpub | ⟨hd, hlt⟩ := hrank hready
      · rw [hret] at e; rw [← e] at hlen; omega
      · omega
      · obtain ⟨msg', rest', e', hready⟩ := hready
        exact ⟨⟨msg', rest', e.trans e', by rw [hd, hw, hn]; exact hready⟩, hlt⟩
  · have hw := waiting_push h hq
    left
    simp only [sendWork]
    rcases hcalls with e | e <;> rw [e] <;> omega

/-- The same for the receiver. -/
theorem recvCallStep_work {t : Receiver} {call : RecvCall} {rest : List RecvCall}
    {past left : List Message} {later : List (List UInt8)} (hr : ReceiverOk i m past left t)
    (hc : t.calls = call :: rest) (hstream : recvTodo left t = waitingPages m i ++ later)
    {r : Shm × Receiver} (he : recvCallStep m t call rest = r) :
    r.2.calls.length + waiting (r.1.ctr.channels i) < t.calls.length + waiting (m.ctr.channels i) ∨
    r.2.calls.length + waiting (r.1.ctr.channels i) = t.calls.length + waiting (m.ctr.channels i) ∧
      SameRing i m r.1 ∧ (RecvReady i m t → RecvReady i r.1 r.2 ∧
        r.2.pc.rank (m.ctr.channels i).tail < t.pc.rank (m.ctr.channels i).tail) := by
  have hrank := fun hready => recvCallStep_rank h hr hc hready
  have hcalls := recvCallStep_calls (m := m) t call rest
  obtain ⟨msg, left, rfl⟩ := hr.left_eq_cons hc
  obtain ⟨_, _, -, heff, -⟩ := recvCallStep_ok h hr hc hstream
  rw [he] at hrank hcalls heff
  have hlen : t.calls.length = rest.length + 1 := by rw [hc, List.length_cons]
  cases heff with
  | quiet hq _ hn =>
    have hw := waiting_quiet hq
    rcases hcalls with e | e
    · exact .inl (by rw [e, hw, hlen]; omega)
    · refine .inr ⟨by rw [e, hw], ⟨hq.numPage, hq.head, hq.tail⟩, fun hready => ?_⟩
      obtain hret | hcon | ⟨hd, hlt⟩ := hrank hready
      · rw [hret] at e; rw [← e] at hlen; omega
      · omega
      · obtain ⟨call', rest', e', hready⟩ := hready
        exact ⟨⟨call', rest', e.trans e', by rw [hd, hq.head, hq.tail]; exact hready⟩, hlt⟩
  | pop hq _ _ =>
    have hw := waiting_pop h hq
    left
    rcases hcalls with e | e <;> rw [e] <;> omega

end

/-- What a link has left to do. -/
def work (i : Fin maxChannels) (l : Link) : Nat := sendWork i l.shm l.sender + l.receiver.calls.length

/-- All calls have returned. -/
def Done (l : Link) : Prop := l.sender.calls = [] ∧ l.receiver.calls = []

/-- `SendReady` of the sender (`true`) or `RecvReady` of the receiver. -/
def Ready (i : Fin maxChannels) (l : Link) : Bool → Prop
  | true => SendReady i l.shm l.sender
  | false => RecvReady i l.shm l.receiver

def rankOf (i : Fin maxChannels) (l : Link) : Bool → Nat
  | true => l.sender.pc.rank
  | false => l.receiver.pc.rank (l.shm.ctr.channels i).tail

section

variable {i : Fin maxChannels} {msgs : List Message} {l : Link} (h : LinkInv i msgs l)
include h

/-- Where a call is left, someone has something to do: a full ring is not
empty. -/
theorem LinkInv.exists_ready (hd : ¬ Done l) : ∃ p, Ready i l p := by
  obtain ⟨hring, hs, -, past, left, -, hr, hstream⟩ := h
  have htwo := hring.two_le
  have hlen := congrArg List.length hstream
  rw [List.length_append, length_waitingPages] at hlen
  by_cases hsend : SendReady i l.shm l.sender
  · exact ⟨true, hsend⟩
  refine ⟨false, ?_⟩
  -- a sender in a call that is not ready has pages to publish, and a full ring
  have hfull : ∀ msg rest, l.sender.calls = msg :: rest →
      0 < waiting (l.shm.ctr.channels i) ∧ 0 < (sendTodo l.sender).length := fun msg rest e => by
    have hno : ¬ (msg.size.toNat ≤ l.sender.dataSent.toNat ∨ _) := fun hor => hsend ⟨msg, rest, e, hor⟩
    refine ⟨by omega, ?_⟩
    rw [sendTodo, e, todo_next (by omega), List.length_cons]
    exact Nat.succ_pos _
  cases left with
  | nil =>
    have hcalls := hr.calls
    rw [List.map_nil, List.map_eq_nil_iff] at hcalls
    simp only [recvTodo, todo, List.length_nil] at hlen
    cases hcs : l.sender.calls with
    | nil => exact absurd ⟨hcs, hcalls⟩ hd
    | cons msg rest => have := hfull msg rest hcs; omega
  | cons msg left =>
    obtain ⟨call, rest, hc⟩ := List.exists_cons_of_ne_nil (l := l.receiver.calls) fun e => by
      have := hr.calls
      rw [e] at this
      cases this
    obtain ⟨d, hd, hle, -⟩ := hr.bound msg left rfl
    refine ⟨call, rest, hc, ?_⟩
    rw [hr.size_eq hc, size_le_received hd]
    by_contra hno
    obtain ⟨hlt, heq⟩ := not_or.mp hno
    have hzero : waiting (l.shm.ctr.channels i) = 0 :=
      (Ring.used_eq_zero hring.head_lt hring.tail_lt).mpr (congrArg UInt32.toNat (not_not.mp heq))
    rw [recvTodo, hd, Int.toNat_natCast, todo_next (by omega), List.length_cons] at hlen
    cases hcs : l.sender.calls with
    | nil => simp only [sendTodo, hcs, todo, List.length_nil] at hlen; omega
    | cons msg' rest' => have := hfull msg' rest' hcs; omega

theorem LinkInv.sender_turn (now : Int64) :
    work i (linkStep l (.sender now)) < work i l ∨
    work i (linkStep l (.sender now)) = work i l ∧ SameRing i l.shm (linkStep l (.sender now)).shm ∧
      (Ready i l true → Ready i (linkStep l (.sender now)) true ∧
        rankOf i (linkStep l (.sender now)) true < rankOf i l true) := by
  obtain ⟨hring, hs, -, -⟩ := h
  cases hc : l.sender.calls with
  | nil =>
    rw [linkStep, sendStep, hc]
    exact .inr ⟨rfl, ⟨rfl, rfl, rfl⟩, fun ⟨_, _, e, _⟩ => absurd (e.symm.trans hc) (List.cons_ne_nil _ _)⟩
  | cons msg rest =>
    rw [linkStep, sendStep, hc]
    obtain hlt | ⟨heq, hsame, hcloser⟩ := sendCallStep_work hring hs hc now rfl
    · exact .inl (Nat.add_lt_add_right hlt _)
    · exact .inr ⟨congrArg (· + l.receiver.calls.length) heq, hsame, hcloser⟩

theorem LinkInv.receiver_turn :
    work i (linkStep l .receiver) < work i l ∨
    work i (linkStep l .receiver) = work i l ∧ SameRing i l.shm (linkStep l .receiver).shm ∧
      (Ready i l false → Ready i (linkStep l .receiver) false ∧
        rankOf i (linkStep l .receiver) false < rankOf i l false) := by
  obtain ⟨hring, -, -, past, left, -, hr, hstream⟩ := h
  cases hc : l.receiver.calls with
  | nil =>
    rw [linkStep, recvStep, hc]
    exact .inr ⟨rfl, ⟨rfl, rfl, rfl⟩, fun ⟨_, _, e, _⟩ => absurd (e.symm.trans hc) (List.cons_ne_nil _ _)⟩
  | cons call rest =>
    rw [linkStep, recvStep, hc]
    obtain hlt | ⟨heq, hsame, hcloser⟩ := recvCallStep_work hring hr hc hstream rfl
    · left
      simp only [work, sendWork]
      omega
    · refine .inr ⟨by simp only [work, sendWork]; omega, hsame, fun hready => ?_⟩
      simp only [rankOf, hsame.2.2]
      exact hcloser hready

end

section

variable {i : Fin maxChannels} {msgs : List Message} {l : Link} (h : LinkInv i msgs l)
include h

/-- A step of the party that has something to do. -/
theorem LinkInv.mine (turn : Turn) (hready : Ready i l turn.ofSender) :
    work i (linkStep l turn) < work i l ∨
    work i (linkStep l turn) = work i l ∧ Ready i (linkStep l turn) turn.ofSender ∧
      rankOf i (linkStep l turn) turn.ofSender < rankOf i l turn.ofSender := by
  cases turn with
  | sender now =>
    obtain hlt | ⟨heq, -, hcloser⟩ := h.sender_turn now
    exacts [.inl hlt, .inr ⟨heq, hcloser hready⟩]
  | receiver =>
    obtain hlt | ⟨heq, -, hcloser⟩ := h.receiver_turn
    exacts [.inl hlt, .inr ⟨heq, hcloser hready⟩]

/-- A step of the other party. -/
theorem LinkInv.other (turn : Turn) {p : Bool} (hready : Ready i l p) (hne : turn.ofSender ≠ p) :
    work i (linkStep l turn) < work i l ∨
    work i (linkStep l turn) = work i l ∧ Ready i (linkStep l turn) p ∧
    rankOf i (linkStep l turn) p = rankOf i l p := by
  cases turn with
  | sender now =>
    obtain rfl : p = false := by cases p <;> simp [Turn.ofSender] at hne ⊢
    obtain hlt | ⟨heq, ⟨-, hh, ht⟩, -⟩ := h.sender_turn now
    · exact .inl hlt
    · obtain ⟨call, rest, hc, hor⟩ := hready
      refine .inr ⟨heq, ⟨call, rest, hc, by rw [hh, ht]; exact hor⟩, ?_⟩
      exact congrArg (RecvPc.rank · l.receiver.pc) ht
  | receiver =>
    obtain rfl : p = true := by cases p <;> simp [Turn.ofSender] at hne ⊢
    obtain hlt | ⟨heq, ⟨hn, hh, ht⟩, -⟩ := h.receiver_turn
    · exact .inl hlt
    · obtain ⟨msg, rest, hc, hor⟩ := hready
      refine .inr ⟨heq, ⟨msg, rest, hc, ?_⟩, rfl⟩
      simp only [waiting, hn, hh, ht]
      exact hor

/-- A fair schedule brings every call to its end. -/
theorem LinkInv.exists_done {σ : Nat → Turn} (hσ : Fair Turn.ofSender σ) :
    ∃ k, Done (runSeq linkStep l σ k) :=
  exists_done_of_fair (I := LinkInv i msgs) (μ := work i) (δ := fun p l => rankOf i l p)
    (fun _ turn h => h.step turn)
    (fun _ h => h.exists_ready) (fun _ turn h => h.mine turn) (fun _ turn _ h => h.other turn) hσ h

end

/-- At the start nothing waits and everything is still to be sent. -/
theorem linkInv_start {m : Shm} {i : Fin maxChannels} {sk rk : ChannelKey} {msgs : List Message}
    {calls : List RecvCall} (hmutex : m.ctr.controlMutex = 0) (hs : findChannel m.ctr sk = some i)
    (hr : findChannel m.ctr rk = some i) (hch : ChannelOk (m.ctr.channels i))
    (hend : endOf (m.ctr.channels i) ≤ dataSectionSize)
    (hempty : (m.ctr.channels i).head = (m.ctr.channels i).tail)
    (h2 : 2 ≤ (m.ctr.channels i).numPage.toInt)
    (hsizes : ∀ msg ∈ msgs, 2 * pageSize ≤ msg.size.toNat ∧ msg.size.toNat < 2 ^ 31)
    (hcalls : calls.map (·.size) = msgs.map (·.size)) :
    LinkInv i msgs ⟨m, .start sk msgs, .start rk calls⟩ := by
  have hhead := hch.head_lt
  have htail := hch.tail_lt
  have hsize := hch.bufSize_eq
  simp only [endOf] at hend
  have hring : RingOk i m :=
    ⟨hmutex, by omega, by simp only [pageSize] at hsize ⊢; omega, by omega, by omega⟩
  have hzero : waiting (m.ctr.channels i) = 0 :=
    (Ring.used_eq_zero hring.head_lt hring.tail_lt).mpr (congrArg UInt32.toNat hempty)
  refine ⟨hring,
    ⟨hs, fun _ => rfl, hsizes, fun hne => absurd rfl (hne .find), ?_, fun _ _ _ => rfl⟩, ?_, [],
    msgs, rfl,
    ⟨hr, fun _ => rfl, fun msg hm => (hsizes msg hm).2, hcalls, fun hne => absurd rfl hne, .nil, ?_⟩, ?_⟩
  · exact fun msg _ _ => Nat.add_pos_right _ (by decide)
  · simp only [Sender.start, Receiver.start, hzero]
  · exact fun _ _ _ => ⟨0, rfl, Nat.zero_le _, rfl⟩
  · rw [List.eq_nil_of_length_eq_zero ((length_waitingPages m i).trans hzero)]
    rfl

section

variable {i : Fin maxChannels} {msgs : List Message} {l : Link} (h : LinkInv i msgs l)
include h

theorem LinkInv.counts : l.receiver.consumed ≤ l.sender.published ∧
    l.sender.published - l.receiver.consumed ≤ (l.shm.ctr.channels i).numPage.toInt.toNat - 1 := by
  have := h.count
  have := h.ring.waiting_lt
  omega

/-- The sender copies into the slot at `head`. -/
theorem LinkInv.sender_copy {off : UInt64} {head : UInt32} (e : l.sender.pc = .copy off head) :
    off = (l.shm.ctr.channels i).bufOffset ∧ head = (l.shm.ctr.channels i).head := by
  cases hc : l.sender.calls with
  | nil => rw [h.sender.idle hc] at e; cases e
  | cons msg rest =>
    have hat := h.sender.pc msg rest hc
    rw [e] at hat
    exact hat.2.2

/-- The receiver copies out of the slot at `tail`, of a ring that is not
empty. -/
theorem LinkInv.receiver_copy {off : UInt64} {tail : UInt32} (e : l.receiver.pc = .copy off tail) :
    tail = (l.shm.ctr.channels i).tail ∧ (l.shm.ctr.channels i).head ≠ (l.shm.ctr.channels i).tail := by
  obtain ⟨past, left, -, hr, -⟩ := h.receiver
  cases hc : l.receiver.calls with
  | nil => rw [hr.idle hc] at e; cases e
  | cons call rest =>
    obtain ⟨msg, left, rfl⟩ := hr.left_eq_cons hc
    obtain ⟨d, -, -, hat⟩ := hr.bound msg left rfl
    rw [e] at hat
    exact ⟨hat.2.2.2.2, hat.2.2.1⟩

theorem LinkInv.rebuilt :
    List.Forall₂ Rebuilt l.receiver.returned (msgs.take l.receiver.returned.length) := by
  obtain ⟨past, left, rfl, hr, -⟩ := h.receiver
  rw [hr.returned.length_eq, List.take_left]
  exact hr.returned

theorem LinkInv.rebuilt_of_done (hd : Done l) : List.Forall₂ Rebuilt l.receiver.returned msgs := by
  obtain ⟨past, left, rfl, hr, -⟩ := h.receiver
  have hcalls := hr.calls
  rw [hd.2, List.map_nil, eq_comm, List.map_eq_nil_iff] at hcalls
  rw [hcalls, List.append_nil]
  exact hr.returned

theorem LinkInv.not_full_and_empty :
    ¬ (channelFull (l.shm.ctr.channels i) ∧ channelEmpty (l.shm.ctr.channels i)) := by
  rw [h.ring.channelFull_iff, h.ring.channelEmpty_iff]
  have := h.ring.two_le
  omega

end

/-- A sender and a receiver on one channel that starts empty, for any
messages of two pages and more and in every interleaving: the indices stay in
the ring, from none to all but one of its pages wait, a page is never copied
into a slot that the receiver has not given back, what the receiver returned
are the messages, the full test and the empty test never both succeed, and a
fair schedule brings every call to its end. -/
theorem transfer_ok (m : Shm) (i : Fin maxChannels) (sk rk : ChannelKey) (msgs : List Message)
    (calls : List RecvCall) (hmutex : m.ctr.controlMutex = 0) (hs : findChannel m.ctr sk = some i)
    (hr : findChannel m.ctr rk = some i) (hch : ChannelOk (m.ctr.channels i))
    (hend : endOf (m.ctr.channels i) ≤ dataSectionSize)
    (hempty : (m.ctr.channels i).head = (m.ctr.channels i).tail)
    (h2 : 2 ≤ (m.ctr.channels i).numPage.toInt)
    (hsizes : ∀ msg ∈ msgs, 2 * pageSize ≤ msg.size.toNat ∧ msg.size.toNat < 2 ^ 31)
    (hcalls : calls.map (·.size) = msgs.map (·.size)) :
    (∀ turns : List Turn,
      let l := run linkStep ⟨m, .start sk msgs, .start rk calls⟩ turns
      let ch := l.shm.ctr.channels i
      let n := ch.numPage.toInt.toNat
      (ch.head.toNat < n ∧ ch.tail.toNat < n) ∧
      (l.receiver.consumed ≤ l.sender.published ∧ l.sender.published - l.receiver.consumed ≤ n - 1) ∧
      (∀ off head, l.sender.pc = .copy off head → off = ch.bufOffset ∧
        head.toNat ∉ Ring.window n ch.tail.toNat ch.head.toNat ∧
        ∀ off' tail, l.receiver.pc = .copy off' tail →
          tail.toNat ∈ Ring.window n ch.tail.toNat ch.head.toNat) ∧
      List.Forall₂ Rebuilt l.receiver.returned (msgs.take l.receiver.returned.length) ∧
      ¬ (channelFull ch ∧ channelEmpty ch)) ∧
    ∀ σ : Nat → Turn, Fair Turn.ofSender σ →
      ∃ k, let l := runSeq linkStep ⟨m, .start sk msgs, .start rk calls⟩ σ k
        l.sender.calls = [] ∧ List.Forall₂ Rebuilt l.receiver.returned msgs := by
  have start := linkInv_start hmutex hs hr hch hend hempty h2 hsizes hcalls
  refine ⟨fun turns => ?_, fun σ hσ => ?_⟩
  · intro l ch n
    have h : LinkInv i msgs l := run_inv (fun _ turn h => h.step turn) start turns
    refine ⟨⟨h.ring.head_lt, h.ring.tail_lt⟩, h.counts, fun off head e => ?_, h.rebuilt,
      h.not_full_and_empty⟩
    obtain ⟨hoff, rfl⟩ := h.sender_copy e
    refine ⟨hoff, Ring.head_notMem_window h.ring.head_lt h.ring.tail_lt, fun off' tail e' => ?_⟩
    obtain ⟨rfl, hne⟩ := h.receiver_copy e'
    rw [Ring.window_pop h.ring.head_lt h.ring.tail_lt fun e => hne (UInt32.toNat_inj.mp e)]
    exact List.mem_cons_self
  · obtain ⟨k, hd⟩ := start.exists_done hσ
    exact ⟨k, hd.1, (run_inv (fun _ turn h => h.step turn) start _ : LinkInv i msgs _).rebuilt_of_done hd⟩

/-- A memory with one channel. -/
def oneChannel : Shm := afterOps zeroShm [.request ⟨1, 5, 2⟩, .trustedControl]

/-- A message of two pages and a byte. -/
def overTwoPages : Message := ⟨fun x => .ofInt x, 8193⟩

/-- Sender and receiver in turn. -/
def inTurn (k : Nat) : Turn := if k % 2 = 0 then .sender 0 else .receiver

theorem fair_inTurn : Fair Turn.ofSender inTurn := fun p n => by
  rcases Nat.mod_two_eq_zero_or_one n with h | h
  · cases p
    · exact ⟨1, by simp [inTurn, Nat.add_mod, h, Turn.ofSender]⟩
    · exact ⟨0, by simp [inTurn, h, Turn.ofSender]⟩
  · cases p
    · exact ⟨0, by simp [inTurn, h, Turn.ofSender]⟩
    · exact ⟨1, by simp [inTurn, Nat.add_mod, h, Turn.ofSender]⟩

/-- `transfer_ok` for one message, received with `sender_pid` left open. -/
theorem transfer_ok_two_pages :
    ∃ k,
      let start : Link :=
        ⟨oneChannel, .start ⟨1, 5, 2⟩ [overTwoPages], .start ⟨1, 0, 2⟩ [⟨fun _ => 0, 8193⟩]⟩
      (runSeq linkStep start inTurn k).sender.calls = [] ∧
        List.Forall₂ Rebuilt (runSeq linkStep start inTurn k).receiver.returned [overTwoPages] :=
  have hinv : AllocInv oneChannel.ctr := allocInv_afterOps _ _
  have hact : oneChannel.ctr.Active 0 := by decide +kernel
  (transfer_ok oneChannel 0 ⟨1, 5, 2⟩ ⟨1, 0, 2⟩ [overTwoPages] [⟨fun _ => 0, 8193⟩] (by decide +kernel)
    (by decide +kernel) (by decide +kernel) (hinv.chan 0 hact) (hinv.endOf_le hact) (by decide +kernel)
    (by decide +kernel) (fun msg hm => by rw [List.mem_singleton.mp hm]; decide) rfl).2 inTurn fair_inTurn

end Ivshmem
