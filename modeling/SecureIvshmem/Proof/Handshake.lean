import SecureIvshmem.Framework.TakingTurns
import SecureIvshmem.Impl.Handshake

/-!
# The measuring programs hand over every number

The two parties of each program take turns (`latency_turns`,
`bandwidth_turns`): whatever the order of their steps, it is that of a
sequential program. So the child reads 1, 2, 3 and so on, and the parent comes
to its end (`latency_numbers`); and the reader finds every chunk whole, with
the number that it expects, and neither party waits forever
(`bandwidth_chunks`).
-/

namespace Ivshmem

open SharedMem SharedMem.Word

/-! ## `latency_test.c` -/

/-- Where the two are, when `k` numbers have come back. -/
inductive LatencyPhase where
  | idle (k : Fin iterations) (data : UInt64)
  | stored (k : Fin iterations)
  | published (k : Fin iterations)
  | noticed (k : Fin iterations)
  | loaded (k : Fin iterations)
  | read (k : Fin iterations)
  | acked (k : Fin iterations)
  | finished

/-- The numbers from 1 to `k`. -/
def numbersTo (k : Nat) : List UInt64 := (List.range k).map fun j => .ofNat (j + 1)

theorem numbersTo_succ (k : Nat) : numbersTo (k + 1) = numbersTo k ++ [.ofNat (k + 1)] := by
  rw [numbersTo, List.range_succ, List.map_append]
  rfl

namespace LatencyPhase

/-- The state of the two. -/
def state : LatencyPhase → Latency
  | idle k data =>
    ⟨⟨.ofNat k, .ofNat k, data⟩, .ofNat (k + 1), .storeData, .ofNat k, .waitSeq, numbersTo k⟩
  | stored k =>
    ⟨⟨.ofNat k, .ofNat k, .ofNat (k + 1)⟩, .ofNat (k + 1), .storeSeq, .ofNat k, .waitSeq, numbersTo k⟩
  | published k => atWait k k k .waitSeq k
  | noticed k => atWait k k k .loadSeq k
  | loaded k => atWait k k (k + 1) .loadData k
  | read k => atWait k k (k + 1) .storeAck (k + 1)
  | acked k => atWait k (k + 1) (k + 1) .waitSeq (k + 1)
  | finished =>
    ⟨⟨.ofNat iterations, .ofNat iterations, .ofNat iterations⟩, .ofNat (iterations + 1), .finished,
      .ofNat iterations, .waitSeq, numbersTo iterations⟩
where
  /-- The parent waits for number `k + 1` to come back. -/
  atWait (k ack lastSeen : Nat) (child : ChildPc) (seen : Nat) : Latency :=
    ⟨⟨.ofNat (k + 1), .ofNat ack, .ofNat (k + 1)⟩, .ofNat (k + 1), .waitAck, .ofNat lastSeen, child,
      numbersTo seen⟩

/-- Whether it is the parent's turn. -/
def turn : LatencyPhase → Bool
  | idle .. | stored _ | acked _ | finished => true
  | published _ | noticed _ | loaded _ | read _ => false

/-- The move of the party whose turn it is. -/
def next : LatencyPhase → LatencyPhase
  | idle k _ => stored k
  | stored k => published k
  | published k => noticed k
  | noticed k => loaded k
  | loaded k => read k
  | read k => acked k
  | acked k => if h : k + 1 < iterations then idle ⟨k + 1, h⟩ (.ofNat (k + 1)) else finished
  | finished => finished

end LatencyPhase

theorem ofNat_ne_succ (k : Nat) : UInt64.ofNat k ≠ .ofNat (k + 1) := by
  rw [UInt64.ofNat_add]
  exact fun h => absurd (UInt64.left_eq_add.mp h) (by decide)

/-- The parent's test for its end. -/
theorem ofNat_le_iterations {k : Nat} (h : k < iterations) :
    UInt64.ofNat (k + 1 + 1) ≤ .ofNat iterations ↔ k + 1 < iterations := by
  rw [UInt64.le_iff_toNat_le, UInt64.toNat_ofNat_of_lt' (by decide : iterations < UInt64.size),
    UInt64.toNat_ofNat_of_lt']
  · exact Iff.rfl
  · exact (show k + 1 + 1 ≤ iterations + 1 by omega).trans_lt (by decide)

theorem childStep_of_seen {s : Latency} (hc : s.child = .waitSeq) (h : s.shm.seq = s.lastSeen) :
    childStep s = s := by
  rw [childStep, hc]
  exact if_pos h

theorem parentStep_of_ne {s : Latency} (hp : s.parent = .waitAck) (h : s.shm.ack ≠ s.i) :
    parentStep s = s := by
  rw [parentStep, hp]
  exact if_pos h

/-- The child waits while it is the parent's turn. -/
theorem childStep_waits : ∀ {p : LatencyPhase}, p.turn = true → childStep p.state = p.state
  | .idle .., _ | .stored _, _ | .acked _, _ | .finished, _ => childStep_of_seen rfl rfl

/-- The parent waits while it is the child's turn. -/
theorem parentStep_waits : ∀ {p : LatencyPhase}, p.turn = false → parentStep p.state = p.state
  | .published k, _ | .noticed k, _ | .loaded k, _ | .read k, _ => parentStep_of_ne rfl (ofNat_ne_succ k)

/-- The acknowledgement of number `k + 1`. -/
theorem parentStep_acked (k : Fin iterations) :
    parentStep (LatencyPhase.acked k).state = (LatencyPhase.acked k).next.state := by
  have hstep : parentStep (LatencyPhase.acked k).state =
      { (LatencyPhase.acked k).state with
        i := .ofNat (k + 1) + 1
        parent := if UInt64.ofNat (k + 1) + 1 ≤ .ofNat iterations then .storeData else .finished } :=
    if_neg (not_not.mpr rfl)
  have hsucc : UInt64.ofNat (k + 1) + 1 = .ofNat (k + 1 + 1) := (UInt64.ofNat_add ..).symm
  rw [hstep, hsucc, LatencyPhase.next]
  by_cases h : k + 1 < iterations
  · rw [dif_pos h, if_pos ((ofNat_le_iterations k.isLt).mpr h)]
    rfl
  · rw [dif_neg h, if_neg (mt (ofNat_le_iterations k.isLt).mp h)]
    have hk : k + 1 = iterations := Nat.le_antisymm k.isLt (Nat.le_of_not_lt h)
    simp only [LatencyPhase.state, LatencyPhase.state.atWait, hk]

/-- The parent and the child take turns. -/
theorem latency_turns :
    TakesTurns latencyStep id LatencyPhase.state LatencyPhase.turn LatencyPhase.next where
  waits p ofParent hl := by
    obtain rfl : ofParent = !p.turn := Bool.eq_not_of_ne hl
    cases h : p.turn with
    | true => exact childStep_waits h
    | false => exact parentStep_waits h
  moves p ofParent hl := by
    obtain rfl : ofParent = p.turn := hl
    cases p with
    | idle | stored | noticed | read | finished => rfl
    | published k => exact if_neg (ofNat_ne_succ k).symm
    | loaded k => exact congrArg (Latency.mk _ _ _ _ _) (numbersTo_succ k).symm
    | acked k => exact parentStep_acked k

/-- The numbers from `k + 1` on come back, one after the other. -/
theorem reaches_finished : ∀ (n : Nat) (k : Fin iterations) (data : UInt64), k + n + 1 = iterations →
    Reaches LatencyPhase.next (.idle k data) .finished
  | 0, k, data, hk => (acked k data).trans (.via .finished (dif_neg (by omega)) (.refl ..))
  | n + 1, k, data, hk => (acked k data).trans
      (.via _ (dif_pos (by omega)) (reaches_finished n _ _ (by simp only; omega)))
where
  acked (k : Fin iterations) (data : UInt64) : Reaches LatencyPhase.next (.idle k data)
    (.acked k) := ⟨6, rfl⟩

theorem seen_finished : LatencyPhase.finished.state.seen = numbersTo iterations := by
  rw [LatencyPhase.state]

/-- All but the last of the numbers that the child has read have come back. -/
theorem seen_state : ∀ p : LatencyPhase, ∃ k ≤ iterations,
    p.state.seen = numbersTo k ∧ (p.state.shm.ack = .ofNat k ∨ p.state.shm.ack + 1 = .ofNat k)
  | .idle k _ | .stored k | .published k | .noticed k | .loaded k => ⟨k, k.isLt.le, rfl, .inl rfl⟩
  | .read k => ⟨k + 1, k.isLt, rfl, .inr (UInt64.ofNat_add ..).symm⟩
  | .acked k => ⟨k + 1, k.isLt, rfl, .inl rfl⟩
  | .finished => ⟨iterations, le_rfl, seen_finished, .inl rfl⟩

theorem child_of_storing {p : LatencyPhase}
    (h : p.state.parent = .storeData ∨ p.state.parent = .storeSeq) :
    p.state.child = .waitSeq ∧ p.state.shm.seq = p.state.lastSeen := by
  cases p with
  | idle | stored | acked | finished => exact ⟨rfl, rfl⟩
  | published | noticed | loaded | read => simp [LatencyPhase.state, LatencyPhase.state.atWait] at h

/-- The parent and the child, over whatever was in `data`: in every order of
their steps the child reads 1, 2, 3 and so on, of which all but the last have
come back, and the parent writes `data` and `seq` only while the child waits;
in every fair order the parent comes to its end, when the child has read all
the numbers up to `ITERATIONS`. -/
theorem latency_numbers (data : UInt64) :
    (∀ turns : List Bool, let s := run latencyStep (.start data) turns
      (∃ k ≤ iterations, s.seen = numbersTo k ∧ (s.shm.ack = .ofNat k ∨ s.shm.ack + 1 = .ofNat k)) ∧
      (s.parent = .storeData ∨ s.parent = .storeSeq → s.child = .waitSeq ∧ s.shm.seq = s.lastSeen)) ∧
    ∀ σ : Nat → Bool, Fair id σ →
      ∃ n, (runSeq latencyStep (.start data) σ n).parent = .finished ∧
        (runSeq latencyStep (.start data) σ n).seen = numbersTo iterations := by
  have hstart : Latency.start data = (LatencyPhase.idle 0 data).state := rfl
  rw [hstart]
  refine ⟨fun turns => ?_, fun σ hσ => ?_⟩
  · obtain ⟨n, -, e⟩ := latency_turns.run_eq turns (.idle 0 data)
    rw [e]
    exact ⟨seen_state _, child_of_storing⟩
  · obtain ⟨n, e⟩ := latency_turns.exists_of_reaches (reaches_finished 99999 0 data rfl) hσ
    exact ⟨n, by rw [e]; rfl, by rw [e, seen_finished]⟩

/-! ## `shm_comm.c` -/

/-- The bytes of chunk number `k`. -/
def chunkOf (k : Nat) : List UInt8 :=
  leBytes 8 (UInt64.ofNat k).toNat ++ .replicate (chunkBytes - 8) (UInt64.ofNat k &&& 0xFF).toUInt8

/-- Where the two are, when `k` chunks have been read, and what was in the
memory before chunk `k`. -/
inductive BandwidthPhase where
  | free (k : Nat) (data : Mem UInt8)
  | writes (k : Nat) (data : Mem UInt8) (n : Fin chunkBytes)
  | written (k : Nat) (data : Mem UInt8)
  | full (k : Nat) (data : Mem UInt8)
  | reads (k : Nat) (data : Mem UInt8) (n : Fin 8)
  | checked (k : Nat) (data : Mem UInt8)

/-- The checks of the first `k` chunks. -/
def checksTo (k : Nat) : List (UInt64 × UInt64) := (List.range k).map fun j => (.ofNat j, .ofNat j)

theorem checksTo_succ (k : Nat) : checksTo (k + 1) = checksTo k ++ [(.ofNat k, .ofNat k)] := by
  rw [checksTo, List.range_succ, List.map_append]
  rfl

namespace BandwidthPhase

/-- The state of the two. -/
def state : BandwidthPhase → Bandwidth
  | free k data => ⟨1, 0, data, .ofNat k, .wait, .ofNat k, .wait, checksTo k⟩
  | writes k data n =>
    ⟨0, 0, store data 0 ((chunkOf k).take n), .ofNat k, if n.val < 8 then .copySeq n else .fill n,
      .ofNat k, .wait, checksTo k⟩
  | written k data => ⟨0, 0, store data 0 (chunkOf k), .ofNat k, .post, .ofNat k, .wait, checksTo k⟩
  | full k data => ⟨0, 1, store data 0 (chunkOf k), .ofNat (k + 1), .wait, .ofNat k, .wait, checksTo k⟩
  | reads k data n =>
    ⟨0, 0, store data 0 (chunkOf k), .ofNat (k + 1), .wait, .ofNat k,
      .copySeen ((chunkOf k).take n), checksTo k⟩
  | checked k data =>
    ⟨0, 0, store data 0 (chunkOf k), .ofNat (k + 1), .wait, .ofNat (k + 1), .post, checksTo (k + 1)⟩

/-- Whether it is the writer's turn. -/
def turn : BandwidthPhase → Bool
  | free .. | writes .. | written .. => true
  | full .. | reads .. | checked .. => false

/-- The move of the party whose turn it is. -/
def next : BandwidthPhase → BandwidthPhase
  | free k data => writes k data 0
  | writes k data n => if h : n + 1 < chunkBytes then writes k data ⟨n + 1, h⟩ else written k data
  | written k data => full k data
  | full k data => reads k data 0
  | reads k data n => if h : n.val + 1 < 8 then reads k data ⟨n + 1, h⟩ else checked k data
  | checked k data => free (k + 1) (store data 0 (chunkOf k))

end BandwidthPhase

theorem length_chunkOf (k : Nat) : (chunkOf k).length = chunkBytes := by
  rw [chunkOf, List.length_append, length_leBytes, List.length_replicate]
  exact Nat.add_sub_cancel' (by decide)

theorem length_take_chunkOf {k n : Nat} (h : n ≤ chunkBytes) : ((chunkOf k).take n).length = n := by
  rw [List.length_take, length_chunkOf, Nat.min_eq_left h]

/-- What `memcpy` writes next. -/
theorem byte_of_lt {k n : Nat} (h : n < 8) :
    ((leBytes 8 (UInt64.ofNat k).toNat).drop n).take 1 = ((chunkOf k).drop n).take 1 := by
  have hlen : (leBytes 8 (UInt64.ofNat k).toNat).length = 8 := length_leBytes ..
  rw [chunkOf, List.drop_append_of_le_length (by omega), List.take_append_of_le_length]
  rw [List.length_drop]
  omega

/-- What `memset` writes next. -/
theorem byte_of_ge {k n : Nat} (h : 8 ≤ n) (hn : n < chunkBytes) :
    [(UInt64.ofNat k &&& 0xFF).toUInt8] = ((chunkOf k).drop n).take 1 := by
  have hlen : (leBytes 8 (UInt64.ofNat k).toNat).length = 8 := length_leBytes ..
  rw [chunkOf, List.drop_append, List.drop_eq_nil_of_le (by omega), List.nil_append, List.drop_replicate,
    List.take_replicate, hlen, Nat.min_eq_left (by omega)]
  rfl

/-- The next byte of a chunk goes after those that are written. -/
theorem store_chunk_succ (data : Mem UInt8) {k n : Nat} (h : n ≤ chunkBytes) :
    store (store data 0 ((chunkOf k).take n)) n (((chunkOf k).drop n).take 1) =
      store data 0 ((chunkOf k).take (n + 1)) := by
  have happ := store_append data 0 ((chunkOf k).take n) (((chunkOf k).drop n).take 1)
  rwa [length_take_chunkOf h, Int.zero_add, ← List.take_add] at happ

/-- The reader copies the next byte of a chunk. -/
theorem copySeen_succ (data : Mem UInt8) {k n : Nat} (h : n < chunkBytes) :
    (chunkOf k).take n ++ [store data 0 (chunkOf k) ((chunkOf k).take n).length] =
    (chunkOf k).take (n + 1) := by
  have hn : n < (chunkOf k).length := (length_chunkOf k).symm ▸ h
  have hbyte := store_of_inside (m := data) (a := 0) hn
  rw [Int.zero_add] at hbyte
  rw [length_take_chunkOf h.le, hbyte, List.take_append_getElem hn]

/-- The number of a chunk, as the reader sees it. -/
theorem ofNat_leValue_chunkOf (k : Nat) : UInt64.ofNat (leValue ((chunkOf k).take 8)) = .ofNat k := by
  rw [chunkOf, List.take_left' (length_leBytes ..), ofNat_leValue_leBytes]

/-- One more byte of a chunk. -/
theorem bwWriterStep_writes (k : Nat) (data : Mem UInt8) (n : Fin chunkBytes) :
    bwWriterStep (BandwidthPhase.writes k data n).state =
    (BandwidthPhase.writes k data n).next.state := by
  have hsucc := store_chunk_succ data (k := k) n.isLt.le
  rw [BandwidthPhase.next]
  by_cases h8 : n.val < 8
  · have hn : n + 1 < chunkBytes := lt_of_le_of_lt (Nat.succ_le_of_lt h8) (by decide)
    rw [← byte_of_lt h8] at hsucc
    rw [dif_pos hn]
    simp only [BandwidthPhase.state, bwWriterStep, if_pos h8, hsucc]
    split
    · rfl
    · rw [show n.val + 1 = 8 by omega]
  · rw [← byte_of_ge (Nat.le_of_not_lt h8) n.isLt] at hsucc
    simp only [BandwidthPhase.state, bwWriterStep, if_neg h8, hsucc]
    by_cases hn : n + 1 < chunkBytes
    · rw [dif_pos hn, if_pos hn]
      simp only [if_neg (show ¬ n.val + 1 < 8 by omega)]
    · rw [dif_neg hn, if_neg hn, List.take_of_length_le (by rw [length_chunkOf]; omega)]

/-- One more byte of `seen`, and after the last one the check. -/
theorem bwReaderStep_reads (k : Nat) (data : Mem UInt8) (n : Fin 8) :
    bwReaderStep (BandwidthPhase.reads k data n).state = (BandwidthPhase.reads k data n).next.state := by
  have hn : n.val < chunkBytes := n.isLt.trans (by decide)
  rw [BandwidthPhase.next]
  simp only [BandwidthPhase.state, bwReaderStep, copySeen_succ data hn,
    length_take_chunkOf (Nat.succ_le_of_lt hn)]
  by_cases h : n.val + 1 < 8
  · rw [dif_pos h, if_pos h]
  · have hsucc : UInt64.ofNat (k + 1) = .ofNat k + 1 := UInt64.ofNat_add ..
    rw [dif_neg h, if_neg h, show n.val + 1 = 8 by omega, ofNat_leValue_chunkOf, if_neg (not_not.mpr rfl),
      ← checksTo_succ, ← hsucc]

/-- The writer and the reader take turns. -/
theorem bandwidth_turns :
    TakesTurns bandwidthStep id BandwidthPhase.state BandwidthPhase.turn BandwidthPhase.next where
  waits p ofWriter hl := by
    obtain rfl : ofWriter = !p.turn := Bool.eq_not_of_ne hl
    cases p <;> rfl
  moves p ofWriter hl := by
    obtain rfl : ofWriter = p.turn := hl
    cases p with
    | free k data =>
      have hnil : store data 0 ((chunkOf k).take 0) = data := store_nil ..
      exact congrArg (Bandwidth.mk _ _ · _ _ _ _ _) hnil.symm
    | full | checked => rfl
    | written k data => exact congrArg (Bandwidth.mk _ _ _ · _ _ _ _) (UInt64.ofNat_add ..).symm
    | writes k data n => exact bwWriterStep_writes k data n
    | reads k data n => exact bwReaderStep_reads k data n

theorem reaches_written (k : Nat) (data : Mem UInt8) :
    ∀ (d : Nat) (n : Fin chunkBytes), n + d + 1 = chunkBytes →
    Reaches BandwidthPhase.next (.writes k data n) (.written k data)
  | 0, n, hn => .via _ (dif_neg (by omega)) (.refl ..)
  | d + 1, n, hn => .via _ (dif_pos (by omega)) (reaches_written k data d _ (by simp only; omega))

/-- One chunk after the other is written and read. -/
theorem reaches_free (data : Mem UInt8) :
    ∀ m, ∃ data', Reaches BandwidthPhase.next (.free 0 data) (.free m data')
  | 0 => ⟨data, .refl ..⟩
  | m + 1 => by
    obtain ⟨data', h⟩ := reaches_free data m
    have hwritten : Reaches BandwidthPhase.next (.free m data') (.written m data') :=
      .via _ rfl (reaches_written m data' (chunkBytes - 1) 0 rfl)
    have hread : Reaches BandwidthPhase.next (.written m data')
      (.free (m + 1) (store data' 0 (chunkOf m))) := ⟨11, rfl⟩
    exact ⟨_, h.trans (hwritten.trans hread)⟩

theorem checked_state : ∀ p : BandwidthPhase, ∃ k, p.state.checked = checksTo k
  | .free k _ | .writes k _ _ | .written k _ | .full k _ | .reads k _ _ => ⟨k, rfl⟩
  | .checked k _ => ⟨k + 1, rfl⟩

theorem excludes_state : ∀ p : BandwidthPhase,
    p.state.semW + p.state.semR ≤ 1 ∧ (p.state.writer = .wait ∨ p.state.reader = .wait)
  | .free .. | .full .. => ⟨le_rfl, .inl rfl⟩
  | .writes .. | .written .. => ⟨Nat.zero_le 1, .inr rfl⟩
  | .reads .. | .checked .. => ⟨Nat.zero_le 1, .inl rfl⟩

/-- The reader copies from a whole chunk. -/
theorem whole_of_copySeen {p : BandwidthPhase} {seen : List UInt8} (h : p.state.reader = .copySeen seen) :
    bytesAt p.state.data 0 chunkBytes = chunkOf p.state.checked.length := by
  cases p with
  | reads k data n =>
    have hlen : (checksTo k).length = k := by rw [checksTo, List.length_map, List.length_range]
    exact (bytesAt_store_eq data 0 (length_chunkOf k)).trans (congrArg chunkOf hlen.symm)
  | free | writes | written | full | checked => cases h

/-- The writer and the reader, over whatever was in `data`: in every order of
their steps the numbers that the reader sees are 0, 1, 2 and so on, each the one
that it expects; the semaphores let one of the two in at a time; and while the
reader copies, the whole chunk of the number that it has come to is in `data`.
In every fair order they go on forever. -/
theorem bandwidth_chunks (data : Mem UInt8) :
    (∀ turns : List Bool, let s := run bandwidthStep (.start data) turns
      (∃ k, s.checked = checksTo k) ∧ s.semW + s.semR ≤ 1 ∧ (s.writer = .wait ∨ s.reader = .wait) ∧
      ∀ seen, s.reader = .copySeen seen → bytesAt s.data 0 chunkBytes = chunkOf s.checked.length) ∧
    ∀ σ : Nat → Bool, Fair id σ →
    ∀ m, ∃ n, (runSeq bandwidthStep (.start data) σ n).checked = checksTo m := by
  have hstart : Bandwidth.start data = (BandwidthPhase.free 0 data).state := rfl
  rw [hstart]
  refine ⟨fun turns => ?_, fun σ hσ m => ?_⟩
  · obtain ⟨n, -, e⟩ := bandwidth_turns.run_eq turns (.free 0 data)
    rw [e]
    exact ⟨checked_state _, (excludes_state _).1, (excludes_state _).2,
      fun seen hr => whole_of_copySeen hr⟩
  · obtain ⟨data', h⟩ := reaches_free data m
    obtain ⟨n, e⟩ := bandwidth_turns.exists_of_reaches h hσ
    exact ⟨n, by rw [e]; rfl⟩

end Ivshmem
