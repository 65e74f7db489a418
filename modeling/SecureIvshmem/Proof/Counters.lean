import SecureIvshmem.Impl.Counters
import SecureIvshmem.Proof.Resize

/-!
# The reader counts what the writer counts

The messages of the writer, over a channel that a trusted process resizes
meanwhile, arrive with their numbers, from 0 on and none left out: the reader
never reports a mismatch, and does not exit.
-/

namespace Ivshmem

open SharedMem SharedMem.Word

theorem length_writerMessages : ∀ n counter sendBuf, (writerMessages n counter sendBuf).length = n
  | 0, _, _ => rfl
  | n + 1, _, _ => by rw [writerMessages, List.length_cons, length_writerMessages n]

theorem size_of_mem_writerMessages {msg : Message} : ∀ {n : Nat} {counter : UInt64} {sendBuf : Mem UInt8},
    msg ∈ writerMessages n counter sendBuf → msg.size = .ofNat messageSize
  | n + 1, _, _, h => by
    obtain rfl | h := List.mem_cons.mp h
    · rfl
    · exact size_of_mem_writerMessages h

/-- The first bytes of a message are its number. -/
theorem counter_of_rebuilt {counter : UInt64} {sendBuf : Mem UInt8} {r : Int32 × Mem UInt8}
    (h : Rebuilt r ⟨fillMessage counter sendBuf, .ofNat messageSize⟩) :
    receivedCounter r.2 = counter := by
  have hlen : (leBytes 8 counter.toNat).length = 8 := length_leBytes 8 _
  have hfirst : bytesAt (fillMessage counter sendBuf) 0 8 = leBytes 8 counter.toNat := by
    rw [fillMessage, bytesAt_store_disjoint (.inl (by decide)), bytesAt_store_eq sendBuf 0 hlen]
  have hsize : 8 ≤ (UInt64.ofNat messageSize).toNat := by decide
  have hread : bytesAt r.2 0 8 = leBytes 8 counter.toNat := by
    rw [← take_bytesAt r.2 0 hsize, h.2, take_bytesAt _ 0 hsize, hfirst]
  rw [receivedCounter, hread, ofNat_leValue_leBytes]

/-- Messages that arrive in order are reported so. -/
theorem readerLoop_of_rebuilt :
    ∀ {rs : List (Int32 × Mem UInt8)} {n : Nat} {counter : UInt64} {sendBuf : Mem UInt8},
    List.Forall₂ Rebuilt rs (writerMessages n counter sendBuf) →
      readerLoop counter rs = (List.range n).map fun k => .received (counter + .ofNat k)
  | [], 0, _, _, _ => rfl
  | r :: rs, n + 1, counter, sendBuf, h => by
    obtain ⟨hr, hrs⟩ := List.forall₂_cons.mp h
    rw [readerLoop, if_neg (not_ne_iff.mpr hr.1), counter_of_rebuilt hr, if_neg (not_ne_iff.mpr rfl),
      readerLoop_of_rebuilt hrs, List.range_succ_eq_map, List.map_cons, List.map_map]
    congr 1
    · exact congrArg _ (UInt64.add_zero counter).symm
    · refine List.map_congr_left fun k _ => congrArg _ ?_
      rw [Nat.succ_eq_add_one, UInt64.ofNat_add, UInt64.add_assoc, UInt64.add_comm 1]
      rfl

theorem take_writerMessages : ∀ (k n : Nat) (counter : UInt64) (sendBuf : Mem UInt8), k ≤ n →
    (writerMessages n counter sendBuf).take k = writerMessages k counter sendBuf
  | 0, _, _, _, _ => rfl
  | k + 1, n + 1, _, _, h => by
    rw [writerMessages, List.take_succ_cons, take_writerMessages k n _ _ (Nat.le_of_succ_le_succ h),
      writerMessages]

/-- The writer and the reader on a channel that starts empty, on a table with
any history, with any number of clients on other channels and a trusted process
that rebalances the table meanwhile, as in `Undisturbed`: whatever the
schedule, the reader reports the numbers 0, 1, 2 and so on, and nothing else;
and whenever `control_mutex` is clear, every fair schedule of the clients
brings any number of messages over. -/
theorem counters_arrive {ι : Type*} [DecidableEq ι] (m₀ : Shm) (ops : List Op) (parties : ι → Party)
    {a b : ι} {i : Fin maxChannels} {sk rk : ChannelKey} {n : Nat} {sendBuf : Mem UInt8}
    {calls : List RecvCall} (ha : parties a = .sender sk (writerMessages n 0 sendBuf))
    (hb : parties b = .receiver rk calls) (hsk : findChannel (afterOps m₀ ops).ctr sk = some i)
    (hrk : findChannel (afterOps m₀ ops).ctr rk = some i)
    (hown : ∀ k, k ≠ a → k ≠ b → findChannel (afterOps m₀ ops).ctr (parties k).key ≠ some i)
    (hempty : ((afterOps m₀ ops).ctr.channels i).head = ((afterOps m₀ ops).ctr.channels i).tail)
    (hcalls : calls.map (·.size) = .replicate n (.ofNat messageSize))
    (turns : List (BalancingTurn ι))
    (hturns : Guarded balancingStep (Undisturbed i) (.start (afterOps m₀ ops) parties) turns) :
    let s := run balancingStep (.start (afterOps m₀ ops) parties) turns
    (∃ r, s.client b = .receiver r ∧
      readerLoop 0 r.returned = (List.range r.returned.length).map fun k => .received (.ofNat k)) ∧
    (s.shm.ctr.controlMutex = 0 → ∀ σ : Nat → ι × Int64, Fair Prod.fst σ →
      ∃ k r, (runSeq balancingStep s (fun n => .client (σ n).1 (σ n).2) k).client b = .receiver r ∧
        readerLoop 0 r.returned = (List.range n).map fun k => .received (.ofNat k)) := by
  have hsize : ∀ msg ∈ writerMessages n 0 sendBuf, 2 * pageSize ≤ msg.size.toNat ∧
    msg.size.toNat < 2 ^ 31 :=
    fun msg hm => by
      rw [size_of_mem_writerMessages hm]
      decide
  have hsizes : calls.map (·.size) = (writerMessages n 0 sendBuf).map (·.size) := by
    rw [hcalls, eq_comm, List.eq_replicate_iff, List.length_map, length_writerMessages]
    refine ⟨rfl, fun size hs => ?_⟩
    obtain ⟨msg, hm, rfl⟩ := List.mem_map.mp hs
    exact size_of_mem_writerMessages hm
  have hzero : (fun k : Nat => ReaderReport.received (0 + .ofNat k)) = fun k => .received (.ofNat k) :=
    funext fun k => congrArg _ (UInt64.zero_add _)
  intro s
  have h : ResizeInv (afterOps m₀ ops) parties i a b (writerMessages n 0 sendBuf) s :=
    hturns.run_inv (fun _ turn h hg => h.step hown turn hg)
      (resizeInv_start m₀ ops ha hb hsk hrk hempty hsize hsizes)
  refine ⟨?_, fun hclear σ hσ => ?_⟩
  · obtain ⟨t, r, -, hr, hl⟩ := h.link
    have hrebuilt := hl.rebuilt
    have hle : r.returned.length ≤ n := by
      have := hrebuilt.length_eq
      rw [List.length_take, length_writerMessages] at this
      exact this.le.trans (Nat.min_le_right _ _)
    rw [take_writerMessages _ _ _ _ hle] at hrebuilt
    exact ⟨r, hr, (readerLoop_of_rebuilt hrebuilt).trans (by rw [hzero])⟩
  · obtain ⟨k, l, hlink, hinv, hd⟩ := h.exists_done hown hclear hσ
    exact ⟨k, l.receiver, hlink.receiver,
      (readerLoop_of_rebuilt (hinv.rebuilt_of_done hd)).trans (by rw [hzero])⟩

/-- A writer of one message and a reader on the second of two channels. -/
def countingParties : Fin 2 → Party
  | 0 => .sender ⟨3, 6, 4⟩ (writerMessages 1 0 fun _ => 0)
  | 1 => .receiver ⟨3, 6, 4⟩ [⟨fun _ => 0, .ofNat messageSize⟩]

theorem counters_arrive_moved :
    let s := run balancingStep (.start (afterOps zeroShm twoChannels) countingParties)
      (.replicate 14 (.client 0 0) ++ .replicate 11 (.client 1 0) ++ .replicate 29 (.trusted true))
    ∃ k r,
      (runSeq balancingStep s (fun n => .client (bothInTurn n).1 (bothInTurn n).2) k).client 1 =
        .receiver r ∧
      readerLoop 0 r.returned = [.received 0] :=
  (counters_arrive zeroShm twoChannels countingParties (a := 0) (b := 1) (i := 1) rfl rfl
    (by decide +kernel) (by decide +kernel) (fun k h0 h1 => by omega) (by decide +kernel) rfl _
    (by decide +kernel)).2 (by decide +kernel) bothInTurn fair_bothInTurn

end Ivshmem
