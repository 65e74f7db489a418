import SecureIvshmem.Impl.LockParties
import SecureIvshmem.Proof.LockBase

/-!
# The lock with any number of parties

`mutex` is set by a store some steps after the tests before it. In runs where
those tests still hold at each such store (`TestsHold`), only one party at a
time is inside, and the chunks go back and forth (`lockExclusive_of_guarded`);
in others they may not.
-/

namespace Ivshmem

open SharedMem

/-! ## States -/

/-- Between `atomic_store(&mutex, true)` and `atomic_store(&mutex, false)`. -/
def LockParty.inside : LockParty → Bool
  | .sender t => t.pc.inCs
  | .receiver t => t.pc.inCs

/-- The tests that lead to `atomic_store(&mutex, true)`, at that store. -/
def TestsHold {ι : Type*} (s : LockParties ι) (p : ι) : Prop :=
  match s.party p with
  | .sender t => t.pc = .setMutex → s.shm.mutex = false ∧ s.shm.refCount ≤ 0
  | .receiver t => t.pc = .setMutex → s.shm.mutex = false ∧ 0 < s.shm.refCount

instance {ι : Type*} (s : LockParties ι) (p : ι) : Decidable (TestsHold s p) := by
  unfold TestsHold
  split <;> infer_instance

/-- One party at a time is inside, `ref_count` is 0 or 1, and no sender is
about to overwrite a chunk that no receiver has copied. -/
structure LockExclusive {ι : Type*} (s : LockParties ι) : Prop where
  exclusive : ∀ p q, (s.party p).inside = true → (s.party q).inside = true → p = q
  refCount : s.shm.refCount = 0 ∨ s.shm.refCount = 1
  kept : s.unread = true → ∀ p t, s.party p = .sender t → t.pc ≠ .copy

/-! ## One party -/

/-- What `ref_count` and the chunk are while a party is inside. -/
def Holding (refCount : Int32) (unread : Bool) : LockParty → Prop
  | .sender t =>
    if t.pc = .clearMutex then refCount = 1 ∧ unread = true else refCount = 0 ∧ unread = false
  | .receiver t =>
    match t.pc with
    | .copy => refCount = 1 ∧ unread = true
    | .writeRefCount n => refCount = 1 ∧ unread = false ∧ n = 1
    | .clearMutex => refCount = 0 ∧ unread = false
    | _ => refCount = 1 ∧ unread = false

/-- What they are while nobody is. -/
def AtRest (refCount : Int32) (unread : Bool) : Prop :=
  refCount = 0 ∧ unread = false ∨ refCount = 1 ∧ unread = true

/-- What a step of a party may do: nothing; move outside; set `mutex`; go on
inside; clear `mutex`. -/
inductive LockMove (m : LockShm) (unread : Bool) (p : LockParty) : LockShm → Bool → LockParty → Prop
  | done : LockMove m unread p m unread p
  | waits {p'} (hp : p.inside = false) (h : p'.inside = false) : LockMove m unread p m unread p'
  | enters {p'} (hm : m.mutex = false) (hp : p.inside = false) (h : p'.inside = true)
    (hh : Holding m.refCount unread p') : LockMove m unread p { m with mutex := true } unread p'
  | goesOn {m' u' p'} (hp : p.inside = true) (h : p'.inside = true) (hm : m'.mutex = m.mutex)
    (hh : Holding m'.refCount u' p') : LockMove m unread p m' u' p'
  | leaves {p'} (hp : p.inside = true) (h : p'.inside = false) (hh : AtRest m.refCount unread) :
    LockMove m unread p { m with mutex := false } unread p'

section

variable {m : LockShm} {unread : Bool}

theorem lockSend_move {t : LockSender} (hin : t.pc.inCs = true → Holding m.refCount unread (.sender t))
    (htest : t.pc = .setMutex → m.mutex = false ∧ m.refCount = 0 ∧ unread = false) :
    LockMove m unread (.sender t) (lockSendStep m t).1 (unreadAfter unread (.sender t))
      (.sender (lockSendStep m t).2) := by
  cases hc : t.calls with
  | nil =>
    simp only [lockSendStep, unreadAfter, hc]
    exact .done
  | cons msg rest =>
    cases hpc : t.pc with
    | loop =>
      have hout := congrArg LockSendPc.inCs hpc
      simp only [lockSendStep, lockSendCallStep, unreadAfter, hc, hpc]
      split
      · exact .waits hout rfl
      · refine .waits hout ?_
        show LockSendPc.inCs _ = false
        split <;> rfl
    | mutex =>
      simp only [lockSendStep, lockSendCallStep, unreadAfter, hc, hpc]
      refine .waits (congrArg LockSendPc.inCs hpc) ?_
      show LockSendPc.inCs _ = false
      split <;> rfl
    | setMutex =>
      simp only [lockSendStep, lockSendCallStep, unreadAfter, hc, hpc]
      exact .enters (htest hpc).1 (congrArg LockSendPc.inCs hpc) rfl (htest hpc).2
    | clearMutex =>
      have hcs := congrArg LockSendPc.inCs hpc
      have hh := hin hcs
      simp only [Holding, hpc, if_true] at hh
      simp only [lockSendStep, lockSendCallStep, unreadAfter, hc, hpc]
      exact .leaves hcs rfl (.inr hh)
    | refCount =>
      simp only [lockSendStep, lockSendCallStep, unreadAfter, hc, hpc]
      exact .goesOn (congrArg LockSendPc.inCs hpc) rfl rfl ⟨rfl, rfl⟩
    | _ =>
      have hcs := congrArg LockSendPc.inCs hpc
      have hh := hin hcs
      simp only [Holding, hpc, reduceCtorEq, if_false] at hh
      simp only [lockSendStep, lockSendCallStep, unreadAfter, hc, hpc]
      exact .goesOn hcs rfl rfl hh

theorem lockRecv_move {t : LockReceiver}
    (hin : t.pc.inCs = true → Holding m.refCount unread (.receiver t))
    (htest : t.pc = .setMutex → m.mutex = false ∧ m.refCount = 1 ∧ unread = true) :
    LockMove m unread (.receiver t) (lockRecvStep m t).1 (unreadAfter unread (.receiver t))
      (.receiver (lockRecvStep m t).2) := by
  cases hc : t.calls with
  | nil =>
    simp only [lockRecvStep, unreadAfter, hc]
    exact .done
  | cons call rest =>
    cases hpc : t.pc with
    | loop =>
      have hout := congrArg LockRecvPc.inCs hpc
      simp only [lockRecvStep, lockRecvCallStep, unreadAfter, hc, hpc]
      split
      · exact .waits hout rfl
      · refine .waits hout ?_
        show LockRecvPc.inCs _ = false
        split <;> rfl
    | keySender =>
      simp only [lockRecvStep, lockRecvCallStep, unreadAfter, hc, hpc]
      refine .waits (congrArg LockRecvPc.inCs hpc) ?_
      show LockRecvPc.inCs _ = false
      split
      · rfl
      · split <;> rfl
    | keyPid | refCount | mutex =>
      simp only [lockRecvStep, lockRecvCallStep, unreadAfter, hc, hpc]
      refine .waits (congrArg LockRecvPc.inCs hpc) ?_
      show LockRecvPc.inCs _ = false
      split <;> rfl
    | setMutex =>
      simp only [lockRecvStep, lockRecvCallStep, unreadAfter, hc, hpc]
      exact .enters (htest hpc).1 (congrArg LockRecvPc.inCs hpc) rfl (htest hpc).2
    | copy =>
      have hcs := congrArg LockRecvPc.inCs hpc
      have hh := hin hcs
      simp only [Holding, hpc] at hh
      simp only [lockRecvStep, lockRecvCallStep, unreadAfter, hc, hpc]
      exact .goesOn hcs rfl rfl ⟨hh.1, rfl⟩
    | readRefCount =>
      have hcs := congrArg LockRecvPc.inCs hpc
      have hh := hin hcs
      simp only [Holding, hpc] at hh
      simp only [lockRecvStep, lockRecvCallStep, unreadAfter, hc, hpc]
      exact .goesOn hcs rfl rfl ⟨hh.1, hh.2, hh.1⟩
    | writeRefCount n =>
      have hcs := congrArg LockRecvPc.inCs hpc
      have hh := hin hcs
      simp only [Holding, hpc] at hh
      simp only [lockRecvStep, lockRecvCallStep, unreadAfter, hc, hpc]
      refine .goesOn hcs rfl rfl ⟨?_, hh.2.1⟩
      rw [hh.2.2]
      rfl
    | clearMutex =>
      have hcs := congrArg LockRecvPc.inCs hpc
      have hh := hin hcs
      simp only [Holding, hpc] at hh
      simp only [lockRecvStep, lockRecvCallStep, unreadAfter, hc, hpc]
      exact .leaves hcs rfl (.inl hh)

end

/-! ## All parties -/

variable {ι : Type*}

/-- Who is inside, and what that makes of the shared state. -/
structure MutexInv (s : LockParties ι) : Prop where
  exclusive : ∀ p q, (s.party p).inside = true → (s.party q).inside = true → p = q
  mutex : ∀ p, (s.party p).inside = true → s.shm.mutex = true
  holds : ∀ p, (s.party p).inside = true → Holding s.shm.refCount s.unread (s.party p)
  atRest : s.shm.mutex = false → AtRest s.shm.refCount s.unread
  held : s.shm.mutex = true → ∃ p, (s.party p).inside = true

/-- Whatever `ref_count` may be inside or outside, it is 0 or 1. -/
theorem Holding.refCount {refCount : Int32} {unread : Bool} {p : LockParty}
    (h : Holding refCount unread p) :
    refCount = 0 ∨ refCount = 1 := by
  cases p with
  | sender t =>
    simp only [Holding] at h
    split at h
    · exact .inr h.1
    · exact .inl h.1
  | receiver t =>
    cases hpc : t.pc <;> simp only [Holding, hpc] at h
    case clearMutex => exact .inl h.1
    all_goals exact .inr h.1

theorem MutexInv.lockExclusive {s : LockParties ι} (h : MutexInv s) : LockExclusive s where
  exclusive := h.exclusive
  refCount := by
    cases hm : s.shm.mutex with
    | false =>
      obtain ⟨h0, -⟩ | ⟨h1, -⟩ := h.atRest hm
      · exact .inl h0
      · exact .inr h1
    | true =>
      obtain ⟨p, hp⟩ := h.held hm
      exact (h.holds p hp).refCount
  kept hu p t hp hcopy := by
    have hin : (s.party p).inside = true := by
      rw [hp, LockParty.inside, hcopy]
      rfl
    have hh := h.holds p hin
    rw [hp] at hh
    simp only [Holding, hcopy, reduceCtorEq, if_false] at hh
    rw [hh.2] at hu
    cases hu

/-- The invariant while nobody is inside. -/
theorem mutexInv_of_nobody {s : LockParties ι} (hno : ∀ p, (s.party p).inside = false)
    (hm : s.shm.mutex = false) (hr : AtRest s.shm.refCount s.unread) : MutexInv s := by
  have no : ∀ {p} {P : Prop}, (s.party p).inside = true → P := fun {p} _ h => by
    rw [hno p] at h
    cases h
  refine ⟨fun _ _ h => no h, fun _ h => no h, fun _ h => no h, fun _ => hr, fun h => ?_⟩
  rw [hm] at h
  cases h

/-- The invariant while `p` is inside. -/
theorem mutexInv_of_inside {s : LockParties ι} {p : ι} (hothers : ∀ q, q ≠ p → (s.party q).inside = false)
    (hp : (s.party p).inside = true) (hm : s.shm.mutex = true)
    (hh : Holding s.shm.refCount s.unread (s.party p)) :
    MutexInv s := by
  have eq : ∀ q, (s.party q).inside = true → q = p := fun q hq => by
    by_contra hne
    rw [hothers q hne] at hq
    cases hq
  refine ⟨fun q r hq hr => (eq q hq).trans (eq r hr).symm, fun _ _ => hm, fun q hq => ?_, fun h => ?_,
    fun _ => ⟨p, hp⟩⟩
  · rw [eq q hq]
    exact hh
  · rw [hm] at h
    cases h

theorem mutexInv_start (m : LockShm) (roles : ι → LockRole) : MutexInv (.start m roles) := by
  refine mutexInv_of_nobody (fun p => ?_) rfl (.inl ⟨rfl, rfl⟩)
  simp only [LockParties.start]
  cases roles p <;> rfl

/-- While `mutex` is clear nobody is inside. -/
theorem MutexInv.nobody {s : LockParties ι} (hi : MutexInv s) (hm : s.shm.mutex = false) (q : ι) :
    (s.party q).inside = false := by
  by_contra h
  rw [hi.mutex q (Bool.eq_true_of_not_eq_false h)] at hm
  cases hm

/-- A party that is inside is the only one. -/
theorem MutexInv.others {s : LockParties ι} (hi : MutexInv s) {p : ι}
    (hp : (s.party p).inside = true) (q : ι) (hq : q ≠ p) : (s.party q).inside = false := by
  by_contra h
  exact hq (hi.exclusive q p (Bool.eq_true_of_not_eq_false h) hp)

section

variable [DecidableEq ι] {s : LockParties ι} {p : ι}

/-- A step whose tests hold is a move. -/
theorem MutexInv.move (hi : MutexInv s) (ht : TestsHold s p) :
    LockMove s.shm s.unread (s.party p) (lockPartiesStep s p).shm (lockPartiesStep s p).unread
      ((lockPartiesStep s p).party p) := by
  have hin := hi.holds p
  simp only [lockPartiesStep, Function.update_self]
  unfold TestsHold at ht
  cases hp : s.party p with
  | sender t =>
    rw [hp] at hin
    simp only [hp] at ht
    refine lockSend_move hin fun hpc => ?_
    obtain ⟨hm, hr⟩ := ht hpc
    obtain h0 | ⟨h1, -⟩ := hi.atRest hm
    · exact ⟨hm, h0⟩
    · rw [h1] at hr
      exact absurd hr (by decide)
  | receiver t =>
    rw [hp] at hin
    simp only [hp] at ht
    refine lockRecv_move hin fun hpc => ?_
    obtain ⟨hm, hr⟩ := ht hpc
    obtain ⟨h0, -⟩ | h1 := hi.atRest hm
    · rw [h0] at hr
      exact absurd hr (by decide)
    · exact ⟨hm, h1⟩

theorem MutexInv.step (hi : MutexInv s) (ht : TestsHold s p) : MutexInv (lockPartiesStep s p) := by
  have hmove := hi.move ht
  have hne : ∀ q, q ≠ p → (lockPartiesStep s p).party q = s.party q :=
    fun q h => Function.update_of_ne h _ _
  have hout : ∀ {b : Bool}, (∀ q, q ≠ p → (s.party q).inside = b) →
      ∀ q, q ≠ p → ((lockPartiesStep s p).party q).inside = b := fun h q hq => by rw [hne q hq, h q hq]
  generalize lockPartiesStep s p = s' at hmove hne hout
  obtain ⟨m', party', u'⟩ := s'
  simp only at hmove hne hout
  generalize hp' : party' p = p' at hmove
  cases hmove with
  | done =>
    have heq : party' = s.party := funext fun q => by
      by_cases h : q = p
      · rw [h, hp']
      · exact hne q h
    rw [heq]
    exact hi
  | waits hp h =>
    -- those inside are the same as before
    have hin : ∀ q, (party' q).inside = true → party' q = s.party q := fun q hq => by
      refine hne q fun e => ?_
      rw [e, hp', h] at hq
      cases hq
    refine ⟨fun q r hq hr => ?_, fun q hq => ?_, fun q hq => ?_, hi.atRest, fun hm => ?_⟩
    · exact hi.exclusive q r (hin q hq ▸ hq) (hin r hr ▸ hr)
    · exact hi.mutex q (hin q hq ▸ hq)
    · show Holding s.shm.refCount s.unread (party' q)
      rw [hin q hq]
      exact hi.holds q (hin q hq ▸ hq)
    · obtain ⟨q, hq⟩ := hi.held hm
      have hqp : q ≠ p := fun e => by
        rw [e, hp] at hq
        cases hq
      refine ⟨q, ?_⟩
      show (party' q).inside = true
      rw [hne q hqp]
      exact hq
  | enters hm hp h hh =>
    subst hp'
    exact mutexInv_of_inside (hout fun q _ => hi.nobody hm q) h rfl hh
  | goesOn hp h hm hh =>
    subst hp'
    exact mutexInv_of_inside (hout (hi.others hp)) h (hm.trans (hi.mutex p hp)) hh
  | leaves hp h hh =>
    subst hp'
    refine mutexInv_of_nobody (fun q => ?_) rfl hh
    by_cases hq : q = p
    · exact hq ▸ h
    · exact hout (hi.others hp) q hq

end

/-- In every run of any number of parties in which the tests before each store
to `mutex` still hold at that store, the lock excludes them. -/
theorem lockExclusive_of_guarded [DecidableEq ι] (m : LockShm) (roles : ι → LockRole) {ls : List ι}
    (h : Guarded lockPartiesStep TestsHold (.start m roles) ls) :
    LockExclusive (run lockPartiesStep (.start m roles) ls) :=
  (h.run_inv (fun _ _ hi ht => MutexInv.step hi ht) (mutexInv_start m roles)).lockExclusive

/-- A sender of one byte and a receiver for it. -/
def senderAndReceiver : Bool → LockRole
  | true => .sends ⟨1, 2, 3⟩ [⟨fun _ => 7, 1⟩]
  | false => .receives ⟨1, 0, 3⟩ [⟨fun _ => 0, 1⟩]

theorem lockExclusive_of_guarded_two : LockExclusive
    (run lockPartiesStep (.start ⟨5, true, ⟨0, 0, 0⟩, 0, fun _ => 0⟩ senderAndReceiver)
      (List.replicate 10 true ++ List.replicate 9 false)) :=
  lockExclusive_of_guarded _ _ (by decide)

/-- Two senders that both test `mutex` before either sets it are both inside. -/
theorem not_lockExclusive : ¬ ∀ (m : LockShm) (roles : Bool → LockRole) (ls : List Bool),
    LockExclusive (run lockPartiesStep (.start m roles) ls) := by
  intro h
  have := (h ⟨0, false, ⟨0, 0, 0⟩, 0, fun _ => 0⟩ (fun _ => .sends ⟨1, 2, 3⟩ [⟨fun _ => 7, 1⟩])
    [false, false, true, true, false, true]).exclusive false true (by decide) (by decide)
  cases this

end Ivshmem
