import SecureIvshmem.Proof.Table

/-!
# How the trusted calls return

`ivshmem_trusted_control` and `ivshmem_trusted_rebalancing` change nothing but
the flags when they return -1 (`Releases.unchanged`), and they release
`control_mutex` on every way out but one, the return after a failed `malloc`.
So all calls of a run release it just if none gets to a `malloc` that fails
(`releases_iff`).
-/

namespace Ivshmem

open SharedMem

/-- What a call must leave behind where it returns `ret` and the section
`c'`. -/
structure Releases (c : ControlSection) (ret : Int32) (c' : ControlSection) : Prop where
  mutex : c'.controlMutex = 0
  unchanged : ret = -1 →
    c' = { c with controlMutex := c'.controlMutex, hasChannelCandidate := c'.hasChannelCandidate }

/-- Whether an operation, if it is a call of one of the two functions, returns
as it must. -/
def CallReleases (m : Shm) : Op → Prop
  | .trustedControl => ∃ ret c', trustedControl m.ctr = .ok (ret, c') ∧ Releases m.ctr ret c'
  | .trustedRebalancing malloc =>
    ∃ ret c', trustedRebalancing malloc m.ctr = .ok (ret, c') ∧ Releases m.ctr ret c'
  | _ => True

/-- No rebalancing with something to do finds no memory. -/
def NoFailedMalloc (m : Shm) : Op → Prop
  | .trustedRebalancing malloc =>
    malloc = true ∨ m.ctr.numActiveChannels.toInt ≤ 0 ∨ balanced m.ctr = true
  | _ => True

section

variable {m : Shm} (h : AllocInv m.ctr) (h0 : m.ctr.controlMutex = 0)
include h h0

theorem trustedControl_releases : CallReleases m .trustedControl := by
  obtain ⟨-, e⟩ | ⟨-, e, -⟩ | ⟨-, i, -, -, e⟩ := trustedControl_cases h.nonneg
  · exact ⟨_, _, e, h0, fun _ => rfl⟩
  · exact ⟨_, _, e, rfl, fun _ => rfl⟩
  · exact ⟨_, _, e, rfl, fun hret => absurd hret (by decide)⟩

theorem trustedRebalancing_releases_iff (malloc : Bool) :
    CallReleases m (.trustedRebalancing malloc) ↔ NoFailedMalloc m (.trustedRebalancing malloc) := by
  obtain ⟨hn, e⟩ | ⟨hn, hb, e⟩ | ⟨hn, hb, hm, e⟩ | ⟨hn, hb, hm, e⟩ :=
    trustedRebalancing_cases h.le_max malloc
  · exact ⟨fun _ => .inr (.inl hn), fun _ => ⟨_, _, e, h0, fun _ => rfl⟩⟩
  · exact ⟨fun _ => .inr (.inr hb), fun _ => ⟨_, _, e, rfl, fun _ => rfl⟩⟩
  · constructor
    · rintro ⟨ret, c', e', hr⟩
      rw [e] at e'
      cases e'
      exact absurd (show (1 : UInt8) = 0 from hr.mutex) (by decide)
    · rintro (hm' | hn' | hb')
      · rw [hm] at hm'
        cases hm'
      · omega
      · rw [hb] at hb'
        cases hb'
  · exact ⟨fun _ => .inl hm, fun _ => ⟨_, _, e, rfl, fun hret => absurd hret (by decide)⟩⟩

theorem callReleases_iff (op : Op) : CallReleases m op ↔ NoFailedMalloc m op := by
  cases op with
  | trustedControl => exact ⟨fun _ => trivial, fun _ => trustedControl_releases h h0⟩
  | trustedRebalancing malloc => exact trustedRebalancing_releases_iff h h0 malloc
  | _ => exact .rfl

/-- Between calls that release it `control_mutex` stays clear: no other
operation writes it. -/
theorem apply_controlMutex {op : Op} (hr : CallReleases m op) : (Op.apply m op).ctr.controlMutex = 0 := by
  unfold Op.apply
  cases op with
  | trustedControl =>
    obtain ⟨ret, c', e, hr⟩ := hr
    simp only [Op.exec, e, Except.map, Shm.setCtr_ctr]
    exact hr.mutex
  | trustedRebalancing malloc =>
    obtain ⟨ret, c', e, hr⟩ := hr
    simp only [Op.exec, e, Except.map, Shm.setCtr_ctr]
    exact hr.mutex
  | createChannel key =>
    obtain ⟨e, -⟩ | ⟨i, -, -, e⟩ := createChannel_cases h.nonneg key
    all_goals simp only [Op.exec, e, Except.map, Shm.setCtr_ctr, created_controlMutex, h0]
  | findOrCreateChannel key =>
    obtain ⟨i, -, e⟩ | ⟨-, -, e⟩ | ⟨-, i, -, -, e⟩ := findOrCreateChannel_cases h.nonneg key
    all_goals simp only [Op.exec, e, Except.map, Shm.setCtr_ctr, created_controlMutex, h0]
  | request key => exact h0
  | advanceHead i | advanceTail i => simp only [Op.exec]; split <;> exact h0
  | send now i msg dataSent =>
    simp only [Op.exec, sendIteration]
    repeat' split
    all_goals exact h0
  | recv i size dataReceived =>
    simp only [Op.exec, recvIteration]
    repeat' split
    all_goals exact h0

end

/-- In every run from `ivshmem_init_control_section`: all calls of the two
functions release `control_mutex`, and change nothing but the flags if they
return -1, just if no rebalancing that gets to `malloc` is refused memory. -/
theorem releases_iff (m : Shm) (ops : List Op) :
    Guarded Op.apply CallReleases (initControlSection m) ops ↔
      Guarded Op.apply NoFailedMalloc (initControlSection m) ops :=
  guarded_congr (I := fun m : Shm => AllocInv m.ctr ∧ m.ctr.controlMutex = 0)
    (fun _ op h => callReleases_iff h.1 h.2 op)
    (fun _ op h hr => ⟨h.1.apply op, apply_controlMutex h.1 h.2 hr⟩) ⟨allocInv_init m, rfl⟩

/-- A rebalancing of one channel that is refused memory returns with
`control_mutex` set. -/
theorem not_releases_of_failed_malloc :
    ¬ ∀ (m : Shm) (ops : List Op), Guarded Op.apply CallReleases (initControlSection m) ops := by
  intro h
  obtain ⟨-, -, ⟨ret, c', e, hr⟩, -⟩ :=
    h zeroShm [.request ⟨1, 5, 2⟩, .trustedControl, .trustedRebalancing false]
  have hmutex : (trustedRebalancing false
      (afterOps zeroShm [.request ⟨1, 5, 2⟩, .trustedControl]).ctr).toOption.map
      (fun r => r.2.controlMutex) = some 1 := by decide +kernel
  have e' : trustedRebalancing false (afterOps zeroShm [.request ⟨1, 5, 2⟩, .trustedControl]).ctr =
    .ok (ret, c') := e
  rw [e'] at hmutex
  have h1 : c'.controlMutex = 1 := Option.some.inj hmutex
  rw [hr.mutex] at h1
  exact absurd h1 (by decide)

end Ivshmem
