import Mathlib.Data.Finset.Basic
import Mathlib.Data.Finset.Dedup
import Mathlib.Data.Finset.Lattice.Lemmas
import Mathlib.Tactic.Common

/-!
# Resources held

What a program has acquired and not released, by name, and what it released
without holding it. `acquireAll` and `releaseAll` are those of a list;
`releaseAll_stray` says when a list of releases is clean:
they are of distinct resources, all of them held. `releaseAll_live` is what
they leave. `Holds` is the account of a program that keeps a list of what it
holds.
-/

namespace SharedMem

variable {H : Type*}

/-- The resources held, and the releases of others. -/
structure Ledger (H : Type*) where
  live : Finset H
  stray : List H

namespace Ledger

/-- Nothing held, nothing released. -/
def empty : Ledger H := ⟨∅, []⟩

variable [DecidableEq H]

def acquire (l : Ledger H) (h : H) : Ledger H := { l with live := insert h l.live }

def release (l : Ledger H) (h : H) : Ledger H :=
  if h ∈ l.live then { l with live := l.live.erase h } else { l with stray := l.stray ++ [h] }

/-- The acquisitions of a list, in order. -/
def acquireAll (l : Ledger H) (hs : List H) : Ledger H := hs.foldl acquire l

/-- The releases of a list, in order. -/
def releaseAll (l : Ledger H) (hs : List H) : Ledger H := hs.foldl release l

variable (l : Ledger H) (h : H) (hs : List H)

@[simp] theorem acquire_live : (l.acquire h).live = insert h l.live := rfl
@[simp] theorem acquire_stray : (l.acquire h).stray = l.stray := rfl

theorem acquireAll_live : ∀ (hs : List H) (l : Ledger H), (l.acquireAll hs).live = l.live ∪ hs.toFinset
  | [], l => by simp [acquireAll]
  | h :: hs, l => by
    rw [acquireAll, List.foldl_cons, ← acquireAll, acquireAll_live hs, acquire_live, List.toFinset_cons]
    ext x
    simp only [Finset.mem_union, Finset.mem_insert]
    tauto

theorem acquireAll_stray : ∀ (hs : List H) (l : Ledger H), (l.acquireAll hs).stray = l.stray
  | [], _ => rfl
  | _ :: hs, _ => acquireAll_stray hs _

theorem acquireAll_cons : l.acquireAll (h :: hs) = (l.acquire h).acquireAll hs := rfl

theorem acquireAll_append (hs' : List H) : l.acquireAll (hs ++ hs') = (l.acquireAll hs).acquireAll hs' :=
  List.foldl_append

@[simp] theorem releaseAll_nil : l.releaseAll [] = l := rfl

@[simp] theorem releaseAll_cons : l.releaseAll (h :: hs) = (l.release h).releaseAll hs := rfl

theorem releaseAll_append (hs' : List H) : l.releaseAll (hs ++ hs') = (l.releaseAll hs).releaseAll hs' :=
  List.foldl_append

theorem release_of_mem {l : Ledger H} {h : H} (hh : h ∈ l.live) :
    l.release h = ⟨l.live.erase h, l.stray⟩ :=
  if_pos hh

theorem release_of_notMem {l : Ledger H} {h : H} (hh : h ∉ l.live) :
    l.release h = ⟨l.live, l.stray ++ [h]⟩ :=
  if_neg hh

/-- An acquisition undone. -/
theorem release_acquire {l : Ledger H} {h : H} (hh : h ∉ l.live) : (l.acquire h).release h = l := by
  rw [release_of_mem (Finset.mem_insert_self h l.live), acquire_live, acquire_stray,
    Finset.erase_insert hh]

/-- What is held after a release. -/
theorem release_live : (l.release h).live = l.live.erase h := by
  by_cases hh : h ∈ l.live
  · rw [release_of_mem hh]
  · rw [release_of_notMem hh, Finset.erase_eq_of_notMem hh]

theorem releaseAll_live : ∀ (hs : List H) (l : Ledger H), (l.releaseAll hs).live = l.live \ hs.toFinset
  | [], l => by simp
  | h :: hs, l => by
    rw [releaseAll_cons, releaseAll_live hs, release_live, List.toFinset_cons]
    ext x
    simp only [Finset.mem_sdiff, Finset.mem_erase, Finset.mem_insert]
    tauto

/-- Stray releases stay on record. -/
theorem stray_length_le : ∀ (hs : List H) (l : Ledger H), l.stray.length ≤ (l.releaseAll hs).stray.length
  | [], _ => Nat.le_refl _
  | h :: hs, l => by
    refine Nat.le_trans ?_ (stray_length_le hs (l.release h))
    by_cases hh : h ∈ l.live
    · rw [release_of_mem hh]
    · rw [release_of_notMem hh, List.length_append]
      exact Nat.le_add_right _ _

/-- Releases are all of resources held just if they name distinct ones, held
before. -/
theorem releaseAll_stray : ∀ (hs : List H) (l : Ledger H),
    (l.releaseAll hs).stray = l.stray ↔ hs.Nodup ∧ ∀ h ∈ hs, h ∈ l.live
  | [], l => by simp
  | h :: hs, l => by
    rw [releaseAll_cons]
    by_cases hh : h ∈ l.live
    · have ih := releaseAll_stray hs (l.release h)
      rw [release_of_mem hh] at ih ⊢
      rw [ih]
      simp only [Finset.mem_erase, List.nodup_cons, List.forall_mem_cons, hh, true_and]
      constructor
      · rintro ⟨hn, hall⟩
        exact ⟨⟨fun hmem => (hall h hmem).1 rfl, hn⟩, fun x hx => (hall x hx).2⟩
      · rintro ⟨⟨hnot, hn⟩, hall⟩
        exact ⟨hn, fun x hx => ⟨fun e => hnot (e ▸ hx), hall x hx⟩⟩
    · refine iff_of_false (fun e => ?_) fun ⟨_, hall⟩ => hh (hall h List.mem_cons_self)
      have hle := stray_length_le hs (l.release h)
      rw [e, release_of_notMem hh, List.length_append, List.length_singleton] at hle
      exact absurd hle (Nat.not_succ_le_self _)

/-! ## Accounts -/

/-- The resources held are those of a list, each once, and none has been
released that was not held. -/
structure Holds (l : Ledger H) (hs : List H) : Prop where
  live : l.live = hs.toFinset
  nodup : hs.Nodup
  stray : l.stray = []

variable {l hs}

theorem Holds.perm {hs' : List H} (h : l.Holds hs) (hp : hs.Perm hs') : l.Holds hs' :=
  ⟨h.live.trans (List.toFinset_eq_of_perm _ _ hp), hp.nodup_iff.mp h.nodup, h.stray⟩

theorem Holds.acquireAll {new : List H} (h : l.Holds hs) (hnew : new.Nodup)
    (hfresh : ∀ x ∈ new, x ∉ l.live) :
    (l.acquireAll new).Holds (hs ++ new) := by
  refine ⟨by rw [acquireAll_live, h.live, List.toFinset_append], ?_,
    (acquireAll_stray new l).trans h.stray⟩
  refine List.nodup_append.mpr ⟨h.nodup, hnew, ?_⟩
  rintro a ha b hb rfl
  exact hfresh a hb (by rw [h.live]; exact List.mem_toFinset.mpr ha)

theorem Holds.releaseAll {old : List H} (h : l.Holds (hs ++ old)) : (l.releaseAll old).Holds hs := by
  obtain ⟨hn, hn', hd⟩ := List.nodup_append.mp h.nodup
  refine ⟨?_, hn, ?_⟩
  · rw [releaseAll_live, h.live, List.toFinset_append]
    ext x
    simp only [Finset.mem_sdiff, Finset.mem_union, List.mem_toFinset]
    exact ⟨fun hx => hx.1.resolve_right hx.2, fun hx => ⟨.inl hx, fun hx' => hd x hx x hx' rfl⟩⟩
  · rw [(releaseAll_stray old l).mpr ⟨hn', fun x hx => ?_⟩, h.stray]
    rw [h.live]
    exact List.mem_toFinset.mpr (List.mem_append_right _ hx)

/-- Some are acquired, then some released. -/
theorem Holds.exchange {hs' new old : List H} (h : l.Holds hs) (hnew : new.Nodup)
    (hfresh : ∀ x ∈ new, x ∉ l.live) (hp : (hs ++ new).Perm (hs' ++ old)) :
    ((l.acquireAll new).releaseAll old).Holds hs' :=
  ((h.acquireAll hnew hfresh).perm hp).releaseAll

end Ledger

end SharedMem
