import Mathlib.Data.List.Basic
import Mathlib.Logic.Function.Iterate
import Mathlib.Tactic.Common

/-!
# Runs of interleaved steps

A system is a function `step : S → L → S`: the state after the party named by
a label takes one step. A schedule is a list of labels, and `run` is the
state it leads to, so a statement about every interleaving is one about every
list. `run_inv` is the induction on schedules for an invariant of every step,
`run_inv_events` for one that speaks of the events so far, `Guarded.run_inv`
for an invariant of the steps that meet a condition, `guarded_iff` says when
that condition is exact, `guarded_or` what a run that does not meet it comes
to, and `guarded_congr` when two conditions come to the same.
`exists_done_of_trace` brings every fair schedule to completion where some party
is always ready to lower a measure, `exists_done_of_fair` where this needs only
an invariant of the steps, `exists_done_of_descends` where a step can do nothing
but wait or lower the measure. `run_agree` compares two runs with the same
steps of one group of parties, and `stutter_step` has the invariants of a system
that may stand still while another one takes a step. `Reaches` is a run of one
party alone.
-/

namespace SharedMem

variable {S L : Type*} {step : S → L → S}

/-- The state that the schedule `ls` leads to from `s`. -/
def run (step : S → L → S) (s : S) (ls : List L) : S := ls.foldl step s

@[simp] theorem run_nil (s : S) : run step s [] = s := rfl

@[simp] theorem run_cons (s : S) (l : L) (ls : List L) :
    run step s (l :: ls) = run step (step s l) ls := rfl

theorem run_append (s : S) (ls ls' : List L) :
    run step s (ls ++ ls') = run step (run step s ls) ls' := List.foldl_append

/-- An invariant of every step holds after every run. -/
theorem run_inv {I : S → Prop} (hstep : ∀ s l, I s → I (step s l)) {s : S} (hs : I s) :
    ∀ ls, I (run step s ls)
  | [] => hs
  | l :: ls => run_inv hstep (hstep s l hs) ls

/-! ## What a run does -/

section

variable {E : Type*} {obs : S → L → List E}

/-- The events of a run, in order, where `obs` has those of a step. -/
def events (step : S → L → S) (obs : S → L → List E) : S → List L → List E
  | _, [] => []
  | s, l :: ls => obs s l ++ events step obs (step s l) ls

@[simp] theorem events_nil (s : S) : events step obs s [] = [] := rfl

@[simp] theorem events_cons (s : S) (l : L) (ls : List L) :
    events step obs s (l :: ls) = obs s l ++ events step obs (step s l) ls := rfl

/-- An invariant of states and of the events that led to them. -/
theorem run_inv_events {I : S → List E → Prop} (hstep : ∀ s l es, I s es → I (step s l) (es ++ obs s l)) :
    ∀ {s : S} {es : List E}, I s es → ∀ ls, I (run step s ls) (es ++ events step obs s ls)
  | _, _, hs, [] => by simpa using hs
  | _, _, hs, l :: ls => by simpa using run_inv_events hstep (hstep _ l _ hs) ls

end

/-! ## Steps of one party -/

/-- Some number of steps of `f` lead from `s` to `s'`. -/
def Reaches (f : S → S) (s s' : S) : Prop := ∃ n, f^[n] s = s'

theorem Reaches.refl (f : S → S) (s : S) : Reaches f s s := ⟨0, rfl⟩

theorem Reaches.trans {f : S → S} {s s' s'' : S} (h : Reaches f s s') (h' : Reaches f s' s'') :
    Reaches f s s'' := by
  obtain ⟨n, rfl⟩ := h
  obtain ⟨k, rfl⟩ := h'
  exact ⟨k + n, Function.iterate_add_apply f k n s⟩

/-- A step to `s'`, and then on. -/
theorem Reaches.via {f : S → S} {s s'' : S} (s' : S) (h : f s = s') (h' : Reaches f s' s'') :
    Reaches f s s'' :=
  .trans ⟨1, h⟩ h'

/-- Steps of one party are a run of the system, where `g` has its states in
those of the system. -/
theorem Reaches.exists_run {A : Type*} {f : A → A} {g : A → S} {l : L}
    (hg : ∀ a, step (g a) l = g (f a)) {a a' : A} (h : Reaches f a a') :
    ∃ ls, run step (g a) ls = g a' := by
  obtain ⟨n, rfl⟩ := h
  induction n generalizing a with
  | zero => exact ⟨[], rfl⟩
  | succ n ih =>
    obtain ⟨ls, h⟩ := @ih (f a)
    exact ⟨l :: ls, by rw [run_cons, hg, h, Function.iterate_succ_apply]⟩

/-! ## Runs whose steps meet a condition -/

/-- Every step of the schedule meets `G` in the state it is taken in. -/
def Guarded (step : S → L → S) (G : S → L → Prop) : S → List L → Prop
  | _, [] => True
  | s, l :: ls => G s l ∧ Guarded step G (step s l) ls

instance decidableGuarded (step : S → L → S) (G : S → L → Prop) [∀ s l, Decidable (G s l)] :
    ∀ (s : S) (ls : List L), Decidable (Guarded step G s ls)
  | _, [] => isTrue trivial
  | s, l :: ls => @instDecidableAnd _ _ _ (decidableGuarded step G (step s l) ls)

theorem Guarded.run_inv {G : S → L → Prop} {I : S → Prop}
    (hstep : ∀ s l, I s → G s l → I (step s l)) {s : S} (hs : I s) :
    ∀ {ls}, Guarded step G s ls → I (run step s ls)
  | [], _ => hs
  | l :: _, h => Guarded.run_inv hstep (hstep s l hs h.1) h.2

/-- `run_inv_events` for the steps that meet a condition. -/
theorem Guarded.run_inv_events {E : Type*} {obs : S → L → List E} {G : S → L → Prop}
    {I : S → List E → Prop} (hstep : ∀ s l es, I s es → G s l → I (step s l) (es ++ obs s l)) :
    ∀ {s : S} {es : List E}, I s es → ∀ {ls}, Guarded step G s ls →
    I (run step s ls) (es ++ events step obs s ls)
  | _, _, hs, [], _ => by simpa using hs
  | _, _, hs, l :: _, h => by simpa using Guarded.run_inv_events hstep (hstep _ l _ hs h.1) h.2

/-- The steps of a run that starts another one. -/
theorem Guarded.of_prefix {G : S → L → Prop} :
    ∀ {s : S} {ls ls' : List L}, Guarded step G s ls → ls' <+: ls → Guarded step G s ls'
  | _, _, [], _, _ => trivial
  | _, [], _ :: _, _, hpre => absurd (List.prefix_nil.mp hpre) (List.cons_ne_nil _ _)
  | _, l :: ls, l' :: ls', ⟨hg, h⟩, hpre => by
    obtain ⟨rfl, hpre'⟩ := List.cons_prefix_cons.mp hpre
    exact ⟨hg, h.of_prefix hpre'⟩

/-- A condition on the labels alone. -/
theorem Guarded.of_forall_mem {G : L → Prop} :
    ∀ {s : S} {ls : List L}, (∀ l ∈ ls, G l) → Guarded step (fun _ l => G l) s ls
  | _, [], _ => trivial
  | _, _ :: _, h => ⟨h _ List.mem_cons_self, of_forall_mem fun l hl => h l (List.mem_cons_of_mem _ hl)⟩

/-- Two conditions that agree wherever an invariant of the steps that meet the
first one holds are met by the same runs. -/
theorem guarded_congr {G G' : S → L → Prop} {I : S → Prop} (hG : ∀ s l, I s → (G s l ↔ G' s l))
    (hstep : ∀ s l, I s → G s l → I (step s l)) :
    ∀ {s : S}, I s → ∀ {ls}, Guarded step G s ls ↔ Guarded step G' s ls
  | _, _, [] => .rfl
  | s, hs, l :: _ => by
    refine ⟨fun h => ⟨(hG s l hs).mp h.1, ?_⟩, fun h => ⟨(hG s l hs).mpr h.1, ?_⟩⟩
    · exact (guarded_congr hG hstep (hstep s l hs h.1)).mp h.2
    · exact (guarded_congr hG hstep (hstep s l hs ((hG s l hs).mpr h.1))).mpr h.2

/-- An invariant of the steps with `E` after them, in a run with `E` in every
state that it reaches. -/
theorem run_inv_of_forall {I E : S → Prop} (hstep : ∀ s l, I s → E (step s l) → I (step s l)) :
    ∀ {s : S}, I s → ∀ {ls}, (∀ ls', ls' <+: ls → E (run step s ls')) → I (run step s ls)
  | _, hs, [], _ => hs
  | s, hs, l :: ls, h => by
    have hls : ∀ ls', ls' <+: ls → E (run step (step s l) ls') := fun ls' hpre =>
      h (l :: ls') (List.cons_prefix_cons.mpr ⟨rfl, hpre⟩)
    exact run_inv_of_forall hstep (hstep s l hs (hls [] List.nil_prefix)) hls

/-- Where a step that does not meet `G` leads to `J` for good, if to `E` at
all, a run with `E` in every state that it reaches meets `G` or ends in
`J`. -/
theorem guarded_or {G : S → L → Prop} {I J E : S → Prop} (hstep : ∀ s l, I s → G s l → I (step s l))
    (hG : ∀ s l, I s → E (step s l) → G s l ∨ J (step s l))
    (hJ : ∀ s l, J s → E (step s l) → J (step s l)) :
    ∀ {s : S}, I s → ∀ {ls}, (∀ ls', ls' <+: ls → E (run step s ls')) →
      Guarded step G s ls ∨ J (run step s ls)
  | _, _, [], _ => .inl trivial
  | s, hs, l :: ls, h => by
    have hls : ∀ ls', ls' <+: ls → E (run step (step s l) ls') := fun ls' hpre =>
      h (l :: ls') (List.cons_prefix_cons.mpr ⟨rfl, hpre⟩)
    obtain hg | hj := hG s l hs (hls [] List.nil_prefix)
    · exact (guarded_or hstep hG hJ (hstep s l hs hg) hls).imp_left fun h' => ⟨hg, h'⟩
    · exact .inr (run_inv_of_forall hJ hj hls)

/-- Where `G` is just what a step needs for `E` to hold after it, the runs
whose steps meet `G` are those with `E` in every state that they reach. -/
theorem guarded_iff {G : S → L → Prop} {I E : S → Prop}
    (hstep : ∀ s l, I s → G s l → I (step s l)) (hE : ∀ s, I s → E s)
    (hG : ∀ s l, I s → E (step s l) → G s l) :
    ∀ {s : S}, I s → ∀ {ls}, Guarded step G s ls ↔ ∀ ls', ls' <+: ls → E (run step s ls') := by
  intro s hs ls
  constructor
  · intro h ls' hpre
    exact hE _ ((h.of_prefix hpre).run_inv hstep hs)
  · intro h
    exact (guarded_or (J := fun _ => False) hstep (fun s l hs he => .inl (hG s l hs he))
      (fun _ _ h _ => h) hs h).resolve_right id

/-! ## Fair schedules -/

/-- The state after the first `n` steps of an endless schedule. -/
def runSeq (step : S → L → S) (s : S) (σ : Nat → L) (n : Nat) : S := run step s ((List.range n).map σ)

@[simp] theorem runSeq_zero (s : S) (σ : Nat → L) : runSeq step s σ 0 = s := rfl

theorem runSeq_succ (s : S) (σ : Nat → L) (n : Nat) :
    runSeq step s σ (n + 1) = step (runSeq step s σ n) (σ n) := by
  simp only [runSeq, List.range_succ, List.map_append, run_append, List.map_cons, List.map_nil,
    run_cons, run_nil]

/-- The schedule does as `σ'` from its step `n` on. -/
theorem runSeq_add (s : S) (σ : Nat → L) (n : Nat) :
    ∀ k, runSeq step s σ (n + k) = runSeq step (runSeq step s σ n) (fun i => σ (n + i)) k
  | 0 => rfl
  | k + 1 => by rw [← Nat.add_assoc, runSeq_succ, runSeq_succ, runSeq_add s σ n k]

/-- An invariant of the steps that meet `G`, along an endless schedule whose
steps do. -/
theorem runSeq_inv {G : S → L → Prop} {I : S → Prop} (hstep : ∀ s l, I s → G s l → I (step s l))
    {s : S} (hs : I s) {σ : Nat → L} (hσ : ∀ n, G (runSeq step s σ n) (σ n)) : ∀ n, I (runSeq step s σ n)
  | 0 => hs
  | n + 1 => by rw [runSeq_succ]; exact hstep _ _ (runSeq_inv hstep hs hσ n) (hσ n)

variable {P : Type*} {party : L → P}

/-- Every party takes a step again and again. -/
def Fair (party : L → P) (σ : Nat → L) : Prop := ∀ p n, ∃ k, party (σ (n + k)) = p

section

variable {x : Nat → S} {w : Nat → P} {done : S → Prop} {ready : P → S → Prop} {μ : S → Nat}
  {δ : P → S → Nat} (hw : ∀ p n, ∃ k, w (n + k) = p) (hready : ∀ n, ¬ done (x n) → ∃ p, ready p (x n))
  (hmine : ∀ n, ready (w n) (x n) → μ (x (n + 1)) < μ (x n) ∨
    μ (x (n + 1)) = μ (x n) ∧ ready (w n) (x (n + 1)) ∧ δ (w n) (x (n + 1)) < δ (w n) (x n))
  (hother : ∀ n p, ready p (x n) → w n ≠ p → μ (x (n + 1)) < μ (x n) ∨
    μ (x (n + 1)) = μ (x n) ∧ ready p (x (n + 1)) ∧ δ p (x (n + 1)) = δ p (x n))
include hw hready hmine hother

/-- `exists_done_of_trace` from a state where `p` is ready and takes a step
after `d` others. -/
theorem exists_done_of_ready (n : Nat) (p : P) (d : Nat) (hp : ready p (x n)) (hd : w (n + d) = p) :
    ∃ k, done (x (n + k)) := by
  have next : (∃ k, done (x (n + 1 + k))) → ∃ k, done (x (n + k)) := fun ⟨k, hk⟩ =>
    ⟨1 + k, by rwa [← Nat.add_assoc]⟩
  have less : μ (x (n + 1)) < μ (x n) → ∃ k, done (x (n + k)) := fun hμ => by
    by_cases hdone : done (x (n + 1))
    · exact next ⟨0, hdone⟩
    · obtain ⟨q, hq⟩ := hready _ hdone
      obtain ⟨k, hk⟩ := hw q (n + 1)
      exact next (exists_done_of_ready (n + 1) q k hq hk)
  by_cases hmy : w n = p
  · have hstep := hmine n (hmy.symm ▸ hp)
    rw [hmy] at hstep
    obtain hμ | ⟨hμ, hp', hδ⟩ := hstep
    · exact less hμ
    · obtain ⟨k, hk⟩ := hw p (n + 1)
      exact next (exists_done_of_ready (n + 1) p k hp' hk)
  · obtain hμ | ⟨hμ, hp', hδ⟩ := hother n p hp hmy
    · exact less hμ
    · cases d with
      | zero => exact absurd hd hmy
      | succ d => exact next (exists_done_of_ready (n + 1) p d hp' (by rwa [Nat.add_right_comm]))
termination_by (μ (x n), δ p (x n), d)
decreasing_by all_goals simp only [Prod.lex_def]; omega

/-- A sequence of states where every party takes a step again and again comes
to one that is `done`, again and again, if, before, some party is always
`ready`, and stays so until the work `μ` left is less: its own steps lower its
distance `δ` from there, and those of others do not change it. -/
theorem exists_done_of_trace (n : Nat) : ∃ k, done (x (n + k)) := by
  by_cases hdone : done (x n)
  · exact ⟨0, hdone⟩
  · obtain ⟨p, hp⟩ := hready n hdone
    obtain ⟨d, hd⟩ := hw p n
    exact exists_done_of_ready hw hready hmine hother n p d hp hd

end

/-- `exists_done_of_trace` for the schedules of a system with an invariant. -/
theorem exists_done_of_fair {I done : S → Prop} {ready : P → S → Prop} {μ : S → Nat} {δ : P → S → Nat}
    (hI : ∀ s l, I s → I (step s l)) (hready : ∀ s, I s → ¬ done s → ∃ p, ready p s)
    (hmine : ∀ s l, I s → ready (party l) s → μ (step s l) < μ s ∨
      μ (step s l) = μ s ∧ ready (party l) (step s l) ∧ δ (party l) (step s l) < δ (party l) s)
    (hother : ∀ s l p, I s → ready p s → party l ≠ p → μ (step s l) < μ s ∨
      μ (step s l) = μ s ∧ ready p (step s l) ∧ δ p (step s l) = δ p s)
    {σ : Nat → L} (hσ : Fair party σ) {s : S} (hs : I s) : ∃ n, done (runSeq step s σ n) := by
  have inv : ∀ n, I (runSeq step s σ n) :=
    runSeq_inv (G := fun _ _ => True) (fun s l hs _ => hI s l hs) hs fun _ => trivial
  obtain ⟨n, hn⟩ :=
    exists_done_of_trace (x := runSeq step s σ) (w := fun n => party (σ n)) hσ (fun n => hready _ (inv n))
    (fun n h => by rw [runSeq_succ]; exact hmine _ _ (inv n) h)
    (fun n p h hp => by rw [runSeq_succ]; exact hother _ _ p (inv n) h hp) 0
  exact ⟨0 + n, hn⟩

/-! ## Steps that wait or descend -/

section

variable {A : Type*} {r : A → A → Prop} {μ : S → A} {s s₀ : S} {σ : Nat → L}

/-- A party whose next step lowers `μ` takes it, unless another one lowers
`μ` before. -/
theorem exists_lower_of_fair (hstep : ∀ l, step s l = s ∨ r (μ (step s l)) (μ s)) {p : P}
    (hp : ∀ l, party l = p → r (μ (step s l)) (μ s)) :
    ∀ (d n : Nat), runSeq step s₀ σ n = s → party (σ (n + d)) = p →
    ∃ k, r (μ (runSeq step s₀ σ (n + k))) (μ s)
  | 0, n, e, hd => ⟨1, by rw [runSeq_succ, e]; exact hp _ hd⟩
  | d + 1, n, e, hd => by
    obtain hw | hr := hstep (σ n)
    · have e' : runSeq step s₀ σ (n + 1) = s := by rw [runSeq_succ, e, hw]
      rw [← Nat.add_assoc, Nat.add_right_comm] at hd
      obtain ⟨k, hk⟩ := exists_lower_of_fair hstep hp d (n + 1) e' hd
      exact ⟨1 + k, by rwa [← Nat.add_assoc]⟩
    · exact ⟨1, by rw [runSeq_succ, e]; exact hr⟩

/-- A fair schedule comes to a state that is `done` where every step waits or
lowers a measure in a well-founded relation, and, before, the next step of some
party is one that lowers it. -/
theorem exists_done_of_descends (wf : WellFounded r) {I done : S → Prop} (hI : ∀ s l, I s → I (step s l))
    (hstep : ∀ s l, I s → step s l = s ∨ r (μ (step s l)) (μ s))
    (hmove : ∀ s, I s → ¬ done s → ∃ p, ∀ l, party l = p → r (μ (step s l)) (μ s)) (hσ : Fair party σ)
    (hs : I s) : ∃ n, done (runSeq step s σ n) := by
  have inv : ∀ n, I (runSeq step s σ n) :=
    runSeq_inv (G := fun _ _ => True) (fun s l hs _ => hI s l hs) hs fun _ => trivial
  have descend : ∀ a n, μ (runSeq step s σ n) = a → ∃ n, done (runSeq step s σ n) := by
    intro a
    induction a using wf.induction with
    | h a ih =>
      rintro n rfl
      by_cases hdone : done (runSeq step s σ n)
      · exact ⟨n, hdone⟩
      · obtain ⟨p, hp⟩ := hmove _ (inv n) hdone
        obtain ⟨d, hd⟩ := hσ p n
        obtain ⟨k, hk⟩ := exists_lower_of_fair (fun l => hstep _ l (inv n)) hp d n rfl hd
        exact ih _ hk (n + k) rfl
  exact descend _ 0 rfl

end

/-! ## Two runs -/

/-- Two runs with the same steps of the parties `mine`, in the same order: if
a relation is kept when both sides take one of those steps, and when either
side takes any other step, it is kept by the runs. `I` is an invariant of
both. -/
theorem run_agree {I : S → Prop} {R : S → S → Prop} {mine : L → Prop} [DecidablePred mine]
    (hI : ∀ s l, I s → I (step s l))
    (hmine : ∀ s s' l, I s → I s' → R s s' → mine l → R (step s l) (step s' l))
    (hother : ∀ s s' l, I s → R s s' → ¬ mine l → R (step s l) s')
    (hsymm : ∀ s s', R s s' → R s' s) :
    ∀ (ls ls' : List L) (s s' : S), I s → I s' → R s s' →
      ls.filter (mine ·) = ls'.filter (mine ·) → R (run step s ls) (run step s' ls')
  | [], [], _, _, _, _, h, _ => h
  | l :: ls, ls', s, s', hs, hs', h, e => by
    by_cases hl : mine l
    · induction ls' generalizing s' with
      | nil => simp [hl] at e
      | cons l' ls' ih =>
        by_cases hl' : mine l'
        · simp only [List.filter_cons, hl, hl', decide_true, ↓reduceIte, List.cons.injEq] at e
          obtain ⟨rfl, e⟩ := e
          exact run_agree hI hmine hother hsymm ls ls' _ _ (hI _ _ hs) (hI _ _ hs')
            (hmine _ _ _ hs hs' h hl) e
        · exact ih _ (hI _ _ hs') (hsymm _ _ (hother _ _ _ hs' (hsymm _ _ h) hl'))
            (by simpa [hl, hl'] using e)
    · exact run_agree hI hmine hother hsymm ls ls' _ _ (hI _ _ hs) hs' (hother _ _ _ hs h hl)
        (by simpa [hl] using e)
  | [], l' :: ls', s, s', hs, hs', h, e => by
    by_cases hl' : mine l'
    · simp [hl'] at e
    · exact run_agree hI hmine hother hsymm [] ls' _ _ hs (hI _ _ hs')
        (hsymm _ _ (hother _ _ _ hs' (hsymm _ _ h) hl')) (by simpa [hl'] using e)

/-- Where one system takes a step and another one takes the same step or none,
so that `R` is kept, an invariant of the other is one of the first through
`R`. -/
theorem stutter_step {S' : Type*} {step' : S' → L → S'} {R : S → S' → Prop} {I' : S' → Prop}
    (hR : ∀ s s' l, R s s' → R (step s l) s' ∨ R (step s l) (step' s' l))
    (hI' : ∀ s' l, I' s' → I' (step' s' l)) {s : S} (h : ∃ s', R s s' ∧ I' s') (l : L) :
    ∃ s', R (step s l) s' ∧ I' s' := by
  obtain ⟨s', hr, hi⟩ := h
  obtain hr | hr := hR s s' l hr
  · exact ⟨s', hr, hi⟩
  · exact ⟨step' s' l, hr, hI' s' l hi⟩

end SharedMem
