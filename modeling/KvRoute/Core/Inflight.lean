import Mathlib.Algebra.BigOperators.Intervals
import Mathlib.Algebra.Order.BigOperators.Group.Finset
import KvRoute.Core.Worker
import KvRoute.Lib.Runs

set_option relaxedAutoImplicit false
set_option autoImplicit false

/-!
# In-flight counts

The per-worker counters of requests in flight (`crates/router-core/src/inflight.rs`): a vector
of `u64` counters indexed by worker id, which grows but never shrinks, and guards that count up
when they are acquired and down when they are dropped.  Either half silently skips an id that
the vector does not reach at that moment.

Acquiring, dropping and growing are each one atomic access to the vector, so a run of any
number of threads is a sequence of such steps.

## Main definitions

* `KvRoute.InflightTracker` with `ensureCapacity`, `count`, `total`, `increment`, `decrement`.
* `KvRoute.GuardState`, `KvRoute.GuardStep` — the tracker together with the live guards.
* `GuardState.Accurate` — the counters are the numbers of live guards.
* `GuardState.GrowsPastGuards` — the condition under which one step keeps them so.

## Main results

* `GuardState.accurate_step_iff` — the condition is exact, step by step.
* `KvRoute.inflight_accurate_iff` — and along every run.
* `KvRoute.inflight_wraps` — a run that leaves a counter below zero.
-/

namespace KvRoute

/-- Per-worker in-flight request counts: one counter per worker id. -/
structure InflightTracker where
  /-- The counter of worker `w` is at position `w`. -/
  counts : List UInt64
deriving DecidableEq, Repr

namespace InflightTracker

/-- Allocate counters for `workers` static workers. -/
def withCapacity (workers : ℕ) : InflightTracker := ⟨List.replicate workers 0⟩

/-- Grow the backing storage so counts up to `workers` are tracked. -/
def ensureCapacity (t : InflightTracker) (workers : ℕ) : InflightTracker :=
  if t.counts.length < workers then
    ⟨t.counts ++ List.replicate (workers - t.counts.length) 0⟩
  else t

/-- In-flight requests currently being served by `worker`. -/
def count (t : InflightTracker) (worker : WorkerId) : UInt64 := t.counts[worker]?.getD 0

/-- Total in-flight requests across all workers. -/
def total (t : InflightTracker) : UInt64 := t.counts.foldl (· + ·) 0

/-- Count one request up, if the worker is tracked. -/
def increment (t : InflightTracker) (worker : WorkerId) : InflightTracker :=
  ⟨t.counts.modify worker (· + 1)⟩

/-- Count one request down, if the worker is tracked. -/
def decrement (t : InflightTracker) (worker : WorkerId) : InflightTracker :=
  ⟨t.counts.modify worker (· - 1)⟩

/-! ## Lengths and counts -/

theorem length_ensureCapacity (t : InflightTracker) (workers : ℕ) :
    (t.ensureCapacity workers).counts.length = max t.counts.length workers := by
  unfold ensureCapacity
  split_ifs with h
  · rw [List.length_append, List.length_replicate]
    omega
  · omega

@[simp] theorem length_increment (t : InflightTracker) (worker : WorkerId) :
    (t.increment worker).counts.length = t.counts.length := by simp [increment]

@[simp] theorem length_decrement (t : InflightTracker) (worker : WorkerId) :
    (t.decrement worker).counts.length = t.counts.length := by simp [decrement]

theorem count_of_le (t : InflightTracker) {w : WorkerId} (h : t.counts.length ≤ w) :
    t.count w = 0 := by
  rw [count, List.getElem?_eq_none h, Option.getD_none]

@[simp] theorem count_withCapacity (workers : ℕ) (w : WorkerId) :
    (withCapacity workers).count w = 0 := by
  rw [count, withCapacity, List.getElem?_replicate]
  split_ifs <;> rfl

/-- Growing adds counters at zero and changes no count. -/
theorem count_ensureCapacity (t : InflightTracker) (workers : ℕ) (w : WorkerId) :
    (t.ensureCapacity workers).count w = t.count w := by
  unfold ensureCapacity
  split_ifs with h
  · by_cases hw : w < t.counts.length
    · rw [count, count, List.getElem?_append_left hw]
    · rw [t.count_of_le (not_lt.mp hw), count, List.getElem?_append_right (not_lt.mp hw),
        List.getElem?_replicate]
      split_ifs <;> rfl
  · rfl

theorem count_increment (t : InflightTracker) (worker w : WorkerId) :
    (t.increment worker).count w =
      if worker = w ∧ w < t.counts.length then t.count w + 1 else t.count w := by
  rw [count, count, increment, List.getElem?_modify]
  by_cases hw : w < t.counts.length
  · rw [List.getElem?_eq_getElem hw]
    by_cases h : worker = w
    · simp [h, hw]
    · simp [h]
  · simp [hw]

theorem count_decrement (t : InflightTracker) (worker w : WorkerId) :
    (t.decrement worker).count w =
      if worker = w ∧ w < t.counts.length then t.count w - 1 else t.count w := by
  rw [count, count, decrement, List.getElem?_modify]
  by_cases hw : w < t.counts.length
  · rw [List.getElem?_eq_getElem hw]
    by_cases h : worker = w
    · simp [h, hw]
    · simp [h]
  · simp [hw]

private theorem toNat_foldl_add (l : List UInt64) (a : UInt64) :
    (l.foldl (· + ·) a).toNat = (a.toNat + (l.map UInt64.toNat).sum) % 2 ^ 64 := by
  induction l generalizing a with
  | nil => simp [Nat.mod_eq_of_lt a.toNat_lt]
  | cons b l ih =>
    rw [List.foldl_cons, ih, UInt64.toNat_add, List.map_cons, List.sum_cons, Nat.mod_add_mod,
      Nat.add_assoc]

private theorem sum_range_getD (l : List UInt64) :
    ∑ w ∈ Finset.range l.length, (l[w]?.getD 0).toNat = (l.map UInt64.toNat).sum := by
  induction l with
  | nil => rfl
  | cons a l ih =>
    rw [List.length_cons, Finset.sum_range_succ', List.map_cons, List.sum_cons, ← ih]
    simp [Nat.add_comm]

/-- The total is the sum of the counts, as far as it fits into `u64`. -/
theorem toNat_total (t : InflightTracker) :
    t.total.toNat = (∑ w ∈ Finset.range t.counts.length, (t.count w).toNat) % 2 ^ 64 := by
  rw [total, toNat_foldl_add, ← sum_range_getD]
  simp [count]

end InflightTracker

/-! ## Guards -/

/-- A tracker and the guards that are live on it. -/
structure GuardState where
  /-- The tracker. -/
  tracker : InflightTracker
  /-- The workers that live guards hold a slot for, one entry a guard. -/
  guards : List WorkerId
deriving DecidableEq, Repr

/-- One access to the tracker. -/
inductive GuardStep where
  /-- `InflightGuard::acquire`. -/
  | acquire (worker : WorkerId)
  /-- Some live guard is dropped; nothing happens if there are not that many. -/
  | drop (guard : ℕ)
  /-- `InflightTracker::ensure_capacity`. -/
  | ensureCapacity (workers : ℕ)
deriving DecidableEq, Repr

namespace GuardState

/-- A fresh tracker without guards. -/
def fresh (workers : ℕ) : GuardState := ⟨.withCapacity workers, []⟩

/-- One access. -/
def step (s : GuardState) : GuardStep → GuardState
  | .acquire worker => ⟨s.tracker.increment worker, worker :: s.guards⟩
  | .drop guard =>
    match s.guards[guard]? with
    | some worker => ⟨s.tracker.decrement worker, s.guards.eraseIdx guard⟩
    | none => s
  | .ensureCapacity workers => { s with tracker := s.tracker.ensureCapacity workers }

@[simp] theorem step_acquire (s : GuardState) (worker : WorkerId) :
    s.step (.acquire worker) = ⟨s.tracker.increment worker, worker :: s.guards⟩ := rfl

@[simp] theorem step_ensureCapacity (s : GuardState) (workers : ℕ) :
    s.step (.ensureCapacity workers) = ⟨s.tracker.ensureCapacity workers, s.guards⟩ := rfl

/-- Dropping a guard that is not there does nothing. -/
theorem step_drop_of_none {s : GuardState} {guard : ℕ} (h : s.guards[guard]? = none) :
    s.step (.drop guard) = s := by
  rw [step, h]

theorem step_drop_of_some {s : GuardState} {guard : ℕ} {worker : WorkerId}
    (h : s.guards[guard]? = some worker) :
    s.step (.drop guard) = ⟨s.tracker.decrement worker, s.guards.eraseIdx guard⟩ := by
  rw [step, h]

/-- The number of tracked workers. -/
def tracked (s : GuardState) : ℕ := s.tracker.counts.length

/-- The number of live guards for a worker. -/
def live (s : GuardState) (worker : WorkerId) : ℕ := s.guards.count worker

/-- The number of live guards for tracked workers. -/
def liveTracked (s : GuardState) : ℕ := ∑ w ∈ Finset.range s.tracked, s.live w

/-- The counters are the numbers of live guards, and `total` is their sum. -/
structure Accurate (s : GuardState) : Prop where
  /-- Worker by worker. -/
  count_eq : ∀ w < s.tracked, (s.tracker.count w).toNat = s.live w
  /-- Over all tracked workers. -/
  total_eq : s.tracker.total.toNat = s.liveTracked

/-- The condition on one access: growing does not reach a worker that a live guard was acquired
for while it was not tracked, and there are fewer than `2 ^ 64` guards to count. -/
def GrowsPastGuards (s : GuardState) : GuardStep → Prop
  | .acquire worker => worker < s.tracked → s.liveTracked + 1 < 2 ^ 64
  | .drop _ => True
  | .ensureCapacity workers => ∀ w ∈ s.guards, w < s.tracked ∨ workers ≤ w

/-- With right counters, `total` is right exactly as long as the sum fits into `u64`. -/
theorem accurate_iff (s : GuardState) :
    s.Accurate ↔ (∀ w < s.tracked, (s.tracker.count w).toNat = s.live w) ∧
      s.liveTracked < 2 ^ 64 := by
  have htotal : (∀ w < s.tracked, (s.tracker.count w).toNat = s.live w) →
      s.tracker.total.toNat = s.liveTracked % 2 ^ 64 := fun h => by
    rw [InflightTracker.toNat_total, liveTracked]
    exact congrArg (· % 2 ^ 64) (Finset.sum_congr rfl fun w hw => h w (Finset.mem_range.mp hw))
  constructor
  · intro h
    have hlt := Nat.mod_lt s.liveTracked (show 0 < 2 ^ 64 by decide)
    rw [← htotal h.count_eq, h.total_eq] at hlt
    exact ⟨h.count_eq, hlt⟩
  · rintro ⟨hcount, hlt⟩
    exact ⟨hcount, by rw [htotal hcount, Nat.mod_eq_of_lt hlt]⟩

/-- Once all guards are dropped, every count is zero. -/
theorem Accurate.count_eq_zero {s : GuardState} (h : s.Accurate) (hdropped : s.guards = [])
    (w : WorkerId) : s.tracker.count w = 0 := by
  by_cases hw : w < s.tracked
  · refine UInt64.toNat_inj.mp ?_
    rw [h.count_eq w hw, live, hdropped]
    rfl
  · exact s.tracker.count_of_le (not_lt.mp hw)

theorem accurate_fresh (workers : ℕ) : (fresh workers).Accurate := by
  rw [accurate_iff]
  constructor
  · intro w hw
    simp [fresh, live]
  · simp [fresh, liveTracked, live]

/-- No worker has more live guards than all tracked workers together. -/
theorem live_le_liveTracked (s : GuardState) {w : WorkerId} (hw : w < s.tracked) :
    s.live w ≤ s.liveTracked :=
  Finset.single_le_sum (fun _ _ => Nat.zero_le _) (Finset.mem_range.mpr hw)

/-- Acquiring a guard keeps the counters right exactly when the new guard can be counted. -/
theorem accurate_acquire_iff {s : GuardState} (h : s.Accurate) (worker : WorkerId) :
    (s.step (.acquire worker)).Accurate ↔ (worker < s.tracked → s.liveTracked + 1 < 2 ^ 64) := by
  obtain ⟨hcount, hlt⟩ := s.accurate_iff.mp h
  set s' := s.step (.acquire worker) with hs'
  have htracked : s'.tracked = s.tracked := s.tracker.length_increment worker
  have hlive : ∀ w, s'.live w = s.live w + if worker = w then 1 else 0 := fun w => by
    simp [hs', live, List.count_cons]
  have hcount' : ∀ w, s'.tracker.count w =
      if worker = w ∧ w < s.tracked then s.tracker.count w + 1 else s.tracker.count w :=
    fun w => s.tracker.count_increment worker w
  have hsum : s'.liveTracked = s.liveTracked + if worker < s.tracked then 1 else 0 := by
    rw [liveTracked, liveTracked, htracked, Finset.sum_congr rfl fun w _ => hlive w,
      Finset.sum_add_distrib, Finset.sum_ite_eq]
    simp
  rw [accurate_iff, htracked, hsum]
  by_cases hw : worker < s.tracked
  · rw [if_pos hw]
    constructor
    · intro hacc _
      exact hacc.2
    · intro hfits
      have hfits := hfits hw
      refine ⟨fun w hin => ?_, hfits⟩
      rw [hlive, hcount']
      by_cases heq : worker = w
      · subst heq
        have hle := s.live_le_liveTracked hw
        have hsmall : s.live worker + 1 < 2 ^ 64 := by omega
        rw [if_pos ⟨rfl, hw⟩, if_pos rfl, UInt64.toNat_add, hcount worker hw, UInt64.toNat_one]
        exact Nat.mod_eq_of_lt hsmall
      · rw [if_neg fun h => heq h.1, if_neg heq, hcount w hin, Nat.add_zero]
  · -- a worker that is not tracked is not counted
    rw [if_neg hw, Nat.add_zero]
    constructor
    · intro _ hw'
      exact absurd hw' hw
    · intro _
      refine ⟨fun w hin => ?_, hlt⟩
      have hne : worker ≠ w := fun heq => hw (heq ▸ hin)
      rw [hlive, hcount', if_neg hne, if_neg fun h => hne h.1, Nat.add_zero, hcount w hin]

/-- Dropping a guard keeps the counters right: the guard it ends was counted. -/
theorem accurate_drop {s : GuardState} (h : s.Accurate) (guard : ℕ) :
    (s.step (.drop guard)).Accurate := by
  cases hg : s.guards[guard]? with
  | none => exact (step_drop_of_none hg).symm ▸ h
  | some worker =>
    obtain ⟨hcount, hlt⟩ := s.accurate_iff.mp h
    rw [step_drop_of_some hg]
    set s' : GuardState := ⟨s.tracker.decrement worker, s.guards.eraseIdx guard⟩ with hs'
    have htracked : s'.tracked = s.tracked := s.tracker.length_decrement worker
    have hlive : ∀ w, s.live w = s'.live w + if worker = w then 1 else 0 := fun w => by
      obtain ⟨hlen, rfl⟩ := List.getElem?_eq_some_iff.mp hg
      rw [live, ← (List.getElem_cons_eraseIdx_perm hlen).count_eq w, List.count_cons]
      simp [hs', live]
    have hle : s'.liveTracked ≤ s.liveTracked := by
      rw [liveTracked, liveTracked, htracked]
      exact Finset.sum_le_sum fun w _ => by rw [hlive w]; exact Nat.le_add_right _ _
    refine s'.accurate_iff.mpr ⟨fun w hw => ?_, lt_of_le_of_lt hle hlt⟩
    have hw' : w < s.tracked := htracked ▸ hw
    have hold := hcount w hw'
    change ((s.tracker.decrement worker).count w).toNat = _
    rw [InflightTracker.count_decrement]
    rw [hlive w] at hold
    by_cases heq : worker = w
    · rw [if_pos heq] at hold
      rw [if_pos ⟨heq, hw'⟩, UInt64.toNat_sub_of_le, hold, UInt64.toNat_one, Nat.add_sub_cancel]
      rw [UInt64.le_iff_toNat_le, hold, UInt64.toNat_one]
      omega
    · rw [if_neg heq] at hold
      rw [if_neg fun h => heq h.1, hold, Nat.add_zero]

/-- Growing keeps the counters right exactly when no live guard is for a worker that it newly
tracks. -/
theorem accurate_ensureCapacity_iff {s : GuardState} (h : s.Accurate) (workers : ℕ) :
    (s.step (.ensureCapacity workers)).Accurate ↔
      ∀ w ∈ s.guards, w < s.tracked ∨ workers ≤ w := by
  obtain ⟨hcount, hlt⟩ := s.accurate_iff.mp h
  set s' := s.step (.ensureCapacity workers) with hs'
  have htracked : s'.tracked = max s.tracked workers := s.tracker.length_ensureCapacity workers
  have hcount' : ∀ w, s'.tracker.count w = s.tracker.count w :=
    s.tracker.count_ensureCapacity workers
  have hlive : ∀ w, s'.live w = s.live w := fun _ => rfl
  constructor
  · intro hacc w hw
    by_contra hnew
    rw [not_or, not_lt, not_le] at hnew
    have hpos : 0 < s'.live w := List.count_pos_iff.mpr hw
    have hin : w < s'.tracked := htracked ▸ lt_max_of_lt_right hnew.2
    rw [← hacc.count_eq w hin, hcount', s.tracker.count_of_le hnew.1] at hpos
    exact absurd hpos (by decide)
  · intro hguards
    have hnew : ∀ w, s.tracked ≤ w → w < s'.tracked → s.live w = 0 := by
      intro w hge hin
      apply List.count_eq_zero.mpr
      intro hw
      rcases hguards w hw with hlt | hle
      · exact absurd hlt (not_lt.mpr hge)
      · rw [htracked] at hin
        exact absurd hin (not_lt.mpr (max_le hge hle))
    have hgrown : s.tracked ≤ s'.tracked := htracked ▸ le_max_left _ _
    have hsum : s'.liveTracked = s.liveTracked := by
      symm
      apply Finset.sum_subset (Finset.range_subset_range.mpr hgrown)
      intro w hin hout
      exact hnew w (not_lt.mp (mt Finset.mem_range.mpr hout)) (Finset.mem_range.mp hin)
    refine s'.accurate_iff.mpr ⟨fun w hw => ?_, hsum ▸ hlt⟩
    rw [hcount', hlive]
    by_cases hold : w < s.tracked
    · exact hcount w hold
    · rw [s.tracker.count_of_le (not_lt.mp hold), hnew w (not_lt.mp hold) hw]
      rfl

/-- **One access.**  From right counters, an access leaves the counters right exactly under the
condition. -/
theorem accurate_step_iff {s : GuardState} (h : s.Accurate) (a : GuardStep) :
    (s.step a).Accurate ↔ s.GrowsPastGuards a := by
  cases a with
  | acquire worker => exact accurate_acquire_iff h worker
  | drop guard => exact iff_of_true (accurate_drop h guard) trivial
  | ensureCapacity workers => exact accurate_ensureCapacity_iff h workers

end GuardState

/-- **In-flight counts along runs.**  From a fresh tracker, in every run of acquiring, dropping
and growing, the counters are the numbers of live guards after every step exactly when every
growth passes over the live guards that were acquired out of range (and fewer than `2 ^ 64`
guards are live at a time).  After such a run that ends without guards, every count is zero.

**Proof sketch.** The condition is exact for one step from right counters
(`GuardState.accurate_step_iff`), and right counters are the invariant that carries it along the
run (`Runs.along_iff_of_inv`). -/
theorem inflight_accurate_iff (workers : ℕ) (run : List GuardStep) :
    (Runs.Along GuardState.step (fun s a => (s.step a).Accurate) (.fresh workers) run ↔
        Runs.Along GuardState.step GuardState.GrowsPastGuards (.fresh workers) run) ∧
      (Runs.Along GuardState.step GuardState.GrowsPastGuards (.fresh workers) run →
        (run.foldl GuardState.step (.fresh workers)).guards = [] →
          ∀ w, (run.foldl GuardState.step (.fresh workers)).tracker.count w = 0) := by
  have hfresh := GuardState.accurate_fresh workers
  constructor
  · refine Runs.along_iff_of_inv (I := GuardState.Accurate) (A := fun _ _ => True)
      (fun s a h _ hC => (GuardState.accurate_step_iff h a).mpr hC)
      (fun s a h _ => GuardState.accurate_step_iff h a) ?_ hfresh
    exact Runs.along_of_forall fun _ _ _ _ => trivial
  · intro hC hdropped w
    have hacc := hC.foldl_inv (fun s a h hC => (GuardState.accurate_step_iff h a).mpr hC) hfresh
    exact hacc.count_eq_zero hdropped w

/-- A guard for a worker that is not tracked yet is not counted; after the tracker has grown over
it, dropping it takes the counter below zero. -/
theorem inflight_wraps :
    let s := [GuardStep.acquire 3, .ensureCapacity 4, .drop 0].foldl GuardState.step (.fresh 1)
    3 < s.tracked ∧ s.guards = [] ∧ s.live 3 = 0 ∧
      s.tracker.count 3 = 18446744073709551615 ∧ s.tracker.total = 18446744073709551615 := by
  decide

end KvRoute
