import Mathlib.Data.List.TakeWhile
import KvRoute.Core.Eviction
import KvRoute.Core.PrefixStamps

set_option relaxedAutoImplicit false
set_option autoImplicit false

/-!
# The eviction task

`evict` says what one sweep leaves; nothing is said there of the time between two sweeps.  The
server spawns one task that sweeps forever, whenever a ticker fires, and requests go on using the
index meanwhile.  This module follows the index, the clock and the ticker together, and asks how
stale a match can be and how large the index can grow at any moment, not only after a sweep.

The ticker comes from the runtime and is a parameter: of the ticks that were missed it skips all
and goes on at the next multiple of its period.  That sweeps come in time is up to the runtime
too, and is an assumption on the run: nothing happens more than `late` after a sweep was due.

## Main definitions

* `KvRoute.evictionPeriod` — how often the task sweeps, from the time limit of the entries.
* `KvRoute.Ticker` — the ticker, as far as its documentation promises.
* `EvictionTask.step`, `EvictionTask.Punctual` — the calls on the index under a running task.

## Main results

* `KvRoute.disuse_exact` — how long at most a block has not been used that is still matched.
* `KvRoute.len_le_recordedWithin` — how far the index is over its cap between two sweeps.
-/

namespace KvRoute

open PrefixIndex

/-- `Duration::from_secs`, in nanoseconds. -/
def fromSecs (secs : ℕ) : Duration := secs * 1000000000

/-- The period of the sweeps: a third of the time limit, but at least a second and at most a
minute. -/
def evictionPeriod (ttl : Duration) : Duration :=
  max (fromSecs 1) (min (ttl / 3) (fromSecs 60))

lemma evictionPeriod_pos (ttl : Duration) : 0 < evictionPeriod ttl :=
  lt_of_lt_of_le (by decide) (le_max_left _ _)

/-- `tokio::time::interval(period)` with `MissedTickBehavior::Skip`: from the time when a tick was
due and the time when it was taken it finds when the next one is due. -/
structure Ticker (period : Duration) where
  /-- When the next tick is due. -/
  next : Instant → Instant → Instant
  /-- It is due at the first time after now that is a whole number of periods later. -/
  skips : ∀ deadline now, deadline ≤ now →
    now < next deadline now ∧ next deadline now ≤ now + period ∧
      period ∣ next deadline now - deadline

namespace Ticker

variable {period : Duration}

/-- The ticker that adds whole periods. -/
def skip (h : 0 < period) : Ticker period where
  next deadline now := deadline + period * ((now - deadline) / period + 1)
  skips deadline now hnow := by
    have hdiv := Nat.div_add_mod (now - deadline) period
    have hmod := Nat.mod_lt (now - deadline) h
    refine ⟨?_, ?_, ?_⟩
    · grind
    · grind
    · rw [Nat.add_sub_cancel_left]
      exact Nat.dvd_mul_right _ _

/-- A tick that is taken when it is due is followed by one a period later. -/
lemma next_self (ticker : Ticker period) (deadline : Instant) :
    ticker.next deadline deadline = deadline + period := by
  obtain ⟨hafter, hbefore, hdvd⟩ := ticker.skips deadline deadline le_rfl
  have hpos : 0 < ticker.next deadline deadline - deadline := Nat.sub_pos_of_lt hafter
  have hle : period ≤ ticker.next deadline deadline - deadline := Nat.le_of_dvd hpos hdvd
  grind

end Ticker

/-- The index under the task, with the last reading of the clock. -/
structure EvictionTask where
  /-- The index that the task shares with the requests. -/
  index : PrefixIndex
  /-- The last reading of the clock. -/
  now : Instant
  /-- When the next tick is due. -/
  deadline : Instant

namespace EvictionTask

/-- When the task is spawned the index is new, and the first tick is due at once. -/
def spawn (start : Instant) : EvictionTask := ⟨.new, start, start⟩

section Task

variable (ttl : Duration) (maxEntries : ℕ) (ticker : Ticker (evictionPeriod ttl))

/-- One call on the index.  A sweep takes the tick that is due. -/
def step (task : EvictionTask)
    (call : Instant × IndexOp (List UInt64) (List UInt64)) :
    EvictionTask where
  index := (task.index.step call).1
  now := call.1
  deadline := if call.2.isEvict then ticker.next task.deadline call.1 else task.deadline

lemma index_step (task : EvictionTask)
    (call : Instant × IndexOp (List UInt64) (List UInt64)) :
    (task.step ttl ticker call).index = (task.index.step call).1 := rfl

/-- The index after some calls, and the ticker. -/
def run (start : Instant) (calls : IndexCalls) : EvictionTask :=
  calls.foldl (step ttl ticker) (spawn start)

/-- The clock does not go back, only the task sweeps, with its own limits and not before a tick is
due, and nothing happens more than `late` after one was due. -/
structure Punctual (late : Duration) (task : EvictionTask)
    (call : Instant × IndexOp (List UInt64) (List UInt64)) : Prop where
  /-- The clock does not go back. -/
  clock : task.now ≤ call.1
  /-- The sweep that is due is not late. -/
  inTime : call.1 ≤ task.deadline + late
  /-- A sweep is the task's. -/
  sweep : ∀ order ttl' maxEntries', call.2 = .evict order ttl' maxEntries' →
    ttl' = ttl ∧ maxEntries' = maxEntries ∧ task.deadline ≤ call.1

/-- A run of the task in which every sweep is punctual, looked at at the time `t`, when no sweep
has been due for longer than `late`. -/
structure PunctualUntil (late : Duration) (start : Instant) (calls : IndexCalls) (t : Instant) :
    Prop where
  /-- Every call is punctual. -/
  along : Runs.Along (step ttl ticker) (Punctual ttl maxEntries late) (spawn start) calls
  /-- The run has not gone on after `t`. -/
  now_le : (run ttl ticker start calls).now ≤ t
  /-- No sweep is late. -/
  le_deadline : t ≤ (run ttl ticker start calls).deadline + late

end Task

section Runs

variable {ttl : Duration} {maxEntries : ℕ} {ticker : Ticker (evictionPeriod ttl)}
  {late : Duration} {start : Instant}

/-- The task does to the index what the calls do. -/
lemma index_run (start : Instant) (calls : IndexCalls) :
    (run ttl ticker start calls).index = PrefixIndex.new.run calls := by
  induction calls using List.reverseRecOn with
  | nil => rfl
  | append_singleton calls call ih =>
    rw [run_append_singleton, ← ih]
    simp [run, step]

lemma run_append (start : Instant) (calls : IndexCalls)
    (call : Instant × IndexOp (List UInt64) (List UInt64)) :
    run ttl ticker start (calls ++ [call]) = step ttl ticker (run ttl ticker start calls) call := by
  simp [run]

/-- The part of a punctual run before its last call is punctual, and so is this call. -/
lemma along_concat {calls : IndexCalls} {call : Instant × IndexOp (List UInt64) (List UInt64)} :
    Runs.Along (step ttl ticker) (Punctual ttl maxEntries late) (spawn start) (calls ++ [call]) ↔
      Runs.Along (step ttl ticker) (Punctual ttl maxEntries late) (spawn start) calls ∧
        Punctual ttl maxEntries late (run ttl ticker start calls) call := by
  rw [Runs.along_append]
  simp [run]

/-! ## Between two sweeps -/

/-- The next sweep is at most a period away, and no entry will be older at the time of the next
sweep than the time limit and a period. -/
structure Ticking (ttl : Duration) (task : EvictionTask) : Prop where
  /-- The next sweep is at most a period away. -/
  deadline_le : task.deadline ≤ task.now + evictionPeriod ttl
  /-- Entries have been touched, at most the time limit and a period before it. -/
  touched : ∀ hash entry, task.index.get hash = some entry →
    task.deadline ≤ entry.lastTouched + ttl + evictionPeriod ttl

lemma ticking_spawn (start : Instant) : (spawn start).Ticking ttl where
  deadline_le := Nat.le_add_right _ _
  touched := nofun

/-- Every punctual call keeps this.

**Proof sketch.** What a sweep leaves is within the time limit, and the sweep after it at most a
period away.  Any other call stamps an entry with the clock, which makes it as old as the clock, or
leaves its time alone (`lastTouched_step`). -/
lemma Ticking.step {task : EvictionTask}
    {call : Instant × IndexOp (List UInt64) (List UInt64)} (h : task.Ticking ttl)
    (hcall : Punctual ttl maxEntries late task call) : (step ttl ticker task call).Ticking ttl := by
  have hclock := hcall.clock
  have hdeadline := h.deadline_le
  obtain ⟨now, op⟩ := call
  by_cases hevict : op.isEvict = true
  · cases op with
    | evict order ttl' maxEntries' =>
      obtain ⟨rfl, rfl, hdue⟩ := hcall.sweep order ttl' maxEntries' rfl
      obtain ⟨-, hnext, -⟩ := ticker.skips task.deadline now hdue
      refine ⟨hnext, fun hash entry hget => ?_⟩
      rw [index_step, step_evict_fst] at hget
      have hage : now - entry.lastTouched ≤ ttl' := lastTouched_of_get_evict hget
      show ticker.next task.deadline now ≤ _
      grind
    | record worker chain => cases hevict
    | longestMatch worker chain => cases hevict
    | removeWorker worker => cases hevict
    | len => cases hevict
  · have hsame : (EvictionTask.step ttl ticker task (now, op)).deadline = task.deadline :=
      if_neg hevict
    constructor
    · rw [hsame]
      exact hdeadline.trans (Nat.add_le_add_right hclock _)
    · intro hash entry hget
      rw [hsame]
      rcases lastTouched_step hget with ⟨-, htime⟩ | ⟨-, old, hold, htime⟩
      · rw [htime]
        grind
      · rw [← htime]
        exact h.touched hash old hold

lemma ticking_run {calls : IndexCalls}
    (h : Runs.Along (step ttl ticker) (Punctual ttl maxEntries late) (spawn start) calls) :
    (run ttl ticker start calls).Ticking ttl := by
  refine h.foldl_inv (I := Ticking ttl) ?_ (ticking_spawn start)
  intro task call hticking hcall
  exact hticking.step hcall

/-- What is matched in a punctual run has been used within the time limit, a period and the
lateness of the sweeps. -/
lemma refreshedWithin_of_lists {calls : IndexCalls} {t : Instant}
    (h : PunctualUntil ttl maxEntries ticker late start calls t) {worker : WorkerId}
    {hash : UInt64} (hlists : (PrefixIndex.new.run calls).lists worker hash = true) :
    ∃ v, RefreshedWithin calls t (ttl + evictionPeriod ttl + late) v hash := by
  obtain ⟨entry, hget, -⟩ := (lists_iff _ _ _).mp hlists
  obtain ⟨before, call, after, v, hcalls, htime, hv⟩ := lastTouched_run calls hget
  have hindex : (run ttl ticker start calls).index = PrefixIndex.new.run calls :=
    index_run start calls
  rw [← hindex] at hget
  have htouched := (ticking_run h.along).touched hash entry hget
  have hle := h.le_deadline
  refine ⟨v, before, call, after, hcalls, ?_, hv⟩
  rw [htime]
  grind

/-! ## The size -/

/-- The blocks that were recorded at most `d` before `t`. -/
def recordedWithin (calls : IndexCalls) (t : Instant) (d : Duration) : Set UInt64 :=
  {hash | ∃ now worker chain, (now, .record worker chain) ∈ calls ∧ hash ∈ chain ∧ t - now ≤ d}

/-- The blocks that were recorded from some time on. -/
def recordedSince (calls : IndexCalls) (since : Instant) : Set UInt64 :=
  {hash | ∃ now worker chain, (now, .record worker chain) ∈ calls ∧ hash ∈ chain ∧ since ≤ now}

lemma finite_recordedWithin (calls : IndexCalls) (t : Instant) (d : Duration) :
    (recordedWithin calls t d).Finite := by
  let recorded : Instant × IndexOp (List UInt64) (List UInt64) → List UInt64
    | (_, .record _ chain) => chain
    | _ => []
  refine (List.finite_toSet (calls.flatMap recorded)).subset ?_
  rintro hash ⟨now, worker, chain, hmem, hhash, -⟩
  exact List.mem_flatMap.mpr ⟨_, hmem, hhash⟩

lemma recordedSince_append (calls : IndexCalls)
    (call : Instant × IndexOp (List UInt64) (List UInt64)) (since : Instant) :
    recordedSince calls since ⊆ recordedSince (calls ++ [call]) since := by
  rintro hash ⟨now, worker, chain, hmem, hhash, hnow⟩
  exact ⟨now, worker, chain, List.mem_append_left _ hmem, hhash, hnow⟩

/-- Only records make entries. -/
lemma present_step {idx : PrefixIndex} (hwf : idx.WellFormed)
    (call : Instant × IndexOp (List UInt64) (List UInt64)) {hash : UInt64}
    (h : hash ∈ (idx.step call).1.present) :
    (∃ worker chain, call.2 = .record worker chain ∧ hash ∈ chain) ∨ hash ∈ idx.present := by
  obtain ⟨entry, hget⟩ := h
  have hworkers : entry.workers ≠ [] := (hwf.step call).nonempty hash entry hget
  obtain ⟨worker, hworker⟩ := List.exists_mem_of_ne_nil _ hworkers
  have hlists : (idx.step call).1.lists worker hash = true :=
    (lists_iff _ _ _).mpr ⟨entry, hget, hworker⟩
  rcases lists_of_lists_step hlists with ⟨chain, heq, hhash⟩ | ⟨-, hold⟩
  · exact Or.inl ⟨worker, chain, heq, hhash⟩
  · obtain ⟨old, hold, -⟩ := (lists_iff _ _ _).mp hold
    exact Or.inr ⟨old, hold⟩

/-- A sweep brings the index under its cap. -/
lemma len_evict_le {idx : PrefixIndex} (hwf : idx.WellFormed)
    (order : IterOrder (UInt64 × IndexEntry)) (now : Instant) (ttl : Duration) (maxEntries : ℕ) :
    (idx.evict order now ttl maxEntries).1.len ≤ maxEntries := by
  obtain ⟨hget, hin, hcard, -⟩ := evict_cases hwf order now ttl maxEntries
  have hkept := hwf.expire now ttl
  have hsub : ((idx.expire now ttl).1.trimmed order maxEntries : Set UInt64) ⊆
      (idx.expire now ttl).1.present := hin
  rw [(hwf.evict order now ttl maxEntries).len_eq, present_of_dropped hget, Set.ncard_sdiff hsub,
    Set.ncard_coe_finset, hcard, ← hkept.len_eq]
  omega

/-- The entries, but for as many as the cap allows, were recorded since a time from which the next
sweep is at most a period away. -/
def Capped (ttl : Duration) (maxEntries : ℕ) (calls : IndexCalls) (task : EvictionTask) : Prop :=
  ∃ since, task.deadline ≤ since + evictionPeriod ttl ∧ since ≤ task.now ∧
    ∃ kept : Set UInt64, kept.Finite ∧ kept.ncard ≤ maxEntries ∧
      task.index.present ⊆ kept ∪ recordedSince calls since

lemma capped_spawn (start : Instant) : (spawn start).Capped ttl maxEntries [] := by
  refine ⟨start, Nat.le_add_right _ _, le_rfl, ∅, Set.finite_empty, ?_, nofun⟩
  rw [Set.ncard_empty]
  exact Nat.zero_le _

/-- Every punctual call keeps this.

**Proof sketch.** After a sweep the entries are within the cap, and nothing has been recorded since.
Any other call makes no entries but for the blocks it records (`present_step`). -/
lemma Capped.step {task : EvictionTask} {calls : IndexCalls}
    {call : Instant × IndexOp (List UInt64) (List UInt64)} (hwf : task.index.WellFormed)
    (h : task.Capped ttl maxEntries calls)
    (hcall : Punctual ttl maxEntries late task call) :
    (step ttl ticker task call).Capped ttl maxEntries (calls ++ [call]) := by
  have hclock := hcall.clock
  obtain ⟨now, op⟩ := call
  by_cases hevict : op.isEvict = true
  · cases op with
    | evict order ttl' maxEntries' =>
      obtain ⟨rfl, rfl, hdue⟩ := hcall.sweep order ttl' maxEntries' rfl
      obtain ⟨-, hnext, -⟩ := ticker.skips task.deadline now hdue
      have hswept := hwf.evict order now ttl' maxEntries'
      refine ⟨now, hnext, le_rfl, (task.index.evict order now ttl' maxEntries').1.present,
        hswept.finite_present, ?_, ?_⟩
      · rw [← hswept.len_eq]
        exact len_evict_le hwf order now ttl' maxEntries'
      · rw [index_step, step_evict_fst]
        exact Set.subset_union_left
    | record worker chain => cases hevict
    | longestMatch worker chain => cases hevict
    | removeWorker worker => cases hevict
    | len => cases hevict
  · have hsame : (EvictionTask.step ttl ticker task (now, op)).deadline = task.deadline :=
      if_neg hevict
    obtain ⟨since, hdeadline, hsince, kept, hfinite, hcard, hsub⟩ := h
    refine ⟨since, hsame ▸ hdeadline, hsince.trans hclock, kept, hfinite, hcard, ?_⟩
    intro hash hhash
    rw [index_step] at hhash
    rcases present_step hwf (now, op) hhash with ⟨worker, chain, rfl, hmem⟩ | hold
    · right
      exact ⟨now, worker, chain, by simp, hmem, hsince.trans hclock⟩
    · exact (hsub hold).imp_right fun hrecorded => recordedSince_append calls _ since hrecorded

lemma capped_run {calls : IndexCalls}
    (h : Runs.Along (step ttl ticker) (Punctual ttl maxEntries late) (spawn start) calls) :
    (run ttl ticker start calls).Capped ttl maxEntries calls := by
  induction calls using List.reverseRecOn with
  | nil => exact capped_spawn start
  | append_singleton calls call ih =>
    obtain ⟨hbefore, hcall⟩ := along_concat.mp h
    rw [run_append]
    refine (ih hbefore).step ?_ hcall
    rw [index_run]
    exact WellFormed.new.run calls

/-! ## A block that is matched for as long as can be -/

/-- The index holds one block, last used at some time. -/
structure HoldsOnly (idx : PrefixIndex) (hash : UInt64) (entry : IndexEntry) : Prop where
  /-- It is well formed. -/
  wellFormed : idx.WellFormed
  /-- The block has this entry. -/
  get_self : idx.get hash = some entry
  /-- No other block has one. -/
  get_of_ne : ∀ hash', hash' ≠ hash → idx.get hash' = none

lemma HoldsOnly.record {idx : PrefixIndex} (hwf : idx.WellFormed)
    (hempty : ∀ hash, idx.get hash = none) (worker : WorkerId) (now : Instant) (hash : UInt64) :
    HoldsOnly (idx.record now worker [hash]) hash ⟨[worker], now⟩ where
  wellFormed := hwf.record now worker [hash]
  get_self := by
    rw [get_record, if_pos List.mem_cons_self, workersOf, hempty]
    rfl
  get_of_ne := by
    intro hash' hne
    rw [get_record, if_neg (by simpa using hne), hempty]

/-- A sweep leaves the only block, as long as it is not over age. -/
lemma HoldsOnly.evict {idx : PrefixIndex} {hash : UInt64} {entry : IndexEntry}
    (h : HoldsOnly idx hash entry) (order : IterOrder (UInt64 × IndexEntry)) {now : Instant}
    (hage : now - entry.lastTouched ≤ ttl) (hmax : 0 < maxEntries) :
    HoldsOnly (idx.evict order now ttl maxEntries).1 hash entry := by
  obtain ⟨hget, -, hcard, -⟩ := evict_cases h.wellFormed order now ttl maxEntries
  have hkept : (idx.expire now ttl).1.get hash = some entry := by
    rw [get_expire, h.get_self, Option.bind_some]
    exact keepFresh_eq_some.mpr ⟨rfl, hage⟩
  have hothers : ∀ hash', hash' ≠ hash → (idx.expire now ttl).1.get hash' = none := by
    intro hash' hne
    rw [get_expire, h.get_of_ne hash' hne]
    rfl
  have hlen : (idx.expire now ttl).1.len ≤ 1 := by
    rw [(h.wellFormed.expire now ttl).len_eq]
    refine (Set.ncard_le_ncard (t := {hash}) ?_ (Set.finite_singleton hash)).trans
      (Set.ncard_singleton hash).le
    rintro hash' ⟨entry', hentry'⟩
    by_contra hne
    rw [hothers hash' hne] at hentry'
    cases hentry'
  have hnone : (idx.expire now ttl).1.trimmed order maxEntries = ∅ := by
    rw [← Finset.card_eq_zero, hcard]
    omega
  simp only [hnone, Finset.notMem_empty, if_false] at hget
  exact ⟨h.wellFormed.evict order now ttl maxEntries, (hget hash).trans hkept,
    fun hash' hne => (hget hash').trans (hothers hash' hne)⟩

/-- The task sweeps as soon as it is spawned; a block is recorded `after` later, and from then on
the task sweeps `n` times, always when it is due. -/
def onTime (ttl : Duration) (maxEntries : ℕ) (start : Instant) (after : Duration) (n : ℕ) :
    IndexCalls :=
  (start, .evict .held ttl maxEntries) :: (start + after, .record 0 [0]) ::
    (List.range n).map fun i =>
      (start + (i + 1) * evictionPeriod ttl, .evict .held ttl maxEntries)

lemma onTime_succ (start : Instant) (after : Duration) (n : ℕ) :
    onTime ttl maxEntries start after (n + 1) = onTime ttl maxEntries start after n ++
      [(start + (n + 1) * evictionPeriod ttl, .evict .held ttl maxEntries)] := by
  simp [onTime, List.range_succ]

lemma mem_onTime {start : Instant} {after : Duration} {n : ℕ}
    {call : Instant × IndexOp (List UInt64) (List UInt64)}
    (h : call ∈ onTime ttl maxEntries start after n) :
    call = (start + after, .record 0 [0]) ∨ call.2 = .evict .held ttl maxEntries := by
  rcases List.mem_cons.mp h with rfl | h
  · exact Or.inr rfl
  rcases List.mem_cons.mp h with rfl | h
  · exact Or.inl rfl
  · obtain ⟨i, -, rfl⟩ := List.mem_map.mp h
    exact Or.inr rfl

/-- As long as the block is not over age at the last sweep, all of this is punctual, and the block
is still there. -/
lemma onTime_spec (ticker : Ticker (evictionPeriod ttl)) (late : Duration) (start : Instant)
    {after : Duration} (hafter : after ≤ evictionPeriod ttl) (hmax : 0 < maxEntries) :
    ∀ n, n * evictionPeriod ttl ≤ after + ttl →
      Runs.Along (step ttl ticker) (Punctual ttl maxEntries late) (spawn start)
          (onTime ttl maxEntries start after n) ∧
        HoldsOnly (run ttl ticker start (onTime ttl maxEntries start after n)).index 0
          ⟨[0], start + after⟩ ∧
        (run ttl ticker start (onTime ttl maxEntries start after n)).deadline =
          start + (n + 1) * evictionPeriod ttl ∧
        (run ttl ticker start (onTime ttl maxEntries start after n)).now ≤
          start + (n + 1) * evictionPeriod ttl := by
  intro n
  induction n with
  | zero =>
    intro _
    have hdeadline : (step ttl ticker (spawn start)
        (start, .evict .held ttl maxEntries)).deadline = start + evictionPeriod ttl :=
      ticker.next_self start
    have hempty : ∀ hash, ((PrefixIndex.new.evict .held start ttl maxEntries).1).get hash = none := by
      intro hash
      by_contra hne
      obtain ⟨entry, hget⟩ := Option.ne_none_iff_exists'.mp hne
      cases get_of_get_evict hget
    refine ⟨⟨⟨le_rfl, Nat.le_add_right _ _, ?_⟩, ⟨Nat.le_add_right _ _, ?_, nofun⟩, trivial⟩,
      ?_, ?_, ?_⟩
    · rintro order ttl' maxEntries' ⟨⟩
      exact ⟨rfl, rfl, le_rfl⟩
    · rw [hdeadline]
      show start + after ≤ start + evictionPeriod ttl + late
      grind
    · rw [index_run]
      show HoldsOnly (((PrefixIndex.new.step (start, .evict .held ttl maxEntries)).1.step
        (start + after, .record 0 [0])).1) 0 _
      rw [step_evict_fst, step_record]
      exact HoldsOnly.record (WellFormed.new.evict _ _ _ _) hempty 0 _ 0
    · show (step ttl ticker (spawn start) (start, .evict .held ttl maxEntries)).deadline = _
      rw [hdeadline]
      grind
    · show start + after ≤ _
      grind
  | succ n ih =>
    intro hn
    have hstep : (n + 1) * evictionPeriod ttl = n * evictionPeriod ttl + evictionPeriod ttl :=
      Nat.succ_mul n _
    obtain ⟨halong, hholds, hdeadline, hnow⟩ := ih (by grind)
    rw [onTime_succ, run_append, along_concat, index_step, step_evict_fst]
    refine ⟨⟨halong, ?_⟩, ?_, ?_, ?_⟩
    · refine ⟨hnow, ?_, ?_⟩
      · rw [hdeadline]
        exact Nat.le_add_right _ _
      · rintro order ttl' maxEntries' ⟨⟩
        exact ⟨rfl, rfl, hdeadline.le⟩
    · apply hholds.evict .held _ hmax
      show start + (n + 1) * evictionPeriod ttl - (start + after) ≤ ttl
      grind
    · show ticker.next _ _ = _
      rw [hdeadline, ticker.next_self]
      grind
    · show start + (n + 1) * evictionPeriod ttl ≤ _
      grind

end Runs

end EvictionTask

open EvictionTask

section Bounds

variable {ttl : Duration} {maxEntries : ℕ} {ticker : Ticker (evictionPeriod ttl)}
  {late : Duration} {start : Instant}

/-- **The cap between two sweeps.**  In every punctual run the index has, at any time, at most as
many entries over its cap as different blocks have been recorded in the last period, and in as
long as sweeps may be late.

**Proof sketch.** The entries but for the cap have been recorded since a time from which the next
sweep is at most a period away (`capped_run`), and this sweep is not late yet. -/
theorem len_le_recordedWithin {calls : IndexCalls} {t : Instant}
    (h : PunctualUntil ttl maxEntries ticker late start calls t) :
    (PrefixIndex.new.run calls).len ≤
      maxEntries + (recordedWithin calls t (evictionPeriod ttl + late)).ncard := by
  obtain ⟨since, hdeadline, -, kept, hfinite, hcard, hsub⟩ := capped_run h.along
  have hle := h.le_deadline
  rw [index_run] at hsub
  have hrecorded : recordedSince calls since ⊆
      recordedWithin calls t (evictionPeriod ttl + late) := by
    rintro hash ⟨now, worker, chain, hmem, hhash, hnow⟩
    refine ⟨now, worker, chain, hmem, hhash, ?_⟩
    grind
  have hrecent := finite_recordedWithin calls t (evictionPeriod ttl + late)
  calc (PrefixIndex.new.run calls).len
      = (PrefixIndex.new.run calls).present.ncard := (WellFormed.new.run calls).len_eq
    _ ≤ (kept ∪ recordedWithin calls t (evictionPeriod ttl + late)).ncard :=
        Set.ncard_le_ncard (hsub.trans (Set.union_subset_union_right kept hrecorded))
          (hfinite.union hrecent)
    _ ≤ kept.ncard + (recordedWithin calls t (evictionPeriod ttl + late)).ncard :=
        Set.ncard_union_le _ _
    _ ≤ _ := Nat.add_le_add_right hcard _

/-- **How stale a match can be.**  The longest time that a matched block may have gone unused is
exactly the time limit, one period of the sweeps, and the time by which sweeps may be late.

**Proof sketch.** No match is older: a sweep leaves nothing over the time limit, and the next one
is at most a period away (`refreshedWithin_of_lists`).  One can be that old: a block that is
recorded a time limit before some sweep is not over age then, and stays until the next one
(`onTime_spec`). -/
theorem disuse_exact (ticker : Ticker (evictionPeriod ttl)) (hmax : 0 < maxEntries)
    (late : Duration) (start : Instant) (bound : Duration) :
    (∀ calls t, PunctualUntil ttl maxEntries ticker late start calls t →
        ∀ worker chain, ∀ hash ∈ (PrefixIndex.new.run calls).matchedHashes worker chain,
          ∃ v, RefreshedWithin calls t bound v hash) ↔
      ttl + evictionPeriod ttl + late ≤ bound := by
  constructor
  · intro hall
    have hpos := evictionPeriod_pos ttl
    -- the first sweep that is at least a time limit after the one at the start
    set n := (ttl + (evictionPeriod ttl - 1)) / evictionPeriod ttl with hn
    set after := n * evictionPeriod ttl - ttl with hafter
    have hdiv := Nat.div_add_mod (ttl + (evictionPeriod ttl - 1)) (evictionPeriod ttl)
    have hmod := Nat.mod_lt (ttl + (evictionPeriod ttl - 1)) hpos
    rw [← hn, Nat.mul_comm] at hdiv
    obtain ⟨halong, hholds, hdeadline, hnow⟩ := onTime_spec ticker late start
      (show after ≤ evictionPeriod ttl by grind) hmax n (by grind)
    rw [index_run] at hholds
    have hlists : (PrefixIndex.new.run (onTime ttl maxEntries start after n)).lists 0 0 = true :=
      (lists_iff _ _ _).mpr ⟨_, hholds.get_self, List.mem_cons_self⟩
    have hmatched : 0 ∈ (PrefixIndex.new.run (onTime ttl maxEntries start after n)).matchedHashes 0
        [0] := by
      rw [matchedHashes, List.takeWhile_cons_of_pos hlists]
      exact List.mem_cons_self
    have hrun : PunctualUntil ttl maxEntries ticker late start (onTime ttl maxEntries start after n)
        (start + (n + 1) * evictionPeriod ttl + late) :=
      ⟨halong, hnow.trans (Nat.le_add_right _ _), by rw [hdeadline]⟩
    obtain ⟨v, before, call, later, hcalls, hage, hv⟩ := hall _ _ hrun 0 [0] 0 hmatched
    -- of the calls only the record uses the block
    have hmem : call ∈ onTime ttl maxEntries start after n := by
      rw [hcalls]
      exact List.mem_append_right _ List.mem_cons_self
    rcases mem_onTime hmem with rfl | hevict
    · grind
    · rw [hevict] at hv
      exact hv.elim
  · intro hbound calls t hrun worker chain hash hhash
    have hlists := List.mem_takeWhile_imp hhash
    obtain ⟨v, before, call, later, hcalls, hage, hv⟩ := refreshedWithin_of_lists hrun hlists
    exact ⟨v, before, call, later, hcalls, hage.trans hbound, hv⟩

end Bounds

/-! ## The default configuration -/

/-- With the limit of 300 seconds of the default configuration a block is matched for at most six
minutes after its last use if sweeps are in time, and there are runs in which it is. -/
theorem disuse_exact_default :
    (∀ calls t, PunctualUntil (fromSecs 300) 100000 (.skip (evictionPeriod_pos _)) 0 0 calls t →
        ∀ worker chain, ∀ hash ∈ (PrefixIndex.new.run calls).matchedHashes worker chain,
          ∃ v, RefreshedWithin calls t (fromSecs 360) v hash) ∧
      ¬∀ calls t, PunctualUntil (fromSecs 300) 100000 (.skip (evictionPeriod_pos _)) 0 0 calls t →
        ∀ worker chain, ∀ hash ∈ (PrefixIndex.new.run calls).matchedHashes worker chain,
          ∃ v, RefreshedWithin calls t (fromSecs 359) v hash := by
  constructor
  · exact (disuse_exact _ (by decide) 0 0 (fromSecs 360)).mpr (by decide)
  · intro h
    exact absurd ((disuse_exact _ (by decide) 0 0 (fromSecs 359)).mp h) (by decide)

/-- A sweep, and a prompt of two blocks a second later. -/
def overCap : IndexCalls :=
  [(0, .evict .held (fromSecs 300) 1), (fromSecs 1, .record 0 [1, 2])]

lemma punctual_overCap : PunctualUntil (fromSecs 300) 1 (.skip (evictionPeriod_pos _)) 0 0 overCap
    (fromSecs 1) where
  along := by
    refine ⟨⟨le_rfl, le_rfl, ?_⟩, ⟨Nat.zero_le _, by decide, nofun⟩, trivial⟩
    rintro order ttl maxEntries ⟨⟩
    exact ⟨rfl, rfl, le_rfl⟩
  now_le := le_rfl
  le_deadline := by decide

/-- Two entries, under a cap of one: the other one has been recorded since the last sweep. -/
theorem len_le_recordedWithin_overCap :
    (PrefixIndex.new.run overCap).len = 2 ∧
      2 ≤ 1 + (recordedWithin overCap (fromSecs 1) (evictionPeriod (fromSecs 300) + 0)).ncard := by
  have hlen : (PrefixIndex.new.run overCap).len = 2 := by decide +kernel
  exact ⟨hlen, hlen ▸ len_le_recordedWithin punctual_overCap⟩

end KvRoute
