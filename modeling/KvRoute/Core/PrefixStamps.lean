import KvRoute.Core.Hashing
import KvRoute.Core.PrefixRuns

set_option relaxedAutoImplicit false
set_option autoImplicit false

/-!
# How old a belief can be

An entry of the index carries one time, that of the last call that wrote or matched it, and this
time is shared by all workers that the entry lists.  So the time limit of a sweep bounds how long
an entry may go unused, by anybody; it does not bound how long ago a given worker was last seen
with the block.

## Main definitions

* `PrefixIndex.Refreshes` — a call writes or matches a block on behalf of a worker.
* `PrefixIndex.RefreshedWithin` — some call of a run did so within a time limit.
* `PrefixIndex.RecordedSincePurge` — the block was recorded for the worker since its last purge.

## Main results

* `PrefixIndex.lastTouched_run` — the time of an entry is that of a call that refreshed it.
* `KvRoute.evict_bounds_disuse` — what a listed worker says about the past, after a sweep.
* `KvRoute.evict_keeps_idle_worker` — a worker may be listed long after its own last call.
-/

namespace KvRoute

namespace PrefixIndex

/-- The call writes or matches the block on behalf of the worker. -/
def Refreshes (idx : PrefixIndex) (worker : WorkerId) (hash : UInt64) :
    IndexOp (List UInt64) (List UInt64) → Prop
  | .record w chain => w = worker ∧ hash ∈ chain
  | .longestMatch w chain => w = worker ∧ hash ∈ idx.matchedHashes w chain
  | _ => False

/-- Some call of the run, at most `ttl` before `now`, refreshed the block on behalf of the
worker. -/
def RefreshedWithin (calls : IndexCalls) (now : Instant) (ttl : Duration) (worker : WorkerId)
    (hash : UInt64) : Prop :=
  ∃ before call after, calls = before ++ call :: after ∧ now - call.1 ≤ ttl ∧
    (new.run before).Refreshes worker hash call.2

/-- The block was recorded for the worker, and the worker has not been removed since. -/
def RecordedSincePurge (calls : IndexCalls) (worker : WorkerId) (hash : UInt64) : Prop :=
  ∃ before now chain after, calls = before ++ (now, .record worker chain) :: after ∧
    hash ∈ chain ∧ ∀ call ∈ after, call.2 ≠ .removeWorker worker

/-- What a call stamps is what it refreshes on behalf of some worker. -/
theorem mem_stamped_iff {idx : PrefixIndex} {op : IndexOp (List UInt64) (List UInt64)}
    {hash : UInt64} : hash ∈ idx.stamped op ↔ ∃ worker, idx.Refreshes worker hash op := by
  cases op with
  | record w chain => simp [stamped, Refreshes]
  | longestMatch w chain => simp [stamped, Refreshes]
  | removeWorker w => simp [stamped, Refreshes]
  | len => simp [stamped, Refreshes]
  | evict order ttl maxEntries => simp [stamped, Refreshes]

theorem run_append_singleton (idx : PrefixIndex) (calls : IndexCalls)
    (call : Instant × IndexOp (List UInt64) (List UInt64)) :
    idx.run (calls ++ [call]) = ((idx.run calls).step call).1 := by
  simp [run]

/-- **The time of an entry.**  It is the time of some call that wrote or matched the block, for
one worker or another.

**Proof sketch.** Induction on the calls, from the last one back: a call stamps an entry or
leaves its time alone (`lastTouched_step`). -/
theorem lastTouched_run (calls : IndexCalls) {hash : UInt64} {entry : IndexEntry}
    (hget : (new.run calls).get hash = some entry) :
    ∃ before call after worker, calls = before ++ call :: after ∧
      call.1 = entry.lastTouched ∧ (new.run before).Refreshes worker hash call.2 := by
  induction calls using List.reverseRecOn generalizing entry with
  | nil => cases hget
  | append_singleton calls call ih =>
    rw [run_append_singleton] at hget
    rcases lastTouched_step hget with ⟨hstamped, htime⟩ | ⟨-, old, hold, htime⟩
    · obtain ⟨worker, hworker⟩ := mem_stamped_iff.mp hstamped
      exact ⟨calls, call, [], worker, rfl, htime.symm, hworker⟩
    · obtain ⟨before, call', after, worker, rfl, hcall, hworker⟩ := ih hold
      exact ⟨before, call', after ++ [call], worker, by simp, hcall.trans htime, hworker⟩

/-- A worker is listed only on blocks that were recorded for it since its last purge. -/
theorem recordedSincePurge_of_lists (calls : IndexCalls) {worker : WorkerId} {hash : UInt64}
    (hlists : (new.run calls).lists worker hash = true) :
    RecordedSincePurge calls worker hash := by
  induction calls using List.reverseRecOn with
  | nil => cases hlists
  | append_singleton calls call ih =>
    rw [run_append_singleton] at hlists
    rcases lists_of_lists_step hlists with ⟨chain, heq, hc⟩ | ⟨hne, hold⟩
    · obtain ⟨now, op⟩ := call
      obtain rfl : op = .record worker chain := heq
      exact ⟨calls, now, chain, [], rfl, hc, nofun⟩
    · obtain ⟨before, now, chain, after, rfl, hc, hafter⟩ := ih hold
      refine ⟨before, now, chain, after ++ [call], by simp, hc, fun call' hcall' => ?_⟩
      rcases List.mem_append.mp hcall' with hin | hlast
      · exact hafter call' hin
      · rw [List.mem_singleton.mp hlast]
        exact hne

/-- What a sweep leaves has been touched within its time limit. -/
theorem lastTouched_of_get_evict {idx : PrefixIndex} {order : IterOrder (UInt64 × IndexEntry)}
    {now : Instant} {ttl : Duration} {maxEntries : ℕ} {hash : UInt64} {entry : IndexEntry}
    (h : (idx.evict order now ttl maxEntries).1.get hash = some entry) :
    now - entry.lastTouched ≤ ttl := by
  rw [evict_eq] at h
  dsimp only at h
  rw [get_foldl_removeOldest] at h
  split_ifs at h
  rw [get_expire, Option.bind_eq_some_iff] at h
  obtain ⟨e, he, hk⟩ := h
  obtain ⟨rfl, hage⟩ := keepFresh_eq_some.mp hk
  exact hage

end PrefixIndex

open PrefixIndex

/-- **What a listed worker says about the past.**  After any calls on an empty index and a sweep,
if an entry lists a worker, then within the time limit some call recorded the block, or matched
it, for some worker; and the block was recorded for the listed worker since its last purge.

**Proof sketch.** What the sweep leaves was touched within the limit, and its time is that of a
call that refreshed it (`lastTouched_run`); the sweep lists nobody (`lists_of_lists_evict`). -/
theorem evict_bounds_disuse (calls : IndexCalls) (order : IterOrder (UInt64 × IndexEntry))
    (now : Instant) (ttl : Duration) (maxEntries : ℕ) (worker : WorkerId) (hash : UInt64)
    (hlists : ((new.run calls).evict order now ttl maxEntries).1.lists worker hash = true) :
    (∃ v, RefreshedWithin calls now ttl v hash) ∧ RecordedSincePurge calls worker hash := by
  constructor
  · obtain ⟨entry, hget, -⟩ := (lists_iff _ _ _).mp hlists
    obtain ⟨before, call, after, v, hcalls, htime, hv⟩ :=
      lastTouched_run calls (get_of_get_evict hget)
    exact ⟨v, before, call, after, hcalls, htime ▸ lastTouched_of_get_evict hget, hv⟩
  · exact recordedSincePurge_of_lists calls (lists_of_lists_evict hlists)

/-- One prompt, sent to worker 0 and ten seconds later to worker 1. -/
def popularPrompt : IndexCalls :=
  [(0, .record 0 (chainHash defaultHasher "hi" 4)),
    (10, .record 1 (chainHash defaultHasher "hi" 4))]

/-- Its only block. -/
def popularBlock : UInt64 := defaultHasher none "hi".toList

/-- Worker 0 is listed after a sweep that found the block used a second ago. -/
theorem evict_bounds_disuse_popular :
    (∃ v, RefreshedWithin popularPrompt 11 5 v popularBlock) ∧
      RecordedSincePurge popularPrompt 0 popularBlock :=
  evict_bounds_disuse popularPrompt .held 11 5 100 0 popularBlock (by decide +kernel)

/-- A sweep with a limit of five seconds leaves worker 0 listed eleven seconds after its only
call, since another worker uses the block. -/
theorem evict_keeps_idle_worker :
    (popularPrompt.Pairwise fun c c' => c.1 ≤ c'.1) ∧ (∀ call ∈ popularPrompt, call.1 ≤ 11) ∧
      ((new.run popularPrompt).evict .held 11 5 100).1.lists 0 popularBlock = true ∧
      ¬RefreshedWithin popularPrompt 11 5 0 popularBlock := by
  refine ⟨by simp [popularPrompt], by simp [popularPrompt], by decide +kernel, ?_⟩
  rintro ⟨before, call, after, hcalls, hage, hrefreshes⟩
  have hmem : call ∈ popularPrompt := hcalls ▸ List.mem_append_right _ List.mem_cons_self
  rcases List.mem_cons.mp hmem with rfl | hmem
  · exact absurd hage (by decide)
  · obtain rfl := List.mem_singleton.mp hmem
    exact absurd hrefreshes.1 (by decide)

end KvRoute
