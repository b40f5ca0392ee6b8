import Mathlib.Data.Set.Card
import KvRoute.Core.PrefixRuns

set_option relaxedAutoImplicit false
set_option autoImplicit false

/-!
# What one sweep removes

`evict` expires the shards one after the other, counts what is left, sorts what is left by age and
removes the head of the sorted list.  This module says what these passes add up to when nothing
else runs in between: which entries are gone, which are kept, and what the two counts mean, for
every distribution of the hashes over the shards and every pattern of equal ages.

## Main definitions

* `PrefixIndex.present`, `PrefixIndex.overAge`, `PrefixIndex.gone` — the hashes that have an entry,
  those whose entry is over the time limit, and those that lost theirs.
* `PrefixIndex.SweptExactly` — what a sweep should do.

## Main results

* `KvRoute.evict_sweeps_exactly` — a sweep does it, in every well-formed index.
-/

namespace KvRoute

namespace PrefixIndex

/-- The hashes that have an entry. -/
def present (idx : PrefixIndex) : Set UInt64 := {hash | ∃ entry, idx.get hash = some entry}

/-- The hashes whose entry is older than `ttl`. -/
def overAge (idx : PrefixIndex) (now : Instant) (ttl : Duration) : Set UInt64 :=
  {hash | ∃ entry, idx.get hash = some entry ∧ ttl < now - entry.lastTouched}

/-- The hashes that have an entry before and none after. -/
def gone (before after : PrefixIndex) : Set UInt64 := before.present \ after.present

/-- A sweep at `now` that turned `idx` into `swept` and reported `stats` removed the entries over
the time limit, as many of the others as exceeded the cap, the oldest ones, and nothing else. -/
structure SweptExactly (idx : PrefixIndex) (now : Instant) (ttl : Duration) (maxEntries : ℕ)
    (swept : PrefixIndex) (stats : EvictionStats) : Prop where
  /-- Every entry over the time limit is removed. -/
  overAge_subset : idx.overAge now ttl ⊆ gone idx swept
  /-- Of the remaining ones exactly as many are removed as exceed the cap: none if they fit. -/
  ncard_trimmed : (gone idx swept \ idx.overAge now ttl).ncard =
    (idx.present \ idx.overAge now ttl).ncard - maxEntries
  /-- None of those was touched later than an entry that survives. -/
  oldest : ∀ hash ∈ gone idx swept \ idx.overAge now ttl, ∀ entry, idx.get hash = some entry →
    ∀ hash' entry', swept.get hash' = some entry' → entry.lastTouched ≤ entry'.lastTouched
  /-- The cap holds. -/
  len_le : swept.len ≤ maxEntries
  /-- The counts add up to the drop in size. -/
  drop : stats.expired + stats.lruEvicted + swept.len = idx.len
  /-- The first count is that of the entries over the time limit. -/
  expired_eq : stats.expired = (idx.overAge now ttl).ncard
  /-- What survives is unchanged. -/
  unchanged : ∀ hash entry, swept.get hash = some entry → idx.get hash = some entry

/-! ## Counting -/

theorem mem_present {idx : PrefixIndex} {hash : UInt64} :
    hash ∈ idx.present ↔ ∃ entry, idx.get hash = some entry := Iff.rfl

theorem mem_overAge {idx : PrefixIndex} {now : Instant} {ttl : Duration} {hash : UInt64} :
    hash ∈ idx.overAge now ttl ↔ ∃ entry, idx.get hash = some entry ∧
      ttl < now - entry.lastTouched := Iff.rfl

theorem overAge_subset_present (idx : PrefixIndex) (now : Instant) (ttl : Duration) :
    idx.overAge now ttl ⊆ idx.present :=
  fun _ ⟨entry, hget, _⟩ => ⟨entry, hget⟩

theorem WellFormed.len_eq {idx : PrefixIndex} (h : idx.WellFormed) :
    idx.len = idx.present.ncard := len_eq_ncard h

theorem WellFormed.finite_present {idx : PrefixIndex} (h : idx.WellFormed) :
    idx.present.Finite := by
  refine idx.hashes.finite_toSet.subset fun hash hhash => ?_
  exact (mem_hashes h).mpr hhash

/-- The expiry pass leaves the entries that are not over the time limit. -/
theorem present_expire (idx : PrefixIndex) (now : Instant) (ttl : Duration) :
    (idx.expire now ttl).1.present = idx.present \ idx.overAge now ttl := by
  ext hash
  rw [mem_present, get_expire, Set.mem_sdiff, mem_present, mem_overAge]
  constructor
  · rintro ⟨entry, hkept⟩
    obtain ⟨old, hold, hfresh⟩ := Option.bind_eq_some_iff.mp hkept
    obtain ⟨rfl, hage⟩ := keepFresh_eq_some.mp hfresh
    refine ⟨⟨entry, hold⟩, ?_⟩
    rintro ⟨entry', hget', hover⟩
    obtain rfl := Option.some.inj (hold.symm.trans hget')
    exact absurd hage (not_le.mpr hover)
  · rintro ⟨⟨entry, hget⟩, hnot⟩
    have hage : now - entry.lastTouched ≤ ttl :=
      not_lt.mp fun hover => hnot ⟨entry, hget, hover⟩
    exact ⟨entry, Option.bind_eq_some_iff.mpr ⟨entry, hget, keepFresh_eq_some.mpr ⟨rfl, hage⟩⟩⟩

/-- The expiry pass removes as many entries as are over the time limit. -/
theorem WellFormed.len_expire {idx : PrefixIndex} (h : idx.WellFormed) (now : Instant)
    (ttl : Duration) :
    (idx.overAge now ttl).ncard + (idx.expire now ttl).1.len = idx.len := by
  rw [(h.expire now ttl).len_eq, h.len_eq, present_expire, add_comm]
  exact Set.ncard_sdiff_add_ncard_of_subset (overAge_subset_present idx now ttl) h.finite_present

section Dropped

variable {idx swept : PrefixIndex} {now : Instant} {ttl : Duration} {removed : Finset UInt64}

variable (hget : ∀ hash, swept.get hash =
  if hash ∈ removed then none else (idx.expire now ttl).1.get hash)

include hget

/-- A sweep that drops `removed` from what the expiry pass leaves keeps the rest of it. -/
theorem present_of_dropped : swept.present = (idx.expire now ttl).1.present \ removed := by
  ext hash
  rw [mem_present, hget, Set.mem_sdiff, mem_present, Finset.mem_coe]
  by_cases hhash : hash ∈ removed <;> simp [hhash]

/-- Beyond the entries over the time limit it removes exactly `removed`. -/
theorem gone_sdiff_overAge
    (hin : ∀ hash ∈ removed, ∃ entry, (idx.expire now ttl).1.get hash = some entry) :
    gone idx swept \ idx.overAge now ttl = removed := by
  have hsub : (removed : Set UInt64) ⊆ idx.present \ idx.overAge now ttl :=
    fun hash hhash => present_expire idx now ttl ▸ hin hash hhash
  rw [gone, present_of_dropped hget, present_expire]
  ext hash
  have hmem := @hsub hash
  simp only [Set.mem_sdiff] at hmem ⊢
  tauto

end Dropped

end PrefixIndex

open PrefixIndex

/-- **A sweep that runs alone.**  In every well-formed index (every reachable one is) and at every
reading of the clock, `evict` removes exactly the entries over the time limit and, of the others,
the oldest ones that exceed the cap; its two counts say how many of either kind.

**Proof sketch.** `PrefixIndex.evict_cases` describes the result by a finite set that is dropped
from what the expiry pass leaves.  This set is what is gone without being over the time limit, and
sizes are cardinalities of sets of hashes (`WellFormed.len_eq`), so the counts add up. -/
theorem evict_sweeps_exactly {idx : PrefixIndex} (h : idx.WellFormed)
    (order : IterOrder (UInt64 × IndexEntry)) (now : Instant) (ttl : Duration)
    (maxEntries : ℕ) :
    SweptExactly idx now ttl maxEntries (idx.evict order now ttl maxEntries).1
      (idx.evict order now ttl maxEntries).2 := by
  obtain ⟨hget, hin, hcard, hold, hstats⟩ := evict_cases h order now ttl maxEntries
  have hunchanged : ∀ hash entry, (idx.evict order now ttl maxEntries).1.get hash = some entry →
      idx.get hash = some entry := fun hash entry hswept => get_of_get_evict hswept
  have hswept := h.evict order now ttl maxEntries
  set swept := (idx.evict order now ttl maxEntries).1
  set kept := (idx.expire now ttl).1
  set removed := kept.trimmed order maxEntries
  have htrimmed : gone idx swept \ idx.overAge now ttl = removed := gone_sdiff_overAge hget hin
  have hkept : kept.len = (idx.present \ idx.overAge now ttl).ncard := by
    rw [(h.expire now ttl).len_eq, present_expire]
  have hexpired : (idx.overAge now ttl).ncard + kept.len = idx.len := h.len_expire now ttl
  -- the removed entries and the survivors make up what the expiry pass left
  have hlen : swept.len + removed.card = kept.len := by
    rw [hswept.len_eq, (h.expire now ttl).len_eq, present_of_dropped hget,
      ← Set.ncard_coe_finset removed]
    exact Set.ncard_sdiff_add_ncard_of_subset hin (h.expire now ttl).finite_present
  refine { overAge_subset := ?_, ncard_trimmed := ?_, oldest := ?_, len_le := ?_, drop := ?_,
           expired_eq := ?_, unchanged := hunchanged }
  · rintro hash ⟨entry, hentry, hover⟩
    refine ⟨⟨entry, hentry⟩, fun ⟨entry', hsurvives⟩ => ?_⟩
    have hfresh : hash ∈ kept.present \ removed := present_of_dropped hget ▸ ⟨entry', hsurvives⟩
    rw [present_expire] at hfresh
    exact hfresh.1.2 ⟨entry, hentry, hover⟩
  · rw [htrimmed, Set.ncard_coe_finset, hcard, hkept]
  · rw [htrimmed]
    intro hash hhash entry hentry hash' entry' hsurvives
    obtain ⟨old, hkeptOld⟩ := hin hash hhash
    have hentry' : old = entry := by
      rw [get_expire] at hkeptOld
      obtain ⟨e, he, hfresh⟩ := Option.bind_eq_some_iff.mp hkeptOld
      rw [(keepFresh_eq_some.mp hfresh).1]
      exact Option.some.inj (he.symm.trans hentry)
    rw [hget] at hsurvives
    split_ifs at hsurvives with hhash'
    exact hold hash hhash hash' hhash' entry entry' (hentry' ▸ hkeptOld) hsurvives
  · omega
  · rw [hstats]
    dsimp only
    omega
  · rw [hstats]
    dsimp only
    omega

/-- Three blocks in two shards: two recorded at once, one later. -/
def threeBlocks : IndexCalls := [(0, .record 0 [1, 65]), (10, .record 1 [2])]

/-- A sweep with a cap of one entry keeps the youngest of three entries that are all fresh. -/
theorem evict_sweeps_exactly_threeBlocks :
    SweptExactly (PrefixIndex.new.run threeBlocks) 20 30 1
        ((PrefixIndex.new.run threeBlocks).evict .held 20 30 1).1
        ((PrefixIndex.new.run threeBlocks).evict .held 20 30 1).2 ∧
      ((PrefixIndex.new.run threeBlocks).evict .held 20 30 1).2 = ⟨0, 2⟩ :=
  ⟨evict_sweeps_exactly (WellFormed.new.run threeBlocks) .held 20 30 1, by decide +kernel⟩

end KvRoute
