import Mathlib.Data.List.FinRange
import KvRoute.Core.Worker
import KvRoute.Lib.Slices

set_option relaxedAutoImplicit false
set_option autoImplicit false

/-!
# The prefix index

The router-side belief about which workers hold which KV blocks
(`crates/router-core/src/prefix.rs`): 64 shards, each a table from block hashes to the workers
believed to hold the block and the time the entry was last written or matched.

Every operation takes the clock reading that the code takes from `Instant::now`.  The loops of
`record`, `longest_match`, `remove_worker` and `evict` are folds of the sections that run under
one shard lock (`recordBlock`, `lists`, `touchBlock`, `purgeShard`, `expireShard`,
`removeOldest`), so that the same sections serve sequential and interleaved runs.

## Main definitions

* `KvRoute.IndexEntry`, `KvRoute.Shard`, `KvRoute.PrefixIndex`, `KvRoute.EvictionStats`.
* `PrefixIndex.record`, `longestMatch`, `removeWorker`, `len`, `evict` — the operations.
* `PrefixIndex.get` — the entry of a hash, in the shard where the operations look for it.

## Main results

* `PrefixIndex.get_record`, `get_longestMatch`, `get_removeWorker`, `get_expire`,
  `get_foldl_removeOldest` — what each operation does to the entry of every hash.
* `PrefixIndex.le_longestMatch_iff` — when `longest_match` matches that many blocks.
-/

namespace KvRoute

/-- A reading of the monotonic clock. -/
abbrev Instant := ℕ

/-- A length of time on the monotonic clock. -/
abbrev Duration := ℕ

/-- Number of shards backing the index. -/
def numShards : ℕ := 64

/-- The belief about one block. -/
structure IndexEntry where
  /-- Workers believed to hold this block in their KV cache. -/
  workers : List WorkerId
  /-- Last time this entry was written or matched. -/
  lastTouched : Instant
deriving DecidableEq, Repr

/-- The entries behind one lock. -/
abbrev Shard := HashTable UInt64 IndexEntry

/-- Outcome of one eviction sweep. -/
structure EvictionStats where
  /-- Entries removed because they exceeded the TTL. -/
  expired : ℕ
  /-- Entries removed because the index exceeded the cap. -/
  lruEvicted : ℕ
deriving DecidableEq, Repr

/-- The sharded index. -/
structure PrefixIndex where
  /-- The shards, by number. -/
  shards : Fin numShards → Shard

namespace PrefixIndex

/-- An empty index. -/
def new : PrefixIndex := ⟨fun _ => .empty⟩

/-- The number of the shard of a hash: its low bits. -/
def shardOf (hash : UInt64) : Fin numShards :=
  ⟨hash.toNat &&& (numShards - 1), lt_of_le_of_lt Nat.and_le_right (by decide)⟩

/-- The shard in which the operations look for a hash. -/
def shard (idx : PrefixIndex) (hash : UInt64) : Shard := idx.shards (shardOf hash)

/-- Replace one shard. -/
def setShard (idx : PrefixIndex) (i : Fin numShards) (entries : Shard) : PrefixIndex :=
  ⟨Function.update idx.shards i entries⟩

/-- The entry of a hash, if the index has one. -/
def get (idx : PrefixIndex) (hash : UInt64) : Option IndexEntry := (idx.shard hash).get hash

/-- Add a worker to the workers of a block, unless it is there. -/
def addWorker (worker : WorkerId) (workers : List WorkerId) : List WorkerId :=
  if worker ∈ workers then workers else workers ++ [worker]

/-- One turn of the loop of `record`: enter `worker` for one block. -/
def recordBlock (worker : WorkerId) (now : Instant) (idx : PrefixIndex) (hash : UInt64) :
    PrefixIndex :=
  let entries := idx.shard hash
  let entry := (entries.get hash).getD ⟨[], now⟩
  idx.setShard (shardOf hash) (entries.insert hash ⟨addWorker worker entry.workers, now⟩)

/-- Record that `worker` now holds every block in `chain`. -/
def record (idx : PrefixIndex) (now : Instant) (worker : WorkerId) (chain : List UInt64) :
    PrefixIndex :=
  chain.foldl (recordBlock worker now) idx

/-- Whether `worker` is recorded against a block: one turn of the reading loop of
`longest_match`. -/
def lists (idx : PrefixIndex) (worker : WorkerId) (hash : UInt64) : Bool :=
  match (idx.shard hash).get hash with
  | some entry => entry.workers.contains worker
  | none => false

/-- One turn of the touching loop of `longest_match`. -/
def touchBlock (now : Instant) (idx : PrefixIndex) (hash : UInt64) : PrefixIndex :=
  match (idx.shard hash).get hash with
  | some entry =>
    idx.setShard (shardOf hash) ((idx.shard hash).insert hash { entry with lastTouched := now })
  | none => idx

/-- The blocks that the reading loop of `longest_match` collects: it stops at the first block
the worker is not recorded against. -/
def matchedHashes (idx : PrefixIndex) (worker : WorkerId) (chain : List UInt64) : List UInt64 :=
  chain.takeWhile (idx.lists worker)

/-- Longest prefix of `chain` (in blocks) that `worker` is believed to hold; matching refreshes
the entries. -/
def longestMatch (idx : PrefixIndex) (now : Instant) (worker : WorkerId)
    (chain : List UInt64) : PrefixIndex × ℕ :=
  let matched := idx.matchedHashes worker chain
  (matched.foldl (touchBlock now) idx, matched.length)

/-- What a purge of `worker` leaves of one entry. -/
def dropWorker (worker : WorkerId) (entry : IndexEntry) : Option IndexEntry :=
  let workers := entry.workers.filter (· ≠ worker)
  if workers.isEmpty then none else some { entry with workers }

/-- One turn of the loop of `remove_worker`: purge one shard. -/
def purgeShard (worker : WorkerId) (idx : PrefixIndex) (i : Fin numShards) : PrefixIndex :=
  idx.setShard i ((idx.shards i).retain fun _ entry => dropWorker worker entry)

/-- Drop a worker from the index entirely. -/
def removeWorker (idx : PrefixIndex) (worker : WorkerId) : PrefixIndex :=
  (List.finRange numShards).foldl (purgeShard worker) idx

/-- Number of block-hash entries currently in the index. -/
def len (idx : PrefixIndex) : ℕ := ((List.finRange numShards).map fun i => (idx.shards i).len).sum

/-- Keep an entry whose age is at most `ttl`; ages of entries from the future are zero. -/
def keepFresh (now : Instant) (ttl : Duration) (entry : IndexEntry) : Option IndexEntry :=
  if now - entry.lastTouched ≤ ttl then some entry else none

/-- One turn of the expiry loop of `evict`: expire one shard and count. -/
def expireShard (now : Instant) (ttl : Duration) (acc : PrefixIndex × ℕ) (i : Fin numShards) :
    PrefixIndex × ℕ :=
  let entries := acc.1.shards i
  let kept := entries.retain fun _ entry => keepFresh now ttl entry
  (acc.1.setShard i kept, acc.2 + (entries.len - kept.len))

/-- The expiry pass of `evict`. -/
def expire (idx : PrefixIndex) (now : Instant) (ttl : Duration) : PrefixIndex × ℕ :=
  (List.finRange numShards).foldl (expireShard now ttl) (idx, 0)

/-- The ages that the LRU pass of `evict` collects, shard by shard; within a shard the order is
that of the table's iteration. -/
def ages (order : IterOrder (UInt64 × IndexEntry)) (idx : PrefixIndex) :
    List (Instant × UInt64 × Fin numShards) :=
  (List.finRange numShards).flatMap fun i =>
    (order.arrange (idx.shards i).toList).map fun e => (e.2.lastTouched, e.1, i)

/-- The stable sort of the LRU pass, oldest first. -/
def sortByAge (oldest : List (Instant × UInt64 × Fin numShards)) :
    List (Instant × UInt64 × Fin numShards) :=
  oldest.insertionSort fun a b => a.1 ≤ b.1

/-- One turn of the removal loop of `evict`. -/
def removeOldest (acc : PrefixIndex × ℕ) (e : Instant × UInt64 × Fin numShards) :
    PrefixIndex × ℕ :=
  let entries := acc.1.shards e.2.2
  (acc.1.setShard e.2.2 (entries.remove e.2.1),
    if entries.containsKey e.2.1 then acc.2 + 1 else acc.2)

/-- Evict entries not touched within `ttl`, then trim the index down to `max_entries` by age,
oldest first. -/
def evict (order : IterOrder (UInt64 × IndexEntry)) (idx : PrefixIndex) (now : Instant)
    (ttl : Duration) (maxEntries : ℕ) : PrefixIndex × EvictionStats :=
  let (idx, expired) := idx.expire now ttl
  let total := idx.len
  if total ≤ maxEntries then (idx, { expired, lruEvicted := 0 })
  else
    let overflow := total - maxEntries
    let oldest := sortByAge (idx.ages order)
    let (idx, lruEvicted) := (oldest.take overflow).foldl removeOldest (idx, 0)
    (idx, { expired, lruEvicted })

/-! ## Shards -/

theorem shards_setShard (idx : PrefixIndex) (i j : Fin numShards) (entries : Shard) :
    (idx.setShard i entries).shards j = if j = i then entries else idx.shards j := by
  simp [setShard, Function.update_apply]

/-- A loop over distinct shards that rewrites each from itself. -/
theorem shards_foldl_setShard (f : Shard → Shard) {l : List (Fin numShards)} (hl : l.Nodup)
    (idx : PrefixIndex) (j : Fin numShards) :
    (l.foldl (fun idx i => idx.setShard i (f (idx.shards i))) idx).shards j =
      if j ∈ l then f (idx.shards j) else idx.shards j := by
  induction l generalizing idx with
  | nil => simp
  | cons i l ih =>
    obtain ⟨hi, hl⟩ := List.nodup_cons.mp hl
    rw [List.foldl_cons, ih hl, shards_setShard]
    by_cases hji : j = i
    · subst hji; simp [hi]
    · simp [hji]

/-- Storing an entry in the shard of its hash. -/
theorem get_setShard_insert (idx : PrefixIndex) (hash hash' : UInt64) (entry : IndexEntry) :
    (idx.setShard (shardOf hash) ((idx.shard hash).insert hash entry)).get hash' =
      if hash' = hash then some entry else idx.get hash' := by
  unfold get shard
  rw [shards_setShard]
  by_cases hh : hash' = hash
  · subst hh; simp
  · by_cases hs : shardOf hash' = shardOf hash
    · rw [if_pos hs, HashTable.get_insert_of_ne _ hh, if_neg hh, ← hs]
    · rw [if_neg hs, if_neg hh]

@[simp] theorem get_new (hash : UInt64) : new.get hash = none := rfl

@[simp] theorem shards_new (i : Fin numShards) : new.shards i = .empty := rfl

/-- `lists` in terms of the entry. -/
theorem lists_iff (idx : PrefixIndex) (worker : WorkerId) (hash : UInt64) :
    idx.lists worker hash = true ↔ ∃ entry, idx.get hash = some entry ∧ worker ∈ entry.workers := by
  unfold lists get
  cases (idx.shard hash).get hash <;> simp

@[simp] theorem lists_new (worker : WorkerId) (hash : UInt64) : new.lists worker hash = false := rfl

/-! ## `record` -/

/-- The workers recorded against a block. -/
def workersOf (idx : PrefixIndex) (hash : UInt64) : List WorkerId :=
  ((idx.get hash).map (·.workers)).getD []

theorem lists_eq_mem_workersOf (idx : PrefixIndex) (worker : WorkerId) (hash : UInt64) :
    idx.lists worker hash = true ↔ worker ∈ idx.workersOf hash := by
  rw [lists_iff, workersOf]
  cases idx.get hash <;> simp

@[simp] theorem mem_addWorker {worker w : WorkerId} {workers : List WorkerId} :
    w ∈ addWorker worker workers ↔ w = worker ∨ w ∈ workers := by
  unfold addWorker
  split_ifs with h
  · exact ⟨Or.inr, fun hw => hw.elim (fun e => e ▸ h) id⟩
  · simp [or_comm]

@[simp] theorem addWorker_idem (worker : WorkerId) (workers : List WorkerId) :
    addWorker worker (addWorker worker workers) = addWorker worker workers :=
  if_pos (mem_addWorker.mpr (Or.inl rfl))

theorem nodup_addWorker {worker : WorkerId} {workers : List WorkerId} (h : workers.Nodup) :
    (addWorker worker workers).Nodup := by
  unfold addWorker
  split_ifs with hw
  · exact h
  · exact List.nodup_append.mpr ⟨h, List.nodup_singleton _, by
      intro a ha b hb; rw [List.mem_singleton.mp hb]; rintro rfl; exact hw ha⟩

theorem get_recordBlock (worker : WorkerId) (now : Instant) (idx : PrefixIndex)
    (hash hash' : UInt64) :
    (recordBlock worker now idx hash).get hash' =
      if hash' = hash then some ⟨addWorker worker (idx.workersOf hash), now⟩
      else idx.get hash' := by
  unfold recordBlock
  rw [get_setShard_insert]
  split_ifs
  · unfold workersOf get
    cases (idx.shard hash).get hash <;> rfl
  · rfl

/-- What `record` does to the entry of every hash. -/
theorem get_record (idx : PrefixIndex) (now : Instant) (worker : WorkerId)
    (chain : List UInt64) (hash : UInt64) :
    (idx.record now worker chain).get hash =
      if hash ∈ chain then some ⟨addWorker worker (idx.workersOf hash), now⟩
      else idx.get hash := by
  unfold record
  induction chain generalizing idx with
  | nil => simp
  | cons b chain ih =>
    rw [List.foldl_cons, ih]
    by_cases hb : hash = b
    · subst hb
      have hw : (recordBlock worker now idx hash).workersOf hash =
          addWorker worker (idx.workersOf hash) := by
        rw [workersOf, get_recordBlock, if_pos rfl]; rfl
      rw [hw, addWorker_idem, get_recordBlock, if_pos rfl, ite_self, if_pos List.mem_cons_self]
    · have hw : (recordBlock worker now idx b).workersOf hash = idx.workersOf hash := by
        rw [workersOf, get_recordBlock, if_neg hb, ← workersOf]
      rw [hw, get_recordBlock, if_neg hb]
      simp [hb]

/-- `record` enters exactly the recorded worker, against exactly the blocks of the chain. -/
theorem lists_record (idx : PrefixIndex) (now : Instant) (worker w : WorkerId)
    (chain : List UInt64) (hash : UInt64) :
    (idx.record now worker chain).lists w hash = true ↔
      w = worker ∧ hash ∈ chain ∨ idx.lists w hash = true := by
  rw [lists_eq_mem_workersOf, lists_eq_mem_workersOf, workersOf, get_record]
  split_ifs with h
  · simp [h]
  · simp [h, workersOf]

theorem lists_recordBlock (idx : PrefixIndex) (now : Instant) (worker w : WorkerId)
    (hash hash' : UInt64) :
    (recordBlock worker now idx hash).lists w hash' = true ↔
      w = worker ∧ hash' = hash ∨ idx.lists w hash' = true := by
  rw [show recordBlock worker now idx hash = idx.record now worker [hash] from rfl, lists_record,
    List.mem_singleton]

/-! ## `longest_match` -/

theorem get_touchBlock (now : Instant) (idx : PrefixIndex) (hash hash' : UInt64) :
    (touchBlock now idx hash).get hash' =
      if hash' = hash then (idx.get hash).map fun e => { e with lastTouched := now }
      else idx.get hash' := by
  unfold touchBlock
  cases h : (idx.shard hash).get hash with
  | none =>
    split_ifs with hh
    · rw [hh, get, h]; rfl
    · rfl
  | some entry =>
    rw [get_setShard_insert]
    split_ifs
    · rw [get, h]; rfl
    · rfl

theorem lists_touchBlock (now : Instant) (idx : PrefixIndex) (worker : WorkerId)
    (hash hash' : UInt64) :
    (touchBlock now idx hash).lists worker hash' = idx.lists worker hash' := by
  rw [Bool.eq_iff_iff, lists_eq_mem_workersOf, lists_eq_mem_workersOf, workersOf, workersOf,
    get_touchBlock]
  split_ifs with h
  · rw [h, Option.map_map]
    rfl
  · rfl

/-- Touching sets the time of the touched entries and leaves the rest alone. -/
theorem get_foldl_touchBlock (now : Instant) (idx : PrefixIndex) (hashes : List UInt64)
    (hash : UInt64) :
    (hashes.foldl (touchBlock now) idx).get hash =
      if hash ∈ hashes then (idx.get hash).map fun e => { e with lastTouched := now }
      else idx.get hash := by
  induction hashes generalizing idx with
  | nil => simp
  | cons b hashes ih =>
    rw [List.foldl_cons, ih, get_touchBlock]
    by_cases hb : hash = b
    · subst hb
      cases idx.get hash <;> simp
    · simp [hb]

/-- What `longest_match` does to the entry of every hash. -/
theorem get_longestMatch (idx : PrefixIndex) (now : Instant) (worker : WorkerId)
    (chain : List UInt64) (hash : UInt64) :
    (idx.longestMatch now worker chain).1.get hash =
      if hash ∈ idx.matchedHashes worker chain then
        (idx.get hash).map fun e => { e with lastTouched := now }
      else idx.get hash :=
  get_foldl_touchBlock now idx _ hash

/-- Matching changes times only. -/
theorem workersOf_longestMatch (idx : PrefixIndex) (now : Instant) (worker : WorkerId)
    (chain : List UInt64) (hash : UInt64) :
    (idx.longestMatch now worker chain).1.workersOf hash = idx.workersOf hash := by
  rw [workersOf, get_longestMatch, workersOf]
  split_ifs <;> cases idx.get hash <;> rfl

theorem lists_longestMatch (idx : PrefixIndex) (now : Instant) (worker w : WorkerId)
    (chain : List UInt64) (hash : UInt64) :
    (idx.longestMatch now worker chain).1.lists w hash = idx.lists w hash := by
  rw [Bool.eq_iff_iff, lists_eq_mem_workersOf, lists_eq_mem_workersOf, workersOf_longestMatch]

/-- A match of at least `k` blocks: the worker is listed on the first `k` of them. -/
theorem le_longestMatch_iff (idx : PrefixIndex) (now : Instant) (worker : WorkerId)
    (chain : List UInt64) (k : ℕ) : k ≤ (idx.longestMatch now worker chain).2 ↔
      k ≤ chain.length ∧ ∀ hash ∈ chain.take k, idx.lists worker hash = true :=
  Slices.le_length_takeWhile_iff

/-! ## `remove_worker` -/

theorem shards_removeWorker (idx : PrefixIndex) (worker : WorkerId) (i : Fin numShards) :
    (idx.removeWorker worker).shards i =
      (idx.shards i).retain fun _ entry => dropWorker worker entry := by
  exact (shards_foldl_setShard (fun entries => entries.retain fun _ e => dropWorker worker e)
    (List.nodup_finRange numShards) idx i).trans (if_pos (List.mem_finRange i))

/-- What `remove_worker` does to the entry of every hash. -/
theorem get_removeWorker (idx : PrefixIndex) (worker : WorkerId) (hash : UInt64) :
    (idx.removeWorker worker).get hash = (idx.get hash).bind (dropWorker worker) := by
  rw [get, shard, shards_removeWorker, HashTable.get_retain]
  rfl

theorem dropWorker_eq_some {worker : WorkerId} {entry entry' : IndexEntry} :
    dropWorker worker entry = some entry' ↔
      entry' = { entry with workers := entry.workers.filter (· ≠ worker) } ∧
        entry.workers.filter (· ≠ worker) ≠ [] := by
  unfold dropWorker
  by_cases h : entry.workers.filter (· ≠ worker) = []
  · rw [if_pos (List.isEmpty_iff.mpr h)]
    exact ⟨nofun, fun hne => absurd h hne.2⟩
  · rw [if_neg (fun he => h (List.isEmpty_iff.mp he))]
    exact ⟨fun he => ⟨(Option.some.inj he).symm, h⟩, fun he => congrArg some he.1.symm⟩

/-- The workers of an entry after a purge. -/
theorem workers_bind_dropWorker (worker : WorkerId) (entry : Option IndexEntry) :
    ((entry.bind (dropWorker worker)).map (·.workers)).getD [] =
      ((entry.map (·.workers)).getD []).filter (· ≠ worker) := by
  cases entry with
  | none => rfl
  | some entry =>
    by_cases hempty : entry.workers.filter (· ≠ worker) = []
    · have hd : dropWorker worker entry = none := if_pos (List.isEmpty_iff.mpr hempty)
      rw [Option.bind_some, hd]
      exact hempty.symm
    · rw [Option.bind_some, dropWorker_eq_some.mpr ⟨rfl, hempty⟩]
      rfl

theorem workersOf_removeWorker (idx : PrefixIndex) (worker : WorkerId) (hash : UInt64) :
    (idx.removeWorker worker).workersOf hash = (idx.workersOf hash).filter (· ≠ worker) := by
  rw [workersOf, workersOf, get_removeWorker, workers_bind_dropWorker]

/-- A purge removes exactly the purged worker. -/
theorem lists_removeWorker (idx : PrefixIndex) (worker w : WorkerId) (hash : UInt64) :
    (idx.removeWorker worker).lists w hash = true ↔ w ≠ worker ∧ idx.lists w hash = true := by
  rw [lists_eq_mem_workersOf, lists_eq_mem_workersOf, workersOf_removeWorker, List.mem_filter]
  simp [and_comm]

/-- A purge of one shard removes the purged worker from the blocks of that shard. -/
theorem lists_purgeShard (idx : PrefixIndex) (worker w : WorkerId) (i : Fin numShards)
    (hash : UInt64) :
    (purgeShard worker idx i).lists w hash = true ↔
      ¬(w = worker ∧ i = shardOf hash) ∧ idx.lists w hash = true := by
  rw [lists_eq_mem_workersOf, lists_eq_mem_workersOf, workersOf, workersOf, get, get, shard, shard,
    purgeShard, shards_setShard]
  by_cases hi : shardOf hash = i
  · have hget : ((idx.shards i).retain fun _ entry => dropWorker worker entry).get hash =
        ((idx.shards (shardOf hash)).get hash).bind (dropWorker worker) := by
      rw [HashTable.get_retain, hi]
    rw [if_pos hi, hget, workers_bind_dropWorker, List.mem_filter]
    simp [hi, and_comm]
  · simp [hi, Ne.symm hi]

/-- When a block was last touched, if a worker is listed on it. -/
def belief (idx : PrefixIndex) (worker : WorkerId) (hash : UInt64) : Option Instant :=
  (idx.get hash).bind fun entry => if worker ∈ entry.workers then some entry.lastTouched else none

theorem lists_iff_belief (idx : PrefixIndex) (worker : WorkerId) (hash : UInt64) :
    idx.lists worker hash = true ↔ idx.belief worker hash ≠ none := by
  rw [lists_iff, belief]
  cases idx.get hash with
  | none => simp
  | some entry => simp

/-- A purge takes nothing from other workers. -/
theorem belief_removeWorker (idx : PrefixIndex) (worker w : WorkerId) (hash : UInt64) :
    (idx.removeWorker worker).belief w hash =
      if w = worker then none else idx.belief w hash := by
  rw [belief, get_removeWorker, belief]
  cases idx.get hash with
  | none => simp
  | some entry =>
    rw [Option.bind_some, Option.bind_some]
    by_cases hempty : entry.workers.filter (· ≠ worker) = []
    · have hd : dropWorker worker entry = none := if_pos (List.isEmpty_iff.mpr hempty)
      rw [hd, Option.bind_none]
      split_ifs with hw hmem
      · rfl
      · exact absurd (List.filter_eq_nil_iff.mp hempty w hmem) (by simpa using hw)
      · rfl
    · rw [dropWorker_eq_some.mpr ⟨rfl, hempty⟩, Option.bind_some]
      by_cases hw : w = worker
      · simp [hw]
      · simp [hw]

/-! ## `evict` -/

/-- The expiry loop, over any distinct shards: the shards and the count. -/
private theorem foldl_expireShard (now : Instant) (ttl : Duration) {l : List (Fin numShards)}
    (hl : l.Nodup) (idx : PrefixIndex) (n : ℕ) :
    (l.foldl (expireShard now ttl) (idx, n)).1 =
        l.foldl (fun idx i => idx.setShard i
          ((idx.shards i).retain fun _ e => keepFresh now ttl e)) idx ∧
      (l.foldl (expireShard now ttl) (idx, n)).2 = n + (l.map fun i => (idx.shards i).len -
        ((idx.shards i).retain fun _ e => keepFresh now ttl e).len).sum := by
  induction l generalizing idx n with
  | nil => simp
  | cons i l ih =>
    obtain ⟨hi, hl⟩ := List.nodup_cons.mp hl
    obtain ⟨ih₁, ih₂⟩ := ih hl (idx.setShard i
      ((idx.shards i).retain fun _ e => keepFresh now ttl e)) (n + ((idx.shards i).len -
        ((idx.shards i).retain fun _ e => keepFresh now ttl e).len))
    refine ⟨ih₁, ?_⟩
    rw [List.foldl_cons, expireShard, ih₂, List.map_cons, List.sum_cons, add_assoc]
    congr 2
    refine congrArg List.sum (List.map_congr_left fun j hj => ?_)
    rw [shards_setShard, if_neg (by rintro rfl; exact hi hj)]

theorem shards_expire (idx : PrefixIndex) (now : Instant) (ttl : Duration) (i : Fin numShards) :
    (idx.expire now ttl).1.shards i = (idx.shards i).retain fun _ e => keepFresh now ttl e := by
  rw [expire, (foldl_expireShard now ttl (List.nodup_finRange _) idx 0).1]
  exact (shards_foldl_setShard (fun entries => entries.retain fun _ e => keepFresh now ttl e)
    (List.nodup_finRange numShards) idx i).trans (if_pos (List.mem_finRange i))

/-- The expiry pass counts, shard by shard, by how much the shards shrink. -/
theorem expire_count (idx : PrefixIndex) (now : Instant) (ttl : Duration) :
    (idx.expire now ttl).2 = ((List.finRange numShards).map fun i => (idx.shards i).len -
      ((idx.shards i).retain fun _ e => keepFresh now ttl e).len).sum := by
  rw [expire, (foldl_expireShard now ttl (List.nodup_finRange _) idx 0).2, Nat.zero_add]

/-- What the expiry pass does to the entry of every hash. -/
theorem get_expire (idx : PrefixIndex) (now : Instant) (ttl : Duration) (hash : UInt64) :
    (idx.expire now ttl).1.get hash = (idx.get hash).bind (keepFresh now ttl) := by
  rw [get, shard, shards_expire, HashTable.get_retain]
  rfl

/-- The entries that the LRU pass of `evict` removes from the index that the expiry pass left. -/
def overflowing (order : IterOrder (UInt64 × IndexEntry)) (kept : PrefixIndex)
    (maxEntries : ℕ) : List (Instant × UInt64 × Fin numShards) :=
  (sortByAge (kept.ages order)).take (kept.len - maxEntries)

/-- A sweep is the two passes, one after the other: below the cap the second has nothing to
remove. -/
theorem evict_eq (order : IterOrder (UInt64 × IndexEntry)) (idx : PrefixIndex) (now : Instant)
    (ttl : Duration) (maxEntries : ℕ) :
    idx.evict order now ttl maxEntries =
      let swept := ((idx.expire now ttl).1.overflowing order maxEntries).foldl removeOldest
        ((idx.expire now ttl).1, 0)
      (swept.1, ⟨(idx.expire now ttl).2, swept.2⟩) := by
  unfold evict overflowing
  dsimp only
  split_ifs with h
  · rw [Nat.sub_eq_zero_of_le h, List.take_zero, List.foldl_nil]
  · rfl

/-- What the removal loop does to the entry of every hash: the entries named with their own
shard are gone. -/
theorem get_foldl_removeOldest (l : List (Instant × UInt64 × Fin numShards)) (idx : PrefixIndex)
    (n : ℕ) (hash : UInt64) :
    (l.foldl removeOldest (idx, n)).1.get hash =
      if (hash, shardOf hash) ∈ l.map Prod.snd then none else idx.get hash := by
  induction l generalizing idx n with
  | nil => simp
  | cons e l ih =>
    obtain ⟨t, b, i⟩ := e
    have hstep : (idx.setShard i ((idx.shards i).remove b)).get hash =
        if b = hash ∧ i = shardOf hash then none else idx.get hash := by
      rw [get, get, shard, shard, shards_setShard]
      by_cases hi : shardOf hash = i
      · rw [if_pos hi, ← hi, HashTable.get_remove]
        exact if_congr (by simp [eq_comm]) rfl rfl
      · rw [if_neg hi, if_neg fun h => hi h.2.symm]
    rw [List.foldl_cons, removeOldest, ih, hstep, List.map_cons]
    by_cases hm : (hash, shardOf hash) ∈ l.map Prod.snd
    · rw [if_pos hm, if_pos (List.mem_cons_of_mem _ hm)]
    · rw [if_neg hm]
      refine if_congr ?_ rfl rfl
      rw [List.mem_cons, or_iff_left hm, Prod.mk.injEq]
      exact and_congr eq_comm eq_comm

end PrefixIndex

end KvRoute
