import Mathlib.Data.List.Sort
import KvRoute.Core.Prefix
import KvRoute.Lib.Runs

set_option relaxedAutoImplicit false
set_option autoImplicit false

/-!
# Runs of the prefix index

The index as a state machine: the calls it can receive, each with the clock reading it takes,
and the replies it gives.  Every call keeps the representation well formed: a hash lives in its
own shard, and no entry has an empty or repeating list of workers.  In a well-formed index the
two passes of `evict` are described without reference to shards, tables and sorting.

## Main definitions

* `KvRoute.IndexOp`, `KvRoute.IndexReply` — the calls and the replies.
* `PrefixIndex.step`, `PrefixIndex.run` — one call, and a sequence of calls.
* `PrefixIndex.WellFormed` — placement by hash, and non-empty duplicate-free lists of workers.

## Main results

* `PrefixIndex.WellFormed.step` — every call keeps the index well formed.
* `PrefixIndex.len_eq_ncard` — `len` counts the hashes that have an entry.
* `PrefixIndex.evict_cases` — what a sweep removes, and what it reports.
-/

namespace KvRoute

/-- A call on the index.  `ρ` is what callers record and `μ` what they match: block hashes, or
something that a chain of block hashes is computed from. -/
inductive IndexOp (ρ μ : Type) where
  /-- `record(worker, chain)`. -/
  | record (worker : WorkerId) (recorded : ρ)
  /-- `longest_match(worker, chain)`. -/
  | longestMatch (worker : WorkerId) (matched : μ)
  /-- `remove_worker(worker)`. -/
  | removeWorker (worker : WorkerId)
  /-- `len()`. -/
  | len
  /-- `evict(ttl, max_entries)`, with the order in which the tables are iterated. -/
  | evict (order : IterOrder (UInt64 × IndexEntry)) (ttl : Duration) (maxEntries : ℕ)

/-- What a call returns. -/
inductive IndexReply where
  /-- Nothing. -/
  | done
  /-- The number of matched blocks. -/
  | blocks (matched : ℕ)
  /-- The number of entries. -/
  | entries (len : ℕ)
  /-- The outcome of a sweep. -/
  | swept (stats : EvictionStats)
deriving DecidableEq, Repr

/-- Calls on the index, each with its clock reading. -/
abbrev IndexCalls := List (Instant × IndexOp (List UInt64) (List UInt64))

namespace IndexOp

variable {ρ μ ρ' μ' : Type}

/-- The same call on other arguments. -/
def map (f : ρ → ρ') (g : μ → μ') : IndexOp ρ μ → IndexOp ρ' μ'
  | record worker recorded => record worker (f recorded)
  | longestMatch worker matched => longestMatch worker (g matched)
  | removeWorker worker => removeWorker worker
  | len => len
  | evict order ttl maxEntries => evict order ttl maxEntries

/-- Whether the call is a sweep. -/
def isEvict : IndexOp ρ μ → Bool
  | evict .. => true
  | _ => false

end IndexOp

namespace PrefixIndex

/-- One call on the index, at a clock reading. -/
def step (idx : PrefixIndex) (call : Instant × IndexOp (List UInt64) (List UInt64)) :
    PrefixIndex × IndexReply :=
  match call.2 with
  | .record worker chain => (idx.record call.1 worker chain, .done)
  | .longestMatch worker chain =>
    let result := idx.longestMatch call.1 worker chain
    (result.1, .blocks result.2)
  | .removeWorker worker => (idx.removeWorker worker, .done)
  | .len => (idx, .entries idx.len)
  | .evict order ttl maxEntries =>
    let result := idx.evict order call.1 ttl maxEntries
    (result.1, .swept result.2)

/-- The index after a sequence of calls. -/
def run (idx : PrefixIndex) (calls : List (Instant × IndexOp (List UInt64) (List UInt64))) :
    PrefixIndex :=
  calls.foldl (fun idx call => (idx.step call).1) idx

section StepLemmas

variable (idx : PrefixIndex) (now : Instant) (worker : WorkerId) (chain : List UInt64)
  (order : IterOrder (UInt64 × IndexEntry)) (ttl : Duration) (maxEntries : ℕ)

@[simp] theorem step_record :
    idx.step (now, .record worker chain) = (idx.record now worker chain, .done) := rfl

@[simp] theorem step_longestMatch_fst :
    (idx.step (now, .longestMatch worker chain)).1 = (idx.longestMatch now worker chain).1 := rfl

@[simp] theorem step_longestMatch_snd : (idx.step (now, .longestMatch worker chain)).2 =
    .blocks (idx.longestMatch now worker chain).2 := rfl

@[simp] theorem step_removeWorker :
    idx.step (now, .removeWorker worker) = (idx.removeWorker worker, .done) := rfl

@[simp] theorem step_len : idx.step (now, .len) = (idx, .entries idx.len) := rfl

@[simp] theorem step_evict_fst : (idx.step (now, .evict order ttl maxEntries)).1 =
    (idx.evict order now ttl maxEntries).1 := by
  rw [step]

@[simp] theorem step_evict_snd : (idx.step (now, .evict order ttl maxEntries)).2 =
    .swept (idx.evict order now ttl maxEntries).2 := by
  rw [step]

end StepLemmas

/-! ## Well-formed indexes -/

/-- The representation invariant of the index. -/
structure WellFormed (idx : PrefixIndex) : Prop where
  /-- A hash is stored in its own shard only. -/
  placed : ∀ i hash entry, (idx.shards i).get hash = some entry → i = shardOf hash
  /-- No entry is without workers. -/
  nonempty : ∀ hash entry, idx.get hash = some entry → entry.workers ≠ []
  /-- No worker is listed twice in an entry. -/
  nodup : ∀ hash entry, idx.get hash = some entry → entry.workers.Nodup

/-- An entry found in any shard is the entry of its hash. -/
theorem WellFormed.get_of_shard {idx : PrefixIndex} (h : idx.WellFormed) {i : Fin numShards}
    {hash : UInt64} {entry : IndexEntry} (hget : (idx.shards i).get hash = some entry) :
    i = shardOf hash ∧ idx.get hash = some entry := by
  obtain rfl := h.placed i hash entry hget
  exact ⟨rfl, hget⟩

/-- Storing an entry in the shard of its hash keeps every hash in its own shard. -/
theorem placed_setShard_insert {idx : PrefixIndex}
    (h : ∀ i hash entry, (idx.shards i).get hash = some entry → i = shardOf hash)
    (b : UInt64) (e : IndexEntry) :
    ∀ i hash entry, ((idx.setShard (shardOf b) ((idx.shard b).insert b e)).shards i).get hash =
      some entry → i = shardOf hash := by
  intro i hash entry hget
  rw [shards_setShard] at hget
  by_cases hi : i = shardOf b
  · rw [if_pos hi, HashTable.get_insert] at hget
    by_cases hb : hash = b
    · rw [hi, hb]
    · rw [if_neg hb] at hget
      exact hi ▸ h (shardOf b) hash entry hget
  · rw [if_neg hi] at hget
    exact h i hash entry hget

theorem WellFormed.new : WellFormed new where
  placed i hash entry h := by simp at h
  nonempty hash entry h := by simp at h
  nodup hash entry h := by simp at h

theorem WellFormed.recordBlock {idx : PrefixIndex} (h : idx.WellFormed) (worker : WorkerId)
    (now : Instant) (b : UInt64) : (recordBlock worker now idx b).WellFormed where
  placed := placed_setShard_insert h.placed b _
  nonempty hash entry hget := by
    rw [get_recordBlock] at hget
    split_ifs at hget
    · obtain rfl := Option.some.inj hget
      exact List.ne_nil_of_mem (mem_addWorker.mpr (Or.inl rfl))
    · exact h.nonempty hash entry hget
  nodup hash entry hget := by
    rw [get_recordBlock] at hget
    split_ifs at hget
    · obtain rfl := Option.some.inj hget
      refine nodup_addWorker ?_
      rw [workersOf]
      cases hb : idx.get b with
      | none => exact List.nodup_nil
      | some e => exact h.nodup b e hb
    · exact h.nodup hash entry hget

theorem WellFormed.record {idx : PrefixIndex} (h : idx.WellFormed) (now : Instant)
    (worker : WorkerId) (chain : List UInt64) : (idx.record now worker chain).WellFormed :=
  Runs.foldl_inv (fun _ b h => h.recordBlock worker now b) h chain

theorem WellFormed.touchBlock {idx : PrefixIndex} (h : idx.WellFormed) (now : Instant)
    (b : UInt64) : (touchBlock now idx b).WellFormed where
  placed := by
    unfold PrefixIndex.touchBlock
    cases (idx.shard b).get b with
    | none => exact h.placed
    | some e => exact placed_setShard_insert h.placed b _
  nonempty hash entry hget := by
    rw [get_touchBlock] at hget
    split_ifs at hget with hb
    · obtain ⟨e, he, rfl⟩ := Option.map_eq_some_iff.mp hget
      exact h.nonempty b e he
    · exact h.nonempty hash entry hget
  nodup hash entry hget := by
    rw [get_touchBlock] at hget
    split_ifs at hget with hb
    · obtain ⟨e, he, rfl⟩ := Option.map_eq_some_iff.mp hget
      exact h.nodup b e he
    · exact h.nodup hash entry hget

theorem WellFormed.longestMatch {idx : PrefixIndex} (h : idx.WellFormed) (now : Instant)
    (worker : WorkerId) (chain : List UInt64) :
    (idx.longestMatch now worker chain).1.WellFormed :=
  Runs.foldl_inv (fun _ b h => h.touchBlock now b) h _

/-- Purging one shard filters its entries and leaves the other shards alone. -/
theorem WellFormed.purgeShard {idx : PrefixIndex} (h : idx.WellFormed) (worker : WorkerId)
    (i : Fin numShards) : (purgeShard worker idx i).WellFormed := by
  have hshard : ∀ j hash entry, ((PrefixIndex.purgeShard worker idx i).shards j).get hash =
      some entry → (idx.shards j).get hash = some entry ∨
        ∃ old, (idx.shards j).get hash = some old ∧ dropWorker worker old = some entry := by
    intro j hash entry hget
    rw [PrefixIndex.purgeShard, shards_setShard] at hget
    split_ifs at hget with hj
    · rw [HashTable.get_retain, Option.bind_eq_some_iff] at hget
      exact Or.inr (hj ▸ hget)
    · exact Or.inl hget
  refine { placed := ?placed, nonempty := ?nonempty, nodup := ?nodup }
  case placed =>
    intro j hash entry hget
    rcases hshard j hash entry hget with hold | ⟨old, hold, -⟩
    · exact h.placed j hash entry hold
    · exact h.placed j hash old hold
  case nonempty =>
    intro hash entry hget
    rcases hshard _ hash entry hget with hold | ⟨old, -, hd⟩
    · exact h.nonempty hash entry hold
    · obtain ⟨rfl, hne⟩ := dropWorker_eq_some.mp hd
      exact hne
  case nodup =>
    intro hash entry hget
    rcases hshard _ hash entry hget with hold | ⟨old, hold, hd⟩
    · exact h.nodup hash entry hold
    · obtain ⟨rfl, -⟩ := dropWorker_eq_some.mp hd
      exact (h.nodup hash old hold).filter _

theorem WellFormed.removeWorker {idx : PrefixIndex} (h : idx.WellFormed) (worker : WorkerId) :
    (idx.removeWorker worker).WellFormed :=
  Runs.foldl_inv (fun _ i h => h.purgeShard worker i) h _

/-- An index whose entries are all entries of a well-formed one, in the same shards, is well
formed. -/
theorem WellFormed.of_subset {idx idx' : PrefixIndex} (h : idx.WellFormed)
    (hsub : ∀ i hash entry, (idx'.shards i).get hash = some entry →
      (idx.shards i).get hash = some entry) : idx'.WellFormed where
  placed i hash entry hget := h.placed i hash entry (hsub i hash entry hget)
  nonempty hash entry hget := h.nonempty hash entry (hsub _ hash entry hget)
  nodup hash entry hget := h.nodup hash entry (hsub _ hash entry hget)

theorem keepFresh_eq_some {now : Instant} {ttl : Duration} {e e' : IndexEntry} :
    keepFresh now ttl e = some e' ↔ e' = e ∧ now - e.lastTouched ≤ ttl := by
  unfold keepFresh
  split_ifs with h
  · exact ⟨fun he => ⟨(Option.some.inj he).symm, h⟩, fun he => congrArg some he.1.symm⟩
  · exact ⟨nofun, fun he => absurd he.2 h⟩

theorem WellFormed.expireShard {acc : PrefixIndex × ℕ} (h : acc.1.WellFormed) (now : Instant)
    (ttl : Duration) (i : Fin numShards) : (expireShard now ttl acc i).1.WellFormed := by
  refine h.of_subset fun j hash entry hget => ?_
  rw [PrefixIndex.expireShard, shards_setShard] at hget
  split_ifs at hget with hj
  · rw [HashTable.get_retain, Option.bind_eq_some_iff] at hget
    obtain ⟨e, he, hk⟩ := hget
    rw [(keepFresh_eq_some.mp hk).1, hj, he]
  · exact hget

theorem WellFormed.expire {idx : PrefixIndex} (h : idx.WellFormed) (now : Instant)
    (ttl : Duration) : (idx.expire now ttl).1.WellFormed :=
  Runs.foldl_inv (I := fun acc : PrefixIndex × ℕ => acc.1.WellFormed) (s := (idx, 0))
    (fun _ i h => h.expireShard now ttl i) h _

theorem WellFormed.removeOldest {acc : PrefixIndex × ℕ} (h : acc.1.WellFormed)
    (e : Instant × UInt64 × Fin numShards) : (removeOldest acc e).1.WellFormed := by
  refine h.of_subset fun i hash entry hget => ?_
  rw [PrefixIndex.removeOldest, shards_setShard] at hget
  split_ifs at hget with hi
  · rw [HashTable.get_remove] at hget
    split_ifs at hget
    exact hi ▸ hget
  · exact hget

theorem WellFormed.evict {idx : PrefixIndex} (h : idx.WellFormed)
    (order : IterOrder (UInt64 × IndexEntry)) (now : Instant) (ttl : Duration)
    (maxEntries : ℕ) : (idx.evict order now ttl maxEntries).1.WellFormed := by
  rw [evict_eq]
  exact Runs.foldl_inv (I := fun acc : PrefixIndex × ℕ => acc.1.WellFormed)
    (s := ((idx.expire now ttl).1, 0)) (fun _ e h => h.removeOldest e) (h.expire now ttl) _

/-- Every call keeps the index well formed. -/
theorem WellFormed.step {idx : PrefixIndex} (h : idx.WellFormed)
    (call : Instant × IndexOp (List UInt64) (List UInt64)) : (idx.step call).1.WellFormed := by
  obtain ⟨now, op⟩ := call
  cases op with
  | record worker chain => exact h.record now worker chain
  | longestMatch worker chain => exact h.longestMatch now worker chain
  | removeWorker worker => exact h.removeWorker worker
  | len => exact h
  | evict order ttl maxEntries =>
    rw [step_evict_fst]
    exact h.evict order now ttl maxEntries

/-- Well-formedness in every reachable state. -/
theorem WellFormed.run {idx : PrefixIndex} (h : idx.WellFormed)
    (calls : List (Instant × IndexOp (List UInt64) (List UInt64))) : (idx.run calls).WellFormed :=
  Runs.foldl_inv (fun _ call h => h.step call) h calls

/-! ## Counting entries -/

/-- The hashes that have an entry, shard by shard. -/
def hashes (idx : PrefixIndex) : List UInt64 :=
  (List.finRange numShards).flatMap fun i => (idx.shards i).keys

theorem length_hashes (idx : PrefixIndex) : idx.hashes.length = idx.len := by
  simp only [hashes, List.length_flatMap, HashTable.length_keys, len]

theorem mem_hashes {idx : PrefixIndex} (h : idx.WellFormed) {hash : UInt64} :
    hash ∈ idx.hashes ↔ ∃ entry, idx.get hash = some entry := by
  simp only [hashes, List.mem_flatMap, List.mem_finRange, true_and, HashTable.mem_keys]
  constructor
  · rintro ⟨i, entry, hget⟩
    exact ⟨entry, (h.get_of_shard hget).2⟩
  · rintro ⟨entry, hget⟩
    exact ⟨shardOf hash, entry, hget⟩

theorem nodup_hashes {idx : PrefixIndex} (h : idx.WellFormed) : idx.hashes.Nodup := by
  refine List.nodup_flatMap.mpr ⟨fun i _ => HashTable.nodup_keys _, ?_⟩
  refine (List.nodup_finRange numShards).imp fun {i j} hij hash hi hj => hij ?_
  obtain ⟨e, he⟩ := (HashTable.mem_keys _).mp hi
  obtain ⟨e', he'⟩ := (HashTable.mem_keys _).mp hj
  rw [h.placed i hash e he, h.placed j hash e' he']

/-- `len` counts the hashes that have an entry, once each. -/
theorem len_eq_ncard {idx : PrefixIndex} (h : idx.WellFormed) :
    idx.len = {hash | ∃ entry, idx.get hash = some entry}.ncard := by
  have hset : {hash | ∃ entry, idx.get hash = some entry} =
      (idx.hashes.toFinset : Set UInt64) := by
    ext hash
    simp [mem_hashes h]
  rw [hset, Set.ncard_coe_finset, List.toFinset_card_of_nodup (nodup_hashes h), length_hashes]

/-! ## The two passes of a sweep -/

/-- The expiry pass reports by how much it shrank the index. -/
theorem expire_snd (idx : PrefixIndex) (now : Instant) (ttl : Duration) :
    (idx.expire now ttl).2 + (idx.expire now ttl).1.len = idx.len := by
  rw [expire_count, len, len, ← List.sum_map_add]
  refine congrArg List.sum (List.map_congr_left fun i _ => ?_)
  rw [shards_expire]
  exact Nat.sub_add_cancel (HashTable.len_retain_le _ _)

/-- What the LRU pass collects: every entry, with its age and its shard. -/
theorem mem_ages {idx : PrefixIndex} (h : idx.WellFormed)
    (order : IterOrder (UInt64 × IndexEntry)) {t : Instant} {hash : UInt64}
    {i : Fin numShards} :
    (t, hash, i) ∈ idx.ages order ↔
      i = shardOf hash ∧ ∃ entry, idx.get hash = some entry ∧ entry.lastTouched = t := by
  simp only [ages, List.mem_flatMap, List.mem_finRange, true_and, List.mem_map,
    IterOrder.mem_arrange, Prod.mk.injEq, Prod.exists, HashTable.mem_toList]
  constructor
  · rintro ⟨j, b, e, hget, rfl, rfl, rfl⟩
    exact ⟨(h.get_of_shard hget).1, e, (h.get_of_shard hget).2, rfl⟩
  · rintro ⟨rfl, e, hget, rfl⟩
    exact ⟨shardOf hash, hash, e, hget, rfl, rfl, rfl⟩

/-- The LRU pass collects every hash once. -/
theorem ages_perm_hashes (idx : PrefixIndex) (order : IterOrder (UInt64 × IndexEntry)) :
    ((idx.ages order).map fun e => e.2.1).Perm idx.hashes := by
  rw [ages, hashes, List.map_flatMap]
  refine List.Perm.flatMap_left _ fun i _ => ?_
  rw [List.map_map]
  exact (order.perm _).map _

/-- The removal loop counts what it removes: entries that are there, each named once. -/
theorem foldl_removeOldest_snd (l : List (Instant × UInt64 × Fin numShards))
    (hl : (l.map fun e => e.2.1).Nodup) (idx : PrefixIndex) (n : ℕ)
    (hmem : ∀ e ∈ l, (idx.shards e.2.2).containsKey e.2.1 = true) :
    (l.foldl removeOldest (idx, n)).2 = n + l.length := by
  induction l generalizing idx n with
  | nil => rfl
  | cons e l ih =>
    obtain ⟨hne, hl⟩ := List.nodup_cons.mp hl
    rw [List.foldl_cons, removeOldest, ih hl, if_pos (hmem e List.mem_cons_self),
      List.length_cons]
    · omega
    · intro e' he'
      have hold := hmem e' (List.mem_cons_of_mem _ he')
      have hkey : e'.2.1 ≠ e.2.1 := fun heq =>
        hne (List.mem_map.mpr ⟨e', he', heq⟩)
      rw [shards_setShard]
      split_ifs with hi
      · rw [HashTable.containsKey, HashTable.get_remove, if_neg hkey, ← hi]
        exact hold
      · exact hold

/-- The hashes that the LRU pass removes. -/
def trimmed (order : IterOrder (UInt64 × IndexEntry)) (kept : PrefixIndex) (maxEntries : ℕ) :
    Finset UInt64 := ((kept.overflowing order maxEntries).map fun e => e.2.1).toFinset

/-- What is left after a sweep is as it was. -/
theorem get_of_get_evict {idx : PrefixIndex} {order : IterOrder (UInt64 × IndexEntry)}
    {now : Instant} {ttl : Duration} {maxEntries : ℕ} {hash : UInt64} {entry : IndexEntry}
    (h : (idx.evict order now ttl maxEntries).1.get hash = some entry) :
    idx.get hash = some entry := by
  rw [evict_eq] at h
  dsimp only at h
  rw [get_foldl_removeOldest] at h
  split_ifs at h
  rw [get_expire, Option.bind_eq_some_iff] at h
  obtain ⟨e, he, hk⟩ := h
  exact (keepFresh_eq_some.mp hk).1 ▸ he

theorem lists_of_lists_evict {idx : PrefixIndex} {order : IterOrder (UInt64 × IndexEntry)}
    {now : Instant} {ttl : Duration} {maxEntries : ℕ} {worker : WorkerId} {hash : UInt64}
    (h : (idx.evict order now ttl maxEntries).1.lists worker hash = true) :
    idx.lists worker hash = true := by
  obtain ⟨entry, hget, hw⟩ := (lists_iff _ _ _).mp h
  exact (lists_iff _ _ _).mpr ⟨entry, get_of_get_evict hget, hw⟩

/-- What one call does to the blocks that a worker is listed on: a record of its own adds
blocks, its own purge removes all of them, a sweep removes some, and nothing else matters. -/
theorem lists_of_lists_step {idx : PrefixIndex}
    {call : Instant × IndexOp (List UInt64) (List UInt64)} {worker : WorkerId} {hash : UInt64}
    (h : (idx.step call).1.lists worker hash = true) :
    (∃ chain, call.2 = .record worker chain ∧ hash ∈ chain) ∨
      call.2 ≠ .removeWorker worker ∧ idx.lists worker hash = true := by
  obtain ⟨now, op⟩ := call
  cases op with
  | record w chain =>
    rcases (lists_record idx now w worker chain hash).mp h with ⟨rfl, hc⟩ | hold
    · exact Or.inl ⟨chain, rfl, hc⟩
    · exact Or.inr ⟨nofun, hold⟩
  | longestMatch w chain =>
    rw [step_longestMatch_fst, lists_longestMatch] at h
    exact Or.inr ⟨nofun, h⟩
  | removeWorker w =>
    obtain ⟨hne, hold⟩ := (lists_removeWorker idx w worker hash).mp h
    exact Or.inr ⟨fun heq => hne (IndexOp.removeWorker.inj heq).symm, hold⟩
  | len => exact Or.inr ⟨nofun, h⟩
  | evict order ttl maxEntries =>
    rw [step_evict_fst] at h
    exact Or.inr ⟨nofun, lists_of_lists_evict h⟩

/-- Without a sweep, nothing is lost but by a purge. -/
theorem lists_step_of_lists {idx : PrefixIndex}
    {call : Instant × IndexOp (List UInt64) (List UInt64)} {worker : WorkerId} {hash : UInt64}
    (hevict : call.2.isEvict = false)
    (h : (∃ chain, call.2 = .record worker chain ∧ hash ∈ chain) ∨
      call.2 ≠ .removeWorker worker ∧ idx.lists worker hash = true) :
    (idx.step call).1.lists worker hash = true := by
  obtain ⟨now, op⟩ := call
  cases op with
  | record w chain =>
    refine (lists_record idx now w worker chain hash).mpr ?_
    rcases h with ⟨chain', heq, hc⟩ | ⟨-, hold⟩
    · obtain ⟨rfl, rfl⟩ := IndexOp.record.inj heq
      exact Or.inl ⟨rfl, hc⟩
    · exact Or.inr hold
  | longestMatch w chain =>
    rw [step_longestMatch_fst, lists_longestMatch]
    exact (h.resolve_left (by simp)).2
  | removeWorker w =>
    obtain ⟨hne, hold⟩ := h.resolve_left (by simp)
    exact (lists_removeWorker idx w worker hash).mpr ⟨fun heq => hne (by rw [heq]), hold⟩
  | len => exact (h.resolve_left (by simp)).2
  | evict order ttl maxEntries => cases hevict

/-- The blocks that a call stamps with its clock reading, if they have an entry afterwards. -/
def stamped (idx : PrefixIndex) : IndexOp (List UInt64) (List UInt64) → List UInt64
  | .record _ chain => chain
  | .longestMatch worker chain => idx.matchedHashes worker chain
  | _ => []

/-- What one call does to the times of the entries: it stamps some, and leaves the others that
survive it as they were. -/
theorem lastTouched_step {idx : PrefixIndex}
    {call : Instant × IndexOp (List UInt64) (List UInt64)} {hash : UInt64} {entry : IndexEntry}
    (h : (idx.step call).1.get hash = some entry) :
    hash ∈ idx.stamped call.2 ∧ entry.lastTouched = call.1 ∨
      hash ∉ idx.stamped call.2 ∧ ∃ old, idx.get hash = some old ∧
        old.lastTouched = entry.lastTouched := by
  obtain ⟨now, op⟩ := call
  cases op with
  | record worker chain =>
    rw [step_record, get_record] at h
    split_ifs at h with hc
    · exact Or.inl ⟨hc, (Option.some.inj h) ▸ rfl⟩
    · exact Or.inr ⟨hc, entry, h, rfl⟩
  | longestMatch worker chain =>
    rw [step_longestMatch_fst, get_longestMatch] at h
    split_ifs at h with hc
    · obtain ⟨old, -, rfl⟩ := Option.map_eq_some_iff.mp h
      exact Or.inl ⟨hc, rfl⟩
    · exact Or.inr ⟨hc, entry, h, rfl⟩
  | removeWorker worker =>
    rw [step_removeWorker, get_removeWorker, Option.bind_eq_some_iff] at h
    obtain ⟨old, hold, hd⟩ := h
    obtain ⟨rfl, -⟩ := dropWorker_eq_some.mp hd
    exact Or.inr ⟨List.not_mem_nil, old, hold, rfl⟩
  | len => exact Or.inr ⟨List.not_mem_nil, entry, h, rfl⟩
  | evict order ttl maxEntries =>
    rw [step_evict_fst] at h
    exact Or.inr ⟨List.not_mem_nil, entry, get_of_get_evict h, rfl⟩

section Overflowing

variable {kept : PrefixIndex} (h : kept.WellFormed) (order : IterOrder (UInt64 × IndexEntry))
variable (maxEntries : ℕ)

/-- The sorted ages name every hash once. -/
theorem sortByAge_perm_hashes (kept : PrefixIndex) (order : IterOrder (UInt64 × IndexEntry)) :
    ((sortByAge (kept.ages order)).map fun e => e.2.1).Perm kept.hashes :=
  ((List.perm_insertionSort _ _).map _).trans (ages_perm_hashes kept order)

theorem length_overflowing (kept : PrefixIndex) (order : IterOrder (UInt64 × IndexEntry))
    (maxEntries : ℕ) : (kept.overflowing order maxEntries).length = kept.len - maxEntries := by
  have hlength : (sortByAge (kept.ages order)).length = kept.len := by
    rw [← length_hashes, ← (sortByAge_perm_hashes kept order).length_eq, List.length_map]
  rw [overflowing, List.length_take, hlength, min_eq_left (Nat.sub_le _ _)]

theorem mem_trimmed {hash : UInt64} : hash ∈ kept.trimmed order maxEntries ↔
    ∃ e ∈ kept.overflowing order maxEntries, e.2.1 = hash := by
  rw [trimmed, List.mem_toFinset, List.mem_map]

include h

/-- The LRU pass removes every hash at most once. -/
theorem nodup_overflowing : ((kept.overflowing order maxEntries).map fun e => e.2.1).Nodup :=
  ((sortByAge_perm_hashes kept order).nodup_iff.mpr (nodup_hashes h)).sublist
    ((List.take_sublist _ _).map _)

/-- The LRU pass removes entries that are there, from their own shards. -/
theorem of_mem_overflowing {e : Instant × UInt64 × Fin numShards}
    (he : e ∈ kept.overflowing order maxEntries) :
    e.2.2 = shardOf e.2.1 ∧ ∃ entry, kept.get e.2.1 = some entry ∧ entry.lastTouched = e.1 :=
  (mem_ages h order).mp ((List.mem_insertionSort _).mp (List.mem_of_mem_take he))

/-- What the LRU pass removes is at least as old as what it leaves: a survivor comes after the
removed ages in sorted order. -/
theorem age_le_of_not_mem_trimmed {e : Instant × UInt64 × Fin numShards}
    (he : e ∈ kept.overflowing order maxEntries) {hash : UInt64}
    (hhash : hash ∉ kept.trimmed order maxEntries) {entry : IndexEntry}
    (hget : kept.get hash = some entry) : e.1 ≤ entry.lastTouched := by
  have hmem : (entry.lastTouched, hash, shardOf hash) ∈ sortByAge (kept.ages order) :=
    (List.mem_insertionSort _).mpr ((mem_ages h order).mpr ⟨rfl, entry, hget, rfl⟩)
  have hsorted := List.pairwise_insertionSort
    (fun a b : Instant × UInt64 × Fin numShards => a.1 ≤ b.1) (kept.ages order)
  rw [← sortByAge, ← List.take_append_drop (kept.len - maxEntries) (sortByAge _),
    List.pairwise_append] at hsorted
  rw [← List.take_append_drop (kept.len - maxEntries) (sortByAge _), List.mem_append] at hmem
  rcases hmem with hmem | hmem
  · exact absurd ((mem_trimmed order maxEntries).mpr ⟨_, hmem, rfl⟩) hhash
  · exact hsorted.2.2 e he _ hmem

/-- What is left after the removal loop. -/
theorem get_foldl_overflowing (hash : UInt64) :
    ((kept.overflowing order maxEntries).foldl removeOldest (kept, 0)).1.get hash =
      if hash ∈ kept.trimmed order maxEntries then none else kept.get hash := by
  rw [get_foldl_removeOldest]
  refine if_congr ?_ rfl rfl
  rw [mem_trimmed, List.mem_map]
  constructor
  · rintro ⟨e, he, heq⟩
    exact ⟨e, he, congrArg Prod.fst heq⟩
  · rintro ⟨e, he, rfl⟩
    exact ⟨e, he, Prod.ext rfl (of_mem_overflowing h order maxEntries he).1⟩

/-- The removal loop counts how many entries exceed the cap. -/
theorem foldl_overflowing_snd :
    ((kept.overflowing order maxEntries).foldl removeOldest (kept, 0)).2 =
      kept.len - maxEntries := by
  rw [foldl_removeOldest_snd _ (nodup_overflowing h order maxEntries) kept 0 fun e he => ?_,
    Nat.zero_add, length_overflowing]
  obtain ⟨hi, entry, hget, -⟩ := of_mem_overflowing h order maxEntries he
  exact (HashTable.containsKey_iff _ _).mpr ⟨entry, hi ▸ hget⟩

end Overflowing

/-- **A sweep.**  What is over the time limit goes; then exactly as many entries as exceed the
cap go, and none of them was touched later than an entry that stays.

**Proof sketch.** The collected ages name every entry once, with its own shard, so the first
`overflow` of them in sorted order are that many different entries; sortedness compares them
with the rest.  -/
theorem evict_cases {idx : PrefixIndex} (h : idx.WellFormed)
    (order : IterOrder (UInt64 × IndexEntry)) (now : Instant) (ttl : Duration)
    (maxEntries : ℕ) :
    let kept := (idx.expire now ttl).1
    let removed := kept.trimmed order maxEntries
    (∀ hash, (idx.evict order now ttl maxEntries).1.get hash =
        if hash ∈ removed then none else kept.get hash) ∧
      (∀ hash ∈ removed, ∃ entry, kept.get hash = some entry) ∧
      removed.card = kept.len - maxEntries ∧
      (∀ hash ∈ removed, ∀ hash' ∉ removed, ∀ entry entry', kept.get hash = some entry →
        kept.get hash' = some entry' → entry.lastTouched ≤ entry'.lastTouched) ∧
      (idx.evict order now ttl maxEntries).2 = ⟨idx.len - kept.len, kept.len - maxEntries⟩ := by
  intro kept removed
  have hkept : kept.WellFormed := h.expire now ttl
  rw [evict_eq]
  have hpresent : ∀ hash ∈ removed, ∃ entry, kept.get hash = some entry := by
    intro hash hhash
    obtain ⟨e, he, rfl⟩ := (mem_trimmed order maxEntries).mp hhash
    obtain ⟨-, entry, hget, -⟩ := of_mem_overflowing hkept order maxEntries he
    exact ⟨entry, hget⟩
  have hcard : removed.card = kept.len - maxEntries := by
    have hlength : removed.card =
        ((kept.overflowing order maxEntries).map fun e => e.2.1).length :=
      List.toFinset_card_of_nodup (nodup_overflowing hkept order maxEntries)
    rw [hlength, List.length_map, length_overflowing]
  have hold : ∀ hash ∈ removed, ∀ hash' ∉ removed, ∀ entry entry', kept.get hash = some entry →
      kept.get hash' = some entry' → entry.lastTouched ≤ entry'.lastTouched := by
    intro hash hhash hash' hhash' entry entry' hget hget'
    obtain ⟨e, he, rfl⟩ := (mem_trimmed order maxEntries).mp hhash
    obtain ⟨-, old, hold, hage⟩ := of_mem_overflowing hkept order maxEntries he
    obtain rfl := Option.some.inj (hold.symm.trans hget)
    rw [hage]
    exact age_le_of_not_mem_trimmed hkept order maxEntries he hhash' hget'
  have hexpired : (idx.expire now ttl).2 = idx.len - kept.len := by
    have hsum : (idx.expire now ttl).2 + kept.len = idx.len := expire_snd idx now ttl
    omega
  exact ⟨get_foldl_overflowing hkept order maxEntries, hpresent, hcard, hold,
    congrArg₂ EvictionStats.mk hexpired (foldl_overflowing_snd hkept order maxEntries)⟩

end PrefixIndex

end KvRoute
