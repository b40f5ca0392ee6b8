import Mathlib.Data.Set.Card
import Mathlib.Data.Set.Finite.Lattice
import KvRoute.Core.PrefixRuns

set_option relaxedAutoImplicit false
set_option autoImplicit false

/-!
# The flat index

What the prefix index is for, without shards, tables or sorting: one finite map from block
hashes to a non-empty set of workers and the time of the last touch.  The calls are functions
of this map, except the sweep, whose choice among equally old entries is left open.  The
sharded index refines it.

Keys and workers are of any type; the program's are `UInt64` and `WorkerId`.

## Main definitions

* `KvRoute.FlatEntry`, `KvRoute.FlatIndex` — the map, with finiteness and non-emptiness as
  fields.
* `FlatIndex.record`, `touch`, `matched`, `removeWorker`, `expire`, `without` — the functions.
* `FlatIndex.Sweeps` — the sweep, as a relation.
* `FlatIndex.Step` — one call with its reply.
* `KvRoute.Represents` — a sharded index and a flat one that agree entry by entry.

## Main results

* `KvRoute.prefixIndex_refines_flatIndex` — every run of the sharded index is a run of the flat
  one with the same replies, and keeps the representation well formed.
-/

namespace KvRoute

/-- The belief about one block. -/
@[ext]
structure FlatEntry (ω : Type*) where
  /-- The workers believed to hold the block. -/
  workers : Set ω
  /-- When the entry was last written or matched. -/
  lastTouched : Instant

/-- A finite map from blocks to the workers believed to hold them. -/
@[ext]
structure FlatIndex (κ ω : Type*) where
  /-- The entry of a block, if there is one. -/
  entry : κ → Option (FlatEntry ω)
  /-- Only finitely many blocks have an entry. -/
  finite : {k | ∃ e, entry k = some e}.Finite
  /-- An entry has at least one worker. -/
  nonempty : ∀ k e, entry k = some e → e.workers.Nonempty

namespace FlatIndex

variable {κ ω : Type*}

/-- The map without entries. -/
def empty : FlatIndex κ ω where
  entry _ := none
  finite := by simp
  nonempty := nofun

/-- The blocks that have an entry. -/
def domain (m : FlatIndex κ ω) : Set κ := {k | ∃ e, m.entry k = some e}

/-- The number of entries. -/
noncomputable def len (m : FlatIndex κ ω) : ℕ := m.domain.ncard

/-- The workers believed to hold a block. -/
def holders (m : FlatIndex κ ω) (k : κ) : Set ω := {w | ∃ e, m.entry k = some e ∧ w ∈ e.workers}

open Classical in
/-- Enter a worker for the blocks of a list. -/
noncomputable def record (m : FlatIndex κ ω) (now : Instant) (w : ω) (ks : List κ) :
    FlatIndex κ ω where
  entry k := if k ∈ ks then some ⟨insert w (m.holders k), now⟩ else m.entry k
  finite := by
    refine (m.finite.union ks.finite_toSet).subset ?_
    rintro k ⟨e, he⟩
    by_cases hk : k ∈ ks
    · exact Or.inr hk
    · exact Or.inl ⟨e, by rwa [if_neg hk] at he⟩
  nonempty k e he := by
    split_ifs at he
    · obtain rfl := Option.some.inj he
      exact Set.insert_nonempty _ _
    · exact m.nonempty k e he

open Classical in
/-- Set the time of the entries of a list of blocks. -/
noncomputable def touch (m : FlatIndex κ ω) (now : Instant) (ks : List κ) : FlatIndex κ ω where
  entry k := if k ∈ ks then (m.entry k).map fun e => { e with lastTouched := now }
    else m.entry k
  finite := by
    refine m.finite.subset ?_
    rintro k ⟨e, he⟩
    split_ifs at he
    · obtain ⟨e', he', -⟩ := Option.map_eq_some_iff.mp he
      exact ⟨e', he'⟩
    · exact ⟨e, he⟩
  nonempty k e he := by
    split_ifs at he
    · obtain ⟨e', he', rfl⟩ := Option.map_eq_some_iff.mp he
      exact m.nonempty k e' he'
    · exact m.nonempty k e he

open Classical in
/-- The leading blocks of a list that a worker is believed to hold. -/
noncomputable def matched (m : FlatIndex κ ω) (w : ω) (ks : List κ) : List κ :=
  ks.takeWhile fun k => decide (w ∈ m.holders k)

open Classical in
/-- Take a worker out of every entry, and drop the entries that it leaves empty. -/
noncomputable def removeWorker (m : FlatIndex κ ω) (w : ω) : FlatIndex κ ω where
  entry k := (m.entry k).bind fun e =>
    if (e.workers \ {w}).Nonempty then some { e with workers := e.workers \ {w} } else none
  finite := by
    refine m.finite.subset ?_
    rintro k ⟨e, he⟩
    obtain ⟨e', he', -⟩ := Option.bind_eq_some_iff.mp he
    exact ⟨e', he'⟩
  nonempty k e he := by
    obtain ⟨e', -, hif⟩ := Option.bind_eq_some_iff.mp he
    split_ifs at hif with hne
    obtain rfl := Option.some.inj hif
    exact hne

open Classical in
/-- Keep only some of the entries. -/
noncomputable def restrict (m : FlatIndex κ ω) (P : κ → FlatEntry ω → Prop) :
    FlatIndex κ ω where
  entry k := (m.entry k).bind fun e => if P k e then some e else none
  finite := by
    refine m.finite.subset ?_
    rintro k ⟨e, he⟩
    obtain ⟨e', he', -⟩ := Option.bind_eq_some_iff.mp he
    exact ⟨e', he'⟩
  nonempty k e he := by
    obtain ⟨e', he', hif⟩ := Option.bind_eq_some_iff.mp he
    split_ifs at hif
    exact Option.some.inj hif ▸ m.nonempty k e' he'

/-- Drop the entries that are older than `ttl`. -/
noncomputable def expire (m : FlatIndex κ ω) (now : Instant) (ttl : Duration) : FlatIndex κ ω :=
  m.restrict fun _ e => now - e.lastTouched ≤ ttl

/-- Drop the entries of some blocks. -/
noncomputable def without (m : FlatIndex κ ω) (ks : Finset κ) : FlatIndex κ ω :=
  m.restrict fun k _ => k ∉ ks

/-- The blocks whose entries are older than `ttl`. -/
def overAge (m : FlatIndex κ ω) (now : Instant) (ttl : Duration) : Set κ :=
  {k | ∃ e, m.entry k = some e ∧ ttl < now - e.lastTouched}

/-- **A sweep**, with its outcome: the entries older than `ttl` are dropped; of the rest,
exactly as many as exceed the cap are dropped, which ones is open as long as no dropped entry
was touched later than a kept one; and the outcome counts the dropped entries of either kind. -/
def Sweeps (m : FlatIndex κ ω) (now : Instant) (ttl : Duration) (maxEntries : ℕ)
    (stats : EvictionStats) (m' : FlatIndex κ ω) : Prop :=
  ∃ removed : Finset κ,
    (removed : Set κ) ⊆ (m.expire now ttl).domain ∧
    removed.card = (m.expire now ttl).len - maxEntries ∧
    (∀ k ∈ removed, ∀ k' ∉ removed, ∀ e e', (m.expire now ttl).entry k = some e →
      (m.expire now ttl).entry k' = some e' → e.lastTouched ≤ e'.lastTouched) ∧
    m' = (m.expire now ttl).without removed ∧
    stats = ⟨(m.overAge now ttl).ncard, removed.card⟩

/-- One call on the flat index, with its reply. -/
inductive Step (m : FlatIndex UInt64 WorkerId) :
    Instant × IndexOp (List UInt64) (List UInt64) → IndexReply → FlatIndex UInt64 WorkerId →
      Prop where
  | record (now : Instant) (worker : WorkerId) (chain : List UInt64) :
    Step m (now, .record worker chain) .done (m.record now worker chain)
  | longestMatch (now : Instant) (worker : WorkerId) (chain : List UInt64) :
    Step m (now, .longestMatch worker chain) (.blocks (m.matched worker chain).length)
      (m.touch now (m.matched worker chain))
  | removeWorker (now : Instant) (worker : WorkerId) :
    Step m (now, .removeWorker worker) .done (m.removeWorker worker)
  | len (now : Instant) : Step m (now, .len) (.entries m.len) m
  | evict (now : Instant) (order : IterOrder (UInt64 × IndexEntry)) (ttl : Duration)
      (maxEntries : ℕ) (stats : EvictionStats) (m' : FlatIndex UInt64 WorkerId)
      (h : m.Sweeps now ttl maxEntries stats m') :
    Step m (now, .evict order ttl maxEntries) (.swept stats) m'

/-! ## Lemmas about the flat map -/

@[simp] theorem mem_holders (m : FlatIndex κ ω) (k : κ) (w : ω) :
    w ∈ m.holders k ↔ ∃ e, m.entry k = some e ∧ w ∈ e.workers := Iff.rfl

theorem entry_record (m : FlatIndex κ ω) (now : Instant) (w : ω) (ks : List κ) (k : κ)
    [Decidable (k ∈ ks)] : (m.record now w ks).entry k =
      if k ∈ ks then some ⟨insert w (m.holders k), now⟩ else m.entry k := by
  rw [record]
  dsimp only
  split_ifs <;> rfl

theorem entry_touch (m : FlatIndex κ ω) (now : Instant) (ks : List κ) (k : κ)
    [Decidable (k ∈ ks)] : (m.touch now ks).entry k =
      if k ∈ ks then (m.entry k).map fun e => { e with lastTouched := now }
      else m.entry k := by
  rw [touch]
  dsimp only
  split_ifs <;> rfl

theorem entry_removeWorker_of_some (m : FlatIndex κ ω) (w : ω) {k : κ} {e : FlatEntry ω}
    (he : m.entry k = some e) [Decidable (e.workers \ {w}).Nonempty] :
    (m.removeWorker w).entry k = if (e.workers \ {w}).Nonempty then
      some { e with workers := e.workers \ {w} } else none := by
  rw [removeWorker]
  dsimp only
  rw [he, Option.bind_some]
  split_ifs <;> rfl

theorem entry_removeWorker_of_none (m : FlatIndex κ ω) (w : ω) {k : κ}
    (he : m.entry k = none) : (m.removeWorker w).entry k = none := by
  rw [removeWorker]
  dsimp only
  rw [he, Option.bind_none]

theorem entry_restrict (m : FlatIndex κ ω) (P : κ → FlatEntry ω → Prop) (k : κ)
    [DecidablePred (P k)] : (m.restrict P).entry k =
      (m.entry k).bind fun e => if P k e then some e else none := by
  rw [restrict]
  dsimp only
  congr! 2

theorem entry_restrict_eq_some (m : FlatIndex κ ω) (P : κ → FlatEntry ω → Prop) {k : κ}
    {e : FlatEntry ω} : (m.restrict P).entry k = some e ↔ m.entry k = some e ∧ P k e := by
  classical
  rw [entry_restrict, Option.bind_eq_some_iff]
  constructor
  · rintro ⟨e', he', hif⟩
    split_ifs at hif with hP
    obtain rfl := Option.some.inj hif
    exact ⟨he', hP⟩
  · exact fun h => ⟨e, h.1, if_pos h.2⟩

theorem domain_restrict_subset (m : FlatIndex κ ω) (P : κ → FlatEntry ω → Prop) :
    (m.restrict P).domain ⊆ m.domain :=
  fun _ ⟨e, he⟩ => ⟨e, ((entry_restrict_eq_some m P).mp he).1⟩

/-- Every entry is either kept by the time limit or over it. -/
theorem len_expire (m : FlatIndex κ ω) (now : Instant) (ttl : Duration) :
    (m.overAge now ttl).ncard + (m.expire now ttl).len = m.len := by
  have hdiff : m.overAge now ttl = m.domain \ (m.expire now ttl).domain := by
    ext k
    constructor
    · rintro ⟨e, he, hold⟩
      refine ⟨⟨e, he⟩, fun ⟨e', he'⟩ => ?_⟩
      obtain ⟨hk, hfresh⟩ := (entry_restrict_eq_some m _).mp he'
      obtain rfl := Option.some.inj (he.symm.trans hk)
      exact absurd hfresh (not_le.mpr hold)
    · rintro ⟨⟨e, he⟩, hne⟩
      refine ⟨e, he, not_le.mp fun hfresh => hne ⟨e, ?_⟩⟩
      exact (entry_restrict_eq_some m _).mpr ⟨he, hfresh⟩
  rw [hdiff, len, len]
  exact Set.ncard_sdiff_add_ncard_of_subset (domain_restrict_subset m _) m.finite

/-- A sweep leaves at most as many entries as the cap allows. -/
theorem Sweeps.len_le {m m' : FlatIndex κ ω} {now : Instant} {ttl : Duration} {maxEntries : ℕ}
    {stats : EvictionStats} (h : m.Sweeps now ttl maxEntries stats m') :
    m'.len ≤ maxEntries := by
  obtain ⟨removed, hsub, hcard, -, rfl, -⟩ := h
  have hdomain : ((m.expire now ttl).without removed).domain =
      (m.expire now ttl).domain \ removed := by
    ext k
    simp [domain, without, entry_restrict_eq_some]
  rw [len, hdomain, Set.ncard_sdiff hsub, Set.ncard_coe_finset, hcard]
  rw [len]
  omega

end FlatIndex

/-! ## Refinement -/

/-- The belief about one block, with its workers as a set. -/
def IndexEntry.toFlat (e : IndexEntry) : FlatEntry WorkerId := ⟨{w | w ∈ e.workers}, e.lastTouched⟩

/-- The sharded index `idx` represents the flat index `m`: it is well formed, and every hash
has the same entry in both. -/
structure Represents (idx : PrefixIndex) (m : FlatIndex UInt64 WorkerId) : Prop where
  /-- The representation invariant. -/
  wellFormed : idx.WellFormed
  /-- Agreement entry by entry. -/
  entry_eq : ∀ hash, m.entry hash = (idx.get hash).map IndexEntry.toFlat

namespace Represents

variable {idx : PrefixIndex} {m : FlatIndex UInt64 WorkerId}

theorem new : Represents .new .empty := ⟨.new, fun _ => rfl⟩

theorem entry_eq_some (h : Represents idx m) {hash : UInt64} {f : FlatEntry WorkerId} :
    m.entry hash = some f ↔ ∃ e, idx.get hash = some e ∧ e.toFlat = f := by
  rw [h.entry_eq, Option.map_eq_some_iff]

theorem mem_holders (h : Represents idx m) (hash : UInt64) (w : WorkerId) :
    w ∈ m.holders hash ↔ idx.lists w hash = true := by
  rw [PrefixIndex.lists_iff]
  constructor
  · rintro ⟨f, hf, hw⟩
    obtain ⟨e, he, rfl⟩ := h.entry_eq_some.mp hf
    exact ⟨e, he, hw⟩
  · rintro ⟨e, he, hw⟩
    exact ⟨e.toFlat, h.entry_eq_some.mpr ⟨e, he, rfl⟩, hw⟩

theorem domain_eq (h : Represents idx m) :
    m.domain = {hash | ∃ e, idx.get hash = some e} := by
  ext hash
  constructor
  · rintro ⟨f, hf⟩
    obtain ⟨e, he, -⟩ := h.entry_eq_some.mp hf
    exact ⟨e, he⟩
  · rintro ⟨e, he⟩
    exact ⟨e.toFlat, h.entry_eq_some.mpr ⟨e, he, rfl⟩⟩

theorem len_eq (h : Represents idx m) : m.len = idx.len := by
  rw [FlatIndex.len, h.domain_eq, PrefixIndex.len_eq_ncard h.wellFormed]

theorem record (h : Represents idx m) (now : Instant) (worker : WorkerId)
    (chain : List UInt64) :
    Represents (idx.record now worker chain) (m.record now worker chain) where
  wellFormed := h.wellFormed.record now worker chain
  entry_eq hash := by
    rw [PrefixIndex.get_record, FlatIndex.entry_record]
    split_ifs with hc
    · refine congrArg some (FlatEntry.ext ?_ rfl)
      ext w
      rw [Set.mem_insert_iff, h.mem_holders, PrefixIndex.lists_eq_mem_workersOf]
      exact PrefixIndex.mem_addWorker.symm
    · exact h.entry_eq hash

theorem matched_eq (h : Represents idx m) (worker : WorkerId) (chain : List UInt64) :
    m.matched worker chain = idx.matchedHashes worker chain := by
  classical
  refine congrArg (fun p => chain.takeWhile p) (funext fun hash => ?_)
  rw [Bool.eq_iff_iff, decide_eq_true_iff, h.mem_holders]

theorem longestMatch (h : Represents idx m) (now : Instant) (worker : WorkerId)
    (chain : List UInt64) :
    Represents (idx.longestMatch now worker chain).1 (m.touch now (m.matched worker chain)) where
  wellFormed := h.wellFormed.longestMatch now worker chain
  entry_eq hash := by
    rw [PrefixIndex.get_longestMatch, h.matched_eq, FlatIndex.entry_touch]
    split_ifs with hc
    · rw [h.entry_eq, Option.map_map, Option.map_map]
      rfl
    · exact h.entry_eq hash

theorem removeWorker (h : Represents idx m) (worker : WorkerId) :
    Represents (idx.removeWorker worker) (m.removeWorker worker) where
  wellFormed := h.wellFormed.removeWorker worker
  entry_eq hash := by
    classical
    rw [PrefixIndex.get_removeWorker]
    cases hget : idx.get hash with
    | none => exact m.entry_removeWorker_of_none worker (by rw [h.entry_eq, hget]; rfl)
    | some e =>
      have hset : e.toFlat.workers \ {worker} = {w | w ∈ e.workers.filter (· ≠ worker)} := by
        ext w
        simp [IndexEntry.toFlat]
      have hne : (e.toFlat.workers \ {worker}).Nonempty ↔ e.workers.filter (· ≠ worker) ≠ [] := by
        rw [hset]
        exact ⟨fun ⟨w, hw⟩ => List.ne_nil_of_mem hw, List.exists_mem_of_ne_nil _⟩
      rw [m.entry_removeWorker_of_some worker (h.entry_eq_some.mpr ⟨e, hget, rfl⟩),
        Option.bind_some]
      by_cases hf : e.workers.filter (· ≠ worker) = []
      · have hd : PrefixIndex.dropWorker worker e = none := if_pos (List.isEmpty_iff.mpr hf)
        rw [if_neg fun hn => hne.mp hn hf, hd]
        rfl
      · rw [if_pos (hne.mpr hf), PrefixIndex.dropWorker_eq_some.mpr ⟨rfl, hf⟩, Option.map_some]
        exact congrArg some (FlatEntry.ext hset rfl)

theorem expire (h : Represents idx m) (now : Instant) (ttl : Duration) :
    Represents (idx.expire now ttl).1 (m.expire now ttl) where
  wellFormed := h.wellFormed.expire now ttl
  entry_eq hash := by
    rw [PrefixIndex.get_expire, FlatIndex.expire, FlatIndex.entry_restrict, h.entry_eq]
    cases idx.get hash with
    | none => rfl
    | some e =>
      rw [Option.map_some, Option.bind_some, Option.bind_some, PrefixIndex.keepFresh]
      by_cases hf : now - e.lastTouched ≤ ttl
      · exact (if_pos hf).trans (by rw [if_pos hf, Option.map_some])
      · exact (if_neg hf).trans (by rw [if_neg hf, Option.map_none])

/-- A sweep of the sharded index is a sweep of the flat one.

**Proof sketch.** The expiry passes agree entry by entry.  `PrefixIndex.evict_cases` describes
the rest of the sharded sweep as dropping a set of hashes, which the flat sweep may drop too. -/
theorem evict (h : Represents idx m) (order : IterOrder (UInt64 × IndexEntry)) (now : Instant)
    (ttl : Duration) (maxEntries : ℕ) :
    ∃ m', m.Sweeps now ttl maxEntries (idx.evict order now ttl maxEntries).2 m' ∧
      Represents (idx.evict order now ttl maxEntries).1 m' := by
  have hexp := h.expire now ttl
  obtain ⟨hget, hin, hcard, hold, hstats⟩ :=
    PrefixIndex.evict_cases h.wellFormed order now ttl maxEntries
  set removed := (idx.expire now ttl).1.trimmed order maxEntries with hremoved
  refine ⟨(m.expire now ttl).without removed, ⟨removed, ?_, ?_, ?_, rfl, ?_⟩,
    h.wellFormed.evict order now ttl maxEntries, fun hash => ?_⟩
  · rw [hexp.domain_eq]
    exact fun hash hh => hin hash hh
  · rw [hexp.len_eq, hcard]
  · intro k hk k' hk' f f' hf hf'
    obtain ⟨e, he, rfl⟩ := hexp.entry_eq_some.mp hf
    obtain ⟨e', he', rfl⟩ := hexp.entry_eq_some.mp hf'
    exact hold k hk k' hk' e e' he he'
  · have hlen := m.len_expire now ttl
    rw [h.len_eq, hexp.len_eq] at hlen
    rw [hstats, hcard, ← hlen, Nat.add_sub_cancel]
  · rw [hget, FlatIndex.without, FlatIndex.entry_restrict, hexp.entry_eq]
    by_cases hh : hash ∈ removed
    · simp [hh]
    · simp [hh]

/-- Every call of the sharded index is matched by the flat one, with the same reply. -/
theorem step (h : Represents idx m) (call : Instant × IndexOp (List UInt64) (List UInt64)) :
    ∃ m', m.Step call (idx.step call).2 m' ∧ Represents (idx.step call).1 m' := by
  obtain ⟨now, op⟩ := call
  cases op with
  | record worker chain => exact ⟨_, .record now worker chain, h.record now worker chain⟩
  | longestMatch worker chain =>
    have hstep := FlatIndex.Step.longestMatch (m := m) now worker chain
    rw [h.matched_eq] at hstep
    exact ⟨_, hstep, h.matched_eq worker chain ▸ h.longestMatch now worker chain⟩
  | removeWorker worker => exact ⟨_, .removeWorker now worker, h.removeWorker worker⟩
  | len =>
    have hstep := FlatIndex.Step.len (m := m) now
    rw [h.len_eq] at hstep
    exact ⟨m, hstep, h⟩
  | evict order ttl maxEntries =>
    obtain ⟨m', hsweep, hrep⟩ := h.evict order now ttl maxEntries
    rw [PrefixIndex.step_evict_fst, PrefixIndex.step_evict_snd]
    exact ⟨m', .evict now order ttl maxEntries _ m' hsweep, hrep⟩

end Represents

/-- **The sharded index refines the flat one.**  For every sequence of calls, at any clock
readings and with any iteration orders of the tables, the flat index has a run with the same
replies that agrees with the sharded index before and after every call; and the sharded index
stays well formed.

**Proof sketch.** `Represents` relates the empty indexes and is kept by matching calls
(`Represents.step`), so it is a simulation (`Runs.refines_of_simulation`); well-formedness is
part of it. -/
theorem prefixIndex_refines_flatIndex
    (calls : List (Instant × IndexOp (List UInt64) (List UInt64))) :
    Runs.Refines PrefixIndex.step FlatIndex.Step Represents .new .empty calls ∧
      (PrefixIndex.new.run calls).WellFormed :=
  ⟨Runs.refines_of_simulation (fun _ _ call h => h.step call) Represents.new calls,
    PrefixIndex.WellFormed.new.run calls⟩

end KvRoute
