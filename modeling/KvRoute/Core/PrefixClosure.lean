import KvRoute.Core.ChainOrder
import KvRoute.Core.PrefixHistory

set_option relaxedAutoImplicit false
set_option autoImplicit false

/-!
# Sweeps and the chain invariant

A worker that is listed on a block of a recorded chain but not on an earlier one is listed
there for nothing: `longest_match` stops at the first block it misses.  `record` and
`longest_match` stamp a chain with one clock reading, from the front, so an earlier block is
never touched before a later one, and neither pass of a sweep prefers an earlier block to a
later one that is older.  But equal ages are the normal case inside a chain, and the pass that
trims to the cap orders them by shard and by the iteration order of the tables: it can drop the
front of a chain and leave the rest.

## Main definitions

* `KvRoute.PrefixClosed` — a worker listed on a block of a chain is listed on all before it.
* `KvRoute.AgeOrdered` — no block of a chain was touched after an earlier one.

## Main results

* `KvRoute.AgeOrdered.run` — ages stay ordered under a non-decreasing clock.
* `KvRoute.evict_strands_equal_ages_only` — a sweep breaks a chain only by dropping a block as
  old as a block it keeps.
* `KvRoute.evict_strands_hello_world` — and it does so.
-/

namespace KvRoute

section Closure

variable (hasher : Option UInt64 → List Char → UInt64) (blockSize : ℕ)

/-- Whenever a worker is listed on a block of the chain of a prompt of `S`, it is listed on all
blocks before it. -/
def PrefixClosed (S : Set String) (idx : PrefixIndex) : Prop :=
  ∀ P ∈ S, ∀ worker, ∀ i j : ℕ, ∀ h h', j ≤ i → (chainHash hasher P blockSize)[i]? = some h →
    (chainHash hasher P blockSize)[j]? = some h' → idx.lists worker h = true →
      idx.lists worker h' = true

/-- Nothing was touched after `now`, and no block of the chain of a prompt of `S` was touched
after an earlier block of the chain that has an entry too. -/
structure AgeOrdered (S : Set String) (now : Instant) (idx : PrefixIndex) : Prop where
  /-- The times of the entries are past. -/
  past : ∀ hash entry, idx.get hash = some entry → entry.lastTouched ≤ now
  /-- Along a chain, ages never decrease towards the front. -/
  ordered : ∀ P ∈ S, ∀ i j : ℕ, ∀ h h' e e', j ≤ i → (chainHash hasher P blockSize)[i]? = some h →
    (chainHash hasher P blockSize)[j]? = some h' → idx.get h = some e → idx.get h' = some e' →
      e.lastTouched ≤ e'.lastTouched

/-- The index after calls about prompts. -/
def indexAfter (calls : PromptCalls String) : PrefixIndex :=
  PrefixIndex.new.run (chainCalls hasher blockSize (chainHash hasher · blockSize) calls)

/-- The prompts that a sequence of calls records or matches. -/
def calledPrompts (calls : PromptCalls String) : Set String :=
  {Q | ∃ call ∈ calls, ∃ worker, call.2 = .record worker Q ∨ call.2 = .longestMatch worker Q}

variable {hasher blockSize}

theorem recordedPrompts_subset (calls : PromptCalls String) :
    recordedPrompts calls ⊆ calledPrompts calls :=
  fun _ ⟨_, worker, hmem⟩ => ⟨_, hmem, worker, Or.inl rfl⟩

/-- The chains of some prompts, all of one block size. -/
abbrev uniformChains (hasher : Option UInt64 → List Char → UInt64) (blockSize : ℕ)
    (S : Set String) : Set (List UInt64) :=
  chainsOf hasher (Set.image (fun prompt => (prompt, blockSize)) S)

theorem mem_uniformChains {S : Set String} {P : String} (hP : P ∈ S) :
    chainHash hasher P blockSize ∈ uniformChains hasher blockSize S :=
  ⟨(P, blockSize), ⟨P, hP, rfl⟩, rfl⟩

theorem prefixClosed_iff {S : Set String} {idx : PrefixIndex} :
    PrefixClosed hasher blockSize S idx ↔ ∀ worker,
      FromFront (uniformChains hasher blockSize S) fun hash => idx.lists worker hash = true := by
  constructor
  · rintro h worker _ ⟨_, ⟨P, hP, rfl⟩, rfl⟩ i j a b
    exact h P hP worker i j a b
  · intro h P hP worker i j a b
    exact h worker _ (mem_uniformChains hP) i j a b

theorem ageOrdered_iff {S : Set String} {now : Instant} {idx : PrefixIndex} :
    AgeOrdered hasher blockSize S now idx ↔ (∀ hash t, idx.times hash = some t → t ≤ now) ∧
      AgesFromFront (uniformChains hasher blockSize S) idx.times := by
  constructor
  · intro h
    constructor
    · intro hash t ht
      obtain ⟨entry, hget, rfl⟩ := PrefixIndex.times_eq_some.mp ht
      exact h.past hash entry hget
    · rintro _ ⟨_, ⟨P, hP, rfl⟩, rfl⟩ i j a b t u hji hi hj ht hu
      obtain ⟨e, he, rfl⟩ := PrefixIndex.times_eq_some.mp ht
      obtain ⟨e', he', rfl⟩ := PrefixIndex.times_eq_some.mp hu
      exact h.ordered P hP i j a b e e' hji hi hj he he'
  · rintro ⟨hpast, hages⟩
    constructor
    · intro hash entry hget
      exact hpast hash _ (PrefixIndex.times_eq_some.mpr ⟨entry, hget, rfl⟩)
    · intro P hP i j a b e e' hji hi hj he he'
      exact hages _ (mem_uniformChains hP) i j a b _ _ hji hi hj
        (PrefixIndex.times_eq_some.mpr ⟨e, he, rfl⟩) (PrefixIndex.times_eq_some.mpr ⟨e', he', rfl⟩)

/-- A call about prompts is about their chains. -/
theorem onChains_map {S : Set String} {calls : PromptCalls String}
    (hcalls : calledPrompts calls ⊆ S) {call : Instant × IndexOp String String}
    (hcall : call ∈ calls) :
    (call.2.map (chainHash hasher · blockSize) (chainHash hasher · blockSize)).OnChains
      (uniformChains hasher blockSize S) := by
  obtain ⟨now, op⟩ := call
  cases op with
  | record worker Q => exact mem_uniformChains (hcalls ⟨_, hcall, worker, Or.inl rfl⟩)
  | longestMatch worker Q => exact mem_uniformChains (hcalls ⟨_, hcall, worker, Or.inr rfl⟩)
  | _ => trivial

/-- One call keeps ages ordered, at a clock reading that is not before the last one. -/
theorem AgeOrdered.step {S : Set String} (hfree : CollisionFree hasher blockSize S)
    {now : Instant} {idx : PrefixIndex} (h : AgeOrdered hasher blockSize S now idx)
    {calls : PromptCalls String} (hcalls : calledPrompts calls ⊆ S)
    {call : Instant × IndexOp String String} (hcall : call ∈ calls) (hnow : now ≤ call.1) :
    AgeOrdered hasher blockSize S call.1 (idx.step (call.1, call.2.map
      (chainHash hasher · blockSize) (chainHash hasher · blockSize))).1 := by
  obtain ⟨hpast, hages⟩ := ageOrdered_iff.mp h
  have htree := prefixTree_chainsOf hfree.separates
  refine ageOrdered_iff.mpr ⟨PrefixIndex.times_step_le hpast hnow, ?_⟩
  exact PrefixIndex.agesFromFront_step htree (onChains_map hcalls hcall) hpast hnow hages

theorem AgeOrdered.mono {S : Set String} {now now' : Instant} {idx : PrefixIndex}
    (h : AgeOrdered hasher blockSize S now idx) (hnow : now ≤ now') :
    AgeOrdered hasher blockSize S now' idx :=
  ⟨fun hash entry hget => (h.past hash entry hget).trans hnow, h.ordered⟩

/-- Ages are ordered after any calls under a non-decreasing clock. -/
theorem AgeOrdered.run {S : Set String} (hfree : CollisionFree hasher blockSize S)
    (calls : PromptCalls String) (hcalls : calledPrompts calls ⊆ S)
    (hclock : calls.Pairwise fun c c' => c.1 ≤ c'.1) (now : Instant)
    (hnow : ∀ call ∈ calls, call.1 ≤ now) :
    AgeOrdered hasher blockSize S now (indexAfter hasher blockSize calls) := by
  induction calls using List.reverseRecOn generalizing now with
  | nil => exact ⟨nofun, nofun⟩
  | append_singleton calls call ih =>
    obtain ⟨hclock, -, hlast⟩ := List.pairwise_append.mp hclock
    have hbefore := ih (fun Q ⟨c, hc, hQ⟩ => hcalls ⟨c, List.mem_append_left _ hc, hQ⟩) hclock
      call.1 fun c hc => hlast c hc call (List.mem_singleton_self call)
    have hmem : call ∈ calls ++ [call] := List.mem_append_right _ (List.mem_singleton_self call)
    have hafter := hbefore.step hfree hcalls hmem le_rfl
    rw [indexAfter, run_chainCalls_append_singleton]
    exact hafter.mono (hnow call (by simp))

/-- Every call but a sweep keeps the chains prefix-closed: a record enters its worker for a whole
chain, and a purge removes its worker from all blocks. -/
theorem PrefixClosed.step {S : Set String} (hfree : CollisionFree hasher blockSize S)
    {idx : PrefixIndex} (h : PrefixClosed hasher blockSize S idx)
    {calls : PromptCalls String} (hcalls : calledPrompts calls ⊆ S)
    {call : Instant × IndexOp String String} (hcall : call ∈ calls)
    (hevict : call.2.isEvict = false) :
    PrefixClosed hasher blockSize S (idx.step (call.1, call.2.map
      (chainHash hasher · blockSize) (chainHash hasher · blockSize))).1 := by
  rw [prefixClosed_iff] at h ⊢
  intro worker
  exact PrefixIndex.fromFront_lists_step (prefixTree_chainsOf hfree.separates)
    (onChains_map hcalls hcall) (isEvict_map.trans hevict) (h worker)

/-- Without sweeps, the chains are prefix-closed after any calls. -/
theorem PrefixClosed.run {S : Set String} (hfree : CollisionFree hasher blockSize S)
    (calls : PromptCalls String) (hcalls : calledPrompts calls ⊆ S)
    (hevict : ∀ call ∈ calls, call.2.isEvict = false) :
    PrefixClosed hasher blockSize S (indexAfter hasher blockSize calls) := by
  induction calls using List.reverseRecOn with
  | nil => exact fun _ _ _ _ _ _ _ _ _ _ hlists => nomatch hlists
  | append_singleton calls call ih =>
    have hbefore := ih (fun Q ⟨c, hc, hQ⟩ => hcalls ⟨c, List.mem_append_left _ hc, hQ⟩)
      fun c hc => hevict c (List.mem_append_left _ hc)
    rw [indexAfter, run_chainCalls_append_singleton]
    exact hbefore.step hfree hcalls (List.mem_append_right _ (List.mem_singleton_self call))
      (hevict call (by simp))

/-! ## Sweeps -/

/-- In a prefix-closed index, `longest_match` reaches every block that a worker is listed on. -/
theorem PrefixClosed.lt_longestMatch {S : Set String} {idx : PrefixIndex}
    (h : PrefixClosed hasher blockSize S idx) {P : String} (hP : P ∈ S) {worker : WorkerId}
    {i : ℕ} {hash : UInt64} (hi : (chainHash hasher P blockSize)[i]? = some hash)
    (hlists : idx.lists worker hash = true) (now : Instant) :
    i < (idx.longestMatch now worker (chainHash hasher P blockSize)).2 := by
  obtain ⟨hlen, -⟩ := List.getElem?_eq_some_iff.mp hi
  apply (idx.le_longestMatch_iff now worker _ (i + 1)).mpr
  refine ⟨hlen, fun hash' hmem => ?_⟩
  obtain ⟨j, hj, rfl⟩ := List.mem_take_iff_getElem.mp hmem
  exact h P hP worker i j hash _ (by omega) hi (List.getElem?_eq_getElem _) hlists

/-- In an index with ordered ages, a sweep that leaves a worker on a block of a chain takes it
off an earlier block only by dropping an entry of the same age.

**Proof sketch.** Before the sweep the worker is listed on both blocks, and the earlier one was
not touched before the later one.  So the time limit does not take the earlier one and leave the
later one, and the trim, which takes no entry that is younger than one it leaves, takes it only
if both are equally old. -/
theorem lists_evict_cases {S T : Set String} {idx : PrefixIndex} {now : Instant}
    (hwf : idx.WellFormed) (hages : AgeOrdered hasher blockSize S now idx) (hTS : T ⊆ S)
    (hclosed : PrefixClosed hasher blockSize T idx) (order : IterOrder (UInt64 × IndexEntry))
    (ttl : Duration) (maxEntries : ℕ) {P : String} (hP : P ∈ T) {worker : WorkerId} {i j : ℕ}
    {h h' : UInt64} (hji : j ≤ i) (hi : (chainHash hasher P blockSize)[i]? = some h)
    (hj : (chainHash hasher P blockSize)[j]? = some h')
    (hlists : (idx.evict order now ttl maxEntries).1.lists worker h = true) :
    (idx.evict order now ttl maxEntries).1.lists worker h' = true ∨
      (idx.evict order now ttl maxEntries).1.get h' = none ∧
        ∃ e e', (idx.evict order now ttl maxEntries).1.get h = some e ∧ idx.get h' = some e' ∧
          e.lastTouched = e'.lastTouched := by
  obtain ⟨hget, -, -, hold, -⟩ := PrefixIndex.evict_cases hwf order now ttl maxEntries
  obtain ⟨e, he, hw⟩ := (PrefixIndex.lists_iff _ _ _).mp hlists
  have hbefore : idx.get h = some e := PrefixIndex.get_of_get_evict he
  obtain ⟨e', he', hw'⟩ := (PrefixIndex.lists_iff _ _ _).mp
    (hclosed P hP worker i j h h' hji hi hj ((PrefixIndex.lists_iff _ _ _).mpr ⟨e, hbefore, hw⟩))
  have hle := hages.ordered P (hTS hP) i j h h' e e' hji hi hj hbefore he'
  -- the later block survives both passes, so the earlier one survives the first
  have hstays : h ∉ (idx.expire now ttl).1.trimmed order maxEntries := fun hgone => by
    rw [hget, if_pos hgone] at he
    cases he
  have hfresh : (idx.expire now ttl).1.get h = some e := by
    rwa [hget, if_neg hstays] at he
  obtain ⟨e₀, he₀, hk⟩ := Option.bind_eq_some_iff.mp
    ((PrefixIndex.get_expire _ _ _ _).symm.trans hfresh)
  obtain ⟨rfl, hage⟩ := PrefixIndex.keepFresh_eq_some.mp hk
  have hkept : (idx.expire now ttl).1.get h' = some e' := by
    rw [PrefixIndex.get_expire, he', Option.bind_some, PrefixIndex.keepFresh_eq_some]
    exact ⟨rfl, (Nat.sub_le_sub_left hle now).trans hage⟩
  by_cases hgone : h' ∈ (idx.expire now ttl).1.trimmed order maxEntries
  · refine Or.inr ⟨by rw [hget, if_pos hgone], e, e', he, he', le_antisymm hle ?_⟩
    exact hold h' hgone h hstays e' e hkept hfresh
  · refine Or.inl ((PrefixIndex.lists_iff _ _ _).mpr ⟨e', ?_, hw'⟩)
    rw [hget, if_neg hgone]
    exact hkept

/-- **Sweeps strand blocks only at equal ages.**  After calls about prompts under a
non-decreasing clock, let every worker's blocks be prefix-closed.  If a sweep leaves a worker on
a block of a recorded chain but takes it off an earlier one, then it dropped the entry of the
earlier block, and that entry was touched exactly when the block that stays was.  So where no
dropped entry is as old as an entry that stays, the sweep keeps the chains prefix-closed, and
`longest_match` reaches every surviving block of every worker.

**Proof sketch.** Ages are ordered in every reachable index (`AgeOrdered.run`), so
`lists_evict_cases` applies; `PrefixClosed.lt_longestMatch` turns closedness into matches. -/
theorem evict_strands_equal_ages_only (calls : PromptCalls String)
    (hclock : calls.Pairwise fun c c' => c.1 ≤ c'.1)
    (hfree : CollisionFree hasher blockSize (calledPrompts calls))
    (hclosed : PrefixClosed hasher blockSize (recordedPrompts calls)
      (indexAfter hasher blockSize calls))
    (order : IterOrder (UInt64 × IndexEntry)) (now : Instant) (ttl : Duration) (maxEntries : ℕ)
    (hnow : ∀ call ∈ calls, call.1 ≤ now) :
    let idx := indexAfter hasher blockSize calls
    let idx' := (idx.evict order now ttl maxEntries).1
    (∀ P ∈ recordedPrompts calls, ∀ worker, ∀ i j : ℕ, ∀ h h', j ≤ i →
      (chainHash hasher P blockSize)[i]? = some h → (chainHash hasher P blockSize)[j]? = some h' →
        idx'.lists worker h = true → idx'.lists worker h' = true ∨
          idx'.get h' = none ∧ ∃ e e', idx'.get h = some e ∧ idx.get h' = some e' ∧
            e.lastTouched = e'.lastTouched) ∧
    ((∀ h h' e e', idx'.get h = some e → idx.get h' = some e' → idx'.get h' = none →
        e.lastTouched ≠ e'.lastTouched) →
      PrefixClosed hasher blockSize (recordedPrompts calls) idx' ∧
        ∀ P ∈ recordedPrompts calls, ∀ worker, ∀ i : ℕ, ∀ h,
          (chainHash hasher P blockSize)[i]? = some h → idx'.lists worker h = true →
            i < (idx'.longestMatch now worker (chainHash hasher P blockSize)).2) := by
  intro idx idx'
  have hages := AgeOrdered.run hfree calls Set.Subset.rfl hclock now hnow
  have hwf : idx.WellFormed := PrefixIndex.WellFormed.new.run _
  have hstrand : ∀ P ∈ recordedPrompts calls, ∀ worker, ∀ i j : ℕ, ∀ h h', j ≤ i →
      (chainHash hasher P blockSize)[i]? = some h → (chainHash hasher P blockSize)[j]? = some h' →
        idx'.lists worker h = true → idx'.lists worker h' = true ∨
          idx'.get h' = none ∧ ∃ e e', idx'.get h = some e ∧ idx.get h' = some e' ∧
            e.lastTouched = e'.lastTouched := fun P hP worker i j h h' hji hi hj hlists =>
    lists_evict_cases hwf hages (recordedPrompts_subset calls) hclosed order ttl maxEntries hP
      hji hi hj hlists
  refine ⟨hstrand, fun hne => ?_⟩
  have hclosed' : PrefixClosed hasher blockSize (recordedPrompts calls) idx' := by
    intro P hP worker i j h h' hji hi hj hlists
    rcases hstrand P hP worker i j h h' hji hi hj hlists with hok | ⟨hnone, e, e', he, he', heq⟩
    · exact hok
    · exact absurd heq (hne h h' e e' he he' hnone)
  exact ⟨hclosed', fun P hP worker i h hi hlists => hclosed'.lt_longestMatch hP hi hlists now⟩

end Closure

/-- `hello world`, recorded once: three blocks of four characters, touched at one time. -/
def helloWorld : PromptCalls String := [(0, .record 0 "hello world")]

theorem collisionFree_helloWorld : CollisionFree defaultHasher 4 (calledPrompts helloWorld) := by
  refine (collisionFree_of_forall ["hello world"] ?_).mono ?_
  · decide +kernel
  · rintro Q ⟨call, hcall, worker, hQ⟩
    obtain rfl := List.mem_singleton.mp hcall
    rcases hQ with hQ | hQ
    · exact List.mem_singleton.mpr (IndexOp.record.inj hQ).2.symm
    · cases hQ

/-- The two remaining blocks of `hello world` after a sweep with room for two: the dropped block
was as old as they are. -/
theorem evict_strands_equal_ages_only_hello_world :
    ∃ h h' e e', (chainHash defaultHasher "hello world" 4)[1]? = some h ∧
      (chainHash defaultHasher "hello world" 4)[0]? = some h' ∧
      ((indexAfter defaultHasher 4 helloWorld).evict .held 1 10 2).1.get h = some e ∧
      (indexAfter defaultHasher 4 helloWorld).get h' = some e' ∧
      e.lastTouched = e'.lastTouched := by
  have hclosed := PrefixClosed.run collisionFree_helloWorld helloWorld Set.Subset.rfl (by decide)
  obtain ⟨hstrand, -⟩ := evict_strands_equal_ages_only helloWorld (by simp [helloWorld])
    collisionFree_helloWorld
    (fun P hP => hclosed P (recordedPrompts_subset helloWorld hP)) .held 1 10 2
    (by simp [helloWorld])
  have hP : "hello world" ∈ recordedPrompts helloWorld := ⟨0, 0, List.mem_singleton_self _⟩
  have h₁ := List.getElem?_eq_getElem (l := chainHash defaultHasher "hello world" 4) (i := 1)
    (by decide +kernel)
  have h₀ := List.getElem?_eq_getElem (l := chainHash defaultHasher "hello world" 4) (i := 0)
    (by decide +kernel)
  rcases hstrand "hello world" hP 0 1 0 _ _ (by omega) h₁ h₀ (by decide +kernel) with
    hlists | ⟨-, e, e', he, he', heq⟩
  · exact absurd hlists (by decide +kernel)
  · exact ⟨_, _, e, e', h₁, h₀, he, he', heq⟩

/-- The front of a chain is dropped and its rest left: with room for two entries, a sweep drops
the first block of `hello world`, which sits in the lowest shard, and `longest_match` no longer
reaches the two blocks that stay. -/
theorem evict_strands_hello_world :
    CollisionFree defaultHasher 4 (calledPrompts helloWorld) ∧
      PrefixClosed defaultHasher 4 (recordedPrompts helloWorld)
        (indexAfter defaultHasher 4 helloWorld) ∧
      ∃ h h', (chainHash defaultHasher "hello world" 4)[1]? = some h ∧
        (chainHash defaultHasher "hello world" 4)[0]? = some h' ∧
        ((indexAfter defaultHasher 4 helloWorld).evict .held 1 10 2).1.lists 0 h = true ∧
        ((indexAfter defaultHasher 4 helloWorld).evict .held 1 10 2).1.lists 0 h' = false ∧
        (((indexAfter defaultHasher 4 helloWorld).evict .held 1 10 2).1.longestMatch 1 0
          (chainHash defaultHasher "hello world" 4)).2 = 0 := by
  have hclosed := PrefixClosed.run collisionFree_helloWorld helloWorld Set.Subset.rfl (by decide)
  have h₁ := List.getElem?_eq_getElem (l := chainHash defaultHasher "hello world" 4) (i := 1)
    (by decide +kernel)
  have h₀ := List.getElem?_eq_getElem (l := chainHash defaultHasher "hello world" 4) (i := 0)
    (by decide +kernel)
  refine ⟨collisionFree_helloWorld, fun P hP => hclosed P (recordedPrompts_subset helloWorld hP),
    _, _, h₁, h₀, ?_, ?_, ?_⟩
  · decide +kernel
  · decide +kernel
  · decide +kernel

end KvRoute
