import Mathlib.Algebra.Order.BigOperators.Group.List
import KvRoute.Core.Hashing
import KvRoute.Core.PrefixRuns
import KvRoute.Lib.PrefixTree

set_option relaxedAutoImplicit false
set_option autoImplicit false

/-!
# The order that calls keep along chains

The chains of prompts form a prefix tree, whatever block sizes the prompts are cut at, as long as
the hasher separates its inputs.  `record` enters a worker for a whole chain and `longest_match`
touches a matched front part, so that along every chain the listed blocks come first and earlier
blocks are never older than later ones; each half is needed for the other once entries expire.

## Main definitions

* `KvRoute.chainsOf` — the chains of a set of prompts with their block sizes.
* `KvRoute.Separates` — the hasher separates what these prompts feed to it.
* `KvRoute.ChainOrdered` — listed blocks come first, and earlier blocks are not older.
* `PrefixIndex.WithinCap` — a call is not a sweep that finds more entries than its cap.

## Main results

* `KvRoute.prefixTree_chainsOf` — chains form a prefix tree.
* `KvRoute.ChainOrdered.step`, `ChainOrdered.run` — calls keep the order while caps are not
  exceeded.
* `KvRoute.expiry_cuts_tails` — in every reachable index, expiry cuts chains from the tail.
-/

namespace KvRoute

/-! ## Chains as a prefix tree -/

section Families

variable (hasher : Option UInt64 → List Char → UInt64)

/-- The chain of a prompt that is cut at a block size. -/
def chainOf (prompt : String × ℕ) : List UInt64 := chainHash hasher prompt.1 prompt.2

/-- The chains of some prompts. -/
def chainsOf (S : Set (String × ℕ)) : Set (List UInt64) := Set.image (chainOf hasher) S

/-- The hasher gives different values on different inputs, among those that the prompts feed to
it. -/
def Separates (S : Set (String × ℕ)) : Prop :=
  Set.InjOn (fun i : Option UInt64 × List Char => hasher i.1 i.2)
    {i | ∃ prompt ∈ S, i ∈ hasherInputs hasher prompt.1 prompt.2}

variable {hasher} {S : Set (String × ℕ)}

/-- Separation of finitely many prompts, as a finite check. -/
theorem separates_of_forall (prompts : List (String × ℕ))
    (h : ∀ i ∈ prompts.flatMap (fun p => hasherInputs hasher p.1 p.2),
      ∀ j ∈ prompts.flatMap (fun p => hasherInputs hasher p.1 p.2),
        hasher i.1 i.2 = hasher j.1 j.2 → i = j) :
    Separates hasher {prompt | prompt ∈ prompts} := by
  rintro i ⟨p, hp, hi⟩ j ⟨q, hq, hj⟩ heq
  exact h i (List.mem_flatMap.mpr ⟨p, hp, hi⟩) j (List.mem_flatMap.mpr ⟨q, hq, hj⟩) heq

/-- Prompts of one block size. -/
theorem CollisionFree.separates {blockSize : ℕ} {T : Set String}
    (hfree : CollisionFree hasher blockSize T) :
    Separates hasher (Set.image (fun prompt => (prompt, blockSize)) T) := by
  refine Set.InjOn.mono ?_ hfree
  rintro i ⟨-, ⟨prompt, hprompt, rfl⟩, hi⟩
  exact ⟨prompt, hprompt, hi⟩

/-- Equal hashes come after equal hashes. -/
theorem previousAt_eq_of_chainOf {P Q : String × ℕ} (hsep : Separates hasher S) (hP : P ∈ S)
    (hQ : Q ∈ S) {i j : ℕ} {hash : UInt64} (hi : (chainOf hasher P)[i]? = some hash)
    (hj : (chainOf hasher Q)[j]? = some hash) :
    previousAt none (chainOf hasher P) i = previousAt none (chainOf hasher Q) j := by
  obtain ⟨hiL, -⟩ := List.getElem?_eq_some_iff.mp hi
  obtain ⟨hjL, -⟩ := List.getElem?_eq_some_iff.mp hj
  rw [chainOf, length_chainHash] at hiL hjL
  obtain ⟨hgi, hmi⟩ := chainFrom_getElem hasher none _ i hiL
  obtain ⟨hgj, hmj⟩ := chainFrom_getElem hasher none _ j hjL
  have heq := hsep ⟨P, hP, hmi⟩ ⟨Q, hQ, hmj⟩
    (Option.some.inj (hgi.symm.trans (hi.trans (hj.symm.trans hgj))))
  exact (Prod.mk.inj heq).1

/-- **Chains form a prefix tree**, whatever the block sizes.

**Proof sketch.** Induction on the position: a hash in the two chains comes after equal hashes
(`previousAt_eq_of_chainOf`), or after none in both. -/
theorem prefixTree_chainsOf (hsep : Separates hasher S) : PrefixTree (chainsOf hasher S) := by
  rintro c ⟨P, hP, rfl⟩ d ⟨Q, hQ, rfl⟩ i
  induction i with
  | zero =>
    intro j hash hi hj
    have hprev := previousAt_eq_of_chainOf hsep hP hQ hi hj
    cases j with
    | zero => exact ⟨rfl, by rw [List.take_add_one, List.take_add_one, hi, hj]; rfl⟩
    | succ j =>
      obtain ⟨hjL, -⟩ := List.getElem?_eq_some_iff.mp hj
      rw [previousAt, previousAt, List.getElem?_eq_getElem (by omega)] at hprev
      cases hprev
  | succ i ih =>
    intro j hash hi hj
    have hprev := previousAt_eq_of_chainOf hsep hP hQ hi hj
    obtain ⟨hiL, -⟩ := List.getElem?_eq_some_iff.mp hi
    have hbefore := List.getElem?_eq_getElem (Nat.lt_of_succ_lt hiL)
    cases j with
    | zero =>
      rw [previousAt, previousAt, hbefore] at hprev
      cases hprev
    | succ j =>
      rw [previousAt, previousAt, hbefore] at hprev
      obtain ⟨rfl, htake⟩ := ih j _ hbefore hprev.symm
      refine ⟨rfl, ?_⟩
      rw [List.take_add_one, List.take_add_one (l := chainOf hasher Q), htake, hi, hj]

end Families

/-! ## What one call keeps -/

/-- The chains that a call is about belong to a family. -/
def IndexOp.OnChains (𝒞 : Set (List UInt64)) : IndexOp (List UInt64) (List UInt64) → Prop
  | .record _ chain | .longestMatch _ chain => chain ∈ 𝒞
  | _ => True

namespace PrefixIndex

/-- The time of the entry of a block. -/
def times (idx : PrefixIndex) (hash : UInt64) : Option Instant :=
  (idx.get hash).map (·.lastTouched)

theorem times_eq_some {idx : PrefixIndex} {hash : UInt64} {t : Instant} :
    idx.times hash = some t ↔ ∃ entry, idx.get hash = some entry ∧ entry.lastTouched = t :=
  Option.map_eq_some_iff

/-- The call is not a sweep that finds more entries than its cap, after expiry. -/
def WithinCap (idx : PrefixIndex) (call : Instant × IndexOp (List UInt64) (List UInt64)) : Prop :=
  match call.2 with
  | .evict _ ttl maxEntries => (idx.expire call.1 ttl).1.len ≤ maxEntries
  | _ => True

/-- A sweep that does not find more entries than its cap only expires entries. -/
theorem evict_fst_of_le {idx : PrefixIndex} {order : IterOrder (UInt64 × IndexEntry)}
    {now : Instant} {ttl : Duration} {maxEntries : ℕ}
    (h : (idx.expire now ttl).1.len ≤ maxEntries) :
    (idx.evict order now ttl maxEntries).1 = (idx.expire now ttl).1 := by
  rw [evict]
  exact congrArg Prod.fst (if_pos h)

variable {𝒞 : Set (List UInt64)} {idx : PrefixIndex}
  {call : Instant × IndexOp (List UInt64) (List UInt64)}

/-- What a call stamps is a front part of a chain. -/
theorem prefix_of_mem_stamped (hcall : call.2.OnChains 𝒞) {hash : UInt64}
    (h : hash ∈ idx.stamped call.2) : ∃ chain ∈ 𝒞, idx.stamped call.2 <+: chain := by
  obtain ⟨now, op⟩ := call
  cases op with
  | record worker chain => exact ⟨chain, hcall, List.prefix_rfl⟩
  | longestMatch worker chain => exact ⟨chain, hcall, List.takeWhile_prefix _⟩
  | removeWorker worker => cases h
  | len => cases h
  | evict order ttl maxEntries => cases h

/-- No call touches an entry after its own clock reading. -/
theorem times_step_le {now : Instant} (hpast : ∀ hash t, idx.times hash = some t → t ≤ now)
    (hnow : now ≤ call.1) (hash : UInt64) (t : Instant)
    (h : (idx.step call).1.times hash = some t) : t ≤ call.1 := by
  obtain ⟨entry, hget, rfl⟩ := times_eq_some.mp h
  rcases lastTouched_step hget with ⟨-, heq⟩ | ⟨-, old, hold, heq⟩
  · exact heq.le
  · exact (hpast hash _ (times_eq_some.mpr ⟨old, hold, heq⟩)).trans hnow

/-- Calls about the chains of a tree keep earlier blocks from being older than later ones. -/
theorem agesFromFront_step (htree : PrefixTree 𝒞) (hcall : call.2.OnChains 𝒞) {now : Instant}
    (hpast : ∀ hash t, idx.times hash = some t → t ≤ now) (hnow : now ≤ call.1)
    (h : AgesFromFront 𝒞 idx.times) : AgesFromFront 𝒞 (idx.step call).1.times := by
  refine h.stamp htree (l := idx.stamped call.2) (m := call.1)
    (fun hash hmem => prefix_of_mem_stamped hcall hmem)
    (fun hash t ht => (hpast hash t ht).trans hnow) fun hash t ht => ?_
  obtain ⟨entry, hget, rfl⟩ := times_eq_some.mp ht
  rcases lastTouched_step hget with ⟨hmem, heq⟩ | ⟨hnot, old, hold, heq⟩
  · exact Or.inl ⟨hmem, heq⟩
  · exact Or.inr ⟨hnot, times_eq_some.mpr ⟨old, hold, heq⟩⟩

/-- Calls other than sweeps keep the listed blocks in front: a record enters its worker for a
whole chain, and a purge takes its worker off all blocks. -/
theorem fromFront_lists_step (htree : PrefixTree 𝒞) (hcall : call.2.OnChains 𝒞)
    (hevict : call.2.isEvict = false) {worker : WorkerId}
    (h : FromFront 𝒞 fun hash => idx.lists worker hash = true) :
    FromFront 𝒞 fun hash => (idx.step call).1.lists worker hash = true := by
  have hrecorded : FromFront 𝒞 fun hash =>
      ∃ chain, call.2 = .record worker chain ∧ hash ∈ chain := by
    rintro c hc i j a b hji hi hj ⟨chain, heq, hmem⟩
    have hchain : chain ∈ 𝒞 := by
      rw [heq] at hcall
      exact hcall
    exact ⟨chain, heq, htree.mem_of_mem_prefix hc hchain List.prefix_rfl hji hi hj hmem⟩
  exact (hrecorded.or (h.const_and (p := call.2 ≠ .removeWorker worker))).congr fun hash =>
    ⟨lists_of_lists_step, lists_step_of_lists hevict⟩

/-- Who is listed after the expiry pass. -/
theorem lists_expire {now : Instant} {ttl : Duration} {worker : WorkerId} {hash : UInt64} :
    (idx.expire now ttl).1.lists worker hash = true ↔ idx.lists worker hash = true ∧
      ∃ t, idx.times hash = some t ∧ now - t ≤ ttl := by
  rw [lists_iff, lists_iff, get_expire]
  constructor
  · rintro ⟨entry, hget, hmem⟩
    obtain ⟨old, hold, hkeep⟩ := Option.bind_eq_some_iff.mp hget
    obtain ⟨rfl, hage⟩ := keepFresh_eq_some.mp hkeep
    exact ⟨⟨entry, hold, hmem⟩, _, times_eq_some.mpr ⟨entry, hold, rfl⟩, hage⟩
  · rintro ⟨⟨entry, hget, hmem⟩, t, ht, hage⟩
    obtain ⟨entry', hget', rfl⟩ := times_eq_some.mp ht
    obtain rfl := Option.some.inj (hget.symm.trans hget')
    exact ⟨entry, by rw [hget, Option.bind_some, keepFresh_eq_some]; exact ⟨rfl, hage⟩, hmem⟩

/-- Expiry keeps the listed blocks in front, since earlier blocks are not older. -/
theorem fromFront_lists_expire (hages : AgesFromFront 𝒞 idx.times) {worker : WorkerId}
    (h : FromFront 𝒞 fun hash => idx.lists worker hash = true) (now : Instant) (ttl : Duration) :
    FromFront 𝒞 fun hash => (idx.expire now ttl).1.lists worker hash = true := by
  refine (hages.fromFront h (fun hash hlists => ?_) (Q := fun t => now - t ≤ ttl)
    fun t u htu ht => (Nat.sub_le_sub_left htu now).trans ht).congr fun hash => lists_expire
  obtain ⟨entry, hget, -⟩ := (lists_iff _ _ _).mp hlists
  exact ⟨_, times_eq_some.mpr ⟨entry, hget, rfl⟩⟩

end PrefixIndex

/-! ## The order, in every reachable index -/

/-- The order along the chains of a family, at a clock reading that is not before any time in the
index. -/
structure ChainOrdered (𝒞 : Set (List UInt64)) (now : Instant) (idx : PrefixIndex) : Prop where
  /-- The times of the entries are past. -/
  past : ∀ hash t, idx.times hash = some t → t ≤ now
  /-- Earlier blocks are not older than later ones. -/
  ages : AgesFromFront 𝒞 idx.times
  /-- The blocks that a worker is listed on come first. -/
  lists : ∀ worker, FromFront 𝒞 fun hash => idx.lists worker hash = true

namespace ChainOrdered

variable {𝒞 : Set (List UInt64)} {now : Instant} {idx : PrefixIndex}

theorem new (𝒞 : Set (List UInt64)) (now : Instant) : ChainOrdered 𝒞 now .new :=
  ⟨nofun, nofun, fun _ _ _ _ _ _ _ _ _ _ h => nomatch h⟩

theorem mono (h : ChainOrdered 𝒞 now idx) {now' : Instant} (hnow : now ≤ now') :
    ChainOrdered 𝒞 now' idx :=
  ⟨fun hash t ht => (h.past hash t ht).trans hnow, h.ages, h.lists⟩

/-- One call keeps the order, unless it is a sweep over its cap. -/
theorem step (h : ChainOrdered 𝒞 now idx) (htree : PrefixTree 𝒞)
    {call : Instant × IndexOp (List UInt64) (List UInt64)} (hcall : call.2.OnChains 𝒞)
    (hcap : idx.WithinCap call) (hnow : now ≤ call.1) :
    ChainOrdered 𝒞 call.1 (idx.step call).1 := by
  refine
    { past := PrefixIndex.times_step_le h.past hnow
      ages := PrefixIndex.agesFromFront_step htree hcall h.past hnow h.ages
      lists := fun worker => ?lists }
  case lists =>
    cases hevict : call.2.isEvict with
    | false => exact PrefixIndex.fromFront_lists_step htree hcall hevict (h.lists worker)
    | true =>
      obtain ⟨t, op⟩ := call
      cases op with
      | evict order ttl maxEntries =>
        rw [PrefixIndex.step_evict_fst, PrefixIndex.evict_fst_of_le hcap]
        exact PrefixIndex.fromFront_lists_expire h.ages (h.lists worker) t ttl
      | _ => cases hevict

/-- Any calls keep the order, under a non-decreasing clock, while no sweep exceeds its cap. -/
theorem run (h : ChainOrdered 𝒞 now idx) (htree : PrefixTree 𝒞)
    (calls : List (Instant × IndexOp (List UInt64) (List UInt64)))
    (hcalls : ∀ call ∈ calls, call.2.OnChains 𝒞)
    (hclock : calls.Pairwise fun call call' => call.1 ≤ call'.1)
    (hcap : Runs.Along (fun idx call => (PrefixIndex.step idx call).1) PrefixIndex.WithinCap idx
      calls)
    (hfirst : ∀ call ∈ calls, now ≤ call.1) {last : Instant} (hnow : now ≤ last)
    (hlast : ∀ call ∈ calls, call.1 ≤ last) : ChainOrdered 𝒞 last (idx.run calls) := by
  induction calls generalizing idx now with
  | nil => exact h.mono hnow
  | cons call calls ih =>
    obtain ⟨hnext, hclock⟩ := List.pairwise_cons.mp hclock
    have hstep := h.step htree (hcalls call List.mem_cons_self) hcap.1
      (hfirst call List.mem_cons_self)
    exact ih hstep (fun c hc => hcalls c (List.mem_cons_of_mem _ hc)) hclock hcap.2 hnext
      (hlast call List.mem_cons_self) fun c hc => hlast c (List.mem_cons_of_mem _ hc)

/-- Blocks with an entry come first, since an entry lists somebody. -/
theorem fromFront_get (h : ChainOrdered 𝒞 now idx) (hwf : idx.WellFormed) :
    FromFront 𝒞 fun hash => ∃ entry, idx.get hash = some entry := by
  rintro c hc i j a b hji hi hj ⟨entry, hget⟩
  obtain ⟨worker, hworker⟩ := List.exists_mem_of_ne_nil _ (hwf.nonempty a entry hget)
  have hlists := h.lists worker c hc i j a b hji hi hj
    ((PrefixIndex.lists_iff _ _ _).mpr ⟨entry, hget, hworker⟩)
  obtain ⟨entry', hget', -⟩ := (PrefixIndex.lists_iff _ _ _).mp hlists
  exact ⟨entry', hget'⟩

end ChainOrdered

/-- Calls about prompts, each cut at its own block size. -/
abbrev SizedCalls := List (Instant × IndexOp (String × ℕ) (String × ℕ))

section Expiry

variable (hasher : Option UInt64 → List Char → UInt64)

/-- The calls on the index that they amount to. -/
def sizedCalls (calls : SizedCalls) : IndexCalls :=
  calls.map fun call => (call.1, call.2.map (chainOf hasher) (chainOf hasher))

/-- The prompts that calls record or match. -/
def sizedPrompts (calls : SizedCalls) : Set (String × ℕ) :=
  {P | ∃ call ∈ calls, ∃ worker, call.2 = .record worker P ∨ call.2 = .longestMatch worker P}

variable {hasher}

theorem onChains_sizedCalls {calls : SizedCalls} {S : Set (String × ℕ)}
    (hcalls : sizedPrompts calls ⊆ S) :
    ∀ call ∈ sizedCalls hasher calls, call.2.OnChains (chainsOf hasher S) := by
  intro call hmem
  obtain ⟨⟨now, op⟩, hcall, rfl⟩ := List.mem_map.mp hmem
  cases op with
  | record worker P => exact ⟨P, hcalls ⟨_, hcall, worker, Or.inl rfl⟩, rfl⟩
  | longestMatch worker P => exact ⟨P, hcalls ⟨_, hcall, worker, Or.inr rfl⟩, rfl⟩
  | _ => trivial

/-- **Expiry cuts chains from the tail.**  After any calls about prompts on an empty index, under
a non-decreasing clock, in which no sweep exceeds its cap, along the chain of every prompt: an
earlier block that has an entry was touched no earlier than a later one, and a worker that is
listed on a block is listed on every earlier one.  Hence what another such sweep leaves of the
chain is a front part of what was there.

**Proof sketch.** `ChainOrdered` holds of an empty index and is kept by all calls
(`ChainOrdered.run`); after the sweep it holds again, and the sweep leaves entries as they are. -/
theorem expiry_cuts_tails (calls : SizedCalls) (S : Set (String × ℕ))
    (hsep : Separates hasher S) (hcalls : sizedPrompts calls ⊆ S)
    (hclock : calls.Pairwise fun call call' => call.1 ≤ call'.1)
    (hcap : Runs.Along (fun idx call => (PrefixIndex.step idx call).1) PrefixIndex.WithinCap .new
      (sizedCalls hasher calls)) {P : String × ℕ} (hP : P ∈ S) {i j : ℕ} {h h' : UInt64}
    (hji : j ≤ i) (hi : (chainOf hasher P)[i]? = some h)
    (hj : (chainOf hasher P)[j]? = some h') :
    let idx := PrefixIndex.new.run (sizedCalls hasher calls)
    (∀ e e', idx.get h = some e → idx.get h' = some e' → e.lastTouched ≤ e'.lastTouched) ∧
      (∀ worker, idx.lists worker h = true → idx.lists worker h' = true) ∧
      ∀ order now ttl maxEntries, (∀ call ∈ calls, call.1 ≤ now) →
        idx.WithinCap (now, .evict order ttl maxEntries) →
        (∃ e, (idx.evict order now ttl maxEntries).1.get h = some e) →
          ∃ e', idx.get h' = some e' ∧ (idx.evict order now ttl maxEntries).1.get h' = some e' := by
  intro idx
  have htree := prefixTree_chainsOf hsep
  have hchain : chainOf hasher P ∈ chainsOf hasher S := ⟨P, hP, rfl⟩
  have hclock' : (sizedCalls hasher calls).Pairwise fun call call' => call.1 ≤ call'.1 :=
    List.pairwise_map.mpr hclock
  have hordered : ∀ last, (∀ call ∈ calls, call.1 ≤ last) →
      ChainOrdered (chainsOf hasher S) last idx := by
    intro last hlast
    refine (ChainOrdered.new _ 0).run htree _ (onChains_sizedCalls hcalls) hclock' hcap
      (fun _ _ => Nat.zero_le _) (Nat.zero_le _) fun call hmem => ?_
    obtain ⟨call', hcall', rfl⟩ := List.mem_map.mp hmem
    exact hlast call' hcall'
  -- some clock reading that is after all calls
  obtain ⟨last, hlast⟩ : ∃ last, ∀ call ∈ calls, call.1 ≤ last :=
    ⟨(calls.map (·.1)).sum, fun call hcall =>
      List.le_sum_of_mem (List.mem_map_of_mem hcall)⟩
  refine ⟨fun e e' he he' => ?_, fun worker => ?_, ?_⟩
  · exact (hordered last hlast).ages _ hchain i j h h' _ _ hji hi hj
      (PrefixIndex.times_eq_some.mpr ⟨e, he, rfl⟩) (PrefixIndex.times_eq_some.mpr ⟨e', he', rfl⟩)
  · exact (hordered last hlast).lists worker _ hchain i j h h' hji hi hj
  · intro order now ttl maxEntries hnow hcap' hget
    have hwf : idx.WellFormed := PrefixIndex.WellFormed.new.run _
    have hafter : ChainOrdered (chainsOf hasher S) now
        (idx.step (now, .evict order ttl maxEntries)).1 := by
      refine (hordered now hnow).step htree ?_ hcap' le_rfl
      trivial
    rw [PrefixIndex.step_evict_fst] at hafter
    obtain ⟨e', he'⟩ := hafter.fromFront_get (hwf.evict order now ttl maxEntries) _ hchain i j h h'
      hji hi hj hget
    exact ⟨e', PrefixIndex.get_of_get_evict he', he'⟩

end Expiry

/-- `hello world`, recorded, and matched by a prompt that shares its first block. -/
def helloHello : SizedCalls :=
  [(0, .record 0 ("hello world", 4)), (10, .longestMatch 0 ("hello", 4))]

theorem separates_helloHello :
    Separates defaultHasher {P | P ∈ [("hello world", 4), ("hello", 4)]} := by
  refine separates_of_forall _ ?_
  decide +kernel

/-- The last block of `hello world` is not younger than its first one, which the other prompt
shares, and worker 0 is listed on the first one since it is listed on the last. -/
theorem expiry_cuts_tails_hello_hello :
    ∃ h h', (chainOf defaultHasher ("hello world", 4))[2]? = some h ∧
      (chainOf defaultHasher ("hello world", 4))[0]? = some h' ∧
      (∀ e e', (PrefixIndex.new.run (sizedCalls defaultHasher helloHello)).get h = some e →
        (PrefixIndex.new.run (sizedCalls defaultHasher helloHello)).get h' = some e' →
          e.lastTouched ≤ e'.lastTouched) ∧
      (PrefixIndex.new.run (sizedCalls defaultHasher helloHello)).lists 0 h' = true := by
  have hcalls : sizedPrompts helloHello ⊆ {P | P ∈ [("hello world", 4), ("hello", 4)]} := by
    rintro P ⟨call, hcall, worker, hP⟩
    simp only [helloHello, List.mem_cons, List.not_mem_nil, or_false] at hcall
    rcases hcall with rfl | rfl
    · rcases hP with hP | hP
      · exact List.mem_cons.mpr (Or.inl (IndexOp.record.inj hP).2.symm)
      · cases hP
    · rcases hP with hP | hP
      · cases hP
      · exact List.mem_cons_of_mem _ (List.mem_singleton.mpr (IndexOp.longestMatch.inj hP).2.symm)
  have h₂ := List.getElem?_eq_getElem (l := chainOf defaultHasher ("hello world", 4)) (i := 2)
    (by decide +kernel)
  have h₀ := List.getElem?_eq_getElem (l := chainOf defaultHasher ("hello world", 4)) (i := 0)
    (by decide +kernel)
  obtain ⟨hages, hlists, -⟩ := expiry_cuts_tails helloHello _ separates_helloHello hcalls
    (by simp [helloHello]) ⟨trivial, trivial, trivial⟩ (P := ("hello world", 4)) (by simp)
    (Nat.zero_le 2) h₂ h₀
  exact ⟨_, _, h₂, h₀, hages, hlists 0 (by decide +kernel)⟩

end KvRoute
