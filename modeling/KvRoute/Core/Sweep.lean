import KvRoute.Core.ConcurrentIndex
import KvRoute.Lib.ThreadHistory

set_option relaxedAutoImplicit false
set_option autoImplicit false

/-!
# A sweep among other calls

`evict` (`crates/router-core/src/prefix.rs`) section by section: it expires, counts, and reads the
ages of all shards, sorts what it read, and removes the oldest entries, with no lock held between
the shards.  Calls that come in between write and match entries whose ages the sweep has read
already, so it goes by the ages that it read.

## Main definitions

* `KvRoute.SweepAccess` — the labels of a sweep and of the calls next to it.
* `Sweep.evict` — the program of `evict`.
* `KvRoute.sweepThreads` — a sweep and any number of threads that make calls.
* `KvRoute.RefreshedSinceRead` — an entry was written or matched after the sweep read its shard.

## Main results

* `Sweep.alone_evict` — run alone, the program is `PrefixIndex.evict`.
* `Sweep.follows_evict` — what a sweep removes is a front part of what it read, sorted by age.
* `KvRoute.sweep_removes_oldest_read` — the LRU pass removes an entry before an older one only if
  one of the two was written or matched since the pass read its age.
-/

namespace KvRoute

open PrefixIndex ThreadPool

/-- What a critical section of a sweep, or of a call next to it, does. -/
inductive SweepAccess where
  /-- A section of another call. -/
  | access (l : Access)
  /-- One turn of the expiry loop of `evict`. -/
  | expire (shard : Fin numShards)
  /-- One turn of the loop of `len`. -/
  | size (shard : Fin numShards)
  /-- One turn of the loop of `evict` that collects ages, with the entries it went through. -/
  | collect (shard : Fin numShards) (entries : List (UInt64 × IndexEntry))
  /-- One turn of the removal loop of `evict`. -/
  | remove (hash : UInt64) (shard : Fin numShards)
deriving DecidableEq

/-! ## The program -/

namespace Sweep

/-- Expire one shard and count. -/
def expireOne (now : Instant) (ttl : Duration) (shard : Fin numShards) (expired : ℕ) :
    Thread Shared SweepAccess ℕ :=
  .critical (fun s =>
    ({ s with prefixIndex := (expireShard now ttl (s.prefixIndex, expired) shard).1 },
      (expireShard now ttl (s.prefixIndex, expired) shard).2)) fun _ => .expire shard

/-- The number of entries of one shard. -/
def sizeOne (shard : Fin numShards) : Thread Shared SweepAccess ℕ :=
  .critical (fun s => (s, (s.prefixIndex.shards shard).len)) fun _ => .size shard

/-- The entries of one shard, as they are iterated. -/
def collectOne (order : IterOrder (UInt64 × IndexEntry)) (shard : Fin numShards) :
    Thread Shared SweepAccess (List (UInt64 × IndexEntry)) :=
  .critical (fun s => (s, order.arrange (s.prefixIndex.shards shard).toList)) (.collect shard)

/-- Remove one entry and count. -/
def removeOne (e : Instant × UInt64 × Fin numShards) (evicted : ℕ) :
    Thread Shared SweepAccess ℕ :=
  .critical (fun s => ({ s with prefixIndex := (removeOldest (s.prefixIndex, evicted) e).1 },
    (removeOldest (s.prefixIndex, evicted) e).2)) fun _ => .remove e.2.1 e.2.2

/-- The expiry loop. -/
def expireAll (now : Instant) (ttl : Duration) :
    List (Fin numShards) → ℕ → Thread Shared SweepAccess ℕ
  | [], expired => pure expired
  | shard :: shards, expired => do
    let expired ← expireOne now ttl shard expired
    expireAll now ttl shards expired

/-- The loop of `len`. -/
def sizeAll : List (Fin numShards) → Thread Shared SweepAccess ℕ
  | [] => pure 0
  | shard :: shards => do
    let size ← sizeOne shard
    let sizes ← sizeAll shards
    pure (size + sizes)

/-- What the collecting loop pushes for the entries of one shard. -/
def agesOf (shard : Fin numShards) (entries : List (UInt64 × IndexEntry)) :
    List (Instant × UInt64 × Fin numShards) :=
  entries.map fun e => (e.2.lastTouched, e.1, shard)

/-- The collecting loop. -/
def collectAll (order : IterOrder (UInt64 × IndexEntry)) : List (Fin numShards) →
    List (Instant × UInt64 × Fin numShards) →
    Thread Shared SweepAccess (List (Instant × UInt64 × Fin numShards))
  | [], oldest => pure oldest
  | shard :: shards, oldest => do
    let entries ← collectOne order shard
    collectAll order shards (oldest ++ agesOf shard entries)

/-- The removal loop. -/
def removeAll : List (Instant × UInt64 × Fin numShards) → ℕ → Thread Shared SweepAccess ℕ
  | [], evicted => pure evicted
  | e :: oldest, evicted => do
    let evicted ← removeOne e evicted
    removeAll oldest evicted

/-- `evict`. -/
def evict (order : IterOrder (UInt64 × IndexEntry)) (now : Instant) (ttl : Duration)
    (maxEntries : ℕ) : Thread Shared SweepAccess EvictionStats := do
  let expired ← expireAll now ttl (List.finRange numShards) 0
  let total ← sizeAll (List.finRange numShards)
  if total ≤ maxEntries then pure { expired, lruEvicted := 0 }
  else
    let overflow := total - maxEntries
    let oldest ← collectAll order (List.finRange numShards) []
    let lruEvicted ← removeAll ((sortByAge oldest).take overflow) 0
    pure { expired, lruEvicted }

/-! ## The program, run alone -/

variable (order : IterOrder (UInt64 × IndexEntry)) (now : Instant) (ttl : Duration)
  (maxEntries : ℕ)

theorem alone_expireAll (shards : List (Fin numShards)) (expired : ℕ) (s : Shared) :
    (expireAll now ttl shards expired).alone s =
      ({ s with prefixIndex := (shards.foldl (expireShard now ttl) (s.prefixIndex, expired)).1 },
        (shards.foldl (expireShard now ttl) (s.prefixIndex, expired)).2) := by
  induction shards generalizing expired s with
  | nil => rfl
  | cons shard shards ih => exact ih _ _

theorem alone_sizeAll (shards : List (Fin numShards)) (s : Shared) :
    (sizeAll shards).alone s = (s, (shards.map fun i => (s.prefixIndex.shards i).len).sum) := by
  induction shards with
  | nil => rfl
  | cons shard shards ih =>
    rw [sizeAll, Thread.alone_bind, sizeOne, Thread.alone_critical, Thread.alone_bind, ih]
    rfl

theorem alone_collectAll (shards : List (Fin numShards))
    (oldest : List (Instant × UInt64 × Fin numShards)) (s : Shared) :
    (collectAll order shards oldest).alone s = (s, oldest ++ shards.flatMap fun i =>
      agesOf i (order.arrange (s.prefixIndex.shards i).toList)) := by
  induction shards generalizing oldest with
  | nil =>
    rw [List.flatMap_nil, List.append_nil]
    rfl
  | cons shard shards ih =>
    rw [collectAll, Thread.alone_bind, collectOne, Thread.alone_critical, ih, List.flatMap_cons,
      List.append_assoc]

theorem alone_removeAll (oldest : List (Instant × UInt64 × Fin numShards)) (evicted : ℕ)
    (s : Shared) : (removeAll oldest evicted).alone s =
      ({ s with prefixIndex := (oldest.foldl removeOldest (s.prefixIndex, evicted)).1 },
        (oldest.foldl removeOldest (s.prefixIndex, evicted)).2) := by
  induction oldest generalizing evicted s with
  | nil => rfl
  | cons e oldest ih => exact ih _ _

/-- Run alone, the program is `evict`. -/
theorem alone_evict (s : Shared) : (evict order now ttl maxEntries).alone s =
    ({ s with prefixIndex := (s.prefixIndex.evict order now ttl maxEntries).1 },
      (s.prefixIndex.evict order now ttl maxEntries).2) := by
  unfold evict PrefixIndex.evict
  rw [Thread.alone_bind, alone_expireAll, Thread.alone_bind, alone_sizeAll]
  dsimp only
  rw [← expire, ← len]
  split_ifs
  · rfl
  · rw [Thread.alone_bind, alone_collectAll, List.nil_append, Thread.alone_bind, alone_removeAll]
    rfl

end Sweep

/-! ## What a section does -/

namespace SweepAccess

/-- What a section does to the shared state. -/
def Effect (s : Shared) (l : SweepAccess) (s' : Shared) : Prop :=
  match l with
  | access l => l.Effect s s'
  | expire shard => ∃ now ttl expired,
    s' = { s with prefixIndex := (expireShard now ttl (s.prefixIndex, expired) shard).1 }
  | size _ => s' = s
  | collect shard entries => s' = s ∧ entries.Perm (s.prefixIndex.shards shard).toList
  | remove hash shard =>
    ∃ evicted t, s' = { s with prefixIndex := (removeOldest (s.prefixIndex, evicted)
      (t, hash, shard)).1 }

/-- The section writes or matches the entry of a hash. -/
def Refreshes (hash : UInt64) : SweepAccess → Prop
  | access (.write _ h) | access (.touch h) => h = hash
  | _ => False

end SweepAccess

/-- An entry that is there now was there before, with the same age. -/
def AgesFrom (idx : PrefixIndex) (hash : UInt64) (idx' : PrefixIndex) : Prop :=
  ∀ entry', idx'.get hash = some entry' →
    ∃ entry, idx.get hash = some entry ∧ entry.lastTouched = entry'.lastTouched

theorem AgesFrom.refl (idx : PrefixIndex) (hash : UInt64) : AgesFrom idx hash idx :=
  fun entry' h => ⟨entry', h, rfl⟩

theorem AgesFrom.trans {idx idx' idx'' : PrefixIndex} {hash : UInt64} (h : AgesFrom idx hash idx')
    (h' : AgesFrom idx' hash idx'') : AgesFrom idx hash idx'' := by
  intro entry'' hget
  obtain ⟨entry', hentry', hage'⟩ := h' entry'' hget
  obtain ⟨entry, hentry, hage⟩ := h entry' hentry'
  exact ⟨entry, hentry, hage.trans hage'⟩

/-- Rewriting one shard, so that its entries come from entries of that shard. -/
theorem AgesFrom.of_setShard {idx : PrefixIndex} {shard : Fin numShards} {entries : Shard}
    {hash : UInt64} (h : ∀ entry', entries.get hash = some entry' →
      ∃ entry, (idx.shards shard).get hash = some entry ∧ entry.lastTouched = entry'.lastTouched) :
    AgesFrom idx hash (idx.setShard shard entries) := by
  intro entry' hget
  rw [PrefixIndex.get, PrefixIndex.shard, shards_setShard] at hget
  by_cases hshard : shardOf hash = shard
  · rw [if_pos hshard] at hget
    obtain ⟨entry, hentry, hage⟩ := h entry' hget
    exact ⟨entry, by rw [PrefixIndex.get, PrefixIndex.shard, hshard, hentry], hage⟩
  · rw [if_neg hshard] at hget
    exact ⟨entry', hget, rfl⟩

namespace SweepAccess

/-- A section that neither writes nor matches an entry leaves it as old as it is, or removes
it. -/
theorem Effect.agesFrom {s s' : Shared} {l : SweepAccess} (h : l.Effect s s') {hash : UInt64}
    (hl : ¬l.Refreshes hash) : AgesFrom s.prefixIndex hash s'.prefixIndex := by
  cases l with
  | access l =>
    cases l with
    | snapshot healthy => exact h.1 ▸ .refl _ hash
    | touch b =>
      obtain ⟨now, rfl⟩ := h
      intro entry' hget
      rw [get_touchBlock, if_neg fun heq => hl heq.symm] at hget
      exact ⟨entry', hget, rfl⟩
    | write worker b =>
      obtain ⟨now, rfl⟩ := h
      intro entry' hget
      rw [get_recordBlock, if_neg fun heq => hl heq.symm] at hget
      exact ⟨entry', hget, rfl⟩
    | purge worker shard =>
      obtain rfl := h
      refine AgesFrom.of_setShard fun entry' hget => ?_
      rw [HashTable.get_retain, Option.bind_eq_some_iff] at hget
      obtain ⟨entry, hentry, hdrop⟩ := hget
      obtain ⟨rfl, -⟩ := dropWorker_eq_some.mp hdrop
      exact ⟨entry, hentry, rfl⟩
    | _ =>
      obtain rfl := h
      exact .refl _ hash
  | expire shard =>
    obtain ⟨now, ttl, expired, rfl⟩ := h
    refine AgesFrom.of_setShard fun entry' hget => ?_
    rw [HashTable.get_retain, Option.bind_eq_some_iff] at hget
    obtain ⟨entry, hentry, hfresh⟩ := hget
    exact ⟨entry, hentry, by rw [(keepFresh_eq_some.mp hfresh).1]⟩
  | size shard =>
    obtain rfl := h
    exact .refl _ hash
  | collect shard entries => exact h.1 ▸ .refl _ hash
  | remove b shard =>
    obtain ⟨evicted, t, rfl⟩ := h
    refine AgesFrom.of_setShard fun entry' hget => ?_
    rw [HashTable.get_remove] at hget
    split_ifs at hget
    exact ⟨entry', hget, rfl⟩

/-- Every section keeps the index well formed. -/
theorem Effect.wellFormed {s s' : Shared} {l : SweepAccess} (h : l.Effect s s')
    (hwf : s.prefixIndex.WellFormed) : s'.prefixIndex.WellFormed := by
  cases l with
  | access l => exact Access.Effect.wellFormed h hwf
  | expire shard =>
    obtain ⟨now, ttl, expired, rfl⟩ := h
    exact WellFormed.expireShard (by exact hwf) now ttl shard
  | size shard => exact h ▸ hwf
  | collect shard entries => exact h.1 ▸ hwf
  | remove hash shard =>
    obtain ⟨evicted, t, rfl⟩ := h
    exact WellFormed.removeOldest (by exact hwf) (t, hash, shard)

end SweepAccess

/-! ## What a sweep does, whatever the others do -/

/-- The ages that a section of the collecting loop pushed. -/
def SweepAccess.collected : SweepAccess → List (Instant × UInt64 × Fin numShards)
  | .collect shard entries => Sweep.agesOf shard entries
  | _ => []

namespace Sweep

/-- What a sweep does next, in view of the labels it has left: once it has read all shards, it
removes what it read in the order of the ages that it read. -/
def Rule (past : List SweepAccess) : SweepAccess → Prop
  | .remove hash shard => ∃ reading removed,
    past = reading ++ removed.map (fun e => .remove e.1 e.2) ∧
      (∀ i, ∃ entries, .collect i entries ∈ reading) ∧
      removed ++ [(hash, shard)] <+:
        (sortByAge (reading.flatMap SweepAccess.collected)).map Prod.snd
  | _ => True

variable (order : IterOrder (UInt64 × IndexEntry)) (now : Instant) (ttl : Duration)
  (maxEntries : ℕ)

theorem each_expireAll (shards : List (Fin numShards)) (expired : ℕ) :
    (expireAll now ttl shards expired).Each (fun s l s' => l.Effect s s') fun _ => True := by
  induction shards generalizing expired with
  | nil => exact trivial
  | cons shard shards ih =>
    refine Thread.Each.bind (ψ := fun _ => True) ?_ fun expired _ => ih expired
    exact Thread.each_critical fun s => ⟨⟨now, ttl, expired, rfl⟩, trivial⟩

theorem each_sizeAll (shards : List (Fin numShards)) :
    (sizeAll shards).Each (fun s l s' => l.Effect s s') fun _ => True := by
  induction shards with
  | nil => exact trivial
  | cons shard shards ih =>
    refine Thread.Each.bind (ψ := fun _ => True) ?_ fun size _ => ih.bind fun sizes _ => trivial
    exact Thread.each_critical fun s => ⟨rfl, trivial⟩

theorem each_collectAll (shards : List (Fin numShards))
    (oldest : List (Instant × UInt64 × Fin numShards)) :
    (collectAll order shards oldest).Each (fun s l s' => l.Effect s s') fun _ => True := by
  induction shards generalizing oldest with
  | nil => exact trivial
  | cons shard shards ih =>
    refine Thread.Each.bind (ψ := fun _ => True) ?_ fun entries _ => ih _
    exact Thread.each_critical fun s => ⟨⟨rfl, order.perm _⟩, trivial⟩

theorem each_removeAll (oldest : List (Instant × UInt64 × Fin numShards)) (evicted : ℕ) :
    (removeAll oldest evicted).Each (fun s l s' => l.Effect s s') fun _ => True := by
  induction oldest generalizing evicted with
  | nil => exact trivial
  | cons e oldest ih =>
    refine Thread.Each.bind (ψ := fun _ => True) ?_ fun evicted _ => ih evicted
    exact Thread.each_critical fun s => ⟨⟨evicted, e.1, rfl⟩, trivial⟩

/-- Every section of a sweep does what its label says. -/
theorem each_evict : (evict order now ttl maxEntries).Each (fun s l s' => l.Effect s s')
    fun _ => True := by
  refine (each_expireAll now ttl _ 0).bind fun expired _ => ?_
  refine (each_sizeAll _).bind fun total _ => ?_
  split_ifs
  · exact trivial
  · refine (each_collectAll order _ []).bind fun oldest _ => ?_
    exact (each_removeAll _ 0).bind fun evicted _ => trivial

/-- The passes before the LRU pass collect nothing. -/
theorem follows_expireAll (shards : List (Fin numShards)) (expired : ℕ) {past : List SweepAccess}
    (hpast : past.flatMap SweepAccess.collected = []) :
    (expireAll now ttl shards expired).Follows Rule
      (fun _ past => past.flatMap SweepAccess.collected = []) past := by
  induction shards generalizing expired past with
  | nil => exact Thread.follows_done hpast
  | cons shard shards ih =>
    refine Thread.Follows.bind (Thread.follows_critical fun s => ⟨trivial, ?_⟩)
      fun expired past hpast => ih expired hpast
    rw [List.flatMap_append, hpast]
    rfl

theorem follows_sizeAll (shards : List (Fin numShards)) {past : List SweepAccess}
    (hpast : past.flatMap SweepAccess.collected = []) :
    (sizeAll shards).Follows Rule
      (fun _ past => past.flatMap SweepAccess.collected = []) past := by
  induction shards generalizing past with
  | nil => exact Thread.follows_done hpast
  | cons shard shards ih =>
    refine Thread.Follows.bind (Thread.follows_critical fun s => ⟨trivial, ?_⟩)
      fun size past hpast => (ih hpast).bind fun _ _ h => Thread.follows_done h
    rw [List.flatMap_append, hpast]
    rfl

/-- The collecting loop returns what it has pushed, and goes through all shards. -/
theorem follows_collectAll (shards : List (Fin numShards))
    {oldest : List (Instant × UInt64 × Fin numShards)} {past : List SweepAccess}
    (hpast : past.flatMap SweepAccess.collected = oldest)
    (hshards : ∀ i, i ∈ shards ∨ ∃ entries, .collect i entries ∈ past) :
    (collectAll order shards oldest).Follows Rule (fun oldest past =>
      past.flatMap SweepAccess.collected = oldest ∧ ∀ i, ∃ entries, .collect i entries ∈ past)
      past := by
  induction shards generalizing oldest past with
  | nil => exact Thread.follows_done ⟨hpast, fun i => (hshards i).resolve_left List.not_mem_nil⟩
  | cons shard shards ih =>
    refine fun s => ⟨trivial, ih ?_ fun i => ?_⟩
    · rw [List.flatMap_append, hpast]
      simp [SweepAccess.collected]
    · rcases hshards i with hi | ⟨entries, hmem⟩
      · rcases List.mem_cons.mp hi with rfl | hi
        · exact Or.inr ⟨_, List.mem_append_right _ (List.mem_singleton_self _)⟩
        · exact Or.inl hi
      · exact Or.inr ⟨entries, List.mem_append_left _ hmem⟩

theorem mem_collected {t : Instant} {hash : UInt64} {i : Fin numShards} {past : List SweepAccess} :
    (t, hash, i) ∈ past.flatMap SweepAccess.collected ↔ ∃ entries, .collect i entries ∈ past ∧
      ∃ read, (hash, read) ∈ entries ∧ read.lastTouched = t := by
  rw [List.mem_flatMap]
  constructor
  · rintro ⟨l, hl, he⟩
    cases l with
    | collect shard entries =>
      obtain ⟨⟨b, read⟩, hread, heq⟩ := List.mem_map.mp he
      obtain ⟨rfl, rfl, rfl⟩ : read.lastTouched = t ∧ b = hash ∧ shard = i := by simpa using heq
      exact ⟨entries, hl, read, hread, rfl⟩
    | _ => exact absurd he List.not_mem_nil
  · rintro ⟨entries, hl, read, hread, hage⟩
    exact ⟨_, hl, List.mem_map.mpr ⟨_, hread, by rw [hage]⟩⟩

/-- The removal loop goes through the sorted ages from the front. -/
theorem follows_removeAll {reading : List SweepAccess}
    (hreading : ∀ i, ∃ entries, .collect i entries ∈ reading)
    (oldest : List (Instant × UInt64 × Fin numShards)) (evicted : ℕ)
    (removed : List (UInt64 × Fin numShards)) (hremoved : removed ++ oldest.map Prod.snd <+:
      (sortByAge (reading.flatMap SweepAccess.collected)).map Prod.snd) :
    (removeAll oldest evicted).Follows Rule (fun _ _ => True)
      (reading ++ removed.map fun e => .remove e.1 e.2) := by
  induction oldest generalizing evicted removed with
  | nil => exact Thread.follows_done trivial
  | cons e oldest ih =>
    have hnext : removed ++ [e.2] <+: removed ++ (e :: oldest).map Prod.snd := by simp
    refine Thread.Follows.bind (ψ := fun _ past => past =
      reading ++ (removed ++ [e.2]).map fun e => .remove e.1 e.2)
      (Thread.follows_critical fun s => ⟨⟨reading, removed, rfl, hreading, ?_⟩, ?_⟩) ?_
    · exact hnext.trans hremoved
    · rw [List.map_append, ← List.append_assoc]
      rfl
    · rintro evicted past rfl
      exact ih evicted _ (by simpa using hremoved)

/-- A sweep obeys the rule. -/
theorem follows_evict :
    (evict order now ttl maxEntries).Follows Rule (fun _ _ => True) [] := by
  refine (follows_expireAll now ttl _ 0 rfl).bind fun expired past hpast => ?_
  refine (follows_sizeAll _ hpast).bind fun total past hpast => ?_
  split_ifs
  · exact Thread.follows_done trivial
  · refine (follows_collectAll order _ hpast fun i => Or.inl (List.mem_finRange i)).bind ?_
    rintro oldest past ⟨rfl, hreading⟩
    refine Thread.Follows.bind (ψ := fun _ _ => True) ?_ fun _ _ _ => Thread.follows_done trivial
    have hfront : (sortByAge (past.flatMap SweepAccess.collected)).take (total - maxEntries) <+:
        sortByAge (past.flatMap SweepAccess.collected) := List.take_prefix _ _
    have hremove := follows_removeAll hreading _ 0 [] (hfront.map Prod.snd)
    rwa [List.map_nil, List.append_nil] at hremove

end Sweep

/-! ## A sweep among other threads -/

section Threads

variable {ι : Type}

/-- A sweep, and any number of threads that make calls. -/
def sweepThreads (order : IterOrder (UInt64 × IndexEntry)) (now : Instant) (ttl : Duration)
    (maxEntries : ℕ) (calls : ι → List IndexCall) (s : Shared) :
    ThreadPool (Option ι) Shared SweepAccess Unit where
  shared := s
  threads
    | none => do
      let _ ← Sweep.evict order now ttl maxEntries
    | some i => (IndexCall.programs (calls i)).relabel .access

/-- An entry was written or matched after the sweep had read its shard. -/
def RefreshedSinceRead (tr : List (Option ι × SweepAccess)) (hash : UInt64) : Prop :=
  ∃ before entries after, tr = before ++ (none, .collect (shardOf hash) entries) :: after ∧
    ∃ e ∈ after, e.2.Refreshes hash

variable {order : IterOrder (UInt64 × IndexEntry)} {now : Instant} {ttl : Duration}
  {maxEntries : ℕ} {calls : ι → List IndexCall} {s : Shared}
  {tr before after : List (Option ι × SweepAccess)}
  {p q q' : ThreadPool (Option ι) Shared SweepAccess Unit} {hash : UInt64}

theorem each_sweepThreads (i : Option ι) :
    ((sweepThreads order now ttl maxEntries calls s).threads i).Each
      (fun s l s' => l.Effect s s') fun _ => True := by
  cases i with
  | none => exact (Sweep.each_evict order now ttl maxEntries).bind fun _ _ => trivial
  | some i =>
    have hcalls := IndexCall.traces_programs (calls i)
    exact Thread.Each.relabel (hcalls.mono (fun _ _ _ hs => hs.1) fun _ h => h)

variable [DecidableEq ι]

/-- While an entry is neither written nor matched, it keeps its age, or is removed for good. -/
theorem agesFrom_of_exec (h : p.Exec tr q)
    (hp : ∀ i, (p.threads i).Each (fun s l s' => l.Effect s s') fun _ => True)
    (htr : ∀ e ∈ tr, ¬e.2.Refreshes hash) :
    AgesFrom p.shared.prefixIndex hash q.shared.prefixIndex := by
  refine h.keeps (I := fun s => AgesFrom p.shared.prefixIndex hash s.prefixIndex)
    (φ := fun l => ¬l.Refreshes hash) (ψ := fun _ => True) (fun i => ?_) htr (.refl _ hash)
  exact (hp i).mono (fun _ _ _ hs hl hages => hages.trans (hs.agesFrom hl)) fun _ h => h

/-- The sweep finds every entry in its own shard. -/
theorem placed_of_read (hwf : s.prefixIndex.WellFormed) {i : Fin numShards}
    {entries : List (UInt64 × IndexEntry)} (h : (sweepThreads order now ttl maxEntries calls s).Exec
      (before ++ (none, .collect i entries) :: after) q) {read : IndexEntry}
    (hread : (hash, read) ∈ entries) : i = shardOf hash := by
  obtain ⟨q₁, q₁', hbefore, ⟨-, hperm⟩, -⟩ := h.at_label each_sweepThreads
  have hwf₁ : q₁.shared.prefixIndex.WellFormed := by
    refine hbefore.invariant (I := fun s => s.prefixIndex.WellFormed) (ψ := fun _ => True) ?_ hwf
    exact fun j => (each_sweepThreads j).mono (fun _ _ _ hs => hs.wellFormed) fun _ h => h
  exact hwf₁.placed i hash read ((HashTable.mem_toList _).mp (hperm.mem_iff.mp hread))

/-- What the sweep read of an entry that is still there and has not been refreshed since: its age
as it is.  In particular the sweep has not removed it in the meantime. -/
theorem read_of_not_refreshed {entries : List (UInt64 × IndexEntry)}
    (h : (sweepThreads order now ttl maxEntries calls s).Exec
      (before ++ (none, .collect (shardOf hash) entries) :: after) q)
    (hafter : ∀ e ∈ after, ¬e.2.Refreshes hash) {entry : IndexEntry}
    (hentry : q.shared.prefixIndex.get hash = some entry) :
    (∃ read, (hash, read) ∈ entries) ∧
      (∀ read, (hash, read) ∈ entries → read.lastTouched = entry.lastTouched) ∧
      (none, .remove hash (shardOf hash)) ∉ after := by
  obtain ⟨q₁, q₁', -, ⟨hread, hperm⟩, hrest, heach⟩ := h.at_label each_sweepThreads
  obtain ⟨read, hget, hage⟩ := agesFrom_of_exec hrest heach hafter entry hentry
  rw [hread] at hget
  refine ⟨⟨read, ?_⟩, fun read' hmem => ?_, fun hmem => ?_⟩
  · exact hperm.mem_iff.mpr ((HashTable.mem_toList _).mpr hget)
  · have hget' := (HashTable.mem_toList _).mp (hperm.mem_iff.mp hmem)
    rw [Option.some.inj (hget'.symm.trans hget), hage]
  · obtain ⟨after₁, after₂, rfl⟩ := List.append_of_mem hmem
    obtain ⟨q₂, q₂', -, ⟨evicted, t, hremove⟩, hrest, heach⟩ := hrest.at_label heach
    have hafter₂ : ∀ e ∈ after₂, ¬e.2.Refreshes hash := fun e he =>
      hafter e (List.mem_append_right _ (List.mem_cons_of_mem _ he))
    obtain ⟨read, hget, -⟩ := agesFrom_of_exec hrest heach hafter₂ entry hentry
    rw [hremove] at hget
    simp [removeOldest, PrefixIndex.get, PrefixIndex.shard, shards_setShard,
      HashTable.get_remove] at hget

/-- **The sweep goes by the ages that it read.**  In any interleaving of a sweep with other calls,
let the LRU pass be about to remove an entry, and let an entry that was touched less recently be in
the index at that moment.  Then one of the two was written or matched after the sweep had read its
shard.

**Proof sketch.** The removed entry stands in the sorted list of what the sweep read, behind the
entries that it has removed already (`Sweep.follows_evict`).  If neither entry was refreshed, both
stand there with the ages that they have (`read_of_not_refreshed`), and the older one is not among
those removed already, as it is still there.  So it comes later in the list, and is not older. -/
theorem sweep_removes_oldest_read (hwf : s.prefixIndex.WellFormed)
    (h : (sweepThreads order now ttl maxEntries calls s).Exec tr q) {shard : Fin numShards}
    (hremove : q.step none = some (.remove hash shard, q')) {entry : IndexEntry}
    (hentry : q.shared.prefixIndex.get hash = some entry) {hash' : UInt64} {entry' : IndexEntry}
    (hentry' : q.shared.prefixIndex.get hash' = some entry')
    (holder : entry'.lastTouched < entry.lastTouched) :
    RefreshedSinceRead tr hash ∨ RefreshedSinceRead tr hash' := by
  by_contra hneither
  obtain ⟨hnot, hnot'⟩ := not_or.mp hneither
  have hfollows : ((sweepThreads order now ttl maxEntries calls s).threads none).Follows
      Sweep.Rule (fun _ _ => True) [] :=
    (Sweep.follows_evict order now ttl maxEntries).bind fun _ _ _ => Thread.follows_done trivial
  have hexec : (sweepThreads order now ttl maxEntries calls s).Exec
      (tr ++ (none, .remove hash shard) :: []) q' := h.trans (.cons hremove (.refl q'))
  obtain ⟨reading, removed, hpast, hreading, hfront⟩ := hexec.rule_of_mem hfollows
  rw [List.nil_append] at hpast
  -- where the reads of the shards stand in the trace
  have hsplit : ∀ i entries, .collect i entries ∈ reading → ∃ before after,
      tr = before ++ (none, .collect i entries) :: after ∧
        ∀ e ∈ removed, (none, .remove e.1 e.2) ∈ after := by
    intro i entries hmem
    obtain ⟨ls, ls', rfl⟩ := List.append_of_mem hmem
    rw [List.append_assoc] at hpast
    obtain ⟨before, after, rfl, -, hafter⟩ := exists_split_of_labelsOf hpast
    refine ⟨before, after, rfl, fun e he => mem_labelsOf.mp ?_⟩
    rw [hafter]
    exact List.mem_append_right _ (List.mem_map.mpr ⟨e, he, rfl⟩)
  -- where the removed entry stands in the sorted list
  obtain ⟨rest, hrest⟩ := hfront
  rw [List.append_assoc] at hrest
  obtain ⟨front, back, hsorted, hfront, hback⟩ := List.map_eq_append_iff.mp hrest.symm
  obtain ⟨⟨age, _⟩, back, rfl, rfl, -⟩ := List.map_eq_cons_iff.mp hback
  have horder := List.pairwise_insertionSort
    (fun a b : Instant × UInt64 × Fin numShards => a.1 ≤ b.1)
    (reading.flatMap SweepAccess.collected)
  rw [← sortByAge, hsorted] at horder
  have hmem : ∀ t b i, (t, b, i) ∈ front ++ (age, hash, shard) :: back ↔ ∃ entries,
      .collect i entries ∈ reading ∧ ∃ read, (b, read) ∈ entries ∧ read.lastTouched = t := by
    intro t b i
    rw [← hsorted, sortByAge, List.mem_insertionSort]
    exact Sweep.mem_collected
  have hage : age = entry.lastTouched := by
    obtain ⟨entries, hentries, read, hread, hage⟩ :=
      (hmem _ _ _).mp (List.mem_append_right _ List.mem_cons_self)
    obtain ⟨before, after, rfl, -⟩ := hsplit _ _ hentries
    obtain rfl := placed_of_read hwf h hread
    have hafter : ∀ e ∈ after, ¬e.2.Refreshes hash := fun e he hrefresh =>
      hnot ⟨before, entries, after, rfl, e, he, hrefresh⟩
    rw [← hage, (read_of_not_refreshed h hafter hentry).2.1 read hread]
  have hage' : age ≤ entry'.lastTouched := by
    obtain ⟨entries, hentries⟩ := hreading (shardOf hash')
    obtain ⟨before, after, rfl, hremoved⟩ := hsplit _ _ hentries
    have hafter : ∀ e ∈ after, ¬e.2.Refreshes hash' := fun e he hrefresh =>
      hnot' ⟨before, entries, after, rfl, e, he, hrefresh⟩
    obtain ⟨⟨read, hread⟩, hsame, hkept⟩ := read_of_not_refreshed h hafter hentry'
    have hstands : (entry'.lastTouched, hash', shardOf hash') ∈
        front ++ (age, hash, shard) :: back :=
      (hmem _ _ _).mpr ⟨entries, hentries, read, hread, hsame read hread⟩
    rcases List.mem_append.mp hstands with hfront' | hback'
    · have hgone : (hash', shardOf hash') ∈ removed :=
        hfront ▸ List.mem_map.mpr ⟨_, hfront', rfl⟩
      exact absurd (hremoved _ hgone) hkept
    · rcases List.mem_cons.mp hback' with hhead | hback'
      · exact (congrArg Prod.fst hhead).ge
      · exact List.rel_of_pairwise_cons (List.pairwise_append.mp horder).2.1 hback'
  exact absurd holder (not_lt.mpr (hage ▸ hage'))

end Threads

/-! ## An entry that is matched during a sweep -/

/-- Worker 0 was recorded on block 7 at time 0 and on block 8 at time 5. -/
def twoBlocks : Shared :=
  { Shared.new { workers := [], routingPolicy := .cacheAware } with
    prefixIndex := (PrefixIndex.new.record 0 0 [7]).record 5 0 [8] }

/-- A sweep that leaves one entry, next to a match of block 7 at time 10. -/
def matchedSweep : ThreadPool (Option Unit) Shared SweepAccess Unit :=
  sweepThreads .held 7 1000 1 (fun _ => [.longestMatch 0 10 [7]]) twoBlocks

/-- The sweep has read all shards when the match comes. -/
def matchedSweepRun : List (Option Unit × SweepAccess) ×
    ThreadPool (Option Unit) Shared SweepAccess Unit :=
  matchedSweep.run (List.replicate 192 none ++ [some (), some ()])

set_option maxRecDepth 4000 in
theorem step_matchedSweepRun : ∃ q',
    matchedSweepRun.2.step none = some (.remove 7 (shardOf 7), q') ∧
    q'.shared.prefixIndex.get 7 = none ∧ q'.shared.prefixIndex.get 8 = some ⟨[0], 5⟩ ∧
    ∀ i, q'.threads i = .done () := by
  refine ⟨_, rfl, rfl, rfl, fun i => ?_⟩
  cases i with
  | none => rfl
  | some i => rfl

set_option maxRecDepth 4000 in
theorem get_matchedSweepRun : matchedSweepRun.2.shared.prefixIndex.get 7 = some ⟨[0], 10⟩ ∧
    matchedSweepRun.2.shared.prefixIndex.get 8 = some ⟨[0], 5⟩ := ⟨rfl, rfl⟩

/-- The sweep then removes block 7, which was matched a moment ago, and leaves block 8, which was
not touched since time 5. -/
theorem sweep_removes_matched : ∃ q', matchedSweep.Exec matchedSweepRun.1 matchedSweepRun.2 ∧
    matchedSweepRun.2.step none = some (.remove 7 (shardOf 7), q') ∧
    matchedSweepRun.2.shared.prefixIndex.get 7 = some ⟨[0], 10⟩ ∧
    q'.shared.prefixIndex.get 7 = none ∧ q'.shared.prefixIndex.get 8 = some ⟨[0], 5⟩ ∧
    ∀ i, q'.threads i = .done () := by
  obtain ⟨q', hremove, hgone, hleft, hdone⟩ := step_matchedSweepRun
  exact ⟨q', exec_run _ _, hremove, get_matchedSweepRun.1, hgone, hleft, hdone⟩

/-- Block 7 was matched after the sweep had read its shard. -/
theorem sweep_removes_oldest_read_matched :
    RefreshedSinceRead matchedSweepRun.1 7 ∨ RefreshedSinceRead matchedSweepRun.1 8 := by
  have hwf : twoBlocks.prefixIndex.WellFormed := (WellFormed.new.record 0 0 [7]).record 5 0 [8]
  have hexec : matchedSweep.Exec matchedSweepRun.1 matchedSweepRun.2 := exec_run _ _
  obtain ⟨q', hremove, -⟩ := step_matchedSweepRun
  exact sweep_removes_oldest_read hwf hexec hremove get_matchedSweepRun.1 get_matchedSweepRun.2
    (by decide)

end KvRoute
