import KvRoute.Core.PrefixRuns
import KvRoute.Core.Sections

set_option relaxedAutoImplicit false
set_option autoImplicit false

/-!
# Concurrent calls on the prefix index

Threads that call `record`, `longest_match` and `remove_worker` on one index, interleaved lock
section by lock section.  Calls for different workers meet on the entries of shared blocks, and a
purge of one worker may delete an entry that another call is about to extend; for a worker that
nobody purges, the outcome is the same in every order.

## Main definitions

* `KvRoute.IndexCall`, `IndexCall.programs` — the calls, and a thread that makes some.
* `KvRoute.indexThreads` — any number of threads over one index.

## Main results

* `KvRoute.wellFormed_indexThreads` — the index stays well formed in every interleaving.
* `KvRoute.concurrent_records_kept` — no record of a worker is lost, and none is made up.
-/

namespace KvRoute

/-- A call on the index, with its clock reading. -/
inductive IndexCall where
  /-- `record(worker, chain)`. -/
  | record (worker : WorkerId) (now : Instant) (chain : List UInt64)
  /-- `longest_match(worker, chain)`. -/
  | longestMatch (worker : WorkerId) (now : Instant) (chain : List UInt64)
  /-- `remove_worker(worker)`. -/
  | removeWorker (worker : WorkerId)
deriving DecidableEq

namespace IndexCall

/-- The sections of a call. -/
def program : IndexCall → Program Unit
  | record worker now chain => Program.record worker now chain
  | longestMatch worker now chain => do
    let _ ← Program.longestMatch worker now chain
  | removeWorker worker => Program.removeWorker worker

/-- A thread that makes some calls, one after the other. -/
def programs : List IndexCall → Program Unit
  | [] => pure ()
  | call :: calls => do
    call.program
    programs calls

/-- The call records the worker on the block. -/
def Records (worker : WorkerId) (hash : UInt64) (call : IndexCall) : Prop :=
  ∃ now chain, call = record worker now chain ∧ hash ∈ chain

end IndexCall

/-- The sections of some calls. -/
def Access.FromCalls (calls : List IndexCall) : Access → Prop
  | .lookup _ _ | .touch _ => True
  | .write worker hash => ∃ call ∈ calls, call.Records worker hash
  | .purge worker _ => .removeWorker worker ∈ calls
  | _ => False

theorem Access.FromCalls.mono {calls calls' : List IndexCall} (h : calls ⊆ calls') {l : Access}
    (hl : l.FromCalls calls) : l.FromCalls calls' := by
  cases l with
  | lookup worker hash => trivial
  | touch hash => trivial
  | write worker hash =>
    obtain ⟨call, hcall, hrecords⟩ := hl
    exact ⟨call, h hcall, hrecords⟩
  | purge worker shard => exact h hl
  | _ => exact absurd hl id

namespace IndexCall

/-- What a call does, section by section. -/
theorem traces_program (call : IndexCall) :
    call.program.Traces (Access.FromCalls [call]) fun _ => True := by
  cases call with
  | record worker now chain =>
    refine Program.traces_record fun hash hmem => ?_
    exact ⟨_, List.mem_singleton_self _, now, chain, rfl, hmem⟩
  | longestMatch worker now chain =>
    refine Program.Traces.bind (ψ := fun _ => True) ?_ fun _ _ => Program.traces_pure trivial
    exact Program.traces_longestMatch (fun _ => trivial) fun _ => trivial
  | removeWorker worker =>
    exact Program.traces_removeWorker fun shard => List.mem_singleton_self _

/-- What a thread does: it writes what its calls record, and purges what they remove. -/
theorem traces_programs (calls : List IndexCall) :
    (programs calls).Traces (Access.FromCalls calls) fun _ => True := by
  induction calls with
  | nil => exact Program.traces_pure trivial
  | cons call calls ih =>
    refine Program.Traces.bind (ψ := fun _ => True) ?_ fun _ _ => ?_
    · refine call.traces_program.weaken (fun l hl => hl.mono ?_) fun _ h => h
      exact List.cons_subset.mpr ⟨List.mem_cons_self, List.nil_subset _⟩
    · exact ih.weaken (fun l hl => hl.mono (List.subset_cons_self _ _)) fun _ h => h

/-- A thread cannot finish without having written what its calls record. -/
theorem emits_programs {calls : List IndexCall} {call : IndexCall} (hcall : call ∈ calls)
    {worker : WorkerId} {hash : UInt64} (hrecords : call.Records worker hash) :
    (programs calls).Emits (.write worker hash) := by
  induction calls with
  | nil => exact absurd hcall List.not_mem_nil
  | cons first calls ih =>
    rcases List.mem_cons.mp hcall with rfl | hcall
    · obtain ⟨now, chain, rfl, hmem⟩ := hrecords
      exact Thread.Emits.bind_left _ (Program.emits_record worker now hmem)
    · exact Thread.Emits.bind_right _ fun _ => ih hcall

end IndexCall

/-- Every section keeps the index well formed. -/
theorem Access.Effect.wellFormed {s s' : Shared} {l : Access} (h : l.Effect s s')
    (hwf : s.prefixIndex.WellFormed) : s'.prefixIndex.WellFormed := by
  cases l with
  | snapshot healthy => exact h.1 ▸ hwf
  | touch hash =>
    obtain ⟨now, rfl⟩ := h
    exact hwf.touchBlock now hash
  | write worker hash =>
    obtain ⟨now, rfl⟩ := h
    exact hwf.recordBlock worker now hash
  | purge worker shard =>
    obtain rfl := h
    exact hwf.purgeShard worker shard
  | _ =>
    obtain rfl := h
    exact hwf

section Threads

variable {ι : Type}

/-- Any number of threads that make calls on the index of one shared state. -/
def indexThreads (calls : ι → List IndexCall) (s : Shared) : ThreadPool ι Shared Access Unit :=
  ⟨s, fun i => IndexCall.programs (calls i)⟩

variable [DecidableEq ι] {calls : ι → List IndexCall} {s : Shared}
variable {tr : List (ι × Access)} {p' : ThreadPool ι Shared Access Unit}

/-- The index stays well formed. -/
theorem wellFormed_indexThreads (h : (indexThreads calls s).Exec tr p')
    (hwf : s.prefixIndex.WellFormed) : p'.shared.prefixIndex.WellFormed := by
  refine h.invariant (I := fun s => s.prefixIndex.WellFormed) (ψ := fun _ => True) ?_ hwf
  intro i
  exact (IndexCall.traces_programs (calls i)).mono (fun _ _ _ hs => hs.1.wellFormed) fun _ h => h

/-- What the sections of a thread are about. -/
theorem fromCalls_of_mem (h : (indexThreads calls s).Exec tr p') {e : ι × Access} (he : e ∈ tr) :
    e.2.FromCalls (calls e.1) :=
  h.label_of_each (ψ := fun _ => True)
    ((IndexCall.traces_programs (calls e.1)).mono (fun _ _ _ hs => hs.2) fun _ h => h) e.2 he

/-- Whether a block lists a worker: writes set it, purges clear it. -/
theorem lists_indexThreads (h : (indexThreads calls s).Exec tr p') (worker : WorkerId)
    (hash : UInt64) : p'.shared.prefixIndex.lists worker hash =
      tr.foldl (fun b e => e.2.enters worker hash || (b && !e.2.purges worker hash))
        (s.prefixIndex.lists worker hash) := by
  refine h.tracks (π := fun s => s.prefixIndex.lists worker hash)
    (f := fun l b => l.enters worker hash || (b && !l.purges worker hash)) (ψ := fun _ => True) ?_
  intro i
  exact (IndexCall.traces_programs (calls i)).mono
    (fun _ _ _ hs => hs.1.acts.lists_eq worker hash) fun _ h => h

/-- **No lost update.**  Threads make any number of calls on one index, interleaved section by
section, and a worker is removed by none of them.  Once all calls have finished, the worker is
listed on the blocks it was listed on before and on the blocks of every chain recorded for it, on
each of them once, and on no other block.

**Proof sketch.** In the trace of an execution, the worker is listed on a block exactly if it was
entered there and not purged afterwards, or listed before and never purged (`Runs.foldl_flag`).
It is never purged; only calls that record the block enter it (`fromCalls_of_mem`), and each of
them does before it finishes (`IndexCall.emits_programs`). -/
theorem concurrent_records_kept (hwf : s.prefixIndex.WellFormed) (worker : WorkerId)
    (hkept : ∀ i, .removeWorker worker ∉ calls i) (h : (indexThreads calls s).Exec tr p')
    (hfinished : ∀ i, p'.threads i = .done ()) :
    (∀ hash, p'.shared.prefixIndex.lists worker hash = true ↔
        s.prefixIndex.lists worker hash = true ∨ ∃ i, ∃ call ∈ calls i, call.Records worker hash) ∧
      (∀ hash entry, p'.shared.prefixIndex.get hash = some entry → worker ∈ entry.workers →
        entry.workers.count worker = 1) ∧
      p'.shared.prefixIndex.WellFormed := by
  have hwf' := wellFormed_indexThreads h hwf
  refine ⟨fun hash => ?_, fun hash entry hget hmem => ?_, hwf'⟩
  · have hpurges : ∀ e ∈ tr, e.2.purges worker hash = false := by
      intro e he
      rw [Bool.eq_false_iff]
      intro hpurge
      have hcall := fromCalls_of_mem h he
      rw [Access.purges_iff.mp hpurge] at hcall
      exact hkept e.1 hcall
    rw [lists_indexThreads h worker hash, Runs.foldl_flag fun _ _ => rfl]
    constructor
    · rintro (⟨before, e, after, rfl, henters, -⟩ | ⟨hold, -⟩)
      · have hcall := fromCalls_of_mem h (e := e) (List.mem_append_right _ List.mem_cons_self)
        rw [Access.enters_iff.mp henters] at hcall
        exact Or.inr ⟨e.1, hcall⟩
      · exact Or.inl hold
    · rintro (hold | ⟨i, call, hcall, hrecords⟩)
      · exact Or.inr ⟨hold, hpurges⟩
      · have hwritten : (i, .write worker hash) ∈ tr :=
          h.emits (IndexCall.emits_programs hcall hrecords) ⟨(), hfinished i⟩
        obtain ⟨before, after, rfl⟩ := List.append_of_mem hwritten
        refine Or.inl ⟨before, _, after, rfl, Access.enters_iff.mpr rfl, fun e he => ?_⟩
        exact hpurges e (List.mem_append_right _ (List.mem_cons_of_mem _ he))
  · exact List.count_eq_one_of_mem (hwf'.nodup hash entry hget) hmem

end Threads

/-- One thread records two blocks for worker 0; another one records the first of them for worker
1, matches it, and removes worker 1. -/
def sharedBlockCalls : Bool → List IndexCall
  | false => [.record 0 0 [7, 8]]
  | true => [.record 1 1 [7], .longestMatch 1 2 [7], .removeWorker 1]

/-- The threads take turns on the shared block, then the second one goes on alone. -/
def sharedBlockRun : List (Bool × Access) × ThreadPool Bool Shared Access Unit :=
  (indexThreads sharedBlockCalls (.new { workers := [], routingPolicy := .cacheAware })).run
    ([true, false, true, true, false] ++ List.replicate 64 true)

/-- Worker 0 ends up on its two blocks, although the other worker came to and left the first. -/
theorem concurrent_records_kept_shared_block :
    sharedBlockRun.2.shared.prefixIndex.lists 0 7 = true ∧
      sharedBlockRun.2.shared.prefixIndex.lists 0 8 = true ∧
      sharedBlockRun.2.shared.prefixIndex.lists 0 9 = false := by
  have hfinished : ∀ i, sharedBlockRun.2.threads i = .done () := by
    intro i
    cases i with
    | false => rfl
    | true => rfl
  have hkept : ∀ i, .removeWorker 0 ∉ sharedBlockCalls i := by
    intro i
    cases i with
    | false => decide
    | true => decide
  have hexec : ThreadPool.Exec _ sharedBlockRun.1 sharedBlockRun.2 := ThreadPool.exec_run _ _
  obtain ⟨hlists, -⟩ := concurrent_records_kept .new 0 hkept hexec hfinished
  have hlisted : ∀ hash,
      sharedBlockRun.2.shared.prefixIndex.lists 0 hash = true ↔ hash = 7 ∨ hash = 8 := by
    intro hash
    rw [hlists]
    simp [sharedBlockCalls, IndexCall.Records, Shared.new]
  refine ⟨(hlisted 7).mpr (Or.inl rfl), (hlisted 8).mpr (Or.inr rfl), ?_⟩
  rw [← Bool.not_eq_true, hlisted]
  decide

end KvRoute
