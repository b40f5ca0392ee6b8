import KvRoute.Core.Sections
import KvRoute.Lib.Runs
import KvRoute.Server.State

set_option relaxedAutoImplicit false
set_option autoImplicit false

/-!
# Routing calls and a worker that goes away

Any number of routing calls, interleaved section by section with one worker going away: the
health poller finds it down and purges it (`health.rs`), or a reconciliation purges and
unregisters it (`discovery.rs`).

A routing call that took its snapshot while the worker was up can still record the worker after
the purge.  The index is a belief that the router keeps optimistically at dispatch time, so such
an entry stays until it expires; this module shows that nothing else is left.

## Main definitions

* `KvRoute.Departure` — how a worker goes away.
* `KvRoute.racing` — routing calls and a departure over one shared state.
* `KvRoute.Straddles` — a call records the worker on a block that has been purged already.
* `KvRoute.ChosenBefore` — a call took its snapshot before the worker was marked.

## Main results

* `KvRoute.left_only_straddled` — what is left of the worker is what straddles the purge, and
  only calls from before the departure leave anything.
-/

namespace KvRoute

/-- How a worker goes away. -/
inductive Departure where
  /-- The health poller finds it down. -/
  | probe
  /-- A reconciliation drops it. -/
  | reconcile

namespace Departure

/-- The program of a departure: what the health poller does with a failed probe, or the body of
the first loop of `reconcile`. -/
def program (worker : WorkerId) : Departure → Program Unit
  | .probe => applyProbe worker false
  | .reconcile => do
    Program.removeWorker worker
    Program.unregister worker

/-- The section after which snapshots do not contain the worker. -/
def mark (worker : WorkerId) : Departure → Access
  | .probe => .setHealthy worker false
  | .reconcile => .unregister worker

/-- The sections of a departure. -/
def Leaves (departure : Departure) (worker : WorkerId) (l : Access) : Prop :=
  l = departure.mark worker ∨ ∃ shard, l = .purge worker shard

theorem does_program (departure : Departure) (worker : WorkerId) :
    (departure.program worker).Does (departure.Leaves worker) fun _ => True := by
  have hpurge : (Program.removeWorker worker).Does (departure.Leaves worker) fun _ => True :=
    Program.does_removeWorker fun shard => Or.inr ⟨shard, rfl⟩
  cases departure with
  | probe =>
    refine (Program.does_setHealthy (Or.inl rfl)).bind fun changed _ => ?_
    cases changed with
    | false => exact Program.does_pure trivial
    | true => exact hpurge
  | reconcile => exact hpurge.bind fun _ _ => Program.does_unregister (Or.inl rfl)

/-- After its mark a departed worker is not up. -/
theorem isHealthy_mark (departure : Departure) (worker : WorkerId) (r : WorkerRegistry) :
    ((departure.mark worker).onRegistry r).isHealthy worker = false := by
  cases departure with
  | probe =>
    change (r.setHealthy worker false).1.isHealthy worker = false
    rw [WorkerRegistry.isHealthy, WorkerRegistry.get_setHealthy, if_pos rfl, Option.any_map]
    cases r.workers.get worker <;> rfl
  | reconcile =>
    change (r.removeWorker worker).1.isHealthy worker = false
    rw [WorkerRegistry.isHealthy, WorkerRegistry.get_removeWorker, if_pos rfl]
    rfl

theorem wellFormed_mark (departure : Departure) (worker : WorkerId) {r : WorkerRegistry}
    (h : r.WellFormed) : ((departure.mark worker).onRegistry r).WellFormed := by
  cases departure with
  | probe => exact h.setHealthy worker false
  | reconcile => exact h.removeWorker worker

end Departure

section Racing

variable {ι : Type}
variable (hasher : Option UInt64 → List Char → UInt64) (fl : F64.Rounding) (router : Router)

/-- A routing call whose answer is dropped. -/
def RoutingCall.thread (call : RoutingCall) : Program Unit := do
  let _ ← call.program hasher fl router
  pure ()

/-- Routing calls, with a worker going away. -/
def racing (departure : Departure) (worker : WorkerId) (calls : ι → RoutingCall) (s : Shared) :
    ThreadPool (Option ι) Shared Access Unit :=
  ⟨s, fun
    | none => departure.program worker
    | some i => (calls i).thread hasher fl router⟩

/-- Call `i` records the worker on a block whose shard has been purged and is not purged any
more. -/
def Straddles (worker : WorkerId) (tr : List (Option ι × Access)) (i : ι) (hash : UInt64) : Prop :=
  ∃ pre post, tr = pre ++ (some i, .write worker hash) :: post ∧
    (none, .purge worker (PrefixIndex.shardOf hash)) ∈ pre ∧
    (none, .purge worker (PrefixIndex.shardOf hash)) ∉ post

/-- Call `i` took its snapshot, and found the worker up, before the worker was marked. -/
def ChosenBefore (departure : Departure) (worker : WorkerId) (tr : List (Option ι × Access))
    (i : ι) : Prop :=
  ∃ before healthy after, tr = before ++ (some i, .snapshot healthy) :: after ∧
    (∃ w ∈ healthy, w.id = worker) ∧ (none, departure.mark worker) ∉ before

/-- A routing call starts with a snapshot, and then routes among the workers in it. -/
theorem RoutingCall.thread_eq (call : RoutingCall) : ∃ rest : List Worker → Program Unit,
    call.thread hasher fl router = .atomically id (fun s => .snapshot s.registry.healthyWorkers)
        (fun s => rest s.registry.healthyWorkers) ∧
      ∀ healthy, (rest healthy).Does (Access.Routes healthy) fun _ => True := by
  obtain ⟨rest, heq, hrest⟩ := call.program_eq hasher fl router
  refine ⟨fun healthy => rest healthy >>= fun _ => pure (), ?_, fun healthy => ?_⟩
  · rw [RoutingCall.thread, heq]
    rfl
  · exact (hrest healthy).bind fun _ _ => Program.does_pure trivial

variable {hasher fl router}

theorem RoutingCall.does_thread (call : RoutingCall) :
    (call.thread hasher fl router).Does Access.FromRouting fun _ => True := by
  obtain ⟨rest, heq, hrest⟩ := call.program_eq hasher fl router
  rw [RoutingCall.thread, heq]
  refine Program.Does.bind (ψ := fun _ => True) ?_ fun _ _ => Program.does_pure trivial
  refine (Program.does_healthyWorkers fun _ => trivial).bind fun healthy _ => ?_
  exact (hrest healthy).mono (fun _ _ _ h => ⟨h.1, h.2.fromRouting⟩) fun _ _ => trivial

variable {departure : Departure} {worker : WorkerId} {calls : ι → RoutingCall} {s : Shared}
variable {tr : List (Option ι × Access)} {p' : ThreadPool (Option ι) Shared Access Unit}

/-- Every section of the race acts as its label says. -/
theorem each_racing (departure : Departure) (worker : WorkerId) (calls : ι → RoutingCall)
    (s : Shared) (i : Option ι) :
    ((racing hasher fl router departure worker calls s).threads i).Each
      (fun s l s' => l.Acts s s') fun _ => True := by
  cases i with
  | none => exact (departure.does_program worker).mono (fun _ _ _ h => h.1) fun _ _ => trivial
  | some i => exact (calls i).does_thread.mono (fun _ _ _ h => h.1) fun _ _ => trivial

/-- What a trace makes of a registry in which only the departure can change something.

**Proof sketch.** Induction on the trace: its labels are the mark or leave the registry alone,
and the mark takes the worker out of the snapshots for good. -/
theorem foldl_onRegistry (htr : ∀ e ∈ tr, e = (none, departure.mark worker) ∨
      ∀ r, e.2.onRegistry r = r) {r : WorkerRegistry} (hr : r.WellFormed) :
    let r' := tr.foldl (fun r e => e.2.onRegistry r) r
    r'.WellFormed ∧ ((none, departure.mark worker) ∈ tr ∨ r.isHealthy worker = false →
      r'.isHealthy worker = false) ∧ ((none, departure.mark worker) ∉ tr → r' = r) := by
  induction tr generalizing r with
  | nil => exact ⟨hr, fun h => h.resolve_left List.not_mem_nil, fun _ => rfl⟩
  | cons e tr ih =>
    have htail : ∀ e ∈ tr, _ := fun e he => htr e (List.mem_cons_of_mem _ he)
    rw [List.foldl_cons]
    rcases htr e List.mem_cons_self with rfl | hsame
    · obtain ⟨hwf, hdown, -⟩ := ih htail (departure.wellFormed_mark worker hr)
      exact ⟨hwf, fun _ => hdown (Or.inr (departure.isHealthy_mark worker r)),
        fun hnot => absurd List.mem_cons_self hnot⟩
    · rw [hsame]
      obtain ⟨hwf, hdown, hrest⟩ := ih htail hr
      refine ⟨hwf, ?_, ?_⟩
      · intro h
        rcases h with hmem | hold
        · rcases List.mem_cons.mp hmem with rfl | hmem
          · have hgone := departure.isHealthy_mark worker r
            rw [hsame] at hgone
            exact hdown (Or.inr hgone)
          · exact hdown (Or.inl hmem)
        · exact hdown (Or.inr hold)
      · intro hnot
        apply hrest
        intro hmem
        exact hnot (List.mem_cons_of_mem _ hmem)

variable [DecidableEq ι]

/-- Who can leave which label. -/
theorem label_racing (h : (racing hasher fl router departure worker calls s).Exec tr p')
    {e : Option ι × Access} (he : e ∈ tr) :
    (e.1 = none ∧ departure.Leaves worker e.2) ∨ (∃ i, e.1 = some i) ∧ e.2.FromRouting := by
  obtain ⟨i, l⟩ := e
  cases i with
  | none =>
    refine Or.inl ⟨rfl, h.label_of_each (ψ := fun _ => True) ?_ l he⟩
    exact (departure.does_program worker).mono (fun _ _ _ h => h.2) fun _ h => h
  | some i =>
    refine Or.inr ⟨⟨i, rfl⟩, h.label_of_each (ψ := fun _ => True) ?_ l he⟩
    exact (calls i).does_thread.mono (fun _ _ _ h => h.2) fun _ h => h

/-- The registry after some of the race. -/
theorem registry_racing (h : (racing hasher fl router departure worker calls s).Exec tr p')
    (hreg : s.registry.WellFormed) :
    p'.shared.registry.WellFormed ∧
      ((none, departure.mark worker) ∈ tr → p'.shared.registry.isHealthy worker = false) ∧
      ((none, departure.mark worker) ∉ tr → p'.shared.registry = s.registry) := by
  have hfold : p'.shared.registry = tr.foldl (fun r e => e.2.onRegistry r) s.registry :=
    h.tracks (π := Shared.registry) fun i =>
      (each_racing departure worker calls s i).mono (fun _ _ _ h => h.registry_eq) fun _ h => h
  have htr : ∀ e ∈ tr, e = (none, departure.mark worker) ∨ ∀ r, e.2.onRegistry r = r := by
    intro e he
    rcases label_racing h he with ⟨hnone, hmark | ⟨shard, hpurge⟩⟩ | ⟨-, hrouting⟩
    · exact Or.inl (Prod.ext hnone hmark)
    · exact Or.inr fun r => by rw [hpurge]; rfl
    · exact Or.inr hrouting.onRegistry_eq
  obtain ⟨hwf, hdown, hsame⟩ := foldl_onRegistry htr hreg
  rw [hfold]
  exact ⟨hwf, fun hmem => hdown (Or.inl hmem), hsame⟩

/-- Whether a block lists the worker after some of the race: records set it, purges clear it. -/
theorem lists_racing (h : (racing hasher fl router departure worker calls s).Exec tr p')
    (hash : UInt64) : p'.shared.prefixIndex.lists worker hash =
      tr.foldl (fun b e => e.2.enters worker hash || (b && !e.2.purges worker hash))
        (s.prefixIndex.lists worker hash) := by
  have hsections : ∀ i, ((racing hasher fl router departure worker calls s).threads i).Each
      (fun s l s' => s'.prefixIndex.lists worker hash =
        (l.enters worker hash || (s.prefixIndex.lists worker hash && !l.purges worker hash)))
      fun _ => True := by
    intro i
    exact (each_racing departure worker calls s i).mono (fun _ _ _ h => h.lists_eq worker hash)
      fun _ h => h
  exact h.tracks (π := fun s => s.prefixIndex.lists worker hash)
    (f := fun l b => l.enters worker hash || (b && !l.purges worker hash)) hsections

/-- A departure purges every shard, if the worker was up when the poller found it down.

**Proof sketch.** For a reconciliation this is the program.  The health poller purges only if
its probe changes something; the worker was up at the start, and nobody else has changed the
registry when the poller gets to it. -/
theorem purge_mem (h : (racing hasher fl router departure worker calls s).Exec tr p')
    (hreg : s.registry.WellFormed)
    (hup : departure = .probe → s.registry.isHealthy worker = true)
    (hleft : p'.threads none = .done ()) (shard : Fin numShards) :
    (none, .purge worker shard) ∈ tr := by
  cases departure with
  | reconcile =>
    refine h.emits ?_ ⟨(), hleft⟩
    exact Thread.Emits.bind_left _ (Program.emits_removeWorker worker shard)
  | probe =>
    have hstart : (racing hasher fl router .probe worker calls s).threads none =
        .atomically
          (fun s => { s with registry := (s.registry.setHealthy worker false).1 })
          (fun _ => .setHealthy worker false)
          (fun s => if (s.registry.setHealthy worker false).2 = true then
            Program.removeWorker worker else pure ()) := rfl
    rcases h.first_section hstart with ⟨hstill, -⟩ | ⟨before, after, q, q', rfl, hnone,
      hq, -, hq', hrest⟩
    · exact nomatch hleft.symm.trans hstill
    · have hsame := (registry_racing hq hreg).2.2 (hnone _)
      have hchanged : (q.shared.registry.setHealthy worker false).2 = true := by
        rw [hsame, WorkerRegistry.setHealthy_snd]
        simpa [WorkerRegistry.isHealthy] using hup rfl
      have hpurge : (q'.threads none).Emits (.purge worker shard) := by
        rw [hq', if_pos hchanged]
        exact Program.emits_removeWorker worker shard
      have hmem := hrest.emits hpurge ⟨(), hleft⟩
      exact List.mem_append_right _ (List.mem_cons_of_mem _ hmem)

/-- A call that records the worker took its snapshot while the worker was up.

**Proof sketch.** The call's first section is its snapshot, so it lies before the record, and
the worker is in it (`RoutingCall.thread_eq`).  Had the worker been marked by then, the registry
would not have had it up (`registry_racing`). -/
theorem chosenBefore_of_write {i : ι} {hash : UInt64} {pre post : List (Option ι × Access)}
    (h : (racing hasher fl router departure worker calls s).Exec
      (pre ++ (some i, .write worker hash) :: post) p')
    (hreg : s.registry.WellFormed) : ChosenBefore departure worker pre i := by
  obtain ⟨rest, hthread, hrest⟩ := (calls i).thread_eq hasher fl router
  obtain ⟨p₁, hpre, hpost⟩ := h.split
  have hstart : (racing hasher fl router departure worker calls s).threads (some i) = _ := hthread
  rcases hpre.first_section hstart with ⟨hstill, -⟩ | ⟨before, after, q, q', rfl, -, hq, -,
    hq', hafter⟩
  · -- the call has not moved, so its next section is the snapshot, not the record
    cases hpost with
    | cons hs _ =>
      obtain ⟨effect, label, next, ht, hl, -⟩ := ThreadPool.step_cases hs
      rw [hstill, hstart] at ht
      obtain ⟨-, rfl, -⟩ := Thread.atomically.inj ht
      cases hl
  · have hroutes : ∀ l, (some i, l) ∈ after ++ (some i, .write worker hash) :: post →
        l.Routes q.shared.registry.healthyWorkers := by
      refine (hafter.trans hpost).label_of_each (ψ := fun _ => True) ?_
      rw [hq']
      exact (hrest _).mono (fun _ _ _ h => h.2) fun _ h => h
    obtain ⟨w, hw, hid⟩ := hroutes _ (List.mem_append_right _ List.mem_cons_self)
    refine ⟨before, _, after, rfl, ⟨w, hw, hid⟩, fun hmark => ?_⟩
    obtain ⟨hwf, hdown, -⟩ := registry_racing hq hreg
    have hget := hwf.of_mem_healthyWorkers hw
    have hnot := hdown hmark
    rw [← hid, WorkerRegistry.isHealthy, hget] at hnot
    cases hnot

/-- A record of the worker that no purge of the block's shard follows straddles the purge: it is a
call's record, and the purge, which is not after it, is before it. -/
theorem straddles_of_entered (h : (racing hasher fl router departure worker calls s).Exec tr p')
    {hash : UInt64} (hpurge : (none, .purge worker (PrefixIndex.shardOf hash)) ∈ tr)
    {pre post : List (Option ι × Access)} {e : Option ι × Access} (htr : tr = pre ++ e :: post)
    (henters : e.2.enters worker hash = true)
    (hpost : ∀ e' ∈ post, e'.2.purges worker hash = false) : ∃ i, Straddles worker tr i hash := by
  subst htr
  obtain ⟨j, l⟩ := e
  obtain rfl : l = .write worker hash := Access.enters_iff.mp henters
  have hnot : (none, .purge worker (PrefixIndex.shardOf hash)) ∉ post := fun hmem =>
    nomatch (Access.purges_iff.mpr rfl).symm.trans (hpost _ hmem)
  rcases label_racing h (List.mem_append_right pre List.mem_cons_self) with
    ⟨-, hmark | ⟨shard, hl⟩⟩ | ⟨⟨i, rfl⟩, -⟩
  · cases departure <;> cases hmark
  · cases hl
  · refine ⟨i, pre, post, rfl, ?_, hnot⟩
    rcases List.mem_append.mp hpurge with hpre | hrest
    · exact hpre
    · rcases List.mem_cons.mp hrest with heq | hrest
      · exact nomatch (Prod.mk.inj heq).1
      · exact absurd hrest hnot

/-- After a record that straddles the purge nobody purges the block any more: only the departure
purges. -/
theorem not_purges_of_straddles
    (h : (racing hasher fl router departure worker calls s).Exec tr p') {i : ι} {hash : UInt64}
    {pre post : List (Option ι × Access)} (htr : tr = pre ++ (some i, .write worker hash) :: post)
    (hnot : (none, .purge worker (PrefixIndex.shardOf hash)) ∉ post) :
    ∀ e ∈ post, e.2.purges worker hash = false := by
  rintro ⟨j, l⟩ he
  by_contra hpurges
  obtain rfl : l = .purge worker (PrefixIndex.shardOf hash) :=
    Access.purges_iff.mp (by simpa using hpurges)
  have hmem : (j, Access.purge worker (PrefixIndex.shardOf hash)) ∈ tr :=
    htr ▸ List.mem_append_right pre (List.mem_cons_of_mem _ he)
  rcases label_racing h hmem with ⟨rfl, -⟩ | ⟨-, hrouting⟩
  · exact hnot he
  · exact hrouting

/-- **What is left of a worker that went away.**  Let any number of routing calls be interleaved,
section by section, with a worker going away, by a failed probe when it was up or by a
reconciliation.  Once it has gone, a block lists the worker exactly if some call recorded it
there after the block's shard had been purged; and every call that records the worker took its
snapshot before the worker was marked down or unregistered.

**Proof sketch.** Who is listed on a block is a flag that records set and purges clear
(`Runs.foldl_flag`); the departure has purged every shard (`purge_mem`), so the flag is set only
by a record after it.  The second part is `chosenBefore_of_write`. -/
theorem left_only_straddled (h : (racing hasher fl router departure worker calls s).Exec tr p')
    (hreg : s.registry.WellFormed)
    (hup : departure = .probe → s.registry.isHealthy worker = true)
    (hleft : p'.threads none = .done ()) :
    (∀ hash, p'.shared.prefixIndex.lists worker hash = true ↔
      ∃ i, Straddles worker tr i hash) ∧
    ∀ pre i hash post, tr = pre ++ (some i, .write worker hash) :: post →
      ChosenBefore departure worker pre i := by
  constructor
  · intro hash
    have hpurge := purge_mem h hreg hup hleft (PrefixIndex.shardOf hash)
    rw [lists_racing h, Runs.foldl_flag (fun _ _ => rfl)]
    constructor
    · rintro (⟨pre, e, post, htr, henters, hpost⟩ | ⟨-, hkeeps⟩)
      · exact straddles_of_entered h hpurge htr henters hpost
      · exact nomatch (Access.purges_iff.mpr rfl).symm.trans (hkeeps _ hpurge)
    · rintro ⟨i, pre, post, htr, -, hnot⟩
      exact Or.inl ⟨pre, _, post, htr, Access.enters_iff.mpr rfl,
        not_purges_of_straddles h htr hnot⟩
  · intro pre i hash post htr
    exact chosenBefore_of_write (htr ▸ h) hreg

end Racing

/-- The only worker is up. -/
def oneWorkerUp : Shared := ((applyProbe 0 true).alone (.new oneWorker)).1

/-- A chat request of one block. -/
def hiCall : RoutingCall := .chat (fun _ => 0) ⟨[⟨"user", "hi"⟩]⟩

/-- The block of the request. -/
def hiBlock : UInt64 := defaultHasher none "user: hi".toList

/-- The call, and the worker going away. -/
def hiRace (departure : Departure) : ThreadPool (Option Unit) Shared Access Unit :=
  racing defaultHasher .exact (.new oneWorker) departure 0 (fun _ => hiCall) oneWorkerUp

/-- The call runs up to its record, the worker goes away, and the call records. -/
def straddlingOrder : List (Option Unit) :=
  List.replicate 3 (some ()) ++ List.replicate 65 none ++ [some ()]

/-- The call that straddles the purge leaves the worker on its block, and took its snapshot
before. -/
theorem left_only_straddled_hi :
    (∃ i, Straddles 0 ((hiRace .probe).run straddlingOrder).1 i hiBlock) ∧
      ∀ pre i hash post, ((hiRace .probe).run straddlingOrder).1 =
        pre ++ (some i, .write 0 hash) :: post → ChosenBefore .probe 0 pre i := by
  have hleft := left_only_straddled ((hiRace .probe).exec_run straddlingOrder)
    ((WorkerRegistry.wellFormed_fromConfig _).setHealthy 0 true) (fun _ => by decide +kernel) rfl
  exact ⟨(hleft.1 hiBlock).mp (by decide +kernel), hleft.2⟩

/-- Both have finished and no other call is there, but the worker that went away is listed, after
a failed probe as well as after a reconciliation; when it comes back it is credited with a block
that it does not have. -/
theorem departed_worker_listed :
    ((hiRace .probe).Exec ((hiRace .probe).run straddlingOrder).1
        ((hiRace .probe).run straddlingOrder).2 ∧
      (∀ i, ((hiRace .probe).run straddlingOrder).2.threads i = .done ()) ∧
      ((hiRace .probe).run straddlingOrder).2.shared.registry.isHealthy 0 = false ∧
      ((hiRace .probe).run straddlingOrder).2.shared.prefixIndex.lists 0 hiBlock = true ∧
      (((applyProbe 0 true).alone
        ((hiRace .probe).run straddlingOrder).2.shared).1.prefixIndex.longestMatch 1 0
          [hiBlock]).2 = 1) ∧
    (hiRace .reconcile).Exec ((hiRace .reconcile).run straddlingOrder).1
        ((hiRace .reconcile).run straddlingOrder).2 ∧
      (∀ i, ((hiRace .reconcile).run straddlingOrder).2.threads i = .done ()) ∧
      ((hiRace .reconcile).run straddlingOrder).2.shared.registry.get 0 = none ∧
      ((hiRace .reconcile).run straddlingOrder).2.shared.prefixIndex.lists 0 hiBlock = true := by
  refine ⟨⟨ThreadPool.exec_run _ _, fun i => ?_, by decide +kernel, by decide +kernel,
    by decide +kernel⟩, ThreadPool.exec_run _ _, fun i => ?_, by decide +kernel, by decide +kernel⟩
  · cases i <;> rfl
  · cases i <;> rfl

end KvRoute
