import KvRoute.Core.Router

set_option relaxedAutoImplicit false
set_option autoImplicit false

/-!
# What critical sections do

The label of a critical section says what the section does to the shared state, whatever other
threads do in between.  This module proves it of every program of the router, together with which
labels each of them can leave; every invariant of interleaved runs is then a matter of the labels.

## Main definitions

* `KvRoute.Access.Effect` — all that a section does, up to the clock reading that it uses.
* `KvRoute.Access.Acts` — what it does to the registry and to who is listed, as functions.
* `KvRoute.Access.Routes` — what a routing call does after its snapshot.
* `KvRoute.Program.Traces`, `Program.Does` — every section acts as labelled, with labels of a
  given kind.
* `KvRoute.RoutingCall` — a call of `select_for_chat` or `select_in_pool`.

## Main results

* `KvRoute.Access.Effect.acts` — a section's effect on the registry and on who is listed.
* `KvRoute.RoutingCall.program_traces` — a routing call is a snapshot of the registry followed by
  sections that enter only workers of the snapshot.
-/

namespace KvRoute

namespace Access

/-- What a section does to the registry. -/
def onRegistry : Access → WorkerRegistry → WorkerRegistry
  | .setHealthy worker healthy, r => (r.setHealthy worker healthy).1
  | .allocate, r => r.allocateId.1
  | .register id url pool, r => r.insertWorker id url pool
  | .unregister worker, r => (r.removeWorker worker).1
  | _, r => r

/-- Whether a section enters a worker on a block. -/
def enters (worker : WorkerId) (hash : UInt64) : Access → Bool
  | .write w h => decide (worker = w ∧ hash = h)
  | _ => false

/-- Whether a section purges a worker from a block. -/
def purges (worker : WorkerId) (hash : UInt64) : Access → Bool
  | .purge w i => decide (worker = w ∧ i = PrefixIndex.shardOf hash)
  | _ => false

theorem enters_iff {worker : WorkerId} {hash : UInt64} {l : Access} :
    l.enters worker hash = true ↔ l = .write worker hash := by
  cases l with
  | write w h =>
    rw [enters, decide_eq_true_iff, Access.write.injEq]
    exact and_congr eq_comm eq_comm
  | _ => exact ⟨nofun, nofun⟩

theorem purges_iff {worker : WorkerId} {hash : UInt64} {l : Access} :
    l.purges worker hash = true ↔ l = .purge worker (PrefixIndex.shardOf hash) := by
  cases l with
  | purge w i =>
    rw [purges, decide_eq_true_iff, Access.purge.injEq]
    exact and_congr_left fun _ => eq_comm
  | _ => exact ⟨nofun, nofun⟩

/-- What a section labelled `l` does. -/
structure Acts (s : Shared) (l : Access) (s' : Shared) : Prop where
  /-- The effect on the registry. -/
  registry_eq : s'.registry = l.onRegistry s.registry
  /-- The effect on who is listed. -/
  lists_eq : ∀ w h, s'.prefixIndex.lists w h =
    (l.enters w h || (s.prefixIndex.lists w h && !l.purges w h))

/-- All that a section labelled `l` does: it reads, or updates one part of the shared state. -/
def Effect (s : Shared) (l : Access) (s' : Shared) : Prop :=
  match l with
  | .snapshot healthy => s' = s ∧ healthy = s.registry.healthyWorkers
  | .ticket => s' = { s with nextWorker := s.nextWorker + 1 }
  | .lookup _ _ | .count _ => s' = s
  | .touch hash => ∃ now, s' = { s with prefixIndex := .touchBlock now s.prefixIndex hash }
  | .write worker hash =>
    ∃ now, s' = { s with prefixIndex := .recordBlock worker now s.prefixIndex hash }
  | .purge worker shard =>
    s' = { s with prefixIndex := .purgeShard worker s.prefixIndex shard }
  | .setHealthy worker healthy =>
    s' = { s with registry := (s.registry.setHealthy worker healthy).1 }
  | .allocate => s' = { s with registry := s.registry.allocateId.1 }
  | .register id url pool => s' = { s with registry := s.registry.insertWorker id url pool }
  | .unregister worker => s' = { s with registry := (s.registry.removeWorker worker).1 }
  | .resize workers => s' = { s with inflight := s.inflight.ensureCapacity workers }

/-- A section that changes neither the registry nor who is listed. -/
theorem acts_of_eq {s s' : Shared} {l : Access} (hregistry : s'.registry = s.registry)
    (hlists : ∀ w h, s'.prefixIndex.lists w h = s.prefixIndex.lists w h)
    (honRegistry : ∀ r, l.onRegistry r = r) (henters : ∀ w h, l.enters w h = false)
    (hpurges : ∀ w h, l.purges w h = false) : l.Acts s s' := by
  refine ⟨hregistry.trans (honRegistry _).symm, fun w h => ?_⟩
  rw [hlists, henters, hpurges]
  simp

/-- A section's effect on the registry and on who is listed. -/
theorem Effect.acts {s s' : Shared} {l : Access} (h : l.Effect s s') : l.Acts s s' := by
  cases l with
  | snapshot healthy =>
    obtain ⟨rfl, -⟩ := h
    exact acts_of_eq rfl (fun _ _ => rfl) (fun _ => rfl) (fun _ _ => rfl) fun _ _ => rfl
  | lookup worker hash =>
    obtain rfl := h
    exact acts_of_eq rfl (fun _ _ => rfl) (fun _ => rfl) (fun _ _ => rfl) fun _ _ => rfl
  | count worker =>
    obtain rfl := h
    exact acts_of_eq rfl (fun _ _ => rfl) (fun _ => rfl) (fun _ _ => rfl) fun _ _ => rfl
  | touch hash =>
    obtain ⟨now, rfl⟩ := h
    exact acts_of_eq rfl (fun w b => PrefixIndex.lists_touchBlock now s.prefixIndex w hash b)
      (fun _ => rfl) (fun _ _ => rfl) fun _ _ => rfl
  | write worker hash =>
    obtain ⟨now, rfl⟩ := h
    refine ⟨rfl, fun w b => ?_⟩
    rw [Bool.eq_iff_iff, PrefixIndex.lists_recordBlock]
    simp [enters, purges]
  | purge worker shard =>
    obtain rfl := h
    refine ⟨rfl, fun w b => ?_⟩
    rw [Bool.eq_iff_iff, PrefixIndex.lists_purgeShard]
    simp [enters, purges, and_comm, imp_iff_not_or]
  | _ =>
    obtain rfl := h
    exact ⟨rfl, fun _ _ => by simp [enters, purges]⟩

/-- The sections of a routing call after its snapshot: it enters only workers of the snapshot. -/
def Routes (healthy : List Worker) : Access → Prop
  | .ticket | .lookup _ _ | .touch _ | .count _ => True
  | .write worker _ => ∃ w ∈ healthy, w.id = worker
  | _ => False

/-- The sections of a whole routing call. -/
def FromRouting : Access → Prop
  | .snapshot _ | .ticket | .lookup _ _ | .touch _ | .count _ | .write _ _ => True
  | _ => False

theorem Routes.fromRouting {healthy : List Worker} {l : Access} (h : l.Routes healthy) :
    l.FromRouting := by
  cases l <;> trivial

theorem FromRouting.onRegistry_eq {l : Access} (h : l.FromRouting) (r : WorkerRegistry) :
    l.onRegistry r = r := by
  cases l <;> first | rfl | exact absurd h id

end Access

namespace Program

variable {α β : Type} {φ φ' : Access → Prop} {ψ ψ' : α → Prop}

/-- Every section does what its label says, every label satisfies `φ`, and the result `ψ`. -/
def Traces (φ : Access → Prop) (ψ : α → Prop) (t : Program α) : Prop :=
  t.Each (fun s l s' => l.Effect s s' ∧ φ l) ψ

/-- Every section acts as its label says, every label satisfies `φ`, and the result `ψ`. -/
def Does (φ : Access → Prop) (ψ : α → Prop) (t : Program α) : Prop :=
  t.Each (fun s l s' => l.Acts s s' ∧ φ l) ψ

theorem Traces.does {t : Program α} (h : t.Traces φ ψ) : t.Does φ ψ :=
  h.mono (fun _ _ _ h => ⟨h.1.acts, h.2⟩) fun _ h => h

theorem Traces.weaken {t : Program α} (h : t.Traces φ ψ) (hφ : ∀ l, φ l → φ' l)
    (hψ : ∀ a, ψ a → ψ' a) : t.Traces φ' ψ' :=
  Thread.Each.mono (fun _ l _ h => ⟨h.1, hφ l h.2⟩) hψ h

theorem traces_pure {a : α} (h : ψ a) : (pure a : Program α).Traces φ ψ := h

theorem does_pure {a : α} (h : ψ a) : (pure a : Program α).Does φ ψ := h

theorem Traces.bind {χ : β → Prop} {t : Program α} {f : α → Program β} (ht : t.Traces φ ψ)
    (hf : ∀ a, ψ a → (f a).Traces φ χ) : (t >>= f).Traces φ χ := Thread.Each.bind ht hf

theorem Does.bind {χ : β → Prop} {t : Program α} {f : α → Program β} (ht : t.Does φ ψ)
    (hf : ∀ a, ψ a → (f a).Does φ χ) : (t >>= f).Does φ χ := Thread.Each.bind ht hf

/-! ## Single sections -/

theorem traces_healthyWorkers (h : ∀ healthy, φ (.snapshot healthy)) :
    healthyWorkers.Traces φ fun _ => True :=
  Thread.each_critical fun _ => ⟨⟨⟨rfl, rfl⟩, h _⟩, trivial⟩

theorem traces_ticket (h : φ .ticket) : ticket.Traces φ fun _ => True :=
  Thread.each_critical fun _ => ⟨⟨rfl, h⟩, trivial⟩

theorem traces_count {worker : WorkerId} (h : φ (.count worker)) :
    (count worker).Traces φ fun _ => True :=
  Thread.each_critical fun _ => ⟨⟨rfl, h⟩, trivial⟩

theorem traces_lookup {worker : WorkerId} {hash : UInt64} (h : φ (.lookup worker hash)) :
    (lookup worker hash).Traces φ fun _ => True :=
  Thread.each_critical fun _ => ⟨⟨rfl, h⟩, trivial⟩

theorem traces_touch {now : Instant} {hash : UInt64} (h : φ (.touch hash)) :
    (touch now hash).Traces φ fun _ => True :=
  Thread.each_critical fun _ => ⟨⟨⟨now, rfl⟩, h⟩, trivial⟩

theorem traces_write {worker : WorkerId} {now : Instant} {hash : UInt64}
    (h : φ (.write worker hash)) : (write worker now hash).Traces φ fun _ => True :=
  Thread.each_critical fun _ => ⟨⟨⟨now, rfl⟩, h⟩, trivial⟩

theorem traces_purge {worker : WorkerId} {shard : Fin numShards} (h : φ (.purge worker shard)) :
    (purge worker shard).Traces φ fun _ => True :=
  Thread.each_critical fun _ => ⟨⟨rfl, h⟩, trivial⟩

theorem traces_setHealthy {worker : WorkerId} {healthy : Bool}
    (h : φ (.setHealthy worker healthy)) :
    (setHealthy worker healthy).Traces φ fun _ => True :=
  Thread.each_critical fun _ => ⟨⟨rfl, h⟩, trivial⟩

theorem traces_unregister {worker : WorkerId} (h : φ (.unregister worker)) :
    (unregister worker).Traces φ fun _ => True :=
  Thread.each_critical fun _ => ⟨⟨rfl, h⟩, trivial⟩

theorem traces_ensureCapacity {workers : ℕ} (h : φ (.resize workers)) :
    (ensureCapacity workers).Traces φ fun _ => True :=
  Thread.each_critical fun _ => ⟨⟨rfl, h⟩, trivial⟩

theorem does_healthyWorkers (h : ∀ healthy, φ (.snapshot healthy)) :
    healthyWorkers.Does φ fun _ => True := (traces_healthyWorkers h).does

theorem does_setHealthy {worker : WorkerId} {healthy : Bool} (h : φ (.setHealthy worker healthy)) :
    (setHealthy worker healthy).Does φ fun _ => True := (traces_setHealthy h).does

theorem does_unregister {worker : WorkerId} (h : φ (.unregister worker)) :
    (unregister worker).Does φ fun _ => True := (traces_unregister h).does

/-! ## Operations of the index -/

theorem traces_record {worker : WorkerId} {now : Instant} {chain : List UInt64}
    (h : ∀ hash ∈ chain, φ (.write worker hash)) :
    (record worker now chain).Traces φ fun _ => True := by
  induction chain with
  | nil => exact traces_pure trivial
  | cons hash chain ih =>
    exact (traces_write (h hash List.mem_cons_self)).bind fun _ _ =>
      ih fun b hb => h b (List.mem_cons_of_mem _ hb)

theorem traces_readMatched {worker : WorkerId} {chain : List UInt64}
    (h : ∀ hash, φ (.lookup worker hash)) :
    (readMatched worker chain).Traces φ fun _ => True := by
  induction chain with
  | nil => exact traces_pure trivial
  | cons hash chain ih =>
    refine (traces_lookup (h hash)).bind fun hit _ => ?_
    cases hit with
    | true => exact ih.bind fun _ _ => traces_pure trivial
    | false => exact traces_pure trivial

theorem traces_touchAll {now : Instant} {matched : List UInt64} (h : ∀ hash, φ (.touch hash)) :
    (touchAll now matched).Traces φ fun _ => True := by
  induction matched with
  | nil => exact traces_pure trivial
  | cons hash matched ih => exact (traces_touch (h hash)).bind fun _ _ => ih

theorem traces_longestMatch {worker : WorkerId} {now : Instant} {chain : List UInt64}
    (hlookup : ∀ hash, φ (.lookup worker hash)) (htouch : ∀ hash, φ (.touch hash)) :
    (longestMatch worker now chain).Traces φ fun _ => True :=
  (traces_readMatched hlookup).bind fun _ _ =>
    (traces_touchAll htouch).bind fun _ _ => traces_pure trivial

theorem traces_removeWorker {worker : WorkerId} (h : ∀ shard, φ (.purge worker shard)) :
    (removeWorker worker).Traces φ fun _ => True := by
  unfold removeWorker
  induction List.finRange numShards with
  | nil => exact traces_pure trivial
  | cons shard shards ih => exact (traces_purge (h shard)).bind fun _ _ => ih

theorem does_removeWorker {worker : WorkerId} (h : ∀ shard, φ (.purge worker shard)) :
    (removeWorker worker).Does φ fun _ => True := (traces_removeWorker h).does

/-- A recorded chain is written block by block. -/
theorem emits_record (worker : WorkerId) (now : Instant) {chain : List UInt64} {hash : UInt64}
    (hmem : hash ∈ chain) : (record worker now chain).Emits (.write worker hash) := by
  induction chain with
  | nil => exact absurd hmem List.not_mem_nil
  | cons b chain ih =>
    rcases List.mem_cons.mp hmem with rfl | hmem
    · exact Thread.Emits.bind_left _ fun _ => Or.inl rfl
    · exact Thread.Emits.bind_right _ fun _ => ih hmem

/-- A purge of the whole index purges every shard. -/
theorem emits_removeWorker (worker : WorkerId) (shard : Fin numShards) :
    (removeWorker worker).Emits (.purge worker shard) := by
  have hmem : shard ∈ List.finRange numShards := List.mem_finRange shard
  unfold removeWorker
  revert hmem
  induction List.finRange numShards with
  | nil => exact fun hmem => absurd hmem List.not_mem_nil
  | cons i shards ih =>
    intro hmem
    rcases List.mem_cons.mp hmem with rfl | hmem
    · exact Thread.Emits.bind_left _ fun _ => Or.inl rfl
    · exact Thread.Emits.bind_right _ fun _ => ih hmem

end Program

/-! ## Selection -/

namespace Router

variable {fl : F64.Rounding} {router : Router} {healthy : List Worker}

/-- Scoring candidates only reads, and yields scores of these candidates. -/
theorem traces_evaluateAll (chain : List UInt64) (clock : ℕ → Instant) (workers : List Worker) :
    (router.evaluateAll fl chain clock workers).Traces (Access.Routes healthy)
      fun scored => scored.map (·.worker) = workers := by
  induction workers generalizing clock with
  | nil => exact Program.traces_pure rfl
  | cons worker workers ih =>
    have hscore : (router.evaluate fl chain (clock 0) worker).Traces (Access.Routes healthy)
        fun scored => scored.worker = worker := by
      refine (Program.traces_longestMatch (fun _ => trivial) fun _ => trivial).bind fun _ _ => ?_
      refine Program.Traces.bind (ψ := fun _ => True) ?_ fun _ _ => ?_
      · exact (Program.traces_count trivial).bind fun _ _ => Program.traces_pure trivial
      · exact (Program.traces_count trivial).bind fun _ _ => Program.traces_pure rfl
    refine hscore.bind fun scored hscored => (ih fun n => clock (n + 1)).bind fun rest hrest => ?_
    exact Program.traces_pure (by rw [List.map_cons, hscored, hrest])

/-- If a routing call decides, it decides for a worker of its snapshot. -/
def Answers (healthy : List Worker) (result : Except RouterError RouteDecision) : Prop :=
  ∀ d, result = .ok d → d.worker ∈ healthy

/-- The worker that is picked is a candidate, and the chain is recorded for it. -/
theorem traces_selectBest (clock : ℕ → Instant) {candidates : List Worker}
    (hcandidates : ∀ w ∈ candidates, w ∈ healthy) (chain : List UInt64) (error : RouterError) :
    (router.selectBest fl clock candidates chain error).Traces (Access.Routes healthy)
      (Answers healthy) := by
  have hpick : (router.pickBest fl clock candidates chain).Traces (Access.Routes healthy)
      fun best => ∀ b, best = some b → b.worker ∈ candidates := by
    refine (traces_evaluateAll chain clock candidates).bind fun scored hscored => ?_
    refine Program.traces_pure fun b hb => ?_
    rw [← hscored]
    exact List.mem_map_of_mem (Slices.mem_of_maxBy_eq_some hb)
  refine hpick.bind fun best hbest => ?_
  cases best with
  | none => exact Program.traces_pure nofun
  | some b =>
    have hmem : b.worker ∈ healthy := hcandidates _ (hbest b rfl)
    refine Program.Traces.bind (ψ := fun _ => True) ?_ fun _ _ => Program.traces_pure ?_
    · exact Program.traces_record fun _ _ => ⟨b.worker, hmem, rfl⟩
    · intro d hd
      cases hd
      exact hmem

theorem traces_selectInTurn (clock : ℕ → Instant) {candidates : List Worker}
    (hcandidates : ∀ w ∈ candidates, w ∈ healthy) (hne : candidates ≠ []) (chain : List UInt64) :
    (selectInTurn clock candidates hne chain).Traces (Access.Routes healthy) (Answers healthy) := by
  refine (Program.traces_ticket trivial).bind fun ticket _ => ?_
  refine (Program.traces_longestMatch (fun _ => trivial) fun _ => trivial).bind fun _ _ => ?_
  refine Program.Traces.bind (ψ := fun _ => True) ?_ fun _ _ => Program.traces_pure ?_
  · exact Program.traces_record fun _ _ => ⟨_, hcandidates _ (List.get_mem _ _), rfl⟩
  · intro d hd
    cases hd
    exact hcandidates _ (List.get_mem _ _)

end Router

/-- A routing call with its clock readings. -/
inductive RoutingCall where
  /-- `select_for_chat`. -/
  | chat (clock : ℕ → Instant) (request : ChatCompletionRequest)
  /-- `select_in_pool`. -/
  | phase (clock : ℕ → Instant) (pool : Pool) (chain : List UInt64)

namespace RoutingCall

variable (hasher : Option UInt64 → List Char → UInt64) (fl : F64.Rounding) (router : Router)

/-- The program of a call. -/
def program : RoutingCall → Program (Except RouterError RouteDecision)
  | .chat clock request => router.selectForChat hasher fl clock request
  | .phase clock pool chain => router.selectInPool fl clock pool chain

/-- **Anatomy of a routing call.**  A routing call takes a snapshot of the healthy workers, and
everything it does then is routing among these, to decide for one of them. -/
theorem program_traces (call : RoutingCall) : ∃ rest : List Worker → Program _,
    call.program hasher fl router = Program.healthyWorkers >>= rest ∧
      ∀ healthy, (rest healthy).Traces (Access.Routes healthy) (Router.Answers healthy) := by
  cases call with
  | chat clock request =>
    refine ⟨_, rfl, fun healthy => ?_⟩
    by_cases hne : healthy = []
    · rw [dif_pos hne]
      exact Program.traces_pure nofun
    · rw [dif_neg hne]
      have hcandidates : ∀ w ∈ Router.chatCandidates healthy, w ∈ healthy :=
        fun w hw => Router.mem_of_mem_chatCandidates hw
      cases router.policy with
      | roundRobin => exact Router.traces_selectInTurn clock hcandidates _ _
      | cacheAware => exact Router.traces_selectBest clock hcandidates _ _
      | disaggregated => exact Program.traces_pure nofun
  | phase clock pool chain =>
    refine ⟨_, rfl, fun healthy => ?_⟩
    dsimp only
    split_ifs
    · exact Program.traces_pure nofun
    · exact Router.traces_selectBest clock (fun w hw => (List.mem_filter.mp hw).1) _ _

/-- The same, as to the registry and who is listed. -/
theorem program_eq (call : RoutingCall) : ∃ rest : List Worker → Program _,
    call.program hasher fl router = Program.healthyWorkers >>= rest ∧
      ∀ healthy, (rest healthy).Does (Access.Routes healthy) fun _ => True := by
  obtain ⟨rest, heq, hrest⟩ := call.program_traces hasher fl router
  exact ⟨rest, heq, fun healthy => (hrest healthy).does.mono (fun _ _ _ h => h) fun _ _ => trivial⟩

end RoutingCall

end KvRoute
