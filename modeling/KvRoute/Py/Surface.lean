import KvRoute.Lib.Runs
import KvRoute.Py.Native

set_option relaxedAutoImplicit false
set_option autoImplicit false

/-!
# Panics of the Python surface

The bindings promise exceptions and no panics.  The partial operations below them are all in range,
whatever the history (`KvRoute.Core.Panics`), so that the calls keep the promise.  So does the
construction, but for one argument: a time limit is converted to a `Duration` after it was checked
to be a finite number that is not negative, and such a number can be too large.

## Main definitions

* `KvRoute.NeverPanics` — construction and a sequence of calls are free of panics.

## Main results

* `PyPrefixIndex.not_panics_call`, `PyRouter.not_panics_call` — no call panics, in any state.
* `KvRoute.python_surface_panics_iff` — when the surface is free of panics.
-/

namespace KvRoute

/-- Neither a construction nor any of a sequence of calls on what was constructed panics. -/
def NeverPanics {σ κ ρ : Type} (created : Native σ) (call : σ → κ → σ × Native ρ)
    (calls : List κ) : Prop :=
  ¬created.Panics ∧ ∀ s, created = .ok s →
    Runs.Along (fun s c => (call s c).1) (fun s c => ¬(call s c).2.Panics) s calls

/-- Calls that never panic leave it to the construction. -/
theorem neverPanics_iff {σ κ ρ : Type} {created : Native σ} {call : σ → κ → σ × Native ρ}
    (hcall : ∀ s c, ¬(call s c).2.Panics) (calls : List κ) :
    NeverPanics created call calls ↔ ¬created.Panics :=
  and_iff_left fun _ _ => Runs.along_of_forall fun _ c _ _ => hcall _ c

namespace PyPrefixIndex

variable (hasher : Option UInt64 → List Char → UInt64)

/-! ## Calls of a prefix index -/

theorem matchAll_eq_pure (chain : List UInt64) (clock : ℕ → Instant) (workers : List WorkerId)
    (inner : PrefixIndex) : ∃ result, matchAll chain clock workers inner = pure result := by
  induction workers generalizing clock inner with
  | nil => exact ⟨_, rfl⟩
  | cons worker workers ih =>
    obtain ⟨rest, hrest⟩ := ih (fun n => clock (n + 1))
      (inner.longestMatch (clock 0) worker chain).1
    refine ⟨(rest.1, (worker, (inner.longestMatch (clock 0) worker chain).2) :: rest.2), ?_⟩
    rw [matchAll, PrefixIndex.longestMatchChecked_eq, pure_bind]
    dsimp only
    rw [hrest, pure_bind]

theorem insert_eq (index : PyPrefixIndex) (now : Instant) (workerId : UInt64) (prompt : String) :
    index.insert hasher now workerId prompt = pure
      { index with
        inner := index.inner.record now workerId.toNat (chainHash hasher prompt index.blockSize)
        workers := index.workers.insert workerId.toNat () } := by
  rw [insert, chainHashChecked_eq, pure_bind, PrefixIndex.recordChecked_eq, pure_bind]

theorem lookup_eq_pure (order : IterOrder WorkerId) (index : PyPrefixIndex)
    (clock : ℕ → Instant) (prompt : String) :
    ∃ result, index.lookup hasher order clock prompt = pure result := by
  obtain ⟨result, hresult⟩ := matchAll_eq_pure (chainHash hasher prompt index.blockSize) clock
    (order.arrange index.workers.keys) index.inner
  rw [lookup, chainHashChecked_eq, pure_bind]
  dsimp only
  rw [hresult, pure_bind]
  exact ⟨_, rfl⟩

theorem evictStale_eq (order : IterOrder (UInt64 × IndexEntry)) (index : PyPrefixIndex)
    (now : Instant) :
    index.evictStale order now = pure
      ({ index with inner := (index.inner.evict order now index.ttl index.maxEntries).1 },
        (index.inner.evict order now index.ttl index.maxEntries).2.expired,
        (index.inner.evict order now index.ttl index.maxEntries).2.lruEvicted) := by
  rw [evictStale, PrefixIndex.evictChecked_eq, pure_bind]

/-- Every call has a value. -/
theorem perform_eq_pure (index : PyPrefixIndex) (call : PyIndexCall) :
    ∃ result, index.perform hasher call = pure result := by
  cases call with
  | insert now workerId prompt =>
    rw [perform, insert_eq, pure_bind]
    exact ⟨_, rfl⟩
  | lookup order clock prompt =>
    obtain ⟨result, hresult⟩ := index.lookup_eq_pure hasher order clock prompt
    rw [perform, hresult, pure_bind]
    exact ⟨_, rfl⟩
  | evictStale order now =>
    rw [perform, evictStale_eq, pure_bind]
    exact ⟨_, rfl⟩
  | len => exact ⟨_, rfl⟩

/-- **No call of a prefix index panics**, in any state. -/
theorem not_panics_call (index : PyPrefixIndex) (call : PyIndexCall) :
    ¬(index.call hasher call).2.Panics := by
  obtain ⟨result, hresult⟩ := index.perform_eq_pure hasher call
  rw [PyPrefixIndex.call, hresult]
  exact Native.not_panics_pure _

/-- The construction panics exactly for finite time limits from `2 ^ 64` seconds on: the others
are converted, or were rejected before. -/
theorem panics_new_iff (blockSize : ℕ) (ttlSeconds : F64) (maxEntries : ℕ)
    (haccepted : ∀ error, new blockSize ttlSeconds maxEntries ≠ .error (.exception error)) :
    (new blockSize ttlSeconds maxEntries).Panics ↔
      ¬∃ seconds : ℚ, ttlSeconds = .finite seconds ∧ seconds < 2 ^ 64 := by
  rw [new] at haccepted ⊢
  split_ifs at haccepted ⊢ with hblock hlimit
  · exact absurd rfl (haccepted _)
  · exact absurd rfl (haccepted _)
  · cases ttlSeconds with
    | posInf => exact absurd rfl hlimit
    | negInf => exact absurd rfl hlimit
    | nan => exact absurd rfl hlimit
    | finite q =>
      have hnonneg : 0 ≤ q := by
        simpa [F64.isFinite, F64.partialCmp, compare_lt_iff_lt] using hlimit
      rw [Duration.fromSecsF64]
      by_cases hfits : q < 2 ^ 64
      · rw [if_pos ⟨hnonneg, hfits⟩, Native.ofChecked_pure, pure_bind]
        exact iff_of_false (Native.not_panics_pure _) (not_not.mpr ⟨q, rfl, hfits⟩)
      · rw [if_neg fun h => hfits h.2]
        refine iff_of_true ⟨.duration, rfl⟩ ?_
        rintro ⟨q', hq, hfits'⟩
        obtain rfl := F64.finite.inj hq
        exact hfits hfits'

end PyPrefixIndex

namespace PyRouter

variable (hasher : Option UInt64 → List Char → UInt64) (fl : F64.Rounding)

/-! ## Calls of a router -/

theorem not_panics_decide (router : PyRouter) (clock : ℕ → Instant) (prompt policy : String) :
    ¬(router.decide hasher fl clock prompt policy).2.Panics := by
  cases hpolicy : parsePolicy policy with
  | error error =>
    rw [decide_of_error hpolicy]
    exact Native.not_panics_raise error
  | ok parsed =>
    rw [decide_eq hpolicy]
    dsimp only
    cases (router.selected hasher fl clock prompt parsed).2 with
    | ok decision => exact Native.not_panics_pure decision
    | error error => exact Native.not_panics_raise _

/-- **No call of a router panics**, in any state. -/
theorem not_panics_call (router : PyRouter) (call : PyRouterCall) :
    ¬(router.call hasher fl call).2.Panics := by
  have hbind : ∀ {α β : Type} {result : Native α} (f : α → β), ¬result.Panics →
      ¬(f <$> result).Panics := by
    rintro α β (raised | a) f h ⟨panic, hpanic⟩
    · exact h ⟨panic, congrArg Except.error (Except.error.inj hpanic)⟩
    · exact nomatch hpanic
  cases call with
  | route clock prompt policy =>
    exact hbind _ (hbind _ (router.not_panics_decide hasher fl clock prompt policy))
  | selectWorker clock prompt policy =>
    exact hbind _ (hbind _ (router.not_panics_decide hasher fl clock prompt policy))

/-- The construction converts nothing. -/
theorem not_panics_new (workers : List String) (cacheWeight loadWeight : F64) (blockSize : ℕ) :
    ¬(new workers cacheWeight loadWeight blockSize).Panics := by
  rw [new]
  split_ifs
  · exact Native.not_panics_raise _
  · exact Native.not_panics_raise _
  · exact Native.not_panics_pure _

end PyRouter

/-- **When the Python surface is free of panics.**  For all arguments that the two constructors do
not reject, and all sequences of calls with any arguments: there is no panic, in the construction or
in a call, exactly if the time limit is below `2 ^ 64` seconds.

**Proof sketch.** No call panics in any state, and neither does the construction of a router
(`neverPanics_iff`).  The construction of a prefix index converts the time limit, which is accepted
if it is finite and not negative, and panics if it does not fit (`PyPrefixIndex.panics_new_iff`). -/
theorem python_surface_panics_iff (hasher : Option UInt64 → List Char → UInt64)
    (fl : F64.Rounding) (blockSize : ℕ) (ttlSeconds : F64) (maxEntries : ℕ)
    (indexCalls : List PyIndexCall) (workers : List String) (cacheWeight loadWeight : F64)
    (routerBlockSize : ℕ) (routerCalls : List PyRouterCall)
    (haccepted : ∀ error,
      PyPrefixIndex.new blockSize ttlSeconds maxEntries ≠ .error (.exception error)) :
    NeverPanics (PyPrefixIndex.new blockSize ttlSeconds maxEntries)
          (PyPrefixIndex.call hasher) indexCalls ∧
        NeverPanics (PyRouter.new workers cacheWeight loadWeight routerBlockSize)
          (PyRouter.call hasher fl) routerCalls ↔
      ∃ seconds : ℚ, ttlSeconds = .finite seconds ∧ seconds < 2 ^ 64 := by
  have hrouter : NeverPanics (PyRouter.new workers cacheWeight loadWeight routerBlockSize)
      (PyRouter.call hasher fl) routerCalls :=
    (neverPanics_iff (fun s c => s.not_panics_call hasher fl c) routerCalls).mpr
      (PyRouter.not_panics_new workers cacheWeight loadWeight routerBlockSize)
  rw [and_iff_left hrouter, neverPanics_iff (fun s c => s.not_panics_call hasher c),
    PyPrefixIndex.panics_new_iff blockSize ttlSeconds maxEntries haccepted, not_not]

/-- The default arguments, and one call of each kind. -/
theorem python_surface_panics_iff_defaults :
    NeverPanics (PyPrefixIndex.new 512 (.finite 300) 100000) (PyPrefixIndex.call defaultHasher)
        [.insert 0 7 "hello", .lookup .held (fun _ => 1) "hello", .evictStale .held 2, .len] ∧
      NeverPanics (PyRouter.new ["w1", "w2"] (.finite 1) (.finite (1 / 2)) 512)
        (PyRouter.call defaultHasher .exact)
          [.route (fun _ => 0) "hello" "cache_aware",
            .selectWorker (fun _ => 1) "hello" "unknown"] := by
  refine (python_surface_panics_iff defaultHasher .exact 512 (.finite 300) 100000 _ ["w1", "w2"]
    (.finite 1) (.finite (1 / 2)) 512 _ ?_).mpr ⟨300, rfl, by norm_num⟩
  intro error h
  exact nomatch h

/-- A time limit of `2 ^ 64` seconds is finite and not negative, so it is accepted, and the
construction panics. -/
theorem python_surface_panics :
    PyPrefixIndex.new 512 (.finite (2 ^ 64)) 100000 = .error (.panicked .duration) ∧
      ¬NeverPanics (PyPrefixIndex.new 512 (.finite (2 ^ 64)) 100000)
        (PyPrefixIndex.call defaultHasher) [] := by
  have hpanics : PyPrefixIndex.new 512 (.finite (2 ^ 64)) 100000 =
      .error (.panicked .duration) := by rfl
  exact ⟨hpanics, fun h => h.1 ⟨_, hpanics⟩⟩

end KvRoute
