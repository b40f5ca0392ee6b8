import KvRoute.Core.Scoring

set_option relaxedAutoImplicit false
set_option autoImplicit false

/-!
# When the order of candidates is one

The comparison of candidates looks at scores first, and takes NaN as equal to anything.  Ties are
broken by load and id, so two candidates with different ids never compare as equal; but being
equal to NaN does not pass on from one score to another, and with a NaN and two different numbers
the comparison goes round in a circle.  Without these it is a total order, and who is picked does
not depend on how the candidates are listed.

## Main definitions

* `Candidate.LawfulOn` — the comparison is a total order among candidates with given scores.
* `Router.OrderFree` — who is picked does not depend on the order of the list.
* `F64.Comparable` — no NaN next to two different other values.

## Main results

* `KvRoute.lawful_iff_comparable` — the order is one exactly on comparable scores.
-/

namespace F64

/-- There is no NaN among the values, or there are no two different values besides it. -/
def Comparable (S : Set F64) : Prop :=
  ¬(nan ∈ S ∧ ∃ p ∈ S, ∃ q ∈ S, p ≠ nan ∧ q ≠ nan ∧ p ≠ q)

/-- Different values other than NaN have different places in the order. -/
lemma key_ne_key {p q : F64} (hp : p ≠ nan) (hq : q ≠ nan) (h : p ≠ q) : p.key ≠ q.key := by
  cases p <;> cases q <;> simp_all [key]

end F64

namespace Slices

variable {α β : Type*}

/-- Where the comparison is that of a key that tells the elements apart, the greatest element does
not depend on the order of the list. -/
theorem maxBy_perm [LinearOrder β] {cmp : α → α → Ordering} (key : α → β) {l l' : List α}
    (hcmp : ∀ a ∈ l, ∀ b ∈ l, cmp a b = .gt ↔ key b < key a)
    (hkey : ∀ a ∈ l, ∀ b ∈ l, key a = key b → a = b) (h : l'.Perm l) :
    maxBy cmp l' = maxBy cmp l := by
  have hcmp' : ∀ a ∈ l', ∀ b ∈ l', cmp a b = .gt ↔ key b < key a :=
    fun a ha b hb => hcmp a (h.subset ha) b (h.subset hb)
  cases hm : maxBy cmp l with
  | none => rw [maxBy_eq_none.mp hm, List.perm_nil] at h; rw [h]; rfl
  | some m =>
    cases hm' : maxBy cmp l' with
    | none => rw [maxBy_eq_none.mp hm', List.nil_perm] at h; rw [h] at hm; cases hm
    | some m' =>
      have hmem := mem_of_maxBy_eq_some hm
      have hmem' := h.subset (mem_of_maxBy_eq_some hm')
      have hle := key_le_of_maxBy_eq_some hcmp hm m' hmem'
      have hge := key_le_of_maxBy_eq_some hcmp' hm' m (h.symm.subset hmem)
      rw [hkey m' hmem' m hmem (le_antisymm hle hge)]

end Slices

namespace KvRoute

/-! ## The order -/

/-- The comparison is a total order among the candidates with scores in `S`: exchanging two of
them reverses it, and it is transitive. -/
structure Candidate.LawfulOn (S : Set F64) : Prop where
  /-- `cmp(b, a)` is the reverse of `cmp(a, b)`. -/
  swap : ∀ a b : Candidate, a.score ∈ S → b.score ∈ S → (a.cmp b).swap = b.cmp a
  /-- `a <= b` and `b <= c` imply `a <= c`. -/
  trans : ∀ a b c : Candidate, a.score ∈ S → b.score ∈ S → c.score ∈ S →
    a.cmp b ≠ .gt → b.cmp c ≠ .gt → a.cmp c ≠ .gt

/-- Among candidates with distinct ids and scores in `S`, who is picked does not depend on how
they are listed. -/
def Router.OrderFree (S : Set F64) : Prop :=
  ∀ (fl : F64.Rounding) (router : Router) (s : Shared) (chain : List UInt64)
    (candidates listed : List Worker) (clock clock' : ℕ → Instant),
    (candidates.map (·.id)).Nodup → listed.Perm candidates →
    (∀ w ∈ candidates, router.score fl (s.matched chain w.id) (s.load w.id) ∈ S) →
    ((router.pickBest fl clock listed chain).alone s).2 =
      ((router.pickBest fl clock' candidates chain).alone s).2

/-- With comparable scores the comparison is that of a key that ends in the id. -/
lemma Candidate.exists_key {S : Set F64} (h : F64.Comparable S) :
    ∃ key : Candidate → WithBot (WithTop ℚ) ×ₗ ℕᵒᵈ ×ₗ ℕᵒᵈ,
      (∀ a b : Candidate, a.score ∈ S → b.score ∈ S → (a.cmp b = .gt ↔ key b < key a)) ∧
      ∀ a b, key a = key b → a.id = b.id := by
  by_cases hnan : F64.nan ∈ S
  · -- all scores are taken as equal, since two that are not NaN are the same
    have htie : ∀ p ∈ S, ∀ q ∈ S, (F64.partialCmp p q).getD .eq = .eq := by
      intro p hp q hq
      by_cases hpn : p = .nan
      · rw [hpn, F64.nan_partialCmp, Option.getD_none]
      · by_cases hqn : q = .nan
        · rw [hqn, F64.partialCmp_nan, Option.getD_none]
        · obtain rfl : p = q := by
            by_contra hne
            exact h ⟨hnan, p, hp, q, hq, hpn, hqn, hne⟩
          exact F64.partialCmp_self p
    refine ⟨rankAt ⊥, fun a b ha hb => cmp_eq_gt_iff_rankAt ?_, fun a b => id_eq_of_rankAt_eq⟩
    rw [htie _ ha _ hb, compare_eq_iff_eq.mpr rfl]
  · exact ⟨rank, fun a b ha hb => cmp_eq_gt_iff (fun heq => hnan (heq ▸ ha))
      fun heq => hnan (heq ▸ hb), fun a b heq => id_eq_of_rankAt_eq heq⟩

/-- With comparable scores the comparison is a total order. -/
lemma Candidate.lawfulOn_of_comparable {S : Set F64} (h : F64.Comparable S) :
    Candidate.LawfulOn S := by
  obtain ⟨key, hcmp, -⟩ := exists_key h
  refine ⟨fun a b _ _ => cmp_swap a b, fun a b c ha hb hc hab hbc => ?_⟩
  rw [Ne, hcmp a b ha hb, not_lt] at hab
  rw [Ne, hcmp b c hb hc, not_lt] at hbc
  rw [Ne, hcmp a c ha hc, not_lt]
  exact hab.trans hbc

/-- With comparable scores the winner does not depend on the order of the list. -/
lemma Router.orderFree_of_comparable {S : Set F64} (h : F64.Comparable S) : OrderFree S := by
  intro fl router s chain candidates listed clock clock' hids hperm hscores
  obtain ⟨key, hcmp, hid⟩ := Candidate.exists_key h
  rw [alone_pickBest_snd_eq_picked, alone_pickBest_snd_eq_picked]
  congr 1
  refine Slices.maxBy_perm (fun w => key (router.rated fl s chain w).candidate)
    (fun w hw v hv => hcmp _ _ (hscores w hw) (hscores v hv)) (fun w hw v hv heq => ?_) hperm
  exact List.inj_on_of_nodup_map hids hw hv (hid _ _ heq)

/-- A NaN between two different values closes a circle: it has more load than the lower one, so it
loses to it, and less than the higher one, which it beats. -/
lemma Candidate.not_trans_of_key_lt {S : Set F64} {p q : F64} (hp : p ∈ S) (hq : q ∈ S)
    (hnan : F64.nan ∈ S) (hpn : p ≠ .nan) (hqn : q ≠ .nan) (hlt : p.key < q.key) :
    ¬Candidate.LawfulOn S := by
  intro h
  refine h.trans ⟨q, 2, 2⟩ ⟨.nan, 1, 1⟩ ⟨p, 0, 0⟩ hq hnan hp ?_ ?_ ?_
  · rw [cmp, F64.partialCmp_nan]
    dsimp only
    decide
  · rw [cmp, F64.nan_partialCmp]
    dsimp only
    decide
  · rw [cmp_eq_gt_iff hqn hpn]
    exact Prod.Lex.toLex_lt_toLex.mpr (Or.inl hlt)

/-- **When the order of candidates is one.**  For every set of scores: the comparison of candidates
with these scores is a total order, and who is picked among candidates with distinct ids and these
scores does not depend on how they are listed, exactly if the scores do not comprise NaN and two
different other values.

**Proof sketch.** With such scores the comparison is that of a key (`Candidate.exists_key`): of the
usual one if there is no NaN, and otherwise of load and id alone.  A NaN and two different values
are the scores of three candidates that beat each other in a circle
(`Candidate.not_trans_of_key_lt`). -/
theorem lawful_iff_comparable (S : Set F64) :
    (Candidate.LawfulOn S ∧ Router.OrderFree S) ↔ F64.Comparable S := by
  constructor
  · rintro ⟨hlawful, -⟩ ⟨hnan, p, hp, q, hq, hpn, hqn, hne⟩
    rcases lt_or_gt_of_ne (F64.key_ne_key hpn hqn hne) with hlt | hgt
    · exact Candidate.not_trans_of_key_lt hp hq hnan hpn hqn hlt hlawful
    · exact Candidate.not_trans_of_key_lt hq hp hnan hqn hpn hgt hlawful
  · intro h
    exact ⟨Candidate.lawfulOn_of_comparable h, Router.orderFree_of_comparable h⟩

/-! ## Scores that overflow -/

/-- A rounding that keeps every digit, and overflows where double precision does. -/
def overflowing : F64.Rounding where
  round q := if 2 ^ 1024 ≤ q then .posInf else if q ≤ -2 ^ 1024 then .negInf else .finite q
  round_ne_nan q := by split_ifs <;> nofun

/-- Both weights are `-2 ^ 1023`, which is a finite double. -/
def hugeWeights : RouterConfig where
  workers := [⟨"http://a", .both⟩, ⟨"http://b", .both⟩, ⟨"http://c", .both⟩]
  routingPolicy := .cacheAware
  cacheWeight := .finite (-2 ^ 1023)
  loadWeight := .finite (-2 ^ 1023)

/-- The second replica holds a chain of two blocks and serves two requests; the third one serves
three. -/
def circleState : Shared where
  registry := .fromConfig hugeWeights.workers
  nextWorker := 0
  prefixIndex := PrefixIndex.new.record 0 1 [7, 8]
  inflight := ⟨[0, 2, 3]⟩

/-- The three replicas. -/
def circle : List Worker := [⟨0, "http://a", .both⟩, ⟨1, "http://b", .both⟩, ⟨2, "http://c", .both⟩]

/-- The configuration is accepted; the scores of the three replicas are `0`, NaN and `+∞`; each
beats another one, and who is picked depends on the order in which they are listed. -/
theorem lawful_fails_circle :
    (hugeWeights.validate).isOk = true ∧
      circle.map (fun w => ((Router.new hugeWeights).rated overflowing circleState [7, 8]
        w).candidate.score) = [.finite 0, .nan, .posInf] ∧
      ¬Candidate.LawfulOn Set.univ ∧
      (((Router.new hugeWeights).pickBest overflowing (fun _ => 0) circle [7, 8]).alone
        circleState).2.map (·.worker.id) = some 2 ∧
      (((Router.new hugeWeights).pickBest overflowing (fun _ => 0) circle.reverse [7, 8]).alone
        circleState).2.map (·.worker.id) = some 0 := by
  refine ⟨by decide, by decide +kernel, fun h => ?_, by decide +kernel, by decide +kernel⟩
  exact h.trans ⟨.posInf, 3, 2⟩ ⟨.nan, 2, 1⟩ ⟨.finite 0, 0, 0⟩ trivial trivial trivial (by decide)
    (by decide) (by decide)

end KvRoute
