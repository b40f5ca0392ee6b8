import Mathlib.Data.List.Nodup
import Mathlib.Data.Set.Basic
import Mathlib.Order.Defs.PartialOrder

set_option relaxedAutoImplicit false
set_option autoImplicit false

/-!
# Families of lists that form a tree

A family of lists is a prefix tree if an element says where it stands and what comes before it:
lists that share an element have it at one position and agree up to there.  Sets of elements that
grow from the front of the lists, and times that decrease along the lists, are what a cache of
shared prefixes maintains; the rules here say which updates keep them.

## Main definitions

* `PrefixTree` — a family of lists in which elements identify prefixes.
* `FromFront` — a property of elements that holds on a front part of every list.
* `AgesFromFront` — times of elements that never increase along a list.

## Main results

* `PrefixTree.nodup`, `PrefixTree.mem_of_mem_prefix` — elements in the lists of a tree.
* `FromFront.or_mem`, `FromFront.and`, `FromFront.filter_eq_takeWhile` — the rules of `FromFront`.
* `AgesFromFront.stamp`, `AgesFromFront.fromFront` — the rules of `AgesFromFront`.
-/

variable {α τ : Type*}

/-- Lists of the family that share an element have it at one position and agree up to there. -/
def PrefixTree (𝒞 : Set (List α)) : Prop :=
  ∀ e ∈ 𝒞, ∀ d ∈ 𝒞, ∀ (i j : ℕ) (a : α), e[i]? = some a → d[j]? = some a →
    i = j ∧ e.take (i + 1) = d.take (i + 1)

/-- On every list of the family, the elements with the property come first. -/
def FromFront (𝒞 : Set (List α)) (P : α → Prop) : Prop :=
  ∀ e ∈ 𝒞, ∀ (i j : ℕ) (a b : α), j ≤ i → e[i]? = some a → e[j]? = some b → P a → P b

/-- Along every list of the family, the elements that have a time were never touched after an
earlier one that has a time. -/
def AgesFromFront [LE τ] (𝒞 : Set (List α)) (time : α → Option τ) : Prop :=
  ∀ e ∈ 𝒞, ∀ (i j : ℕ) (a b : α) (t u : τ), j ≤ i → e[i]? = some a → e[j]? = some b →
    time a = some t → time b = some u → t ≤ u

variable {𝒞 : Set (List α)}

namespace PrefixTree

theorem mono {𝒟 : Set (List α)} (h : PrefixTree 𝒞) (hsub : 𝒟 ⊆ 𝒞) : PrefixTree 𝒟 :=
  fun e he d hd => h e (hsub he) d (hsub hd)

/-- No element occurs twice in a list of a tree. -/
theorem nodup (h : PrefixTree 𝒞) {e : List α} (he : e ∈ 𝒞) : e.Nodup := by
  rw [List.nodup_iff_getElem?_ne_getElem?]
  intro i j hij hj heq
  have hj' := List.getElem?_eq_getElem hj
  exact hij.ne (h e he e he i j _ (heq.trans hj') hj').1

/-- A prefix of a list of the tree that contains an element of another list contains all that
comes before it there. -/
theorem mem_of_mem_prefix (h : PrefixTree 𝒞) {e d l : List α} (he : e ∈ 𝒞) (hd : d ∈ 𝒞)
    (hl : l <+: d) {i j : ℕ} {a b : α} (hji : j ≤ i) (hi : e[i]? = some a)
    (hj : e[j]? = some b) (hmem : a ∈ l) : b ∈ l := by
  obtain ⟨k, hk⟩ := List.mem_iff_getElem?.mp hmem
  obtain ⟨hkl, -⟩ := List.getElem?_eq_some_iff.mp hk
  have hget : ∀ n < l.length, l[n]? = d[n]? := fun n hn =>
    (List.prefix_iff_getElem?.mp hl n hn).symm ▸ List.getElem?_eq_getElem hn
  obtain ⟨rfl, htake⟩ := h e he d hd i k a hi (hget k hkl ▸ hk)
  have hat := congrArg (·[j]?) htake
  simp only [List.getElem?_take, if_pos (Nat.lt_succ_of_le hji)] at hat
  exact List.mem_of_getElem? ((hget j (by omega)).trans (hat.symm.trans hj))

/-- Membership in a prefix of a list of the tree holds from the front. -/
theorem fromFront_mem (h : PrefixTree 𝒞) {d l : List α} (hd : d ∈ 𝒞) (hl : l <+: d) :
    FromFront 𝒞 (· ∈ l) :=
  fun _ he _ _ _ _ hji hi hj hmem => h.mem_of_mem_prefix he hd hl hji hi hj hmem

end PrefixTree

namespace FromFront

variable {P Q : α → Prop}

theorem mono {𝒟 : Set (List α)} (h : FromFront 𝒞 P) (hsub : 𝒟 ⊆ 𝒞) : FromFront 𝒟 P :=
  fun e he => h e (hsub he)

theorem congr (h : FromFront 𝒞 P) (hPQ : ∀ a, Q a ↔ P a) : FromFront 𝒞 Q := by
  intro e he i j a b hji hi hj ha
  rw [hPQ] at ha ⊢
  exact h e he i j a b hji hi hj ha

theorem or (hP : FromFront 𝒞 P) (hQ : FromFront 𝒞 Q) : FromFront 𝒞 fun a => P a ∨ Q a := by
  intro e he i j a b hji hi hj ha
  rcases ha with ha | ha
  · exact Or.inl (hP e he i j a b hji hi hj ha)
  · exact Or.inr (hQ e he i j a b hji hi hj ha)

/-- A condition that does not depend on the element. -/
theorem const_and {p : Prop} (hP : FromFront 𝒞 P) : FromFront 𝒞 fun a => p ∧ P a :=
  fun e he i j a b hji hi hj ha => ⟨ha.1, hP e he i j a b hji hi hj ha.2⟩

/-- On a list of the family, the elements with the property are those before the first one
without it.

**Proof sketch.** Induction on the list: if the first element lacks the property, all others
do. -/
theorem filter_eq_takeWhile {p : α → Bool} (h : FromFront 𝒞 fun a => p a = true) {e : List α}
    (he : e ∈ 𝒞) : e.filter p = e.takeWhile p := by
  have hfront : ∀ (i j : ℕ) (a b : α), j ≤ i → e[i]? = some a → e[j]? = some b → p a = true →
      p b = true := h e he
  clear he
  induction e with
  | nil => rfl
  | cons a e ih =>
    cases hp : p a with
    | true =>
      rw [List.filter_cons_of_pos hp, List.takeWhile_cons_of_pos hp, ih]
      intro i j x y hji hi hj
      exact hfront (i + 1) (j + 1) x y (by omega) (by simpa using hi) (by simpa using hj)
    | false =>
      have hnone : ∀ b ∈ e, ¬p b = true := by
        intro b hb hpb
        obtain ⟨k, hk⟩ := List.mem_iff_getElem?.mp hb
        have hpa := hfront (k + 1) 0 b a (Nat.zero_le _) (by simpa using hk) rfl hpb
        rw [hp] at hpa
        cases hpa
      rw [List.filter_cons_of_neg (by simp [hp]), List.takeWhile_cons_of_neg (by simp [hp]),
        List.filter_eq_nil_iff.mpr hnone]

end FromFront

namespace AgesFromFront

variable [Preorder τ] {time time' : α → Option τ}

/-- **Stamping.**  A prefix of a list of the tree is stamped with a time that is not before any
other, and the elements that are not stamped keep their times or lose them.

**Proof sketch.** If a later element is stamped, so is every earlier one, with the same time;
otherwise it keeps its time, and an earlier one keeps its own or gets the latest. -/
theorem stamp (h : AgesFromFront 𝒞 time) (htree : PrefixTree 𝒞) {l : List α} {m : τ}
    (hl : ∀ a ∈ l, ∃ d ∈ 𝒞, l <+: d) (hpast : ∀ a t, time a = some t → t ≤ m)
    (hstep : ∀ a t, time' a = some t → a ∈ l ∧ t = m ∨ a ∉ l ∧ time a = some t) :
    AgesFromFront 𝒞 time' := by
  intro e he i j a b t u hji hi hj ha hb
  rcases hstep a t ha with ⟨hmem, rfl⟩ | ⟨-, hold⟩
  · obtain ⟨d, hd, hpre⟩ := hl a hmem
    have hmem' := htree.mem_of_mem_prefix he hd hpre hji hi hj hmem
    rcases hstep b u hb with ⟨-, rfl⟩ | ⟨hnot, -⟩
    · exact le_rfl
    · exact absurd hmem' hnot
  · rcases hstep b u hb with ⟨-, rfl⟩ | ⟨-, hold'⟩
    · exact hpast a t hold
    · exact h e he i j a b t u hji hi hj hold hold'

/-- What is not older than some limit comes first, if what has a time does. -/
theorem fromFront (h : AgesFromFront 𝒞 time) {P : α → Prop} (hP : FromFront 𝒞 P)
    (htime : ∀ a, P a → ∃ t, time a = some t) {Q : τ → Prop}
    (hQ : ∀ t u, t ≤ u → Q t → Q u) :
    FromFront 𝒞 fun a => P a ∧ ∃ t, time a = some t ∧ Q t := by
  rintro e he i j a b hji hi hj ⟨ha, t, ht, hft⟩
  have hb := hP e he i j a b hji hi hj ha
  obtain ⟨u, hu⟩ := htime b hb
  exact ⟨hb, u, hu, hQ t u (h e he i j a b t u hji hi hj ht hu) hft⟩

end AgesFromFront
