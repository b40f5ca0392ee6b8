import Mathlib.Data.Int.CardIntervalMod
import Mathlib.Data.Nat.ModEq
import Mathlib.Data.Set.Card

set_option relaxedAutoImplicit false
set_option autoImplicit false

/-!
# Taking turns

Turn after turn, the positions of a list are served in rotation: turn `k` of a rotation over `n`
positions serves position `k % n`.

## Main results

* `Rotation.existsUnique_turn` — in `n` turns in a row, every position is served once.
* `Rotation.ncard_turns_le` — after any number of turns no position is ahead by more than one.
* `Rotation.mod_succ_ne` — no position is served twice in a row.
* `Rotation.ncard_image_stride` — how many positions are served at turns that are equally far apart.
-/

namespace Rotation

variable {n : ℕ}

/-- The turns before `k` at which position `j` is served. -/
def turns (n j k : ℕ) : Set ℕ := {m | m < k ∧ m % n = j}

/-- Position `j` follows as many turns later as it is ahead of the position that is served now. -/
lemma mod_add_ahead {j : ℕ} (hj : j < n) (start : ℕ) :
    (start + (j + n - start % n) % n) % n = j := by
  have hstart : start % n < n := Nat.mod_lt _ (Nat.zero_lt_of_lt hj)
  calc (start + (j + n - start % n) % n) % n
      = (start % n + (j + n - start % n)) % n := by rw [Nat.add_mod_mod, Nat.mod_add_mod]
    _ = (j + n) % n := by congr 1; omega
    _ = j := by rw [Nat.add_mod_right, Nat.mod_eq_of_lt hj]

/-- From any turn on, each position is served exactly once in `n` turns.

**Proof sketch.** It is served when its turn comes (`mod_add_ahead`), and two turns at which the
same position is served are a multiple of `n` apart. -/
theorem existsUnique_turn {j : ℕ} (hj : j < n) (start : ℕ) :
    ∃! k, (start ≤ k ∧ k < start + n) ∧ k % n = j := by
  have hahead : (j + n - start % n) % n < n := Nat.mod_lt _ (Nat.zero_lt_of_lt hj)
  have hmod := mod_add_ahead hj start
  set k' := start + (j + n - start % n) % n
  refine ⟨k', ⟨⟨by omega, by omega⟩, hmod⟩, ?_⟩
  rintro k ⟨⟨hle, hlt⟩, hk⟩
  have hdist : |(k : ℤ) - k'| < n := by
    rw [abs_lt]
    omega
  have hdvd : (n : ℤ) ∣ (k : ℤ) - k' := Nat.modEq_iff_dvd.mp (hmod.trans hk.symm)
  have hzero := Int.eq_zero_of_abs_lt_dvd hdvd hdist
  omega

/-- How often position `j` is served before turn `k`: once in every round, and once more if its
turn has come in the round that is not over. -/
lemma ncard_turns {j : ℕ} (hj : j < n) (k : ℕ) :
    (turns n j k).ncard = k / n + if j < k % n then 1 else 0 := by
  have hturns : turns n j k = ((Finset.range k).filter fun m => m ≡ j [MOD n] : Finset ℕ) := by
    ext m
    simp [turns, Nat.ModEq, Nat.mod_eq_of_lt hj]
  rw [hturns, Set.ncard_coe_finset, ← Nat.count_eq_card_filter_range,
    Nat.count_modEq_card k (Nat.zero_lt_of_lt hj) j, Nat.mod_eq_of_lt hj]

/-- After any number of turns two positions have been served almost equally often. -/
theorem ncard_turns_le {i j : ℕ} (hi : i < n) (hj : j < n) (k : ℕ) :
    (turns n i k).ncard ≤ (turns n j k).ncard + 1 := by
  rw [ncard_turns hi, ncard_turns hj]
  split_ifs <;> omega

/-- With at least two positions, the next turn serves another one. -/
theorem mod_succ_ne (h : 2 ≤ n) (k : ℕ) : (k + 1) % n ≠ k % n := by
  intro heq
  have hdvd : n ∣ k + 1 - k := (Nat.modEq_iff_dvd' (Nat.le_succ k)).mp heq.symm
  have hle : n ≤ 1 := Nat.le_of_dvd Nat.one_pos (by rwa [Nat.add_sub_cancel_left] at hdvd)
  omega

/-! ## Every so many turns -/

/-- Of the turns that are `p` apart, two serve the same position if the number of these turns
between them is a multiple of `n / gcd n p`. -/
lemma stride_mod_eq_iff {p : ℕ} (hn : 0 < n) (start i j : ℕ) :
    (start + p * i) % n = (start + p * j) % n ↔ i % (n / n.gcd p) = j % (n / n.gcd p) := by
  constructor
  · intro h
    have hmul : p * i ≡ p * j [MOD n] := Nat.ModEq.add_left_cancel' start h
    exact hmul.cancel_left_div_gcd hn
  · intro h
    have hround : p * (n / n.gcd p) = n * (p / n.gcd p) := by
      rw [← Nat.mul_div_assoc _ (Nat.gcd_dvd_left n p), Nat.mul_comm p n,
        Nat.mul_div_assoc _ (Nat.gcd_dvd_right n p)]
    have hmul : p * i ≡ p * j [MOD p * (n / n.gcd p)] := Nat.ModEq.mul_left' p h
    rw [hround] at hmul
    exact Nat.ModEq.add_left start hmul.of_mul_right

/-- **Every so many turns.**  Turns that are `p` apart serve `n / gcd n p` positions, unless there
are fewer of them; then they serve a position each.

**Proof sketch.** The positions come round after that many of these turns (`stride_mod_eq_iff`), and
the turns before serve different ones. -/
theorem ncard_image_stride (hn : 0 < n) (p start count : ℕ) :
    ((fun j => (start + p * j) % n) '' Set.Iio count).ncard = min count (n / n.gcd p) := by
  have hround : 0 < n / n.gcd p :=
    Nat.div_pos (Nat.gcd_le_left p hn) (Nat.gcd_pos_of_pos_left p hn)
  have himage : (fun j => (start + p * j) % n) '' Set.Iio count =
      (fun j => (start + p * j) % n) '' Set.Iio (min count (n / n.gcd p)) := by
    apply Set.Subset.antisymm
    · rintro _ ⟨j, hj, rfl⟩
      refine ⟨j % (n / n.gcd p), ?_, ?_⟩
      · have hlt := Nat.mod_lt j hround
        have hle := Nat.mod_le j (n / n.gcd p)
        rw [Set.mem_Iio] at hj ⊢
        omega
      · exact (stride_mod_eq_iff hn start _ j).mpr (Nat.mod_mod _ _)
    · exact Set.image_mono (Set.Iio_subset_Iio (min_le_left _ _))
  have hinj : Set.InjOn (fun j => (start + p * j) % n) (Set.Iio (min count (n / n.gcd p))) := by
    intro i hi j hj h
    rw [Set.mem_Iio, lt_min_iff] at hi hj
    have hmod := (stride_mod_eq_iff hn start i j).mp h
    rwa [Nat.mod_eq_of_lt hi.2, Nat.mod_eq_of_lt hj.2] at hmod
  rw [himage, hinj.ncard_image, ← Finset.coe_Iio, Set.ncard_coe_finset, Nat.card_Iio]

end Rotation
