import Mathlib.Data.Rat.Cast.Order
import Mathlib.Order.Compare
import Mathlib.Order.WithBot

set_option relaxedAutoImplicit false
set_option autoImplicit false

/-!
# Floating-point values up to rounding

The values of an IEEE 754 format as the ordering of results sees them: finite numbers, which
are rational, the two infinities and NaN (the two zeros compare equal and are not
distinguished).  An operation on finite numbers is the exact operation followed by a rounding,
which is a parameter: it may lose digits and overflow, but never produces NaN.

## Main definitions

* `F64` — finite, `posInf`, `negInf` or `nan`, with the partial comparison `F64.partialCmp`.
* `F64.Rounding` — how exact results become floating-point values; `F64.Rounding.exact`.
* `F64.mul`, `F64.sub`, `F64.add`, `F64.div`, `F64.ofNat` — the operations under a rounding.
* `F64.sum`, `F64.mean` — sums and means of lists.
* `F64.NotAbove`, `F64.Rounding.Monotone` — the order, and the roundings that keep it.
* `F64.key` — the place of a number or an infinity in the order.

## Main results

* `F64.partialCmp_eq_compare_key` — the values other than NaN are linearly ordered.
* `F64.mean_exact` — means of numbers in exact arithmetic.
* `F64.mul_notAbove`, `F64.sub_notAbove` — the operations under a rounding that keeps the order.
* `F64.div_ofNat_mem_Icc` — the ratio of two counts is a number of the unit interval.
-/

/-- A floating-point value. -/
inductive F64 where
  /-- A finite number. -/
  | finite (q : ℚ)
  /-- `+∞`. -/
  | posInf
  /-- `-∞`. -/
  | negInf
  /-- Not a number. -/
  | nan
deriving DecidableEq, Repr

namespace F64

/-- The comparison of two values; NaN compares with nothing. -/
@[grind =] def partialCmp : F64 → F64 → Option Ordering
  | nan, _ => none
  | _, nan => none
  | finite p, finite q => some (compare p q)
  | posInf, posInf => some .eq
  | negInf, negInf => some .eq
  | posInf, _ => some .gt
  | _, posInf => some .lt
  | negInf, _ => some .lt
  | _, negInf => some .gt

@[simp] theorem nan_partialCmp (a : F64) : nan.partialCmp a = none := by cases a <;> rfl

@[simp] theorem partialCmp_nan (a : F64) : a.partialCmp nan = none := by cases a <;> rfl

/-- A rounding of exact results, possibly to an infinity. -/
structure Rounding where
  /-- The floating-point value that stands for the exact result. -/
  round : ℚ → F64
  /-- Rounding a number yields a number. -/
  round_ne_nan : ∀ q, round q ≠ nan

/-- Exact arithmetic. -/
def Rounding.exact : Rounding := ⟨finite, fun _ => nofun⟩

variable (fl : Rounding)

/-- The conversion of an integer. -/
def ofNat (n : ℕ) : F64 := fl.round n

/-- The infinity with the sign of `q`, and NaN for the product of an infinity with zero. -/
def infOfSign (q : ℚ) : F64 := if q = 0 then nan else if 0 < q then posInf else negInf

/-- Multiplication. -/
def mul : F64 → F64 → F64
  | nan, _ => nan
  | _, nan => nan
  | finite p, finite q => fl.round (p * q)
  | finite p, posInf => infOfSign p
  | posInf, finite q => infOfSign q
  | finite p, negInf => infOfSign (-p)
  | negInf, finite q => infOfSign (-q)
  | posInf, posInf => posInf
  | negInf, negInf => posInf
  | posInf, negInf => negInf
  | negInf, posInf => negInf

/-- Subtraction. -/
def sub : F64 → F64 → F64
  | nan, _ => nan
  | _, nan => nan
  | finite p, finite q => fl.round (p - q)
  | posInf, posInf => nan
  | negInf, negInf => nan
  | posInf, _ => posInf
  | negInf, _ => negInf
  | finite _, posInf => negInf
  | finite _, negInf => posInf

/-- Addition. -/
def add : F64 → F64 → F64
  | nan, _ => nan
  | _, nan => nan
  | finite p, finite q => fl.round (p + q)
  | posInf, negInf => nan
  | negInf, posInf => nan
  | posInf, _ => posInf
  | _, posInf => posInf
  | negInf, _ => negInf
  | _, negInf => negInf

/-- Division; a zero that is divided by is taken as positive. -/
def div : F64 → F64 → F64
  | nan, _ => nan
  | _, nan => nan
  | finite p, finite q => if q = 0 then infOfSign p else fl.round (p / q)
  | finite _, posInf => finite 0
  | finite _, negInf => finite 0
  | posInf, finite q => if 0 ≤ q then posInf else negInf
  | negInf, finite q => if 0 ≤ q then negInf else posInf
  | posInf, posInf => nan
  | posInf, negInf => nan
  | negInf, posInf => nan
  | negInf, negInf => nan

/-- The sum of a list, added up from its head. -/
def sum (values : List F64) : F64 := values.foldl (add fl) (finite 0)

/-- The arithmetic mean of a list, if it is not empty. -/
def mean (values : List F64) : Option F64 :=
  if values = [] then none else some (div fl (sum fl values) (ofNat fl values.length))

/-- Only the empty list has no mean. -/
theorem mean_eq_none {values : List F64} : mean fl values = none ↔ values = [] := by
  rw [mean]
  split_ifs with h <;> simp [h]

/-- In exact arithmetic, sums of numbers are sums. -/
theorem sum_exact (qs : List ℚ) : sum .exact (qs.map finite) = finite qs.sum := by
  have hfrom : ∀ q : ℚ, (qs.map finite).foldl (add .exact) (finite q) = finite (q + qs.sum) := by
    induction qs with
    | nil => exact fun q => congrArg finite (add_zero q).symm
    | cons p qs ih =>
      intro q
      rw [List.map_cons, List.foldl_cons, List.sum_cons, ← add_assoc]
      exact ih (q + p)
  rw [sum, hfrom, zero_add]

/-- In exact arithmetic, the mean of numbers is their sum divided by how many they are. -/
theorem mean_exact {qs : List ℚ} (hne : qs ≠ []) :
    mean .exact (qs.map finite) = some (finite (qs.sum / qs.length)) := by
  have hlen : (qs.length : ℚ) ≠ 0 := by
    rw [Nat.cast_ne_zero]
    exact List.length_eq_zero_iff.not.mpr hne
  rw [mean, if_neg (by simpa using hne), sum_exact, List.length_map]
  exact congrArg some (if_neg hlen)

/-- Whether a value is a number. -/
def isFinite : F64 → Bool
  | finite _ => true
  | _ => false

/-! ## Order -/

/-- A value is not above another: it is below it or equal to it, or one of the two is NaN. -/
def NotAbove (a b : F64) : Prop := a.partialCmp b ≠ some .gt

/-- A value is a number that is at least zero, or `+∞`. -/
def Nonneg : F64 → Prop
  | finite q => 0 ≤ q
  | posInf => True
  | negInf => False
  | nan => False

/-- A rounding that keeps the order and is exact on zero, as all IEEE 754 roundings are. -/
structure Rounding.Monotone (fl : Rounding) : Prop where
  /-- Zero is representable. -/
  round_zero : fl.round 0 = finite 0
  /-- The order is kept. -/
  round_le : ∀ {p q}, p ≤ q → (fl.round p).NotAbove (fl.round q)

theorem Rounding.monotone_exact : Rounding.exact.Monotone where
  round_zero := rfl
  round_le {p q} h := by
    rw [NotAbove, exact, partialCmp, Ne, Option.some.injEq, compare_gt_iff_gt, not_lt]
    exact h

theorem notAbove_finite {p q : ℚ} : (finite p).NotAbove (finite q) ↔ p ≤ q := by
  rw [NotAbove, partialCmp, Ne, Option.some.injEq, compare_gt_iff_gt, not_lt]

@[simp] theorem notAbove_posInf (a : F64) : a.NotAbove posInf := by
  cases a <;> simp [NotAbove, partialCmp]

@[simp] theorem negInf_notAbove (a : F64) : negInf.NotAbove a := by
  cases a <;> simp [NotAbove, partialCmp]

@[simp] theorem nan_notAbove (a : F64) : nan.NotAbove a := by
  cases a <;> simp [NotAbove, partialCmp]

@[simp] theorem notAbove_nan (a : F64) : a.NotAbove nan := by
  cases a <;> simp [NotAbove, partialCmp]

@[simp] theorem not_posInf_notAbove_finite (q : ℚ) : ¬posInf.NotAbove (finite q) := by
  simp [NotAbove, partialCmp]

@[simp] theorem not_finite_notAbove_negInf (q : ℚ) : ¬(finite q).NotAbove negInf := by
  simp [NotAbove, partialCmp]

@[simp] theorem not_posInf_notAbove_negInf : ¬posInf.NotAbove negInf := by
  simp [NotAbove, partialCmp]

/-- What is not below the other way around is not above. -/
theorem notAbove_iff_ne_lt {a b : F64} : b.NotAbove a ↔ a.partialCmp b ≠ some .lt := by
  cases a <;> cases b <;> simp [NotAbove, partialCmp, compare_gt_iff_gt, compare_lt_iff_lt]

/-- The place of a value in the order of numbers and infinities; NaN has none, and gets the
lowest. -/
def key : F64 → WithBot (WithTop ℚ)
  | finite q => ((q : WithTop ℚ) : WithBot (WithTop ℚ))
  | posInf => ((⊤ : WithTop ℚ) : WithBot (WithTop ℚ))
  | negInf | nan => ⊥

/-- The comparison of values other than NaN is that of their places in a linear order. -/
theorem partialCmp_eq_compare_key {a b : F64} (ha : a ≠ nan) (hb : b ≠ nan) :
    a.partialCmp b = some (compare a.key b.key) := by
  have hbelow : a.key < b.key → some .lt = some (compare a.key b.key) :=
    fun h => congrArg some (compare_lt_iff_lt.mpr h).symm
  have habove : b.key < a.key → some .gt = some (compare a.key b.key) :=
    fun h => congrArg some (compare_gt_iff_gt.mpr h).symm
  cases a with
  | nan => exact absurd rfl ha
  | finite p =>
    cases b with
    | nan => exact absurd rfl hb
    | finite q =>
      rw [partialCmp]
      rcases lt_trichotomy p q with hlt | rfl | hgt
      · rw [compare_lt_iff_lt.mpr hlt]
        exact hbelow (WithBot.coe_lt_coe.mpr (WithTop.coe_lt_coe.mpr hlt))
      · simp
      · rw [compare_gt_iff_gt.mpr hgt]
        exact habove (WithBot.coe_lt_coe.mpr (WithTop.coe_lt_coe.mpr hgt))
    | posInf => exact hbelow (WithBot.coe_lt_coe.mpr (WithTop.coe_lt_top p))
    | negInf => exact habove (WithBot.bot_lt_coe _)
  | posInf =>
    cases b with
    | nan => exact absurd rfl hb
    | finite q => exact habove (WithBot.coe_lt_coe.mpr (WithTop.coe_lt_top q))
    | posInf => simp [partialCmp]
    | negInf => exact habove (WithBot.bot_lt_coe _)
  | negInf =>
    cases b with
    | nan => exact absurd rfl hb
    | finite q => exact hbelow (WithBot.bot_lt_coe _)
    | posInf => exact hbelow (WithBot.bot_lt_coe _)
    | negInf => simp [partialCmp]

/-- Exchanging the two values reverses the comparison. -/
theorem partialCmp_swap (a b : F64) :
    ((a.partialCmp b).getD .eq).swap = (b.partialCmp a).getD .eq := by
  cases a <;> cases b <;> simp [partialCmp, Std.OrientedOrd.eq_swap (α := ℚ) |>.symm]

theorem partialCmp_self (a : F64) : (a.partialCmp a).getD .eq = .eq := by
  cases a <;> simp [partialCmp]

section Monotone

variable {fl} (h : fl.Monotone)

include h

/-- Rounding a nonnegative number gives a nonnegative value. -/
theorem Rounding.Monotone.nonneg_round {q : ℚ} (hq : 0 ≤ q) : (fl.round q).Nonneg := by
  have hle := h.round_le hq
  rw [h.round_zero] at hle
  cases hround : fl.round q with
  | finite p =>
    rw [hround] at hle
    exact notAbove_finite.mp hle
  | posInf => trivial
  | negInf => exact absurd (hround ▸ hle) (not_finite_notAbove_negInf 0)
  | nan => exact fl.round_ne_nan q hround

/-- Larger factors give products that are not below. -/
theorem mul_notAbove {a b c : F64} (ha : a.Nonneg) (hb : b.Nonneg) (hc : c.Nonneg)
    (hab : a.NotAbove b) : (mul fl a c).NotAbove (mul fl b c) := by
  cases c with
  | nan => exact hc.elim
  | negInf => exact hc.elim
  | posInf =>
    cases a with
    | nan => exact ha.elim
    | negInf => exact ha.elim
    | posInf =>
      cases b with
      | nan => exact hb.elim
      | negInf => exact hb.elim
      | posInf => exact notAbove_posInf _
      | finite q => exact absurd hab (not_posInf_notAbove_finite q)
    | finite p =>
      cases b with
      | nan => exact hb.elim
      | negInf => exact hb.elim
      | posInf => exact notAbove_posInf _
      | finite q =>
        have hpq : p ≤ q := notAbove_finite.mp hab
        rw [mul, mul, infOfSign, infOfSign]
        rcases (show 0 ≤ p from ha).eq_or_lt with rfl | hp
        · simp
        · rw [if_neg (hp.trans_le hpq).ne', if_pos (hp.trans_le hpq)]
          exact notAbove_posInf _
  | finite r =>
    cases a with
    | nan => exact ha.elim
    | negInf => exact ha.elim
    | posInf =>
      cases b with
      | nan => exact hb.elim
      | negInf => exact hb.elim
      | posInf =>
        rw [mul, infOfSign]
        split_ifs <;> simp
      | finite q => exact absurd hab (not_posInf_notAbove_finite q)
    | finite p =>
      cases b with
      | nan => exact hb.elim
      | negInf => exact hb.elim
      | posInf =>
        rw [mul, mul, infOfSign]
        rcases (show 0 ≤ r from hc).eq_or_lt with rfl | hr
        · simp
        · rw [if_neg hr.ne', if_pos hr]
          exact notAbove_posInf _
      | finite q =>
        exact h.round_le (mul_le_mul_of_nonneg_right (notAbove_finite.mp hab) hc)

/-- Subtracting more from a number gives a value that is not above. -/
theorem sub_notAbove (p : ℚ) {a b : F64} (hab : a.NotAbove b) :
    (sub fl (finite p) b).NotAbove (sub fl (finite p) a) := by
  cases a with
  | nan => exact notAbove_nan _
  | negInf => exact notAbove_posInf _
  | posInf =>
    cases b with
    | nan => exact nan_notAbove _
    | negInf => exact absurd hab not_posInf_notAbove_negInf
    | posInf => exact negInf_notAbove _
    | finite q => exact absurd hab (not_posInf_notAbove_finite q)
  | finite q =>
    cases b with
    | nan => exact nan_notAbove _
    | negInf => exact absurd hab (not_finite_notAbove_negInf q)
    | posInf => exact negInf_notAbove _
    | finite q' => exact h.round_le (sub_le_sub_left (notAbove_finite.mp hab) p)

/-- Subtracting from a value that is not above gives a value that is not above. -/
theorem sub_notAbove_left {a b : F64} (c : F64) (hab : a.NotAbove b) :
    (sub fl a c).NotAbove (sub fl b c) := by
  cases c with
  | nan => cases a <;> cases b <;> simp [sub]
  | posInf => cases a <;> cases b <;> simp_all [sub]
  | negInf => cases a <;> cases b <;> simp_all [sub]
  | finite r =>
    cases a <;> cases b <;> simp_all [sub]
    case finite.finite p q =>
      apply h.round_le
      have hpq := notAbove_finite.mp hab
      exact sub_le_sub_right hpq r

end Monotone

end F64
