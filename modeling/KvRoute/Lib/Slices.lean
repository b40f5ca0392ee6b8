import Mathlib.Data.List.Infix
import Mathlib.Order.Lattice

set_option relaxedAutoImplicit false
set_option autoImplicit false

/-!
# Chunks, windows and common prefixes of slices

The two ways of walking a slice in pieces: `chunks n`, the consecutive pieces of length `n`,
the last one possibly shorter, and `windows n`, all contiguous pieces of length exactly `n`,
overlaps included.  And how far two slices agree from the front, or one satisfies a predicate,
and which element of a slice is the greatest.

## Main results

* `Slices.take_chunks` — the first chunks are those of a head of the slice.
* `Slices.take_chunks_of_prefix` — a prefix has its full chunks in common with the whole.
* `Slices.any_windows_eq_iff` — some window is `w` exactly when `w` is an infix.
* `Slices.le_commonPrefix_iff`, `Slices.le_length_takeWhile_iff` — lower bounds on how far two
  slices agree, and on how far a predicate holds.
* `Slices.key_le_of_maxBy_eq_some`, `Slices.maxBy_map` — the greatest element in a linear order,
  and in an image.
* `Slices.maxBy_eq_some_of_forall_gt` — an element above all others is the greatest in any order.
-/

namespace Slices

variable {α : Type*}

/-- The consecutive pieces of `l` of length `n`, the last one possibly shorter. -/
def chunks (n : ℕ) (l : List α) : List (List α) :=
  (List.range ((l.length + n - 1) / n)).map fun i => (l.drop (n * i)).take n

/-- The contiguous pieces of `l` of length `n`. -/
def windows (n : ℕ) (l : List α) : List (List α) :=
  (List.range (l.length + 1 - n)).map fun i => (l.drop i).take n

theorem length_chunks (n : ℕ) (l : List α) : (chunks n l).length = (l.length + n - 1) / n := by
  rw [chunks, List.length_map, List.length_range]

/-- There are at least as many pieces as full ones. -/
theorem div_le_length_chunks (n : ℕ) (l : List α) : l.length / n ≤ (chunks n l).length := by
  rw [length_chunks]
  rcases Nat.eq_zero_or_pos n with rfl | hn
  · simp
  · exact Nat.div_le_div_right (by omega)

/-- The full pieces of a prefix are pieces of the whole. -/
theorem take_chunks_of_prefix {l l' : List α} (h : l <+: l') (n : ℕ) :
    (chunks n l).take (l.length / n) = (chunks n l').take (l.length / n) := by
  obtain ⟨t, rfl⟩ := h
  have hfull : l.length / n ≤ (l.length + n - 1) / n := by
    rw [← length_chunks]
    exact div_le_length_chunks n l
  have hfull' : l.length / n ≤ ((l ++ t).length + n - 1) / n := by
    refine hfull.trans (Nat.div_le_div_right ?_)
    rw [List.length_append]
    omega
  rw [chunks, chunks, ← List.map_take, ← List.map_take, List.take_range, List.take_range,
    min_eq_left hfull, min_eq_left hfull']
  refine List.map_congr_left fun i hi => ?_
  have hi' : n * (i + 1) ≤ l.length := by
    have hlt : i + 1 ≤ l.length / n := List.mem_range.mp hi
    exact (Nat.mul_le_mul_left n hlt).trans (Nat.mul_div_le l.length n)
  rw [Nat.mul_succ] at hi'
  rw [List.drop_append_of_le_length (by omega),
    List.take_append_of_le_length (by rw [List.length_drop]; omega)]

/-- The first pieces make up the beginning. -/
theorem flatten_take_chunks {n : ℕ} (hn : 0 < n) (l : List α) (k : ℕ) :
    ((chunks n l).take k).flatten = l.take (n * k) := by
  have hstep : ∀ k, ((List.range k).map fun i => (l.drop (n * i)).take n).flatten =
      l.take (n * k) := by
    intro k
    induction k with
    | zero => simp
    | succ k ih =>
      rw [List.range_succ, List.map_append, List.flatten_append, ih, Nat.mul_succ, List.take_add]
      simp
  rw [chunks, ← List.map_take, List.take_range, hstep]
  rcases le_total k ((l.length + n - 1) / n) with hk | hk
  · rw [min_eq_left hk]
  · have hdiv := Nat.div_add_mod (l.length + n - 1) n
    have hmod := Nat.mod_lt (l.length + n - 1) hn
    have hall : l.length ≤ n * ((l.length + n - 1) / n) := by omega
    rw [min_eq_right hk, List.take_of_length_le hall,
      List.take_of_length_le (hall.trans (Nat.mul_le_mul_left n hk))]

/-- The pieces make up the whole. -/
theorem flatten_chunks {n : ℕ} (hn : 0 < n) (l : List α) : (chunks n l).flatten = l := by
  have hdiv := Nat.div_add_mod (l.length + n - 1) n
  have hmod := Nat.mod_lt (l.length + n - 1) hn
  have hall : l.length ≤ n * (chunks n l).length := by
    rw [length_chunks]
    omega
  have hflatten := flatten_take_chunks hn l (chunks n l).length
  rwa [List.take_length, List.take_of_length_le hall] at hflatten

/-- Some window of `l` of the length of `w` equals `w` exactly when `w` is an infix of `l`. -/
theorem any_windows_eq_iff [DecidableEq α] (w l : List α) :
    (windows w.length l).any (· == w) = true ↔ w <:+: l := by
  simp only [windows, List.any_map, List.any_eq_true, List.mem_range, Function.comp_apply,
    beq_iff_eq]
  constructor
  · rintro ⟨i, -, hw⟩
    have hdrop := List.take_append_drop w.length (l.drop i)
    rw [hw] at hdrop
    exact ⟨l.take i, (l.drop i).drop w.length, by
      rw [List.append_assoc, hdrop, List.take_append_drop]⟩
  · rintro ⟨pre, post, rfl⟩
    exact ⟨pre.length, by simp; omega, by simp⟩

/-- How many leading elements two lists have in common. -/
def commonPrefix [DecidableEq α] : List α → List α → ℕ
  | a :: l, b :: l' => if a = b then commonPrefix l l' + 1 else 0
  | _, _ => 0

/-- Two lists have at least `k` leading elements in common exactly when both are that long and
their first `k` elements agree. -/
theorem le_commonPrefix_iff [DecidableEq α] {l l' : List α} {k : ℕ} :
    k ≤ commonPrefix l l' ↔ k ≤ l.length ∧ l.take k = l'.take k := by
  induction l generalizing l' k with
  | nil => cases k <;> simp [commonPrefix]
  | cons a l ih =>
    cases k with
    | zero => simp
    | succ k =>
      cases l' with
      | nil => simp [commonPrefix]
      | cons b l' =>
        by_cases hab : a = b
        · simp [commonPrefix, hab, ih]
        · simp [commonPrefix, hab]

/-- A predicate holds of at least the first `k` elements. -/
theorem le_length_takeWhile_iff {p : α → Bool} {l : List α} {k : ℕ} :
    k ≤ (l.takeWhile p).length ↔ k ≤ l.length ∧ ∀ a ∈ l.take k, p a = true := by
  induction l generalizing k with
  | nil => cases k <;> simp
  | cons a l ih =>
    cases k with
    | zero => simp
    | succ k =>
      by_cases ha : p a = true
      · simp [ha, ih]
      · simp [ha]

/-- The last of the greatest elements of a list: a running maximum that a later element replaces
unless it is smaller. -/
def maxBy (cmp : α → α → Ordering) : List α → Option α
  | [] => none
  | a :: l => some (l.foldl (fun x y => if cmp x y = .gt then x else y) a)

@[simp] theorem maxBy_eq_none {cmp : α → α → Ordering} {l : List α} :
    maxBy cmp l = none ↔ l = [] := by
  cases l <;> simp [maxBy]

/-- The greatest element is an element. -/
theorem mem_of_maxBy_eq_some {cmp : α → α → Ordering} {l : List α} {a : α}
    (h : maxBy cmp l = some a) : a ∈ l := by
  cases l with
  | nil => cases h
  | cons b l =>
    obtain rfl := Option.some.inj h
    clear h
    induction l generalizing b with
    | nil => exact List.mem_singleton_self b
    | cons c l ih =>
      rw [List.foldl_cons]
      by_cases hgt : cmp b c = .gt
      · rw [if_pos hgt]
        rcases List.mem_cons.mp (ih b) with heq | hmem
        · rw [heq]
          exact List.mem_cons_self
        · exact List.mem_cons_of_mem _ (List.mem_cons_of_mem _ hmem)
      · rw [if_neg hgt]
        exact List.mem_cons_of_mem _ (ih c)

/-- Where the comparison is that of a key in a linear order, the greatest element has the
greatest key. -/
theorem key_le_of_maxBy_eq_some {β : Type*} [LinearOrder β] {cmp : α → α → Ordering} {key : α → β}
    {l : List α} (hcmp : ∀ a ∈ l, ∀ b ∈ l, cmp a b = .gt ↔ key b < key a) {m : α}
    (h : maxBy cmp l = some m) : ∀ a ∈ l, key a ≤ key m := by
  cases l with
  | nil => cases h
  | cons b l =>
    obtain rfl := Option.some.inj h
    clear h
    induction l generalizing b with
    | nil =>
      intro a ha
      rw [List.mem_singleton.mp ha]
      exact le_rfl
    | cons c l ih =>
      -- the element kept after the first comparison is above both
      obtain ⟨d, hd, hbd, hcd, hfold⟩ : ∃ d, (d = b ∨ d = c) ∧ key b ≤ key d ∧ key c ≤ key d ∧
          (c :: l).foldl (fun x y => if cmp x y = .gt then x else y) b =
            l.foldl (fun x y => if cmp x y = .gt then x else y) d := by
        have hiff := hcmp b List.mem_cons_self c (List.mem_cons_of_mem _ List.mem_cons_self)
        by_cases hgt : cmp b c = .gt
        · exact ⟨b, Or.inl rfl, le_rfl, (hiff.mp hgt).le, by rw [List.foldl_cons, if_pos hgt]⟩
        · exact ⟨c, Or.inr rfl, not_lt.mp fun hlt => hgt (hiff.mpr hlt), le_rfl,
            by rw [List.foldl_cons, if_neg hgt]⟩
      have hsub : ∀ a ∈ d :: l, a ∈ b :: c :: l := by
        intro a ha
        rcases List.mem_cons.mp ha with rfl | ha
        · rcases hd with rfl | rfl
          · exact List.mem_cons_self
          · exact List.mem_cons_of_mem _ List.mem_cons_self
        · exact List.mem_cons_of_mem _ (List.mem_cons_of_mem _ ha)
      have ih := ih d fun x hx y hy => hcmp x (hsub x hx) y (hsub y hy)
      intro a ha
      rw [hfold]
      rcases List.mem_cons.mp ha with rfl | ha
      · exact hbd.trans (ih d List.mem_cons_self)
      · rcases List.mem_cons.mp ha with rfl | ha
        · exact hcd.trans (ih d List.mem_cons_self)
        · exact ih a (List.mem_cons_of_mem _ ha)

/-- An element that is above every other one is the greatest, whatever the comparison makes of the
others. -/
theorem maxBy_eq_some_of_forall_gt {cmp : α → α → Ordering} {l : List α} {m : α} (hm : m ∈ l)
    (hgt : ∀ a ∈ l, a ≠ m → cmp m a = .gt ∧ cmp a m ≠ .gt) : maxBy cmp l = some m := by
  cases l with
  | nil => cases hm
  | cons b l =>
    rw [maxBy, Option.some.injEq]
    induction l generalizing b with
    | nil => exact (List.mem_singleton.mp hm).symm
    | cons c l ih =>
      rw [List.foldl_cons]
      have hb := hgt b List.mem_cons_self
      have hc := hgt c (List.mem_cons_of_mem _ List.mem_cons_self)
      by_cases hkept : cmp b c = .gt
      · -- `c` is dropped, so it is not `m`, or it is and so was `b`
        rw [if_pos hkept]
        refine ih b ?_ fun a ha => hgt a ?_
        · rcases List.mem_cons.mp hm with rfl | hm
          · exact List.mem_cons_self
          · rcases List.mem_cons.mp hm with rfl | hm
            · by_cases hbm : b = m
              · rw [hbm]
                exact List.mem_cons_self
              · exact absurd hkept (hb hbm).2
            · exact List.mem_cons_of_mem _ hm
        · rcases List.mem_cons.mp ha with rfl | ha
          · exact List.mem_cons_self
          · exact List.mem_cons_of_mem _ (List.mem_cons_of_mem _ ha)
      · rw [if_neg hkept]
        refine ih c ?_ fun a ha => hgt a (List.mem_cons_of_mem _ ha)
        rcases List.mem_cons.mp hm with rfl | hm
        · by_cases hcm : c = m
          · rw [hcm]
            exact List.mem_cons_self
          · exact absurd (hc hcm).1 hkept
        · exact hm

/-- The greatest element of a list that is the image of another, under a comparison that the two
share. -/
theorem maxBy_map {β : Type*} {cmp : α → α → Ordering} {cmp' : β → β → Ordering} {f : α → β}
    {l : List α} (hcmp : ∀ a ∈ l, ∀ b ∈ l, cmp' (f a) (f b) = cmp a b) :
    maxBy cmp' (l.map f) = (maxBy cmp l).map f := by
  cases l with
  | nil => rfl
  | cons a l =>
    rw [List.map_cons, maxBy, maxBy, Option.map_some]
    congr 1
    induction l generalizing a with
    | nil => rfl
    | cons b l ih =>
      rw [List.map_cons, List.foldl_cons, List.foldl_cons,
        hcmp a List.mem_cons_self b (List.mem_cons_of_mem _ List.mem_cons_self)]
      split_ifs
      · refine ih a fun x hx y hy => hcmp x ?_ y ?_
        · exact (List.mem_cons.mp hx).elim (fun h => h ▸ List.mem_cons_self)
            fun h => List.mem_cons_of_mem _ (List.mem_cons_of_mem _ h)
        · exact (List.mem_cons.mp hy).elim (fun h => h ▸ List.mem_cons_self)
            fun h => List.mem_cons_of_mem _ (List.mem_cons_of_mem _ h)
      · exact ih b fun x hx y hy =>
          hcmp x (List.mem_cons_of_mem _ hx) y (List.mem_cons_of_mem _ hy)

end Slices
