import Mathlib.Data.List.FinRange
import KvRoute.Lib.Slices

set_option relaxedAutoImplicit false
set_option autoImplicit false

/-!
# Operations that may panic

The partial operations of a language whose arithmetic and indexing are checked: each either has a
value or panics, and a panic ends the computation.  A computation whose operations are all in range
is the plain computation on values.

## Main definitions

* `Panic`, `Checked` — why a computation ended, and computations that may.
* `Checked.sub`, `rem`, `divCeil`, `index`, `chunks` — the operations.

## Main results

* `Checked.sub_eq`, `rem_eq`, `divCeil_eq`, `index_eq`, `chunks_eq` — in range they have a value.
* `Checked.foldlM_eq` — a loop whose turns are in range.
-/

/-- Why a computation panics. -/
inductive Panic where
  /-- A subtraction below zero. -/
  | subtract (a b : ℕ)
  /-- A remainder or a quotient by zero. -/
  | divideByZero
  /-- An index past the end of a slice. -/
  | index (len i : ℕ)
  /-- Chunks of length zero. -/
  | chunkSize
  /-- A length of time that does not fit its type. -/
  | duration
deriving DecidableEq, Repr

/-- A computation that may panic. -/
abbrev Checked (α : Type*) := Except Panic α

namespace Checked

variable {α β : Type}

/-- Subtraction. -/
def sub (a b : ℕ) : Checked ℕ := if b ≤ a then pure (a - b) else throw (.subtract a b)

/-- Remainder. -/
def rem (a b : ℕ) : Checked ℕ := if b = 0 then throw .divideByZero else pure (a % b)

/-- Quotient, rounded up. -/
def divCeil (a b : ℕ) : Checked ℕ := if b = 0 then throw .divideByZero else pure ((a + b - 1) / b)

/-- The element at an index. -/
def index (l : List α) (i : ℕ) : Checked α :=
  match l[i]? with
  | some a => pure a
  | none => throw (.index l.length i)

/-- The consecutive pieces of length `n`. -/
def chunks (n : ℕ) (l : List α) : Checked (List (List α)) :=
  if n = 0 then throw .chunkSize else pure (Slices.chunks n l)

/-! ## Operations in range -/

theorem sub_eq {a b : ℕ} (h : b ≤ a) : sub a b = pure (a - b) := if_pos h

theorem rem_eq {a b : ℕ} (h : 0 < b) : rem a b = pure (a % b) := if_neg h.ne'

theorem divCeil_eq {a b : ℕ} (h : 0 < b) : divCeil a b = pure ((a + b - 1) / b) := if_neg h.ne'

theorem index_eq {l : List α} {i : ℕ} (h : i < l.length) : index l i = pure l[i] := by
  rw [index, List.getElem?_eq_getElem h]

theorem chunks_eq {n : ℕ} (h : 0 < n) (l : List α) : chunks n l = pure (Slices.chunks n l) :=
  if_neg h.ne'

/-- The element at an index of the list of all indices. -/
theorem index_finRange {n i : ℕ} (h : i < n) : index (List.finRange n) i = pure ⟨i, h⟩ := by
  have hlen : i < (List.finRange n).length := by simpa using h
  rw [index_eq hlen]
  simp

/-! ## Loops -/

/-- A loop whose turns are all in range. -/
theorem foldlM_eq {f : β → α → Checked β} {g : β → α → β} (h : ∀ b a, f b a = pure (g b a))
    (b : β) (l : List α) : l.foldlM f b = pure (l.foldl g b) := by
  rw [show f = fun b a => pure (g b a) from funext fun b => funext fun a => h b a]
  exact List.foldlM_pure

end Checked
