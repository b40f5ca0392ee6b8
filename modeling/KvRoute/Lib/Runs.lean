import Mathlib.Data.List.Basic

set_option relaxedAutoImplicit false
set_option autoImplicit false

/-!
# Runs of a deterministic step function

A system is a state type `σ`, an action type `α` and a step function; a run is a list of
actions, and the state after it is `List.foldl step`.  A property of single steps is lifted to
every step of a run (`Runs.Along`), and a system with answers is compared with a relational
specification step by step (`Runs.Refines`).

## Main definitions

* `Runs.Along` — a property of the state before a step and the action, at every step.
* `Runs.Refines` — a run coupled with a run of a specification that gives the same answers.
* `Runs.replies`, `Runs.repliesTo` — the answers of a run, to all or to one party's actions.

## Main results

* `Runs.foldl_inv`, `Along.foldl_inv` — an invariant kept by every step holds after the run.
* `Runs.along_iff_of_inv` — a step condition equivalent to a property under an invariant that
  the condition keeps up is equivalent to the property along whole runs.
* `Runs.foldl_flag` — when a flag that actions set and clear is set after a run.
* `Runs.refines_of_simulation` — a simulation couples every run.
* `Runs.repliesTo_eq_replies` — others do not interfere, if they do not in one step.
-/

namespace Runs

section Steps

variable {σ α : Type*} {step : σ → α → σ} {P Q C A : σ → α → Prop} {I : σ → Prop}

/-- `P` holds at every step of the run `as` from `s`, of the state before the step and the
action taken. -/
def Along (step : σ → α → σ) (P : σ → α → Prop) : σ → List α → Prop
  | _, [] => True
  | s, a :: as => P s a ∧ Along step P (step s a) as

@[simp] theorem along_nil (s : σ) : Along step P s [] := trivial

@[simp] theorem along_cons (s : σ) (a : α) (as : List α) :
    Along step P s (a :: as) ↔ P s a ∧ Along step P (step s a) as := Iff.rfl

/-- A run split in two. -/
theorem along_append (s : σ) (as bs : List α) :
    Along step P s (as ++ bs) ↔ Along step P s as ∧ Along step P (as.foldl step s) bs := by
  induction as generalizing s with
  | nil => simp
  | cons a as ih => simp [ih, and_assoc]

/-- The step property at one given step of a run. -/
theorem Along.at_step {s : σ} {as bs : List α} {a : α} (h : Along step P s (as ++ a :: bs)) :
    P (as.foldl step s) a := ((along_append s as (a :: bs)).mp h).2.1

/-- A property of every step, from the property at each splitting of the run. -/
theorem along_of_forall {s : σ} {as : List α}
    (h : ∀ pre a post, as = pre ++ a :: post → P (pre.foldl step s) a) : Along step P s as := by
  induction as generalizing s with
  | nil => trivial
  | cons a as ih =>
    refine ⟨h [] a as rfl, ih fun pre b post hsplit => ?_⟩
    exact h (a :: pre) b post (by rw [hsplit]; rfl)

/-- Properties that are equivalent at every step are equivalent along runs. -/
theorem along_congr (h : ∀ s a, P s a ↔ Q s a) (s : σ) (as : List α) :
    Along step P s as ↔ Along step Q s as := by
  induction as generalizing s with
  | nil => rfl
  | cons a as ih => rw [along_cons, along_cons, h, ih]

/-- Two properties of every step. -/
theorem Along.and {s : σ} {as : List α} (hP : Along step P s as) (hQ : Along step Q s as) :
    Along step (fun s a => P s a ∧ Q s a) s as := by
  induction as generalizing s with
  | nil => trivial
  | cons a as ih => exact ⟨⟨hP.1, hQ.1⟩, ih hP.2 hQ.2⟩

/-- An invariant kept by every step holds after every run. -/
theorem foldl_inv (hstep : ∀ s a, I s → I (step s a)) {s : σ} (h : I s) (as : List α) :
    I (as.foldl step s) := by
  induction as generalizing s with
  | nil => exact h
  | cons a as ih => exact ih (hstep s a h)

/-- An invariant kept by every step that satisfies `C` holds after a run all of whose steps
satisfy `C`. -/
theorem Along.foldl_inv (hstep : ∀ s a, I s → C s a → I (step s a)) {s : σ} {as : List α}
    (hC : Along step C s as) (h : I s) : I (as.foldl step s) := by
  induction as generalizing s with
  | nil => exact h
  | cons a as ih => exact ih hC.2 (hstep s a h hC.1)

/-- **Exact conditions.**  Let `I` be kept by the steps that satisfy the condition `C`, among
the admissible ones `A`.  If, in a state with the invariant, an admissible step has the property
`P` exactly when it satisfies `C`, then all steps of an admissible run have `P` exactly when all
of them satisfy `C`.

**Proof sketch.** Induction on the run: the equivalence at the first step turns either side
into `C` there, so the invariant carries over to the rest of the run. -/
theorem along_iff_of_inv (hstep : ∀ s a, I s → A s a → C s a → I (step s a))
    (hiff : ∀ s a, I s → A s a → (P s a ↔ C s a)) {s : σ} {as : List α}
    (hA : Along step A s as) (h : I s) : Along step P s as ↔ Along step C s as := by
  induction as generalizing s with
  | nil => simp
  | cons a as ih =>
    rw [along_cons, along_cons, hiff s a h hA.1]
    exact and_congr_right fun hC => ih hA.2 (hstep s a h hA.1 hC)

end Steps

section Flags

variable {ε : Type*}

/-- Ways to split a non-empty list at an element: at its head, or within its tail. -/
theorem exists_split_cons {P : ε → List ε → Prop} (e : ε) (es : List ε) :
    (∃ pre e' post, e :: es = pre ++ e' :: post ∧ P e' post) ↔
      P e es ∨ ∃ pre e' post, es = pre ++ e' :: post ∧ P e' post := by
  constructor
  · rintro ⟨pre, e', post, hsplit, hP⟩
    cases pre with
    | nil =>
      obtain ⟨rfl, rfl⟩ := List.cons.inj hsplit
      exact Or.inl hP
    | cons a pre => exact Or.inr ⟨pre, e', post, (List.cons.inj hsplit).2, hP⟩
  · rintro (hP | ⟨pre, e', post, hsplit, hP⟩)
    · exact ⟨[], e, es, rfl, hP⟩
    · exact ⟨e :: pre, e', post, by rw [hsplit]; rfl, hP⟩

/-- A flag that some actions set and others clear, after a run: some action set it and no later
one cleared it, or it was set before and no action cleared it.

**Proof sketch.** Induction on the run: the state of the flag after the first action is what the
two cases say of a run that starts there. -/
theorem foldl_flag {act : Bool → ε → Bool} {sets clears : ε → Bool}
    (hact : ∀ b e, act b e = (sets e || (b && !clears e))) (flag : Bool) (es : List ε) :
    es.foldl act flag = true ↔
      (∃ pre e post, es = pre ++ e :: post ∧ sets e = true ∧ ∀ e' ∈ post, clears e' = false) ∨
        flag = true ∧ ∀ e ∈ es, clears e = false := by
  induction es generalizing flag with
  | nil => simp
  | cons e es ih =>
    have hsplit := exists_split_cons (P := fun e post =>
      sets e = true ∧ ∀ e' ∈ post, clears e' = false) e es
    rw [List.foldl_cons, ih, hsplit, hact, Bool.or_eq_true, Bool.and_eq_true, Bool.not_eq_true',
      List.forall_mem_cons, or_and_right, and_assoc, or_left_comm, or_assoc]

end Flags

section Refinement

variable {σ τ α β : Type*} {step : σ → α → σ × β} {Spec : τ → α → β → τ → Prop}
  {Sim : σ → τ → Prop}

/-- The run `as` from `s`, coupled with a run of the specification from `t`: before the first
action and after every action the two states are related by `Sim`, and the specification allows
the very answer the system gives. -/
def Refines (step : σ → α → σ × β) (Spec : τ → α → β → τ → Prop) (Sim : σ → τ → Prop) :
    σ → τ → List α → Prop
  | s, t, [] => Sim s t
  | s, t, a :: as => Sim s t ∧
      ∃ t', Spec t a (step s a).2 t' ∧ Refines step Spec Sim (step s a).1 t' as

/-- **Simulation.**  If from related states every step of the system is matched by a step of
the specification with the same answer into related states, then every run is coupled. -/
theorem refines_of_simulation
    (hsim : ∀ s t a, Sim s t → ∃ t', Spec t a (step s a).2 t' ∧ Sim (step s a).1 t')
    {s : σ} {t : τ} (h : Sim s t) (as : List α) : Refines step Spec Sim s t as := by
  induction as generalizing s t with
  | nil => exact h
  | cons a as ih =>
    obtain ⟨t', hspec, hnext⟩ := hsim s t a h
    exact ⟨h, t', hspec, ih hnext⟩

end Refinement

section Isolation

variable {σ α β : Type*} (step : σ → α → σ × β)

/-- The answers of a run. -/
def replies : σ → List α → List β
  | _, [] => []
  | s, a :: as => (step s a).2 :: replies (step s a).1 as

/-- The answers of a run to the actions of one party. -/
def repliesTo (mine : α → Bool) : σ → List α → List β
  | _, [] => []
  | s, a :: as =>
    if mine a then (step s a).2 :: repliesTo mine (step s a).1 as
    else repliesTo mine (step s a).1 as

variable {step} {mine : α → Bool} {Agree : σ → σ → Prop} {Same : α → α → Prop}

/-- **Unwinding.**  Let two states agree as far as one party can tell.  If its actions are answered
alike in states that agree, and lead to states that agree, and the actions of others lead to states
that agree with those before, then in every run the party gets the answers that it gets when it
acts alone.

**Proof sketch.** Induction on the run: the state that it has reached agrees with the one that the
party alone has reached. -/
theorem repliesTo_eq_replies
    (hmine : ∀ s t a b, mine a = true → Same a b → Agree s t →
      (step s a).2 = (step t b).2 ∧ Agree (step s a).1 (step t b).1)
    (hothers : ∀ s t a, mine a = false → Agree s t → Agree (step s a).1 t)
    {s t : σ} (h : Agree s t) {as bs : List α} (hbs : List.Forall₂ Same (as.filter mine) bs) :
    repliesTo step mine s as = replies step t bs := by
  induction as generalizing s t bs with
  | nil =>
    cases hbs
    rfl
  | cons a as ih =>
    cases ha : mine a with
    | true =>
      rw [List.filter_cons_of_pos ha] at hbs
      obtain _ | ⟨hab, hbs⟩ := hbs
      obtain ⟨hreply, hagree⟩ := hmine s t a _ ha hab h
      rw [repliesTo, if_pos ha, replies, hreply, ih hagree hbs]
    | false =>
      have hskip : ¬mine a = true := by simp [ha]
      rw [List.filter_cons_of_neg hskip] at hbs
      rw [repliesTo, if_neg hskip, ih (hothers s t a ha h) hbs]

end Isolation

end Runs
