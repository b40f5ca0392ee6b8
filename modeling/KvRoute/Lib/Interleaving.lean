import Mathlib.Data.List.Basic
import Mathlib.Logic.Function.Basic

set_option relaxedAutoImplicit false
set_option autoImplicit false

/-!
# Threads of critical sections

A thread is a program whose only effects on the shared state are critical sections: each runs
in one step, leaves a label in the trace, and hands the rest of the program what it read.  A
pool of threads is executed one section at a time, in any order.

## Main definitions

* `Thread σ ℓ α` — a program over the shared state `σ` with labels `ℓ` and result `α`, with
  `Thread.critical` for one section and the monad operations.
* `Thread.alone` — the program run with nobody interfering.
* `ThreadPool`, `ThreadPool.Exec` — a family of threads over one shared state, and its executions.
* `ThreadPool.run` — the execution that follows a given schedule.
* `Thread.Each` — a property of every section of a program and one of its result, whatever the
  others do.
* `Thread.Ends`, `Thread.EndsFrom` — what a program's result satisfies, whatever the others do.
* `Thread.Emits` — a label that a program cannot finish without.

## Main results

* `ThreadPool.Exec.tracks` — a part of the shared state that sections change as their labels say
  is a fold over the trace.
* `ThreadPool.Exec.invariant`, `Exec.keeps` — what every section keeps holds after an execution.
* `ThreadPool.Exec.label_of_each` — every label of a thread satisfies what its sections do.
* `ThreadPool.Exec.emits` — a finished thread has left the labels its program emits.
* `ThreadPool.Exec.first_section` — a thread has not moved, or its first section is in the trace.
* `ThreadPool.exec_run` — every schedule yields an execution.
-/

/-- A program over the shared state `σ`: finished with a result, or a critical section that
updates the shared state, leaves a label, and continues with what it read. -/
inductive Thread (σ ℓ α : Type) where
  /-- The program has finished with result `a`. -/
  | done (a : α)
  /-- One critical section: its effect, its label, and the rest of the program. -/
  | atomically (effect : σ → σ) (label : σ → ℓ) (next : σ → Thread σ ℓ α)

namespace Thread

variable {σ ℓ α β : Type}

/-- Run `t`, then continue with its result. -/
def bind : Thread σ ℓ α → (α → Thread σ ℓ β) → Thread σ ℓ β
  | done a, f => f a
  | atomically effect label next, f => atomically effect label fun s => (next s).bind f

instance : Monad (Thread σ ℓ) where
  pure := done
  bind := bind

/-- One critical section: update the shared state and return what was read, labelled by it. -/
def critical (f : σ → σ × α) (label : α → ℓ) : Thread σ ℓ α :=
  atomically (fun s => (f s).1) (fun s => label (f s).2) fun s => done (f s).2

/-- The program run with nobody interfering. -/
def alone : Thread σ ℓ α → σ → σ × α
  | done a, s => (s, a)
  | atomically effect _ next, s => (next s).alone (effect s)

@[simp] theorem pure_eq_done (a : α) : (pure a : Thread σ ℓ α) = done a := rfl

@[simp] theorem done_bind (a : α) (f : α → Thread σ ℓ β) : (done a >>= f) = f a := rfl

@[simp] theorem atomically_bind (effect : σ → σ) (label : σ → ℓ) (next : σ → Thread σ ℓ α)
    (f : α → Thread σ ℓ β) :
    (atomically effect label next >>= f) = atomically effect label fun s => next s >>= f := rfl

@[simp] theorem critical_bind (f : σ → σ × α) (label : α → ℓ) (g : α → Thread σ ℓ β) :
    (critical f label >>= g) =
      atomically (fun s => (f s).1) (fun s => label (f s).2) fun s => g (f s).2 := rfl

/-- A sequence run alone is its two parts run one after the other. -/
theorem alone_bind (t : Thread σ ℓ α) (f : α → Thread σ ℓ β) (s : σ) :
    (t >>= f).alone s = (f (t.alone s).2).alone (t.alone s).1 := by
  induction t generalizing s with
  | done a => rfl
  | atomically effect label next ih => exact ih s (effect s)

@[simp] theorem alone_critical (f : σ → σ × α) (label : α → ℓ) (s : σ) :
    (critical f label : Thread σ ℓ α).alone s = f s := rfl

@[simp] theorem alone_done (a : α) (s : σ) : (done a : Thread σ ℓ α).alone s = (s, a) := rfl

/-! ## What a program does, whatever the others do -/

/-- Whatever the others do, every section of the program satisfies `Φ`, a relation between the
state before it, its label and the state after it, and the result satisfies `ψ`. -/
def Each (Φ : σ → ℓ → σ → Prop) (ψ : α → Prop) : Thread σ ℓ α → Prop
  | done a => ψ a
  | atomically effect label next => ∀ s, Φ s (label s) (effect s) ∧ (next s).Each Φ ψ

/-- The program cannot finish without having left the label `l`. -/
def Emits (l : ℓ) : Thread σ ℓ α → Prop
  | done _ => False
  | atomically _ label next => ∀ s, label s = l ∨ (next s).Emits l

/-- Whatever the others do, the program's result satisfies `ψ`. -/
abbrev Ends (ψ : α → Prop) (t : Thread σ ℓ α) : Prop := t.Each (fun _ _ _ => True) ψ

/-- The program's first section runs in the state `s`; whatever the others do from then on, its
result satisfies `ψ`. -/
def EndsFrom (s : σ) (ψ : α → Prop) : Thread σ ℓ α → Prop
  | done a => ψ a
  | atomically _ _ next => (next s).Ends ψ

variable {Φ Φ' : σ → ℓ → σ → Prop} {ψ ψ' : α → Prop}

theorem Each.bind {χ : β → Prop} {t : Thread σ ℓ α} {f : α → Thread σ ℓ β} (ht : t.Each Φ ψ)
    (hf : ∀ a, ψ a → (f a).Each Φ χ) : (t >>= f).Each Φ χ := by
  induction t with
  | done a => exact hf a ht
  | atomically effect label next ih => exact fun s => ⟨(ht s).1, ih s (ht s).2⟩

theorem Each.mono (hΦ : ∀ s l s', Φ s l s' → Φ' s l s') (hψ : ∀ a, ψ a → ψ' a)
    {t : Thread σ ℓ α} (ht : t.Each Φ ψ) : t.Each Φ' ψ' := by
  induction t with
  | done a => exact hψ a ht
  | atomically effect label next ih => exact fun s => ⟨hΦ _ _ _ (ht s).1, ih s (ht s).2⟩

theorem Each.ends {t : Thread σ ℓ α} (ht : t.Each Φ ψ) : t.Ends ψ :=
  ht.mono (fun _ _ _ _ => trivial) fun _ h => h

theorem Each.and {t : Thread σ ℓ α} (ht : t.Each Φ ψ) (ht' : t.Each Φ' ψ') :
    t.Each (fun s l s' => Φ s l s' ∧ Φ' s l s') fun a => ψ a ∧ ψ' a := by
  induction t with
  | done a => exact ⟨ht, ht'⟩
  | atomically effect label next ih =>
    exact fun s => ⟨⟨(ht s).1, (ht' s).1⟩, ih s (ht s).2 (ht' s).2⟩

theorem ends_trivial (t : Thread σ ℓ α) : t.Ends fun _ => True := by
  induction t with
  | done a => trivial
  | atomically effect label next ih => exact fun s => ⟨trivial, ih s⟩

/-- The result of a program run with nobody interfering. -/
theorem Each.alone {t : Thread σ ℓ α} (ht : t.Each Φ ψ) (s : σ) : ψ (t.alone s).2 := by
  induction t generalizing s with
  | done a => exact ht
  | atomically effect label next ih => exact ih s (ht s).2 (effect s)

/-- What every section keeps holds after the program, run with nobody interfering. -/
theorem Each.alone_inv {I : σ → Prop} {t : Thread σ ℓ α} (ht : t.Each Φ ψ)
    (hΦ : ∀ s l s', Φ s l s' → I s → I s') {s : σ} (hI : I s) : I (t.alone s).1 := by
  induction t generalizing s with
  | done a => exact hI
  | atomically effect label next ih => exact ih s (ht s).2 (hΦ _ _ _ (ht s).1 hI)

theorem EndsFrom.alone {t : Thread σ ℓ α} {s : σ} (ht : t.EndsFrom s ψ) : ψ (t.alone s).2 := by
  cases t with
  | done a => exact ht
  | atomically effect label next => exact Each.alone ht (effect s)

theorem each_critical {f : σ → σ × α} {label : α → ℓ}
    (h : ∀ s, Φ s (label (f s).2) (f s).1 ∧ ψ (f s).2) :
    (critical f label : Thread σ ℓ α).Each Φ ψ := fun s => h s

theorem Emits.bind_left {l : ℓ} {t : Thread σ ℓ α} (f : α → Thread σ ℓ β) (ht : t.Emits l) :
    (t >>= f).Emits l := by
  induction t with
  | done a => exact ht.elim
  | atomically effect label next ih => exact fun s => (ht s).imp_right (ih s)

theorem Emits.bind_right {l : ℓ} (t : Thread σ ℓ α) {f : α → Thread σ ℓ β}
    (hf : ∀ a, (f a).Emits l) : (t >>= f).Emits l := by
  induction t with
  | done a => exact hf a
  | atomically effect label next ih => exact fun s => Or.inr (ih s)

end Thread

/-- Threads over one shared state. -/
structure ThreadPool (ι σ ℓ α : Type) where
  /-- The shared state. -/
  shared : σ
  /-- What each thread still has to do. -/
  threads : ι → Thread σ ℓ α

namespace ThreadPool

variable {ι σ ℓ α : Type} [DecidableEq ι]

/-- Let thread `i` run its next critical section; a finished thread has none. -/
def step (p : ThreadPool ι σ ℓ α) (i : ι) : Option (ℓ × ThreadPool ι σ ℓ α) :=
  match p.threads i with
  | .done _ => none
  | .atomically effect label next =>
    some (label p.shared, ⟨effect p.shared, Function.update p.threads i (next p.shared)⟩)

/-- An execution: some threads run some sections, in some order, leaving a trace. -/
inductive Exec : ThreadPool ι σ ℓ α → List (ι × ℓ) → ThreadPool ι σ ℓ α → Prop
  /-- Nothing happens. -/
  | refl (p : ThreadPool ι σ ℓ α) : Exec p [] p
  /-- Thread `i` runs a section, and the execution goes on. -/
  | cons {p p' p'' : ThreadPool ι σ ℓ α} {i : ι} {l : ℓ} {tr : List (ι × ℓ)} :
      p.step i = some (l, p') → Exec p' tr p'' → Exec p ((i, l) :: tr) p''

/-- Follow a schedule, skipping threads that have finished. -/
def run (p : ThreadPool ι σ ℓ α) : List ι → List (ι × ℓ) × ThreadPool ι σ ℓ α
  | [] => ([], p)
  | i :: sched =>
    match p.step i with
    | none => p.run sched
    | some (l, p') => ((i, l) :: (p'.run sched).1, (p'.run sched).2)

/-- Following a schedule is an execution. -/
theorem exec_run (p : ThreadPool ι σ ℓ α) (sched : List ι) :
    Exec p (p.run sched).1 (p.run sched).2 := by
  induction sched generalizing p with
  | nil => exact .refl p
  | cons i sched ih =>
    unfold run
    cases h : p.step i with
    | none => exact ih p
    | some r => exact .cons h (ih r.2)

/-- What one section does to the pool. -/
theorem step_cases {p p' : ThreadPool ι σ ℓ α} {i : ι} {l : ℓ} (h : p.step i = some (l, p')) :
    ∃ effect label next, p.threads i = .atomically effect label next ∧ l = label p.shared ∧
      p' = ⟨effect p.shared, Function.update p.threads i (next p.shared)⟩ := by
  unfold step at h
  split at h
  · cases h
  · rename_i effect label next ht
    obtain ⟨rfl, rfl⟩ := Prod.mk.inj (Option.some.inj h)
    exact ⟨effect, label, next, ht, rfl, rfl⟩

/-- A property of programs that the rest of a program inherits from the whole is inherited by
every thread of the pool after a section. -/
theorem forall_threads_step {Φ : Thread σ ℓ α → Prop}
    (hΦ : ∀ effect label next s, Φ (.atomically effect label next) → Φ (next s))
    {p p' : ThreadPool ι σ ℓ α} {i : ι} {l : ℓ} (h : p.step i = some (l, p')) (j : ι)
    (hj : Φ (p.threads j)) : Φ (p'.threads j) := by
  obtain ⟨effect, label, next, ht, -, rfl⟩ := step_cases h
  by_cases hij : j = i
  · subst hij
    simpa using hΦ effect label next p.shared (ht ▸ hj)
  · simpa [Function.update_of_ne hij] using hj

/-- What every section of every thread does, the section that runs does; the threads go on as
before. -/
theorem each_step {Φ : σ → ℓ → σ → Prop} {ψ : α → Prop} {p p' : ThreadPool ι σ ℓ α} {i : ι} {l : ℓ}
    (h : p.step i = some (l, p')) (hp : ∀ j, (p.threads j).Each Φ ψ) :
    Φ p.shared l p'.shared ∧ ∀ j, (p'.threads j).Each Φ ψ := by
  constructor
  · obtain ⟨effect, label, next, ht, rfl, rfl⟩ := step_cases h
    have hi := hp i
    rw [ht] at hi
    exact (hi p.shared).1
  · intro j
    exact forall_threads_step (Φ := fun t => t.Each Φ ψ) (fun _ _ _ s h => (h s).2) h j (hp j)

namespace Exec

variable {p p' p'' : ThreadPool ι σ ℓ α} {tr tr' : List (ι × ℓ)}

/-- Executions compose. -/
theorem trans (h : Exec p tr p') (h' : Exec p' tr' p'') : Exec p (tr ++ tr') p'' := by
  induction h with
  | refl p => exact h'
  | cons hs _ ih => exact .cons hs (ih h')

/-- An execution splits where its trace does. -/
theorem split (h : Exec p (tr ++ tr') p'') : ∃ p', Exec p tr p' ∧ Exec p' tr' p'' := by
  induction tr generalizing p with
  | nil => exact ⟨p, .refl p, h⟩
  | cons e tr ih =>
    cases h with
    | cons hs h =>
      obtain ⟨p', h₁, h₂⟩ := ih h
      exact ⟨p', .cons hs h₁, h₂⟩

/-- **The tracked state is a fold over the trace.**  If every section of every thread changes
the part `π` of the shared state as its label says, then after an execution that part is what
the labels of the trace make of it. -/
theorem tracks {τ : Type} {π : σ → τ} {f : ℓ → τ → τ} {ψ : α → Prop} (h : Exec p tr p')
    (hp : ∀ i, (p.threads i).Each (fun s l s' => π s' = f l (π s)) ψ) :
    π p'.shared = tr.foldl (fun t e => f e.2 t) (π p.shared) := by
  induction h with
  | refl p => rfl
  | cons hs _ ih =>
    obtain ⟨hstep, hnext⟩ := each_step hs hp
    rw [ih hnext, List.foldl_cons, hstep]

/-- A thread goes on doing what its sections do. -/
theorem each_thread {Φ : σ → ℓ → σ → Prop} {ψ : α → Prop} {i : ι} (h : Exec p tr p')
    (hp : (p.threads i).Each Φ ψ) : (p'.threads i).Each Φ ψ := by
  induction h with
  | refl p => exact hp
  | cons hs _ ih =>
    exact ih (forall_threads_step (Φ := fun t => t.Each Φ ψ) (fun _ _ _ s h => (h s).2) hs _ hp)

/-- Every thread goes on doing what its sections do. -/
theorem each {Φ : σ → ℓ → σ → Prop} {ψ : α → Prop} (h : Exec p tr p')
    (hp : ∀ i, (p.threads i).Each Φ ψ) : ∀ i, (p'.threads i).Each Φ ψ :=
  fun i => h.each_thread (hp i)

/-- What the sections with labels in `φ` keep holds after an execution that leaves only such
labels. -/
theorem keeps {I : σ → Prop} {φ : ℓ → Prop} {ψ : α → Prop} (h : Exec p tr p')
    (hp : ∀ i, (p.threads i).Each (fun s l s' => φ l → I s → I s') ψ) (hφ : ∀ e ∈ tr, φ e.2)
    (hI : I p.shared) : I p'.shared := by
  induction h with
  | refl p => exact hI
  | cons hs _ ih =>
    obtain ⟨hstep, hnext⟩ := each_step hs hp
    refine ih hnext (fun e he => hφ e (List.mem_cons_of_mem _ he)) ?_
    exact hstep (hφ _ List.mem_cons_self) hI

/-- **Invariants.**  What every section of every thread keeps holds after an execution. -/
theorem invariant {I : σ → Prop} {ψ : α → Prop} (h : Exec p tr p')
    (hp : ∀ i, (p.threads i).Each (fun s _ s' => I s → I s') ψ) (hI : I p.shared) :
    I p'.shared := by
  refine h.keeps (φ := fun _ => True) (ψ := ψ) (fun i => ?_) (fun _ _ => trivial) hI
  exact (hp i).mono (fun _ _ _ hs _ => hs) fun _ h => h

/-- Every label of a thread satisfies what its sections do. -/
theorem label_of_each {φ : ℓ → Prop} {ψ : α → Prop} {i : ι} (h : Exec p tr p')
    (hp : (p.threads i).Each (fun _ l _ => φ l) ψ) : ∀ l, (i, l) ∈ tr → φ l := by
  induction h with
  | refl p => simp
  | @cons p p₁ p₂ j l tr hs _ ih =>
    have hnext := ih (forall_threads_step (Φ := fun t => t.Each (fun _ l _ => φ l) ψ)
      (fun _ _ _ s h => (h s).2) hs i hp)
    obtain ⟨effect, label, next, ht, rfl, rfl⟩ := step_cases hs
    intro l hl
    rcases List.mem_cons.mp hl with heq | hl
    · obtain ⟨rfl, rfl⟩ := Prod.mk.inj heq
      rw [ht] at hp
      exact (hp p.shared).1
    · exact hnext l hl

/-- A thread that has finished has left every label its program emits. -/
theorem emits {l : ℓ} {i : ι} (h : Exec p tr p') (hp : (p.threads i).Emits l)
    (hdone : ∃ a, p'.threads i = .done a) : (i, l) ∈ tr := by
  induction h with
  | refl p =>
    obtain ⟨a, ha⟩ := hdone
    rw [ha] at hp
    exact hp.elim
  | @cons p p₁ p₂ j m tr hs _ ih =>
    obtain ⟨effect, label, next, ht, rfl, rfl⟩ := step_cases hs
    by_cases hij : i = j
    · subst hij
      rcases (ht ▸ hp : (Thread.atomically effect label next).Emits l) p.shared with hl | hn
      · exact hl ▸ List.mem_cons_self
      · exact List.mem_cons_of_mem _ (ih (by simpa using hn) hdone)
    · exact List.mem_cons_of_mem _ (ih (by simpa [Function.update_of_ne hij] using hp) hdone)

/-- **The first section of a thread.**  After an execution the thread has not moved, or its first
section is in the trace, run from the state that the execution had reached, and the thread goes
on from there. -/
theorem first_section {i : ι} {effect : σ → σ} {label : σ → ℓ} {next : σ → Thread σ ℓ α}
    (h : Exec p tr p') (ht : p.threads i = .atomically effect label next) :
    (p'.threads i = p.threads i ∧ ∀ l, (i, l) ∉ tr) ∨
      ∃ before after q q', tr = before ++ (i, label q.shared) :: after ∧
        (∀ l, (i, l) ∉ before) ∧ Exec p before q ∧ q.step i = some (label q.shared, q') ∧
        q'.threads i = next q.shared ∧ Exec q' after p' := by
  induction h with
  | refl p => exact Or.inl ⟨rfl, fun l => List.not_mem_nil⟩
  | @cons p p₁ p₂ j m tr hs hexec ih =>
    by_cases hij : i = j
    · subst hij
      have hstep := hs
      obtain ⟨effect', label', next', ht', rfl, rfl⟩ := step_cases hs
      rw [ht] at ht'
      obtain ⟨rfl, rfl, rfl⟩ := Thread.atomically.inj ht'
      exact Or.inr ⟨[], tr, p, _, rfl, fun l => List.not_mem_nil, .refl p, hstep,
        Function.update_self .., hexec⟩
    · have hsame : p₁.threads i = p.threads i := by
        obtain ⟨effect', label', next', -, -, rfl⟩ := step_cases hs
        exact Function.update_of_ne hij _ _
      have hnot {tr' : List (ι × ℓ)} (htr : ∀ l, (i, l) ∉ tr') (l : ℓ) :
          (i, l) ∉ (j, m) :: tr' := by
        rw [List.mem_cons, not_or]
        exact ⟨fun heq => hij (Prod.mk.inj heq).1, htr l⟩
      rcases ih (hsame.trans ht) with ⟨hstill, hnone⟩ |
        ⟨before, after, q, q', rfl, hnone, hq, hstep, hq', hrest⟩
      · exact Or.inl ⟨hstill.trans hsame, hnot hnone⟩
      · exact Or.inr ⟨(j, m) :: before, after, q, q', rfl, hnot hnone, .cons hs hq, hstep, hq',
          hrest⟩

end Exec

end ThreadPool
