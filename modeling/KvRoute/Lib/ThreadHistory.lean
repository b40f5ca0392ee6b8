import KvRoute.Lib.Interleaving

set_option relaxedAutoImplicit false
set_option autoImplicit false

/-!
# What a thread does in view of what it has done

In an interleaved execution the labels that one thread leaves are its own history.  A rule that
relates the next label to that history is proved of a program by going through the program, and
holds of the thread in every execution, whatever the others do.

## Main definitions

* `Thread.relabel` — the same program with other labels.
* `Thread.observe` — the same program, whose labels say in addition what its sections found.
* `Thread.extend` — the same program beside a second state, which changes as the labels say.
* `Thread.Follows` — every label of a program obeys a rule, given the labels before it.
* `ThreadPool.labelsOf` — the labels that one thread left in a trace.

## Main results

* `Thread.Follows.bind` — one program after the other.
* `ThreadPool.Exec.rule_of_mem` — the labels of a thread that follows a rule obey the rule.
* `ThreadPool.Exec.at_label` — the state in which a section of the trace ran.
* `ThreadPool.Exec.observe` — every execution can be observed.
-/

namespace Thread

variable {σ ℓ ℓ' ο α β : Type}

/-- The same program with other labels. -/
def relabel (f : ℓ → ℓ') : Thread σ ℓ α → Thread σ ℓ' α
  | done a => done a
  | atomically effect label next =>
    atomically effect (fun s => f (label s)) fun s => (next s).relabel f

theorem Each.relabel {f : ℓ → ℓ'} {Φ : σ → ℓ' → σ → Prop} {ψ : α → Prop} {t : Thread σ ℓ α}
    (ht : t.Each (fun s l s' => Φ s (f l) s') ψ) : (t.relabel f).Each Φ ψ := by
  induction t with
  | done a => exact ht
  | atomically effect label next ih => exact fun s => ⟨(ht s).1, ih s (ht s).2⟩

@[simp] theorem relabel_bind (f : ℓ → ℓ') (t : Thread σ ℓ α) (g : α → Thread σ ℓ β) :
    (t >>= g).relabel f = t.relabel f >>= fun a => (g a).relabel f := by
  induction t with
  | done a => rfl
  | atomically effect label next ih =>
    show atomically effect _ _ = atomically effect _ _
    congr 1
    funext s
    exact ih s

@[simp] theorem alone_relabel (f : ℓ → ℓ') (t : Thread σ ℓ α) (s : σ) :
    (t.relabel f).alone s = t.alone s := by
  induction t generalizing s with
  | done a => rfl
  | atomically effect label next ih => exact ih s (effect s)

/-- The same program, whose labels say in addition what `o` shows of the state in which their
section ran. -/
def observe (o : σ → ο) : Thread σ ℓ α → Thread σ (ο × ℓ) α
  | done a => done a
  | atomically effect label next =>
    atomically effect (fun s => (o s, label s)) fun s => (next s).observe o

@[simp] theorem observe_bind (o : σ → ο) (t : Thread σ ℓ α) (g : α → Thread σ ℓ β) :
    (t >>= g).observe o = t.observe o >>= fun a => (g a).observe o := by
  induction t with
  | done a => rfl
  | atomically effect label next ih =>
    show atomically effect _ _ = atomically effect _ _
    congr 1
    funext s
    exact ih s

/-- What a section does it does when it is observed, and the observation is of the state in which
it ran. -/
theorem Each.observe {Φ : σ → ℓ → σ → Prop} {ψ : α → Prop} {t : Thread σ ℓ α} (o : σ → ο)
    (ht : t.Each Φ ψ) : (t.observe o).Each (fun s l s' => l.1 = o s ∧ Φ s l.2 s') ψ := by
  induction t with
  | done a => exact ht
  | atomically effect label next ih => exact fun s => ⟨⟨rfl, (ht s).1⟩, ih s (ht s).2⟩

/-- Every label that the program leaves obeys `rule`, given the labels before it; `ψ` relates the
result to the labels that it has left by then.  The labels `past` are there already. -/
def Follows (rule : List ℓ → ℓ → Prop) (ψ : α → List ℓ → Prop) :
    Thread σ ℓ α → List ℓ → Prop
  | done a, past => ψ a past
  | atomically _ label next, past =>
    ∀ s, rule past (label s) ∧ (next s).Follows rule ψ (past ++ [label s])

variable {rule : List ℓ → ℓ → Prop} {ψ ψ' : α → List ℓ → Prop} {past : List ℓ}

theorem follows_done {a : α} (h : ψ a past) : (done a : Thread σ ℓ α).Follows rule ψ past := h

theorem follows_critical {f : σ → σ × α} {label : α → ℓ}
    (h : ∀ s, rule past (label (f s).2) ∧ ψ (f s).2 (past ++ [label (f s).2])) :
    (critical f label : Thread σ ℓ α).Follows rule ψ past := h

/-- One program after the other: the second one starts with the history that the first leaves. -/
theorem Follows.bind {χ : β → List ℓ → Prop} {t : Thread σ ℓ α} {f : α → Thread σ ℓ β}
    (ht : t.Follows rule ψ past) (hf : ∀ a past, ψ a past → (f a).Follows rule χ past) :
    (t >>= f).Follows rule χ past := by
  induction t generalizing past with
  | done a => exact hf a past ht
  | atomically effect label next ih => exact fun s => ⟨(ht s).1, ih s (ht s).2⟩

/-- What the labels of a program keep of its history, and of what it leads to a rule. -/
theorem Each.follows {φ : ℓ → Prop} {χ : α → Prop} {K : List ℓ → Prop} {t : Thread σ ℓ α}
    (ht : t.Each (fun _ l _ => φ l) χ)
    (hK : ∀ past l, K past → φ l → rule past l ∧ K (past ++ [l])) (hpast : K past) :
    t.Follows rule (fun a past => χ a ∧ K past) past := by
  induction t generalizing past with
  | done a => exact ⟨ht, hpast⟩
  | atomically effect label next ih =>
    intro s
    obtain ⟨hrule, hnext⟩ := hK past (label s) hpast (ht s).1
    exact ⟨hrule, ih s (ht s).2 hnext⟩

/-- A rule about labels holds of them when they are observed. -/
theorem Follows.observe (o : σ → ο) {t : Thread σ ℓ α} {past : List (ο × ℓ)}
    (ht : t.Follows rule ψ (past.map Prod.snd)) :
    (t.observe o).Follows (fun past l => rule (past.map Prod.snd) l.2)
      (fun a past => ψ a (past.map Prod.snd)) past := by
  induction t generalizing past with
  | done a => exact ht
  | atomically effect label next ih =>
    intro s
    refine ⟨(ht s).1, ih s ?_⟩
    rw [List.map_append]
    exact (ht s).2

theorem Follows.mono_rule {rule' : List ℓ → ℓ → Prop} (hrule : ∀ past l, rule past l → rule' past l)
    {t : Thread σ ℓ α} (ht : t.Follows rule ψ past) : t.Follows rule' ψ past := by
  induction t generalizing past with
  | done a => exact ht
  | atomically effect label next ih => exact fun s => ⟨hrule _ _ (ht s).1, ih s (ht s).2⟩

theorem Follows.mono (hψ : ∀ a past, ψ a past → ψ' a past) {t : Thread σ ℓ α}
    (ht : t.Follows rule ψ past) : t.Follows rule ψ' past := by
  induction t generalizing past with
  | done a => exact hψ a past ht
  | atomically effect label next ih => exact fun s => ⟨(ht s).1, ih s (ht s).2⟩

/-- The same program, beside whose state there is another one, which changes as the labels say. -/
def extend (note : ℓ → ο → ο) : Thread σ ℓ α → Thread (σ × ο) ℓ α
  | done a => done a
  | atomically effect label next =>
    atomically (fun s => (effect s.1, note (label s.1) s.2)) (fun s => label s.1)
      fun s => (next s.1).extend note

/-- What a section does it does beside the other state. -/
theorem Each.extend {Φ : σ → ℓ → σ → Prop} {χ : α → Prop} {t : Thread σ ℓ α} (note : ℓ → ο → ο)
    (ht : t.Each Φ χ) :
    (t.extend note).Each (fun s l s' => Φ s.1 l s'.1 ∧ s'.2 = note l s.2) χ := by
  induction t with
  | done a => exact ht
  | atomically effect label next ih => exact fun s => ⟨⟨(ht s.1).1, rfl⟩, ih s.1 (ht s.1).2⟩

end Thread

namespace ThreadPool

variable {ι σ ℓ α : Type} [DecidableEq ι]

/-- The labels that thread `i` left in a trace. -/
def labelsOf (i : ι) (tr : List (ι × ℓ)) : List ℓ :=
  (tr.filter fun e => e.1 = i).map Prod.snd

variable {i j : ι} {l : ℓ} {tr tr' : List (ι × ℓ)}

@[simp] theorem labelsOf_nil : labelsOf i ([] : List (ι × ℓ)) = [] := rfl

@[simp] theorem labelsOf_cons_self : labelsOf i ((i, l) :: tr) = l :: labelsOf i tr := by
  simp [labelsOf]

@[simp] theorem labelsOf_cons_of_ne (h : j ≠ i) : labelsOf i ((j, l) :: tr) = labelsOf i tr := by
  simp [labelsOf, h]

@[simp] theorem labelsOf_append : labelsOf i (tr ++ tr') = labelsOf i tr ++ labelsOf i tr' := by
  simp [labelsOf]

theorem mem_labelsOf : l ∈ labelsOf i tr ↔ (i, l) ∈ tr := by
  simp [labelsOf]

/-- The history of a thread splits where the trace does. -/
theorem exists_split_of_labelsOf {ls ls' : List ℓ} (h : labelsOf i tr = ls ++ l :: ls') :
    ∃ before after, tr = before ++ (i, l) :: after ∧ labelsOf i before = ls ∧
      labelsOf i after = ls' := by
  induction tr generalizing ls with
  | nil => simp at h
  | cons e tr ih =>
    obtain ⟨j, m⟩ := e
    by_cases hij : j = i
    · subst hij
      rw [labelsOf_cons_self] at h
      cases ls with
      | nil =>
        obtain ⟨rfl, hrest⟩ := List.cons.inj h
        exact ⟨[], tr, rfl, rfl, hrest⟩
      | cons l₁ ls =>
        obtain ⟨rfl, hrest⟩ := List.cons.inj h
        obtain ⟨before, after, rfl, hbefore, hafter⟩ := ih hrest
        exact ⟨(j, m) :: before, after, rfl, by rw [labelsOf_cons_self, hbefore], hafter⟩
    · rw [labelsOf_cons_of_ne hij] at h
      obtain ⟨before, after, rfl, hbefore, hafter⟩ := ih h
      exact ⟨(j, m) :: before, after, rfl, by rw [labelsOf_cons_of_ne hij, hbefore], hafter⟩

/-- The same threads, observed. -/
def observe {ο : Type} (p : ThreadPool ι σ ℓ α) (o : σ → ο) : ThreadPool ι σ (ο × ℓ) α :=
  ⟨p.shared, fun i => (p.threads i).observe o⟩

/-- A section of an observed pool. -/
theorem step_observe {ο : Type} {p p' : ThreadPool ι σ ℓ α} (o : σ → ο)
    (h : p.step i = some (l, p')) :
    (p.observe o).step i = some ((o p.shared, l), p'.observe o) := by
  obtain ⟨effect, label, next, ht, rfl, rfl⟩ := step_cases h
  have hobserved : (p.observe o).threads i = .atomically effect (fun s => (o s, label s))
      fun s => (next s).observe o := by
    show (p.threads i).observe o = _
    rw [ht]
    rfl
  unfold step
  rw [hobserved]
  show some (_, _) = some (_, _)
  congr 3
  funext j
  by_cases hj : j = i
  · subst hj
    simp [observe]
  · simp [observe, Function.update_of_ne hj]

namespace Exec

/-- Every execution can be observed. -/
theorem observe {ο : Type} {p p' : ThreadPool ι σ ℓ α} (o : σ → ο) (h : Exec p tr p') :
    ∃ tr', Exec (p.observe o) tr' (p'.observe o) ∧ tr = tr'.map fun e => (e.1, e.2.2) := by
  induction h with
  | refl p => exact ⟨[], .refl _, rfl⟩
  | @cons p p₁ p₂ i l tr hs _ ih =>
    obtain ⟨tr', hexec, rfl⟩ := ih
    exact ⟨(i, (o p.shared, l)) :: tr', .cons (step_observe o hs) hexec, rfl⟩

variable {p p' : ThreadPool ι σ ℓ α} {rule : List ℓ → ℓ → Prop} {ψ : α → List ℓ → Prop}
  {past : List ℓ}

/-- A thread that follows a rule goes on following it. -/
theorem follows (h : Exec p tr p') (hp : (p.threads i).Follows rule ψ past) :
    (p'.threads i).Follows rule ψ (past ++ labelsOf i tr) := by
  induction h generalizing past with
  | refl p => simpa using hp
  | @cons p p₁ p₂ j m tr hs _ ih =>
    obtain ⟨effect, label, next, ht, rfl, rfl⟩ := step_cases hs
    by_cases hij : j = i
    · subst hij
      rw [ht] at hp
      have hnext := ih (by simpa using (hp p.shared).2)
      simpa using hnext
    · rw [labelsOf_cons_of_ne hij]
      exact ih (by simpa [Function.update_of_ne (Ne.symm hij)] using hp)

/-- The section behind a label of the trace: the state in which it ran, and the thread whose next
section it was. -/
theorem at_section {before after : List (ι × ℓ)}
    (h : Exec p (before ++ (i, l) :: after) p') : ∃ q q', Exec p before q ∧
      q.step i = some (l, q') ∧ Exec q' after p' := by
  obtain ⟨q, hbefore, hrest⟩ := h.split
  cases hrest with
  | cons hs hafter => exact ⟨q, _, hbefore, hs, hafter⟩

/-- **Rules hold of histories.**  Every label that a thread leaves obeys the rule, given the
labels that the thread left before. -/
theorem rule_of_mem {before after : List (ι × ℓ)}
    (h : Exec p (before ++ (i, l) :: after) p') (hp : (p.threads i).Follows rule ψ past) :
    rule (past ++ labelsOf i before) l := by
  obtain ⟨q, q', hbefore, hs, -⟩ := h.at_section
  have hq := hbefore.follows hp
  obtain ⟨effect, label, next, ht, rfl, -⟩ := step_cases hs
  rw [ht] at hq
  exact (hq q.shared).1

/-- What a section of the trace did to the state in which it ran. -/
theorem at_label {Φ : σ → ℓ → σ → Prop} {ψ : α → Prop} {before after : List (ι × ℓ)}
    (h : Exec p (before ++ (i, l) :: after) p') (hp : ∀ j, (p.threads j).Each Φ ψ) :
    ∃ q q', Exec p before q ∧ Φ q.shared l q'.shared ∧ Exec q' after p' ∧
      ∀ j, (q'.threads j).Each Φ ψ := by
  obtain ⟨q, q', hbefore, hs, hafter⟩ := h.at_section
  obtain ⟨hstep, hnext⟩ := each_step hs (hbefore.each hp)
  exact ⟨q, q', hbefore, hstep, hafter, hnext⟩

end Exec

end ThreadPool
