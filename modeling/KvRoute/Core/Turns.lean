import KvRoute.Core.Scoring
import KvRoute.Core.Sections
import KvRoute.Lib.Rotation
import KvRoute.Lib.ThreadHistory

set_option relaxedAutoImplicit false
set_option autoImplicit false

/-!
# Taking turns concurrently

Under `round_robin` a selection takes a snapshot of the healthy workers, takes a ticket from the
shared counter, and chooses the candidate at the position `ticket % candidates`.  Here any number
of such selections are interleaved, section by section, with anything else that takes no ticket:
probes, discovery, calls on the registry and the index.  The counter puts the selections in an
order, and each one's choice is settled by its place in this order and by its own snapshot.

## Main definitions

* `KvRoute.Caller`, `KvRoute.callers` — selections next to other programs.
* `KvRoute.takers` — the selections that took a ticket, in the order of the counter.
* `KvRoute.SawCandidates` — the candidates of a selection.
* `KvRoute.Chooses` — a selection decides for a worker, whatever happens from now on.

## Main results

* `KvRoute.chooses_iff` — what a selection chooses.
-/

namespace KvRoute

/-! ## Threads -/

/-- A program that takes no tickets. -/
structure Bystander where
  /-- The program. -/
  program : Program Unit
  /-- It takes no ticket. -/
  noTicket : program.Traces (· ≠ .ticket) fun _ => True

/-- A thread next to a router. -/
inductive Caller where
  /-- A call of `select_for_chat`. -/
  | chat (clock : ℕ → Instant) (request : ChatCompletionRequest)
  /-- Anything else. -/
  | other (bystander : Bystander)

section Threads

variable {ι : Type} (hasher : Option UInt64 → List Char → UInt64) (fl : F64.Rounding)
  (router : Router)

/-- The program of a thread; a call that succeeds returns its decision. -/
def Caller.program : Caller → Program (Option RouteDecision)
  | chat clock request => do
    let result ← router.selectForChat hasher fl clock request
    pure result.toOption
  | other bystander => do
    bystander.program
    pure none

/-- Any number of threads over one shared state. -/
def callers (threads : ι → Caller) (s : Shared) :
    ThreadPool ι Shared Access (Option RouteDecision) :=
  ⟨s, fun i => (threads i).program hasher fl router⟩

/-- The threads that took a ticket, in the order of the counter. -/
def takers (tr : List (ι × Access)) : List ι := (tr.filter fun e => e.2 = .ticket).map Prod.fst

/-- The candidates of a call, by its snapshot. -/
def SawCandidates (tr : List (ι × Access)) (i : ι) (candidates : List Worker) : Prop :=
  ∃ healthy, (i, .snapshot healthy) ∈ tr ∧ candidates = Router.chatCandidates healthy

/-- A result is a decision for the worker. -/
def DecidesFor (w : Worker) (result : Option RouteDecision) : Prop :=
  ∃ d, result = some d ∧ d.worker = w

/-- The call has decided for the worker, or it will, whatever the others do. -/
def Chooses (p : ThreadPool ι Shared Access (Option RouteDecision)) (i : ι) (w : Worker) : Prop :=
  (p.threads i).Ends (DecidesFor w)

end Threads

section Traces

variable {ι : Type} {tr tr' : List (ι × Access)} {i j : ι}

@[simp] lemma takers_nil : takers ([] : List (ι × Access)) = [] := rfl

@[simp] lemma takers_append : takers (tr ++ tr') = takers tr ++ takers tr' := by
  simp [takers]

@[simp] lemma takers_cons_ticket : takers ((i, .ticket) :: tr) = i :: takers tr := by
  simp [takers]

lemma takers_cons_of_ne {l : Access} (h : l ≠ .ticket) : takers ((i, l) :: tr) = takers tr := by
  simp [takers, h]

lemma mem_takers : i ∈ takers tr ↔ (i, .ticket) ∈ tr := by
  simp [takers]

/-- A thread without labels has no ticket. -/
lemma takers_of_not_mem (h : ∀ l, (i, l) ∉ tr) : i ∉ takers tr :=
  fun hmem => h _ (mem_takers.mp hmem)

/-- A thread that starts with a snapshot has no ticket if it takes none afterwards. -/
lemma takers_of_snapshot {healthy : List Worker} (h : ∀ l, (i, l) ∉ tr) (h' : i ∉ takers tr') :
    i ∉ takers (tr ++ (i, .snapshot healthy) :: tr') := by
  rw [takers_append, takers_cons_of_ne (l := .snapshot healthy) nofun, List.mem_append, not_or]
  exact ⟨takers_of_not_mem h, h'⟩

end Traces

/-! ## The counter -/

/-- Only tickets move the counter. -/
lemma Access.Effect.nextWorker_eq {s s' : Shared} {l : Access} (h : l.Effect s s') :
    s'.nextWorker = if l = .ticket then s.nextWorker + 1 else s.nextWorker := by
  cases l with
  | snapshot healthy => rw [h.1, if_neg nofun]
  | touch hash =>
    obtain ⟨now, rfl⟩ := h
    rw [if_neg nofun]
  | write worker hash =>
    obtain ⟨now, rfl⟩ := h
    rw [if_neg nofun]
  | ticket => rw [show s' = _ from h, if_pos rfl]
  | _ => rw [show s' = _ from h, if_neg nofun]

/-- Every section keeps workers stored under their own ids. -/
lemma Access.Effect.ownIds {s s' : Shared} {l : Access} (h : l.Effect s s')
    (hids : s.registry.OwnIds) : s'.registry.OwnIds := by
  rw [h.acts.registry_eq]
  cases l with
  | setHealthy worker healthy =>
    intro id state hget
    rw [onRegistry, WorkerRegistry.get_setHealthy] at hget
    split_ifs at hget with hid
    · obtain ⟨old, hold, rfl⟩ := Option.map_eq_some_iff.mp hget
      exact (hids _ _ hold).trans hid.symm
    · exact hids _ _ hget
  | register worker url pool =>
    intro id state hget
    rw [onRegistry, WorkerRegistry.get_insertWorker] at hget
    split_ifs at hget with hid
    · cases hget
      exact hid.symm
    · exact hids _ _ hget
  | unregister worker =>
    intro id state hget
    rw [onRegistry, WorkerRegistry.get_removeWorker] at hget
    split_ifs at hget
    exact hids _ _ hget
  | _ => exact hids

/-! ## Anatomy of a selection -/

/-- The sections of a call that has its ticket. -/
def Access.Serves : Access → Prop
  | .snapshot _ | .ticket => False
  | _ => True

section Calls

variable {ι : Type} {hasher : Option UInt64 → List Char → UInt64} {fl : F64.Rounding}
  {router : Router}

/-- A call that has its ticket decides for the candidate at that position. -/
lemma traces_serve (clock : ℕ → Instant) (w : Worker) (chain : List UInt64) :
    Program.Traces Access.Serves (DecidesFor w)
      ((do
        let matched ← Program.longestMatch w.id (clock 0) chain
        Program.record w.id (clock 1) chain
        pure (.ok ⟨w, matched, chain.length, .finite 0⟩) :
          Program (Except RouterError RouteDecision)) >>= fun result => pure result.toOption) := by
  refine Program.Traces.bind (ψ := fun result => DecidesFor w result.toOption) ?_
    fun _ hw => Program.traces_pure hw
  refine (Program.traces_longestMatch (fun _ => trivial) fun _ => trivial).bind fun _ _ => ?_
  refine (Program.traces_record fun _ _ => trivial).bind fun _ _ => ?_
  exact Program.traces_pure ⟨_, rfl, rfl⟩

/-- What a selection in turn does after its snapshot. -/
structure TakesTicket (healthy : List Worker) (rest : Program (Option RouteDecision)) : Prop where
  /-- Without a healthy worker it fails at once. -/
  fails : healthy = [] → rest = .done none
  /-- Otherwise it takes a ticket, and then decides for the candidate at that position. -/
  turn : healthy ≠ [] → ∃ serve : UInt64 → Program (Option RouteDecision),
    rest = .atomically (fun s => { s with nextWorker := s.nextWorker + 1 }) (fun _ => .ticket)
      (fun s => serve s.nextWorker) ∧
    ∀ ticket, ∃ w, (Router.chatCandidates healthy)[ticket.toNat %
        (Router.chatCandidates healthy).length]? = some w ∧
      (serve ticket).Traces Access.Serves (DecidesFor w)

/-- A selection in turn is a snapshot, then a ticket, then the rest. -/
lemma Caller.program_chat (hpolicy : router.policy = .roundRobin) (clock : ℕ → Instant)
    (request : ChatCompletionRequest) : ∃ rest : List Worker → Program (Option RouteDecision),
    (Caller.chat clock request).program hasher fl router =
      .atomically id (fun s => .snapshot s.registry.healthyWorkers)
        (fun s => rest s.registry.healthyWorkers) ∧
      ∀ healthy, TakesTicket healthy (rest healthy) := by
  set chain := chainHash hasher request.canonicalPrompt router.blockSize
  refine ⟨fun healthy => if hne : healthy = [] then .done none else
    Router.selectInTurn clock (Router.chatCandidates healthy) (Router.chatCandidates_ne_nil hne)
      chain >>= fun result => pure result.toOption, ?_,
    fun healthy => ⟨fun hnil => dif_pos hnil, fun hne => ?_⟩⟩
  · show Thread.atomically id _ _ = Thread.atomically id _ _
    congr 1
    funext s
    show (dite _ _ _ >>= _ : Program _) = dite _ _ _
    by_cases hne : s.registry.healthyWorkers = []
    · rw [dif_pos hne, dif_pos hne]
      rfl
    · rw [dif_neg hne, dif_neg hne, hpolicy]
  · have hpos := List.length_pos_iff.mpr (Router.chatCandidates_ne_nil hne)
    dsimp only
    rw [dif_neg hne]
    exact ⟨_, rfl, fun ticket => ⟨_, List.getElem?_eq_getElem (Nat.mod_lt _ hpos),
      traces_serve clock _ chain⟩⟩

/-- What a thread does, section by section. -/
lemma Caller.traces_program (thread : Caller) :
    (thread.program hasher fl router).Traces (fun _ => True) fun _ => True := by
  cases thread with
  | chat clock request =>
    obtain ⟨rest, heq, hrest⟩ := RoutingCall.program_traces hasher fl router (.chat clock request)
    refine Program.Traces.bind (ψ := fun _ => True) ?_ fun _ _ => Program.traces_pure trivial
    rw [show router.selectForChat hasher fl clock request = _ from heq]
    refine (Program.traces_healthyWorkers fun _ => trivial).bind fun healthy _ => ?_
    exact (hrest healthy).weaken (fun _ _ => trivial) fun _ _ => trivial
  | other bystander =>
    exact (bystander.noTicket.weaken (fun _ _ => trivial) fun _ h => h).bind fun _ _ =>
      Program.traces_pure trivial

/-! ## Runs -/

variable [DecidableEq ι] {threads : ι → Caller} {s : Shared} {tr : List (ι × Access)}
  {p' : ThreadPool ι Shared Access (Option RouteDecision)}

/-- The counter counts the tickets. -/
lemma nextWorker_callers (h : (callers hasher fl router threads s).Exec tr p') :
    p'.shared.nextWorker = s.nextWorker + UInt64.ofNat (takers tr).length := by
  have htracks := h.tracks (π := Shared.nextWorker) (ψ := fun _ => True)
    (f := fun l n => if l = .ticket then n + 1 else n) fun i =>
      (Caller.traces_program (threads i)).mono (fun _ _ _ hs => hs.1.nextWorker_eq) fun _ h => h
  rw [htracks]
  show tr.foldl _ s.nextWorker = _
  clear htracks h
  generalize s.nextWorker = n
  induction tr generalizing n with
  | nil => simp
  | cons e tr ih =>
    obtain ⟨i, l⟩ := e
    rw [List.foldl_cons, ih]
    by_cases hl : l = .ticket
    · subst hl
      rw [if_pos rfl, takers_cons_ticket, List.length_cons, UInt64.ofNat_add, UInt64.add_assoc,
        UInt64.add_comm 1]
      rfl
    · rw [if_neg hl, takers_cons_of_ne hl]

/-- Workers stay stored under their own ids. -/
lemma ownIds_callers (h : (callers hasher fl router threads s).Exec tr p')
    (hids : s.registry.OwnIds) : p'.shared.registry.OwnIds :=
  h.invariant (I := fun s => s.registry.OwnIds) (ψ := fun _ => True) (fun i =>
    (Caller.traces_program (threads i)).mono (fun _ _ _ hs => hs.1.ownIds) fun _ h => h) hids

/-- What a run has made of a selection that took its ticket at the given place in the trace. -/
structure Settled (s : Shared) (tr : List (ι × Access))
    (p' : ThreadPool ι Shared Access (Option RouteDecision)) (i : ι)
    (before after : List (ι × Access)) (candidates : List Worker) (w : Worker) : Prop where
  /-- The place of the ticket. -/
  trace_eq : tr = before ++ (i, .ticket) :: after
  /-- It took no ticket before. -/
  notMem_before : i ∉ takers before
  /-- It takes no other one. -/
  notMem_after : i ∉ takers after
  /-- Its candidates are those of its only snapshot. -/
  saw_iff : ∀ cs, SawCandidates tr i cs ↔ cs = candidates
  /-- Its worker is the candidate whose turn it was. -/
  getElem_eq : candidates[(s.nextWorker + UInt64.ofNat (takers before).length).toNat %
    candidates.length]? = some w
  /-- It chooses that worker. -/
  chooses : Chooses p' i w

/-- A thread that takes no ticket and does not decide. -/
lemma not_taker {p : ThreadPool ι Shared Access (Option RouteDecision)} (h : p.Exec tr p') {i : ι}
    (hi : (p.threads i).Each (fun _ l _ => l ≠ .ticket) fun result => result = none) :
    i ∉ takers tr ∧ ∀ d, p'.threads i ≠ .done (some d) := by
  constructor
  · intro hmem
    have hlabel := h.label_of_each (φ := fun l => l ≠ .ticket) hi .ticket (mem_takers.mp hmem)
    exact hlabel rfl
  · intro d hdone
    have hnone := h.each_thread hi
    rw [hdone] at hnone
    exact Option.some_ne_none d hnone

/-- A selection with a ticket, from its snapshot on. -/
lemma settled_of_ticket {i : ι}
    {before middle after : List (ι × Access)} {healthy : List Worker}
    {q q' : ThreadPool ι Shared Access (Option RouteDecision)}
    (htr : tr = before ++ (i, .snapshot healthy) :: (middle ++ (i, .ticket) :: after))
    (hbefore : ∀ l, (i, l) ∉ before) (hmiddle : ∀ l, (i, l) ∉ middle)
    (hq : (callers hasher fl router threads s).Exec (before ++ (i, .snapshot healthy) :: middle) q)
    (hafter : q'.Exec after p') {w : Worker}
    (hw : (Router.chatCandidates healthy)[q.shared.nextWorker.toNat %
      (Router.chatCandidates healthy).length]? = some w)
    (hserve : (q'.threads i).Each (fun s l s' => l.Effect s s' ∧ l.Serves) (DecidesFor w)) :
    Settled s tr p' i (before ++ (i, .snapshot healthy) :: middle) after
      (Router.chatCandidates healthy) w := by
  have hlabels : ∀ l, (i, l) ∈ after → l.Serves :=
    hafter.label_of_each (hserve.mono (fun _ _ _ hs => hs.2) fun _ h => h)
  refine
    { trace_eq := by rw [htr, List.append_assoc, List.cons_append]
      notMem_before := takers_of_snapshot hbefore (takers_of_not_mem hmiddle)
      notMem_after := fun hmem => hlabels _ (mem_takers.mp hmem)
      saw_iff := fun cs => ?saw
      getElem_eq := by rwa [← nextWorker_callers hq]
      chooses := (hafter.each_thread hserve).ends }
  case saw =>
    constructor
    · rintro ⟨healthy', hmem, rfl⟩
      rw [htr] at hmem
      rcases List.mem_append.mp hmem with hmem | hmem
      · exact absurd hmem (hbefore _)
      · rcases List.mem_cons.mp hmem with heq | hmem
        · rw [Access.snapshot.inj (Prod.mk.inj heq).2]
        · rcases List.mem_append.mp hmem with hmem | hmem
          · exact absurd hmem (hmiddle _)
          · rcases List.mem_cons.mp hmem with heq | hmem
            · exact nomatch (Prod.mk.inj heq).2
            · exact (hlabels _ hmem).elim
    · rintro rfl
      exact ⟨healthy, by simp [htr], rfl⟩

/-- **What becomes of a thread.**  It has no ticket, and then it has not decided, or it is a
selection with a ticket.

**Proof sketch.** A selection that has not moved has no label at all, and one that has moved starts
with a snapshot; the same goes for what follows the snapshot and the ticket
(`ThreadPool.Exec.first_section`). -/
theorem settled_or (h : (callers hasher fl router threads s).Exec tr p')
    (hpolicy : router.policy = .roundRobin) (i : ι) :
    (i ∉ takers tr ∧ ∀ d, p'.threads i ≠ .done (some d)) ∨
      ∃ before after candidates w, Settled s tr p' i before after candidates w := by
  cases hi : threads i with
  | other bystander =>
    left
    refine not_taker h ?_
    show ((threads i).program hasher fl router).Each _ _
    rw [hi]
    exact Thread.Each.bind (bystander.noTicket.mono (fun _ _ _ hs => hs.2) fun _ h => h)
      fun _ _ => rfl
  | chat clock request =>
    obtain ⟨rest, heq, hrest⟩ := @Caller.program_chat hasher fl router hpolicy clock request
    have hstart : (callers hasher fl router threads s).threads i = _ :=
      (congrArg (Caller.program hasher fl router) hi).trans heq
    rcases h.first_section hstart with ⟨hstill, hnone⟩ |
      ⟨before, rest', q, q', rfl, hbefore, hq, hstep, hq', hexec⟩
    · exact Or.inl ⟨takers_of_not_mem hnone,
        fun d hd => nomatch (hstill.trans hstart).symm.trans hd⟩
    · set healthy := q.shared.registry.healthyWorkers
      by_cases hnil : healthy = []
      · have hfails :
            (q'.threads i).Each (fun _ l _ => l ≠ .ticket) fun result => result = none := by
          rw [hq', (hrest healthy).fails hnil]
          rfl
        obtain ⟨hnot, hnone⟩ := not_taker hexec hfails
        exact Or.inl ⟨takers_of_snapshot hbefore hnot, hnone⟩
      · obtain ⟨serve, hturn, hserve⟩ := (hrest healthy).turn hnil
        rcases hexec.first_section (hq'.trans hturn) with ⟨hstill, hnone⟩ |
          ⟨middle, after, q₁, q₁', rfl, hmiddle, hq₁, -, hq₁', hafter⟩
        · exact Or.inl ⟨takers_of_snapshot hbefore (takers_of_not_mem hnone),
            fun d hd => nomatch (hstill.trans (hq'.trans hturn)).symm.trans hd⟩
        · obtain ⟨w, hw, htraces⟩ := hserve q₁.shared.nextWorker
          have hwhole := hq.trans (.cons hstep hq₁)
          exact Or.inr ⟨_, after, _, w, settled_of_ticket rfl hbefore hmiddle hwhole hafter hw
            (hq₁' ▸ htraces)⟩

omit [DecidableEq ι] in
/-- The place of a selection in the order of the counter. -/
lemma Settled.eq_length {before after : List (ι × Access)} {i : ι} {candidates : List Worker}
    {w : Worker} (h : Settled s tr p' i before after candidates w) {k : ℕ}
    (hk : (takers tr)[k]? = some i) : k = (takers before).length := by
  rw [h.trace_eq, takers_append, takers_cons_ticket] at hk
  rcases lt_trichotomy k (takers before).length with hlt | heq | hgt
  · rw [List.getElem?_append_left hlt] at hk
    exact absurd (List.mem_of_getElem? hk) h.notMem_before
  · exact heq
  · rw [List.getElem?_append_right hgt.le, List.getElem?_cons, if_neg (by omega)] at hk
    exact absurd (List.mem_of_getElem? hk) h.notMem_after

omit [DecidableEq ι] in
/-- A selection chooses only one worker. -/
lemma Chooses.unique {i : ι} {w v : Worker} (hw : Chooses p' i w) (hv : Chooses p' i v) :
    w = v := by
  obtain ⟨⟨d, hd, rfl⟩, ⟨d', hd', rfl⟩⟩ := (Thread.Each.and hw hv).alone p'.shared
  rw [Option.some.inj (hd.symm.trans hd')]

/-- **What a selection chooses.**  The selection with the `k`-th ticket has candidates, and it
chooses the one at the position `k % candidates` (from a counter that starts at zero, as long as
the counter does not wrap). -/
theorem chooses_iff (h : (callers hasher fl router threads s).Exec tr p')
    (hpolicy : router.policy = .roundRobin) (hstart : s.nextWorker = 0) {k : ℕ} {i : ι}
    (hk : (takers tr)[k]? = some i) (hlt : k < 2 ^ 64) :
    ∃ candidates, candidates ≠ [] ∧ (∀ cs, SawCandidates tr i cs ↔ cs = candidates) ∧
      ∀ w, Chooses p' i w ↔ candidates[k % candidates.length]? = some w := by
  rcases settled_or h hpolicy i with ⟨hnot, -⟩ | ⟨before, after, candidates, w, hsettled⟩
  · exact absurd (List.mem_of_getElem? hk) hnot
  · have hw := hsettled.getElem_eq
    rw [← hsettled.eq_length hk, hstart, UInt64.zero_add, UInt64.toNat_ofNat_of_lt' hlt] at hw
    refine ⟨candidates, List.ne_nil_of_mem (List.mem_of_getElem? hw), hsettled.saw_iff,
      fun v => ⟨fun hv => ?_, fun hv => ?_⟩⟩
    · rwa [hv.unique hsettled.chooses]
    · rw [← Option.some.inj (hw.symm.trans hv)]
      exact hsettled.chooses

/-- The candidates of a selection are in the order of ids. -/
lemma SawCandidates.pairwise (h : (callers hasher fl router threads s).Exec tr p')
    (hids : s.registry.OwnIds) {i : ι} {candidates : List Worker}
    (hsaw : SawCandidates tr i candidates) : candidates.Pairwise fun w v => w.id < v.id := by
  obtain ⟨healthy, hmem, rfl⟩ := hsaw
  obtain ⟨before, after, rfl⟩ := List.append_of_mem hmem
  obtain ⟨q, q', hq, hs, -, -⟩ := h.at_label fun i => Caller.traces_program (threads i)
  have hsorted : healthy.Pairwise fun w v => w.id < v.id := by
    rw [hs.1.2]
    exact (ownIds_callers hq hids).pairwise_healthyWorkers
  exact hsorted.sublist (Router.chatCandidates_sublist healthy)

end Calls

end KvRoute
