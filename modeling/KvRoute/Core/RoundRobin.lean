import KvRoute.Core.Turns

set_option relaxedAutoImplicit false
set_option autoImplicit false

/-!
# Round robin over changing and over fixed candidates

The counter of `round_robin` remembers how many selections there were, and nothing of which worker
was chosen last.  While the candidates stay the same the choices rotate among them, in whatever
way the selections are interleaved.  When the candidates change, a position in the list stands for
another worker, and the next selection may come to the worker of the last one.

## Main definitions

* `KvRoute.chosenTurns` — the turns at which a worker was chosen.
* `Bystander.setAll` — a sequence of health changes.

## Main results

* `KvRoute.consecutive_choices` — when two selections in a row choose the same worker.
* `KvRoute.rotation_fair` — over fixed candidates the choices rotate.
-/

namespace KvRoute

section Runs

variable {ι : Type} {hasher : Option UInt64 → List Char → UInt64} {fl : F64.Rounding}
  {router : Router} {config : RouterConfig} {threads : ι → Caller} {tr : List (ι × Access)}
  {p' : ThreadPool ι Shared Access (Option RouteDecision)}

/-- The turns before `k` at which a selection chose the worker. -/
def chosenTurns (tr : List (ι × Access))
    (p' : ThreadPool ι Shared Access (Option RouteDecision)) (w : Worker) (k : ℕ) : Set ℕ :=
  {m | m < k ∧ ∃ i, (takers tr)[m]? = some i ∧ Chooses p' i w}

variable [DecidableEq ι]

/-- The registry of a new router stores every worker under its own id. -/
lemma ownIds_new (config : RouterConfig) : (Shared.new config).registry.OwnIds :=
  fun _ _ => (WorkerRegistry.wellFormed_fromConfig config.workers).id_eq

/-- Selections that saw the same candidates saw them in the same order. -/
lemma SawCandidates.eq (h : (callers hasher fl router threads (.new config)).Exec tr p') {i j : ι}
    {cs cs' : List Worker} (hcs : SawCandidates tr i cs) (hcs' : SawCandidates tr j cs')
    (hmem : ∀ w, w ∈ cs ↔ w ∈ cs') : cs = cs' :=
  WorkerRegistry.eq_of_pairwise_id_lt (hcs.pairwise h (ownIds_new config))
    (hcs'.pairwise h (ownIds_new config)) hmem

/-- No worker is twice among the candidates. -/
lemma SawCandidates.nodup (h : (callers hasher fl router threads (.new config)).Exec tr p')
    {i : ι} {cs : List Worker} (hcs : SawCandidates tr i cs) : cs.Nodup := by
  refine (hcs.pairwise h (ownIds_new config)).imp ?_
  rintro w _ hlt rfl
  exact lt_irrefl _ hlt

/-- **Two selections in a row.**  In every run of selections on a new router under `round_robin`,
interleaved in any way with each other and with anything else that takes no ticket, with fewer
than `2 ^ 64` of them: two selections that are consecutive in the order of the counter choose the
same worker exactly if the worker at the position of the first one in its list of candidates is at
the position of the second one in its own list.  If both had the same candidates, at least two,
they never do.

**Proof sketch.** Each chooses the candidate at the position that its ticket gives (`chooses_iff`);
if the lists are the same these are different positions, and no worker is in a list twice. -/
theorem consecutive_choices
    (h : (callers hasher fl router threads (.new config)).Exec tr p')
    (hpolicy : router.policy = .roundRobin) (hfew : (takers tr).length < 2 ^ 64) {k : ℕ} {i j : ι}
    (hi : (takers tr)[k]? = some i) (hj : (takers tr)[k + 1]? = some j) {cs cs' : List Worker}
    (hcs : SawCandidates tr i cs) (hcs' : SawCandidates tr j cs') :
    ((∃ w, Chooses p' i w ∧ Chooses p' j w) ↔
        cs[k % cs.length]? = cs'[(k + 1) % cs'.length]?) ∧
      ((∀ w, w ∈ cs ↔ w ∈ cs') → 2 ≤ cs.length → ∀ w, Chooses p' i w → ¬Chooses p' j w) := by
  obtain ⟨hlt, -⟩ := List.getElem?_eq_some_iff.mp hj
  obtain ⟨candidates, hne, hsaw, hchooses⟩ := chooses_iff h hpolicy rfl hi (by omega)
  obtain ⟨candidates', hne', hsaw', hchooses'⟩ := chooses_iff h hpolicy rfl hj (by omega)
  obtain rfl := (hsaw cs).mp hcs
  obtain rfl := (hsaw' cs').mp hcs'
  constructor
  · constructor
    · rintro ⟨w, hw, hw'⟩
      rw [(hchooses w).mp hw, (hchooses' w).mp hw']
    · intro heq
      have hpos := Nat.mod_lt k (List.length_pos_iff.mpr hne)
      exact ⟨_, (hchooses _).mpr (List.getElem?_eq_getElem hpos),
        (hchooses' _).mpr (heq ▸ List.getElem?_eq_getElem hpos)⟩
  · intro hmem htwo w hw hw'
    obtain rfl := hcs.eq h hcs' hmem
    have heq := ((hchooses w).mp hw).trans ((hchooses' w).mp hw').symm
    have hpos := Nat.mod_lt k (List.length_pos_iff.mpr hne)
    exact Rotation.mod_succ_ne htwo k ((List.getElem?_inj hpos (hcs.nodup h)).mp heq).symm

/-- If all selections have the same candidates, there is one order of these in which they take
turns. -/
lemma exists_order (h : (callers hasher fl router threads (.new config)).Exec tr p')
    (hpolicy : router.policy = .roundRobin) (hfew : (takers tr).length < 2 ^ 64)
    {candidates : Finset Worker}
    (hsame : ∀ i ∈ takers tr, ∀ cs, SawCandidates tr i cs → ∀ w, w ∈ cs ↔ w ∈ candidates) :
    ∃ order : List Worker, order.Nodup ∧ (∀ w, w ∈ order ↔ w ∈ candidates) ∧
      ∀ k < (takers tr).length, ∀ w, (∃ i, (takers tr)[k]? = some i ∧ Chooses p' i w) ↔
        order[k % order.length]? = some w := by
  cases htakers : takers tr with
  | nil =>
    exact ⟨candidates.toList, candidates.nodup_toList, fun w => Finset.mem_toList, nofun⟩
  | cons i₀ rest =>
    have hfirst : (takers tr)[0]? = some i₀ := by rw [htakers]; rfl
    obtain ⟨order, -, hsaw, -⟩ := chooses_iff h hpolicy rfl hfirst (by omega)
    have horder := (hsaw order).mpr rfl
    have hmem := hsame i₀ (List.mem_of_getElem? hfirst) order horder
    refine ⟨order, horder.nodup h, hmem, fun k hk w => ?_⟩
    rw [← htakers] at hk ⊢
    have hi := List.getElem?_eq_getElem hk
    obtain ⟨cs, -, hsawk, hchooses⟩ := chooses_iff h hpolicy rfl hi (by omega)
    have hcs := (hsawk cs).mpr rfl
    have heq : cs = order := hcs.eq h horder fun v =>
      (hsame _ (List.getElem_mem hk) cs hcs v).trans (hmem v).symm
    rw [← heq, ← hchooses w, hi]
    simp

/-- **Fair rotation.**  In every run of selections on a new router under `round_robin`, interleaved
in any way with each other and with anything else that takes no ticket, with fewer than `2 ^ 64`
of them, in which every selection that takes a ticket has the same candidates: every call that has
decided took a ticket; any as many selections in a row, in the order of the counter, as there are
candidates choose each of them exactly once; and after any number of selections no candidate has
been chosen more than once more than another.

**Proof sketch.** The selection with ticket `k` chooses position `k % n` of one common list
(`exists_order`), and positions of a rotation come up once in every `n` turns
(`Rotation.existsUnique_turn`, `Rotation.ncard_turns_le`). -/
theorem rotation_fair (h : (callers hasher fl router threads (.new config)).Exec tr p')
    (hpolicy : router.policy = .roundRobin) (hfew : (takers tr).length < 2 ^ 64)
    (candidates : Finset Worker)
    (hsame : ∀ i ∈ takers tr, ∀ cs, SawCandidates tr i cs → ∀ w, w ∈ cs ↔ w ∈ candidates) :
    (∀ i d, p'.threads i = .done (some d) → i ∈ takers tr) ∧
      (∀ start, start + candidates.card ≤ (takers tr).length → ∀ w ∈ candidates,
        ∃! k, (start ≤ k ∧ k < start + candidates.card) ∧
          ∃ i, (takers tr)[k]? = some i ∧ Chooses p' i w) ∧
      ∀ k ≤ (takers tr).length, ∀ w ∈ candidates, ∀ v ∈ candidates,
        (chosenTurns tr p' w k).ncard ≤ (chosenTurns tr p' v k).ncard + 1 := by
  obtain ⟨order, hnodup, hmem, hturn⟩ := exists_order h hpolicy hfew hsame
  have hcard : candidates.card = order.length := by
    rw [← List.toFinset_card_of_nodup hnodup]
    congr 1
    ext w
    rw [List.mem_toFinset, hmem]
  -- a candidate is chosen when the turn comes to its position
  have hposition : ∀ w ∈ candidates, ∃ j < order.length, ∀ k < (takers tr).length,
      (∃ i, (takers tr)[k]? = some i ∧ Chooses p' i w) ↔ k % order.length = j := by
    intro w hw
    obtain ⟨j, hj, rfl⟩ := List.mem_iff_getElem.mp ((hmem w).mpr hw)
    refine ⟨j, hj, fun k hk => ?_⟩
    rw [hturn k hk, ← List.getElem?_eq_getElem hj]
    exact List.getElem?_inj (Nat.mod_lt k (Nat.zero_lt_of_lt hj)) hnodup
  have hturns : ∀ w ∈ candidates, ∃ j < order.length, ∀ k ≤ (takers tr).length,
      chosenTurns tr p' w k = Rotation.turns order.length j k := by
    intro w hw
    obtain ⟨j, hj, hiff⟩ := hposition w hw
    refine ⟨j, hj, fun k hk => Set.ext fun m => ?_⟩
    exact and_congr_right fun hm => hiff m (hm.trans_le hk)
  refine ⟨fun i d hd => ?_, fun start hstart w hw => ?_, fun k hk w hw v hv => ?_⟩
  · rcases settled_or h hpolicy i with ⟨-, hnone⟩ | ⟨before, after, cs, w, hsettled⟩
    · exact absurd hd (hnone d)
    · rw [hsettled.trace_eq]
      simp
  · obtain ⟨j, hj, hiff⟩ := hposition w hw
    rw [hcard] at hstart ⊢
    obtain ⟨k, ⟨hwindow, hk⟩, hunique⟩ := Rotation.existsUnique_turn hj start
    refine ⟨k, ⟨hwindow, (hiff k (by omega)).mpr hk⟩, ?_⟩
    rintro m ⟨hm, hchosen⟩
    exact hunique m ⟨hm, (hiff m (by omega)).mp hchosen⟩
  · obtain ⟨j, hj, hw⟩ := hturns w hw
    obtain ⟨j', hj', hv⟩ := hturns v hv
    rw [hw k hk, hv k hk]
    exact Rotation.ncard_turns_le hj hj' k

end Runs

/-! ## Runs over changing and over fixed candidates -/

/-- Mark workers up or down, one after the other. -/
def setAll : List (WorkerId × Bool) → Program Unit
  | [] => pure ()
  | (worker, healthy) :: changes => do
    let _ ← Program.setHealthy worker healthy
    setAll changes

lemma traces_setAll (changes : List (WorkerId × Bool)) :
    (setAll changes).Traces (· ≠ .ticket) fun _ => True := by
  induction changes with
  | nil => exact Program.traces_pure trivial
  | cons change changes ih => exact (Program.traces_setHealthy nofun).bind fun _ _ => ih

/-- A thread that marks workers up or down. -/
def Bystander.setAll (changes : List (WorkerId × Bool)) : Bystander :=
  ⟨KvRoute.setAll changes, traces_setAll changes⟩

/-- Three replicas for both phases, taking turns. -/
def threeInTurn : RouterConfig where
  workers := [⟨"http://a", .both⟩, ⟨"http://b", .both⟩, ⟨"http://c", .both⟩]
  routingPolicy := .roundRobin

/-- The first two replicas. -/
def firstTwo : List Worker := [⟨0, "http://a", .both⟩, ⟨1, "http://b", .both⟩]

/-- The last two replicas. -/
def lastTwo : List Worker := [⟨1, "http://b", .both⟩, ⟨2, "http://c", .both⟩]

/-- Thread 0 marks the first two replicas up; thread 1 replaces the first by the third; all others
are requests. -/
def replacingThreads : ℕ → Caller
  | 0 => .other (.setAll [(0, true), (1, true)])
  | 1 => .other (.setAll [(0, false), (2, true)])
  | _ => .chat (fun _ => 0) ⟨[]⟩

/-- The threads over a new router. -/
def replacingPool : ThreadPool ℕ Shared Access (Option RouteDecision) :=
  callers defaultHasher .exact ⟨.roundRobin, 4, .finite 1, .finite 1⟩ replacingThreads
    (.new threeInTurn)

/-- Two requests, the replacement, and a third request. -/
def replacingRun : List (ℕ × Access) × ThreadPool ℕ Shared Access (Option RouteDecision) :=
  replacingPool.run [0, 0, 2, 2, 3, 3, 1, 1, 4, 4]

lemma exec_replacingRun : replacingPool.Exec replacingRun.1 replacingRun.2 :=
  replacingPool.exec_run _

lemma trace_replacingRun : replacingRun.1 =
    [(0, .setHealthy 0 true), (0, .setHealthy 1 true), (2, .snapshot firstTwo), (2, .ticket),
      (3, .snapshot firstTwo), (3, .ticket), (1, .setHealthy 0 false), (1, .setHealthy 2 true),
      (4, .snapshot lastTwo), (4, .ticket)] := by
  decide +kernel

lemma takers_replacingRun : takers replacingRun.1 = [2, 3, 4] := by
  rw [trace_replacingRun]
  rfl

/-- The first two requests saw the same two replicas, and the second one does not choose the replica
that the first one has chosen. -/
theorem consecutive_choices_first_two :
    Chooses replacingRun.2 2 ⟨0, "http://a", .both⟩ ∧
      ¬Chooses replacingRun.2 3 ⟨0, "http://a", .both⟩ := by
  have hfirst : SawCandidates replacingRun.1 2 firstTwo :=
    ⟨firstTwo, by simp [trace_replacingRun], rfl⟩
  have hsecond : SawCandidates replacingRun.1 3 firstTwo :=
    ⟨firstTwo, by simp [trace_replacingRun], rfl⟩
  have hchosen : Chooses replacingRun.2 2 ⟨0, "http://a", .both⟩ := by
    obtain ⟨cs, -, hsaw, hchooses⟩ := chooses_iff (k := 0) (i := 2) exec_replacingRun rfl rfl
      (by rw [takers_replacingRun]; rfl) (by norm_num)
    obtain rfl := (hsaw _).mp hfirst
    exact (hchooses _).mpr rfl
  exact ⟨hchosen,
    (consecutive_choices (k := 0) exec_replacingRun rfl (by rw [takers_replacingRun]; decide)
      (by rw [takers_replacingRun]; rfl) (by rw [takers_replacingRun]; rfl) hfirst hsecond).2
      (fun _ => Iff.rfl) (by decide) _ hchosen⟩

/-- The second and the third request had two candidates each, and both choose the second replica:
it was the second one in one list and is the first one in the other. -/
theorem consecutive_choices_repeat :
    replacingPool.Exec replacingRun.1 replacingRun.2 ∧ takers replacingRun.1 = [2, 3, 4] ∧
      SawCandidates replacingRun.1 3 firstTwo ∧ SawCandidates replacingRun.1 4 lastTwo ∧
      Chooses replacingRun.2 3 ⟨1, "http://b", .both⟩ ∧
      Chooses replacingRun.2 4 ⟨1, "http://b", .both⟩ := by
  have hsecond : SawCandidates replacingRun.1 3 firstTwo :=
    ⟨firstTwo, by simp [trace_replacingRun], rfl⟩
  have hthird : SawCandidates replacingRun.1 4 lastTwo :=
    ⟨lastTwo, by simp [trace_replacingRun], rfl⟩
  refine ⟨exec_replacingRun, takers_replacingRun, hsecond, hthird, ?_, ?_⟩
  · obtain ⟨cs, -, hsaw, hchooses⟩ := chooses_iff (k := 1) (i := 3) exec_replacingRun rfl rfl
      (by rw [takers_replacingRun]; rfl) (by norm_num)
    obtain rfl := (hsaw _).mp hsecond
    exact (hchooses _).mpr rfl
  · obtain ⟨cs, -, hsaw, hchooses⟩ := chooses_iff (k := 2) (i := 4) exec_replacingRun rfl rfl
      (by rw [takers_replacingRun]; rfl) (by norm_num)
    obtain rfl := (hsaw _).mp hthird
    exact (hchooses _).mpr rfl

/-- Three requests among the first two replicas; the first snapshot is taken by the call that
takes the second ticket. -/
def racingRun : List (ℕ × Access) × ThreadPool ℕ Shared Access (Option RouteDecision) :=
  replacingPool.run [0, 0, 2, 3, 3, 2, 4, 4]

lemma trace_racingRun : racingRun.1 =
    [(0, .setHealthy 0 true), (0, .setHealthy 1 true), (2, .snapshot firstTwo),
      (3, .snapshot firstTwo), (3, .ticket), (2, .ticket), (4, .snapshot firstTwo),
      (4, .ticket)] := by
  decide +kernel

lemma exec_racingRun : replacingPool.Exec racingRun.1 racingRun.2 := replacingPool.exec_run _

lemma takers_racingRun : takers racingRun.1 = [3, 2, 4] := by
  rw [trace_racingRun]
  rfl

/-- After the three requests neither replica is ahead of the other by more than one. -/
theorem rotation_fair_racing :
    (chosenTurns racingRun.1 racingRun.2 ⟨0, "http://a", .both⟩ 3).ncard ≤
        (chosenTurns racingRun.1 racingRun.2 ⟨1, "http://b", .both⟩ 3).ncard + 1 ∧
      (chosenTurns racingRun.1 racingRun.2 ⟨1, "http://b", .both⟩ 3).ncard ≤
        (chosenTurns racingRun.1 racingRun.2 ⟨0, "http://a", .both⟩ 3).ncard + 1 := by
  have hsame : ∀ i ∈ takers racingRun.1, ∀ cs, SawCandidates racingRun.1 i cs →
      ∀ w, w ∈ cs ↔ w ∈ firstTwo.toFinset := by
    rintro i - cs ⟨healthy, hmem, rfl⟩ w
    rw [trace_racingRun] at hmem
    have hhealthy : healthy = firstTwo := by
      simp only [List.mem_cons, Prod.mk.injEq, Access.snapshot.injEq, reduceCtorEq, and_false,
        List.not_mem_nil, or_false, false_or] at hmem
      tauto
    rw [hhealthy, List.mem_toFinset]
    rfl
  have hfair := rotation_fair exec_racingRun rfl (by rw [takers_racingRun]; decide)
    firstTwo.toFinset hsame
  rw [takers_racingRun] at hfair
  have hfirst : (⟨0, "http://a", .both⟩ : Worker) ∈ firstTwo.toFinset := by decide
  have hsecond : (⟨1, "http://b", .both⟩ : Worker) ∈ firstTwo.toFinset := by decide
  exact ⟨hfair.2.2 3 le_rfl _ hfirst _ hsecond, hfair.2.2 3 le_rfl _ hsecond _ hfirst⟩

end KvRoute
