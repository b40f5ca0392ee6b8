import KvRoute.Core.PrefixHistory
import KvRoute.Mock.Mirror
import Mathlib.Data.Rat.Floor

set_option relaxedAutoImplicit false
set_option autoImplicit false

/-!
# Workloads of the benchmark

The benchmark replays generated traces (`bench/tracegen.py`): prompts that share long prefixes, and
conversations whose turns repeat what was said before.  The seeded generator is the sequence of the
words that it goes on to choose.  Numbers of requests, prefixes and conversations are natural
numbers; a quotient is rounded up without the rounding of floating-point division.

## Main definitions

* `KvRoute.Rng` — the generator, with `_words`, `_text` and `_text_exact`.
* `KvRoute.promptBlocks` — the blocks that an item of a trace is said to have.
* `KvRoute.sharedPrefix`, `KvRoute.multiTurn` — the traces.

## Main results

* `KvRoute.textExact_exact_iff` — when `_text_exact` is exact.
* `KvRoute.promptBlocks_eq` — an item has the blocks that the router hashes.
-/

namespace KvRoute

/-! ## Texts -/

/-- `VOCAB`. -/
def benchVocab : List String := ["alpha", "beta", "gamma", "delta", "epsilon", "zeta", "eta",
  "theta", "iota", "kappa", "lambda", "mu", "nu", "xi", "omicron", "pi", "rho", "sigma", "tau",
  "upsilon", "phi", "chi", "psi", "omega", "token", "cache", "prefix", "router", "worker",
  "replica", "latency", "throughput", "prefill", "decode", "kv", "attention", "transformer",
  "embedding", "context", "window", "serving", "batch", "stream", "pipeline", "model", "retrieval",
  "document", "query", "answer", "system", "prompt", "history", "turn", "dialogue"]

/-- A generator. -/
structure Rng where
  /-- What it goes on to choose. -/
  choices : ℕ → Fin benchVocab.length

/-- `text[:stop]`. -/
def sliceTo (text : String) (stop : ℤ) : String :=
  String.ofList (text.toList.take (if 0 ≤ stop then stop else text.length + stop).toNat)

namespace Rng

variable (rng : Rng)

/-- The word that it chooses after `i` others. -/
def word (i : ℕ) : String := benchVocab.get (rng.choices i)

/-- The generator after `n` choices. -/
def skip (n : ℕ) : Rng := ⟨fun i => rng.choices (n + i)⟩

/-- `_words`. -/
def words (count : ℕ) : String × Rng :=
  (" ".intercalate ((List.range count).map rng.word), rng.skip count)

/-- `_text`. -/
def text (targetChars : ℤ) : String × Rng :=
  let (words, rng) := rng.words (max 8 (targetChars / 7)).toNat
  (sliceTo words targetChars, rng)

/-- The loop of `_text_exact`, with the words and their total so far. -/
def collect (targetChars : ℤ) : ℕ → Rng → List String → ℤ → List String × ℤ × Rng
  | 0, rng, parts, total => (parts, total, rng)
  | fuel + 1, rng, parts, total =>
    if total < targetChars then
      let word := rng.word 0
      collect targetChars fuel (rng.skip 1) (parts ++ [word]) (total + word.length + 1)
    else (parts, total, rng)

/-- `_text_exact`; the loop ends before the fuel does, for every word adds to the total. -/
def textExact (targetChars : ℤ) : String × Rng :=
  let (parts, _, rng) := collect targetChars targetChars.toNat rng [] 0
  (sliceTo (" ".intercalate parts) targetChars, rng)

end Rng

/-! ## Traces -/

/-- `canonical_chars`. -/
def canonicalChars (messages : List ChatMessage) : ℤ :=
  let parts := messages.map fun m => m.role ++ ": " ++ m.content
  (parts.map String.length).sum + (parts.length - 1)

/-- `prompt_blocks`. -/
def promptBlocks (messages : List ChatMessage) (blockChars : ℕ) : ℤ :=
  max 1 ⌈(canonicalChars messages : ℚ) / blockChars⌉

/-- The exceptions that end the generation of a trace. -/
inductive TraceError where
  /-- `ZeroDivisionError`. -/
  | zeroDivision
  /-- `IndexError`. -/
  | index
deriving DecidableEq, Repr

/-- An item of a trace. -/
structure TraceItem where
  /-- Its messages. -/
  messages : List ChatMessage
  /-- Its number of blocks. -/
  blocks : ℤ
  /-- `prefix_id`, or `conversation`. -/
  group : ℕ
  /-- `turn`. -/
  turn : ℕ

/-- The label of a system prompt. -/
def systemLabel (i : ℕ) : String := s!"System document {i}: "

/-- A step of the first loop of `shared_prefix`. -/
def addSystemPrompt (prefixChars : ℤ) (s : List String × Rng) (i : ℕ) : List String × Rng :=
  let label := systemLabel i
  let (body, rng) := s.2.textExact (prefixChars - label.length)
  (s.1 ++ [label ++ body], rng)

/-- The messages of a request with a system prompt. -/
def sharedMessages (systemPrompt : String) (i : ℕ) (suffix : String) : List ChatMessage :=
  [⟨"system", systemPrompt⟩, ⟨"user", s!"Question about document {i}: " ++ suffix⟩]

/-- A step of the second loop of `shared_prefix`. -/
def addShared (systemPrompts : List String) (prefixes : ℕ) (suffixChars : ℤ)
    (s : List TraceItem × Rng) (k : ℕ) : Except TraceError (List TraceItem × Rng) :=
  if prefixes = 0 then .error .zeroDivision
  else
    let i := k % prefixes
    let (suffix, rng) := s.2.textExact suffixChars
    match systemPrompts[i]? with
    | none => .error .index
    | some systemPrompt =>
      let messages := sharedMessages systemPrompt i suffix
      .ok (s.1 ++ [⟨messages, promptBlocks messages 512, i, 0⟩], rng)

/-- `shared_prefix`; its items have no turns. -/
def sharedPrefix (rng : Rng) (requests prefixes : ℕ) (prefixChars suffixChars : ℤ) :
    Except TraceError (List TraceItem × Rng) :=
  let (systemPrompts, rng) := (List.range prefixes).foldl (addSystemPrompt prefixChars) ([], rng)
  (List.range requests).foldlM (addShared systemPrompts prefixes suffixChars) ([], rng)

/-- A turn of a conversation: what the user says, and the answer. -/
abbrev Turn := String × String

/-- A step of the inner loop that makes up conversations. -/
def addTurn (turnChars : ℤ) (c : ℕ) (s : List Turn × Rng) (t : ℕ) : List Turn × Rng :=
  let (question, rng) := s.2.text (turnChars / 2)
  let (reply, rng) := rng.text (turnChars / 2)
  (s.1 ++ [(s!"Turn {t} question in conversation {c}: " ++ question,
    s!"Answer {t} in conversation {c}: " ++ reply)], rng)

/-- A step of the outer loop that makes up conversations. -/
def addConversation (turnsPerConversation : ℕ) (turnChars : ℤ) (s : List (List Turn) × Rng)
    (c : ℕ) : List (List Turn) × Rng :=
  let (turns, rng) := (List.range turnsPerConversation).foldl (addTurn turnChars c) ([], s.2)
  (s.1 ++ [turns], rng)

/-- The messages of turn `t` of a conversation. -/
def turnMessages (turns : List Turn) (t : ℕ) : Except TraceError (List ChatMessage) :=
  let messages := (turns.take t).flatMap fun turn => [⟨"user", turn.1⟩, ⟨"assistant", turn.2⟩]
  match turns[t]? with
  | none => .error .index
  | some turn => .ok (messages ++ [⟨"user", turn.1⟩])

/-- The messages of request `k`. -/
def requestMessages (conversationsData : List (List Turn)) (conversations k : ℕ) :
    Except TraceError (List ChatMessage) :=
  match conversationsData[k % conversations]? with
  | none => .error .index
  | some turns => turnMessages turns (k / conversations)

/-- A step of the loop of `multi_turn`. -/
def addRequest (conversationsData : List (List Turn)) (conversations : ℕ)
    (trace : List TraceItem) (k : ℕ) : Except TraceError (List TraceItem) := do
  let messages ← requestMessages conversationsData conversations k
  pure (trace ++ [⟨messages, promptBlocks messages 512, k % conversations, k / conversations⟩])

/-- `multi_turn`. -/
def multiTurn (rng : Rng) (requests conversations : ℕ) (turnChars : ℤ) :
    Except TraceError (List TraceItem × Rng) :=
  if conversations = 0 then .error .zeroDivision
  else do
    let turnsPerConversation := max 1 (requests / conversations)
    let (conversationsData, rng) :=
      (List.range conversations).foldl (addConversation turnsPerConversation turnChars) ([], rng)
    let trace ← (List.range requests).foldlM (addRequest conversationsData conversations) []
    pure (trace, rng)

/-- A step of the loop of `random`. -/
def addRandom (promptChars : ℤ) (s : List TraceItem × Rng) (k : ℕ) : List TraceItem × Rng :=
  let (content, rng) := s.2.text promptChars
  let messages : List ChatMessage := [⟨"user", content⟩]
  (s.1 ++ [⟨messages, promptBlocks messages 512, k, 0⟩], rng)

/-- `random`; every request is a group of its own. -/
def randomTrace (rng : Rng) (requests : ℕ) (promptChars : ℤ) : List TraceItem × Rng :=
  (List.range requests).foldl (addRandom promptChars) ([], rng)

/-! ## Lengths of texts -/

lemma length_intercalate (separator : String) {parts : List String} (hne : parts ≠ []) :
    (separator.intercalate parts).length =
      (parts.map String.length).sum + (parts.length - 1) * separator.length := by
  induction parts with
  | nil => exact absurd rfl hne
  | cons part parts ih =>
    cases parts with
    | nil => simp
    | cons part' parts =>
      rw [String.intercalate_cons_cons, String.length_append, String.length_append,
        ih (List.cons_ne_nil _ _)]
      simp only [List.map_cons, List.sum_cons, List.length_cons, Nat.add_sub_cancel]
      rw [Nat.add_mul]
      omega

lemma length_sliceTo (text : String) (stop : ℕ) :
    (sliceTo text stop).length = min stop text.length := by
  simp [sliceTo, String.length_toList]

namespace Rng

variable (rng : Rng)

/-- The length of the first `n` words, each with a blank. -/
def total (n : ℕ) : ℕ := ((List.range n).map fun i => (rng.word i).length + 1).sum

@[simp] lemma total_zero : rng.total 0 = 0 := rfl

@[simp] lemma total_succ (n : ℕ) : rng.total (n + 1) = rng.total n + ((rng.word n).length + 1) := by
  simp [total, List.range_succ]

lemma total_strictMono : StrictMono rng.total :=
  strictMono_nat_of_lt_succ fun n => by
    rw [total_succ]
    omega

/-- The loop of `_text_exact` takes words until their total reaches the target.

**Proof sketch.** By induction on the fuel. -/
lemma collect_eq (target : ℤ) (fuel n : ℕ) :
    ∃ m, n ≤ m ∧ (m = n + fuel ∨ target ≤ rng.total m) ∧
      (∀ j, n ≤ j → j < m → (rng.total j : ℤ) < target) ∧
      collect target fuel (rng.skip n) ((List.range n).map rng.word) (rng.total n) =
        ((List.range m).map rng.word, (rng.total m : ℤ), rng.skip m) := by
  induction fuel generalizing n with
  | zero => exact ⟨n, le_refl n, .inl rfl, fun j hle hlt => absurd hle (by omega), rfl⟩
  | succ fuel ih =>
    by_cases hlt : (rng.total n : ℤ) < target
    · obtain ⟨m, hle, hend, hbefore, hcollect⟩ := ih (n + 1)
      refine ⟨m, by omega, hend.imp_left (by omega), ?_, ?_⟩
      · intro j hnj hjm
        rcases Nat.eq_or_lt_of_le hnj with rfl | hnj
        · exact hlt
        · exact hbefore j hnj hjm
      · have hword : (rng.skip n).word 0 = rng.word n := rfl
        have hskip : (rng.skip n).skip 1 = rng.skip (n + 1) := by
          simp only [skip, Nat.add_assoc]
        have htotal : (rng.total n : ℤ) + (rng.word n).length + 1 = rng.total (n + 1) := by
          rw [total_succ]
          push_cast
          omega
        rw [← hcollect, collect, if_pos hlt, hword, hskip]
        dsimp only
        rw [htotal, List.range_succ, List.map_append, List.map_singleton]
    · refine ⟨n, le_refl n, .inr (not_lt.mp hlt), fun j hle hlt => absurd hle (by omega), ?_⟩
      rw [collect, if_neg hlt]

/-- What `_text_exact` makes of the least number of words that reach the target. -/
lemma textExact_eq (target : ℤ) :
    ∃ m, target ≤ rng.total m ∧ (∀ j < m, (rng.total j : ℤ) < target) ∧
      rng.textExact target =
        (sliceTo (" ".intercalate ((List.range m).map rng.word)) target, rng.skip m) := by
  obtain ⟨m, -, hend, hbefore, hcollect⟩ := rng.collect_eq target target.toNat 0
  refine ⟨m, ?_, fun j hj => hbefore j (Nat.zero_le j) hj, ?_⟩
  · rcases hend with rfl | hend
    · -- every word adds to the total
      have hle := rng.total_strictMono.le_apply (x := target.toNat)
      rw [Nat.zero_add]
      omega
    · exact hend
  · have hstart : collect target target.toNat rng [] 0 =
        ((List.range m).map rng.word, (rng.total m : ℤ), rng.skip m) := by
      rw [← hcollect]
      congr 1
      simp [skip]
    rw [textExact, hstart]

/-- The first words, with blanks between them. -/
lemma length_intercalate_words {n : ℕ} (hn : 0 < n) :
    (" ".intercalate ((List.range n).map rng.word)).length + 1 = rng.total n := by
  have hne : (List.range n).map rng.word ≠ [] := by
    rw [Ne, List.map_eq_nil_iff, List.range_eq_nil]
    omega
  have hsum : ∀ l : List ℕ, (l.map fun i => (rng.word i).length + 1).sum =
      (l.map fun i => (rng.word i).length).sum + l.length := by
    intro l
    induction l with
    | nil => rfl
    | cons i l ih =>
      simp only [List.map_cons, List.sum_cons, List.length_cons, ih]
      omega
  rw [length_intercalate _ hne, total, hsum, List.map_map, List.length_map, List.length_range]
  have hblank : " ".length = 1 := rfl
  rw [hblank]
  show ((List.range n).map fun i => (rng.word i).length).sum + (n - 1) * 1 + 1 = _
  omega

end Rng

/-- The text has the length that was asked for, unless some of the first words fill it exactly, each
with a blank after it: then it is one short. -/
lemma length_textExact (rng : Rng) {target : ℕ} (htarget : 0 < target) :
    ((∀ n, rng.total n ≠ target) → (rng.textExact target).1.length = target) ∧
      ∀ n, rng.total n = target → (rng.textExact target).1.length = target - 1 := by
  obtain ⟨m, hreach, hbefore, htext⟩ := rng.textExact_eq target
  have hpos : 0 < m := by
    rcases Nat.eq_zero_or_pos m with rfl | hpos
    · rw [Rng.total_zero] at hreach
      omega
    · exact hpos
  have hwords := rng.length_intercalate_words hpos
  have hlength : (rng.textExact target).1.length = min target (rng.total m - 1) := by
    rw [htext]
    show (sliceTo _ (target : ℤ)).length = _
    rw [length_sliceTo]
    omega
  rw [hlength]
  constructor
  · intro hnever
    have hne := hnever m
    omega
  · intro n hn
    -- the loop takes no more words than these
    have hmn : m ≤ n := by
      by_contra hlt
      have hshort := hbefore n (by omega)
      omega
    have hle : rng.total m ≤ rng.total n := rng.total_strictMono.monotone hmn
    omega

/-- **When `_text_exact` is exact.**  The text is never longer than it should be, and shorter by at
most one character.  It is exact unless some of the first words fill it, each with a blank after it:
the loop counts the last blank, too, which is not there.

**Proof sketch.** The loop stops at the first total that reaches the target, and the text is cut
there (`length_textExact`). -/
theorem textExact_exact_iff (rng : Rng) (target : ℕ) :
    ((rng.textExact target).1.length = target ∨ (rng.textExact target).1.length + 1 = target) ∧
      ((rng.textExact target).1.length = target ↔ target = 0 ∨ ∀ n, rng.total n ≠ target) := by
  rcases Nat.eq_zero_or_pos target with rfl | htarget
  · have hempty : (rng.textExact (0 : ℕ)).1.length = 0 := rfl
    rw [hempty]
    simp
  · obtain ⟨hexact, hfilled⟩ := length_textExact rng htarget
    by_cases hany : ∃ n, rng.total n = target
    · obtain ⟨n, hn⟩ := hany
      rw [hfilled n hn]
      refine ⟨by omega, fun h => absurd h (by omega), ?_⟩
      rintro (hzero | hnever)
      · omega
      · exact absurd hn (hnever n)
    · have hnever := not_exists.mp hany
      rw [hexact hnever]
      exact ⟨.inl rfl, fun _ => .inr hnever, fun _ => rfl⟩

/-- A generator that always chooses the first word. -/
def dullRng : Rng := ⟨fun _ => ⟨0, by decide⟩⟩

example : (dullRng.textExact 6).1 = "alpha" ∧ (dullRng.textExact 7).1 = "alpha a" := by
  decide +kernel

/-! ## Blocks of a prompt -/

/-- The characters of the canonical prompt, but for a prompt without messages. -/
lemma canonicalChars_eq (messages : List ChatMessage) :
    canonicalChars messages =
      if messages = [] then -1
      else ((ChatCompletionRequest.canonicalPrompt ⟨messages⟩).length : ℤ) := by
  split_ifs with hempty
  · rw [hempty]
    rfl
  · have hne : (messages.map fun m => m.role ++ ": " ++ m.content) ≠ [] := by simpa using hempty
    have hpos : 0 < messages.length := List.length_pos_iff.mpr hempty
    have hnewline : "\n".length = 1 := rfl
    rw [canonicalPrompt_eq_intercalate, length_intercalate _ hne, hnewline, List.length_map]
    simp only [canonicalChars, List.length_map]
    omega

/-- A quotient that is rounded up. -/
lemma neg_ediv_neg (n : ℕ) {b : ℕ} (hb : 0 < b) : -(-(n : ℤ) / b) = ((n + b - 1) / b : ℕ) := by
  have hdown := Int.mul_ediv_add_emod (-(n : ℤ)) b
  have hdown_nonneg := Int.emod_nonneg (-(n : ℤ)) (b := b) (by omega)
  have hdown_lt := Int.emod_lt_of_pos (-(n : ℤ)) (b := b) (by omega)
  have hup := Nat.div_add_mod (n + b - 1) b
  have hup_lt := Nat.mod_lt (n + b - 1) hb
  generalize -(n : ℤ) / b = q at *
  generalize (n + b - 1) / b = q' at *
  generalize -(n : ℤ) % b = r at *
  generalize (n + b - 1) % b = r' at *
  have hup : ((b * q' + r' : ℕ) : ℤ) = (n + b - 1 : ℕ) := congrArg Nat.cast hup
  rw [Nat.cast_add, Nat.cast_mul] at hup
  have hdvd : (b : ℤ) ∣ b * (q + q') := Int.dvd_mul_right _ _
  have hsmall : |(b : ℤ) * (q + q')| < b := by
    rw [Int.mul_add, abs_lt]
    omega
  have hzero : q + q' = 0 :=
    (mul_eq_zero.mp (Int.eq_zero_of_abs_lt_dvd hdvd hsmall)).resolve_left (by omega)
  omega

/-- **The blocks of an item** are those that the router hashes: at least one. -/
theorem promptBlocks_eq (hasher : Option UInt64 → List Char → UInt64) (messages : List ChatMessage)
    {blockChars : ℕ} (hpos : 0 < blockChars) :
    promptBlocks messages blockChars =
      max 1 (chainHash hasher (ChatCompletionRequest.canonicalPrompt ⟨messages⟩)
        blockChars).length := by
  have hsize : max blockChars 1 = blockChars := max_eq_left hpos
  rw [length_chainHash, blocks, Slices.length_chunks, hsize, String.length_toList, promptBlocks,
    Rat.ceil_intCast_div_natCast, canonicalChars_eq]
  split_ifs with hempty
  · subst hempty
    have hprompt : (ChatCompletionRequest.canonicalPrompt ⟨[]⟩).length = 0 := rfl
    have hnone : (0 + blockChars - 1) / blockChars = 0 := Nat.div_eq_of_lt (by omega)
    have hnonneg : 0 ≤ - -(1 : ℤ) / (blockChars : ℤ) := Int.ediv_nonneg (by omega) (by omega)
    rw [hprompt, hnone]
    omega
  · generalize (ChatCompletionRequest.canonicalPrompt ⟨messages⟩).length = n
    rw [neg_ediv_neg n hpos]
    omega

/-- The items of `random`. -/
lemma randomTrace_blocks (hasher : Option UInt64 → List Char → UInt64) (rng : Rng) (requests : ℕ)
    (promptChars : ℤ) :
    (randomTrace rng requests promptChars).1.length = requests ∧
      ∀ item ∈ (randomTrace rng requests promptChars).1, item.blocks =
        max 1 (chainHash hasher (ChatCompletionRequest.canonicalPrompt ⟨item.messages⟩)
          512).length := by
  induction requests with
  | zero => exact ⟨rfl, nofun⟩
  | succ n ih =>
    obtain ⟨hlength, hblocks⟩ := ih
    have hstep : randomTrace rng (n + 1) promptChars =
        addRandom promptChars (randomTrace rng n promptChars) n := by
      rw [randomTrace, List.range_succ, List.foldl_append]
      rfl
    rw [hstep, addRandom]
    refine ⟨by rw [List.length_append, hlength]; rfl, ?_⟩
    intro item hitem
    rw [List.mem_append, List.mem_singleton] at hitem
    obtain hitem | rfl := hitem
    · exact hblocks item hitem
    · exact promptBlocks_eq hasher _ (by omega)

end KvRoute
