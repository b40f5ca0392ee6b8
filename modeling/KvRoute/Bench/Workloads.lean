import KvRoute.Bench.Tracegen
import KvRoute.Core.RoundRobin
import KvRoute.Server.Reuse

set_option relaxedAutoImplicit false
set_option autoImplicit false

/-!
# What the traces of the benchmark share

Requests of a trace that belong to the same group, that is, to the same system prompt or to the same
conversation, share leading blocks; a policy that sends them to the same worker finds these blocks
there.  `round_robin` does so as well if the number of groups is a multiple of the number of
workers, which the benchmark has to avoid (`bench/ab.py`).

## Main results

* `KvRoute.sharedPrefix_shares` — the requests of `shared_prefix`.
* `KvRoute.multiTurn_continues` — the requests of `multi_turn`, and when there are any.
* `KvRoute.roundRobin_spread` — how many workers a group is spread over in rotation.
-/

namespace KvRoute

/-- What is related to the numbers from `0` on. -/
lemma of_forall₂_range {α : Type} {R : ℕ → α → Prop} {n : ℕ} {items : List α}
    (h : List.Forall₂ R (List.range n) items) {k : ℕ} {item : α} (hk : items[k]? = some item) :
    R k item := by
  obtain ⟨hlength, hget⟩ := List.forall₂_iff_get.mp h
  obtain ⟨hlt, rfl⟩ := List.getElem?_eq_some_iff.mp hk
  have hk := hget k (hlength ▸ hlt) hlt
  simpa using hk

/-- A list of what is related to the elements of another list. -/
lemma exists_forall₂_of_forall {α β : Type} {R : α → β → Prop} {as : List α}
    (h : ∀ a ∈ as, ∃ b, R a b) : ∃ bs, List.Forall₂ R as bs := by
  induction as with
  | nil => exact ⟨[], .nil⟩
  | cons a as ih =>
    obtain ⟨b, hb⟩ := h a List.mem_cons_self
    obtain ⟨bs, hbs⟩ := ih fun a ha => h a (List.mem_cons_of_mem _ ha)
    exact ⟨b :: bs, .cons hb hbs⟩

/-! ## Shared prefixes -/

/-- A system prompt is at most one character shorter than it should be. -/
lemma le_length_systemPrompt (rng : Rng) (prefixChars i : ℕ) :
    prefixChars ≤ (systemLabel i ++
      (rng.textExact (prefixChars - (systemLabel i).length)).1).length + 1 := by
  rw [String.length_append]
  by_cases hshort : prefixChars ≤ (systemLabel i).length
  · omega
  · obtain ⟨rest, hrest⟩ := Nat.exists_eq_add_of_lt (not_le.mp hshort)
    have htarget : (prefixChars : ℤ) - (systemLabel i).length = (rest + 1 : ℕ) := by omega
    obtain ⟨hexact, hfilled⟩ := length_textExact rng (Nat.succ_pos rest)
    rw [htarget]
    by_cases hany : ∃ m, rng.total m = rest + 1
    · obtain ⟨m, hm⟩ := hany
      rw [hfilled m hm]
      omega
    · rw [hexact (not_exists.mp hany)]
      omega

/-- The system prompts, each with its label and almost as long as it should be. -/
lemma systemPrompts_eq (prefixChars : ℕ) (rng : Rng) (prefixes : ℕ) :
    ∃ systemPrompts rng', (List.range prefixes).foldl (addSystemPrompt prefixChars) ([], rng) =
        (systemPrompts, rng') ∧ systemPrompts.length = prefixes ∧
      ∀ (i : ℕ) systemPrompt, systemPrompts[i]? = some systemPrompt →
        (systemLabel i).toList <+: systemPrompt.toList ∧
          prefixChars ≤ systemPrompt.length + 1 := by
  induction prefixes with
  | zero => exact ⟨[], rng, rfl, rfl, nofun⟩
  | succ n ih =>
    obtain ⟨systemPrompts, rng', hfold, hlength, hprompts⟩ := ih
    rw [List.range_succ, List.foldl_append, hfold]
    refine ⟨systemPrompts ++ [systemLabel n ++
      (rng'.textExact (prefixChars - (systemLabel n).length)).1], _, rfl, by simp [hlength], ?_⟩
    intro i systemPrompt hi
    rw [List.getElem?_append] at hi
    split_ifs at hi with hlt
    · exact hprompts i systemPrompt hi
    · rw [List.getElem?_singleton] at hi
      split_ifs at hi with hzero
      obtain rfl := Option.some.inj hi
      obtain rfl : i = n := by omega
      refine ⟨?_, le_length_systemPrompt rng' prefixChars i⟩
      rw [String.toList_append]
      exact List.prefix_append _ _

/-- The item of a request with a system prompt. -/
def sharedItem (systemPrompt : String) (i : ℕ) (suffix : String) : TraceItem :=
  ⟨sharedMessages systemPrompt i suffix, promptBlocks (sharedMessages systemPrompt i suffix) 512,
    i, 0⟩

/-- What the second loop adds for a request. -/
lemma addShared_eq {systemPrompts : List String} {prefixes : ℕ} (hpos : 0 < prefixes) {k : ℕ}
    {systemPrompt : String} (hprompt : systemPrompts[k % prefixes]? = some systemPrompt)
    (suffixChars : ℤ) (trace : List TraceItem) (rng : Rng) :
    addShared systemPrompts prefixes suffixChars (trace, rng) k =
      .ok (trace ++ [sharedItem systemPrompt (k % prefixes) (rng.textExact suffixChars).1],
        (rng.textExact suffixChars).2) := by
  rw [addShared, if_neg (by omega)]
  simp only [hprompt]
  rfl

/-- The requests that the second loop adds. -/
lemma foldlM_addShared {systemPrompts : List String} {prefixes : ℕ}
    (hlength : systemPrompts.length = prefixes) (hpos : 0 < prefixes) (suffixChars : ℤ)
    (ks : List ℕ) (trace : List TraceItem) (rng : Rng) :
    ∃ items rng', ks.foldlM (addShared systemPrompts prefixes suffixChars) (trace, rng) =
        .ok (trace ++ items, rng') ∧
      List.Forall₂ (fun k item => ∃ systemPrompt suffix,
        systemPrompts[k % prefixes]? = some systemPrompt ∧
          item = sharedItem systemPrompt (k % prefixes) suffix) ks items := by
  induction ks generalizing trace rng with
  | nil => exact ⟨[], rng, by rw [List.append_nil]; rfl, .nil⟩
  | cons k ks ih =>
    have hk : k % prefixes < systemPrompts.length := by
      rw [hlength]
      exact Nat.mod_lt k hpos
    have hprompt := List.getElem?_eq_getElem hk
    have hstep := addShared_eq hpos hprompt suffixChars trace rng
    set item := sharedItem systemPrompts[k % prefixes] (k % prefixes)
      (rng.textExact suffixChars).1 with hitem
    obtain ⟨items, rng', hfold, hitems⟩ := ih (trace ++ [item]) (rng.textExact suffixChars).2
    refine ⟨item :: items, rng', ?_, .cons ⟨_, _, hprompt, hitem⟩ hitems⟩
    rw [List.foldlM_cons, hstep]
    show ks.foldlM (addShared systemPrompts prefixes suffixChars)
      (trace ++ [item], (rng.textExact suffixChars).2) = _
    rw [hfold, List.append_assoc, List.singleton_append]

/-- The items that `shared_prefix` makes. -/
lemma sharedPrefix_eq (rng : Rng) (requests : ℕ) {prefixes : ℕ} (hpos : 0 < prefixes)
    (prefixChars : ℕ) (suffixChars : ℤ) :
    ∃ (systemPrompts : List String) (items : List TraceItem) (rng' : Rng),
      sharedPrefix rng requests prefixes prefixChars suffixChars = .ok (items, rng') ∧
      (∀ (i : ℕ) systemPrompt, systemPrompts[i]? = some systemPrompt →
        (systemLabel i).toList <+: systemPrompt.toList ∧
          prefixChars ≤ systemPrompt.length + 1) ∧
      List.Forall₂ (fun k item => ∃ systemPrompt suffix,
        systemPrompts[k % prefixes]? = some systemPrompt ∧
          item = sharedItem systemPrompt (k % prefixes) suffix) (List.range requests) items := by
  obtain ⟨systemPrompts, rng', hprompts, hlength, hlabels⟩ :=
    systemPrompts_eq prefixChars rng prefixes
  obtain ⟨items, rng'', htrace, hitems⟩ :=
    foldlM_addShared hlength hpos suffixChars (List.range requests) [] rng'
  refine ⟨systemPrompts, items, rng'', ?_, hlabels, hitems⟩
  rw [sharedPrefix, hprompts]
  exact htrace

/-- The turns that make up a conversation. -/
lemma length_turns (turnChars : ℤ) (c n : ℕ) (rng : Rng) :
    ((List.range n).foldl (addTurn turnChars c) ([], rng)).1.length = n := by
  induction n with
  | zero => rfl
  | succ n ih =>
    rw [List.range_succ, List.foldl_append, List.foldl_cons, List.foldl_nil, addTurn,
      List.length_append, ih]
    rfl

/-- The conversations that are made up. -/
lemma conversations_eq (turnsPerConversation : ℕ) (turnChars : ℤ) (rng : Rng) (n : ℕ) :
    ∃ data rng', (List.range n).foldl (addConversation turnsPerConversation turnChars) ([], rng) =
        (data, rng') ∧ data.length = n ∧ ∀ turns ∈ data, turns.length = turnsPerConversation := by
  induction n with
  | zero => exact ⟨[], rng, rfl, rfl, nofun⟩
  | succ n ih =>
    obtain ⟨data, rng', hfold, hlength, hturns⟩ := ih
    rw [List.range_succ, List.foldl_append, hfold]
    refine ⟨_, _, rfl, by simp [hlength], ?_⟩
    intro turns hmem
    rw [List.mem_append, List.mem_singleton] at hmem
    obtain hmem | rfl := hmem
    · exact hturns turns hmem
    · exact length_turns turnChars n turnsPerConversation rng'

/-- A turn has messages if there is such a turn. -/
lemma turnMessages_eq {turns : List Turn} {t : ℕ} {turn : Turn} (hturn : turns[t]? = some turn) :
    turnMessages turns t = .ok (((turns.take t).flatMap fun turn =>
      [⟨"user", turn.1⟩, ⟨"assistant", turn.2⟩]) ++ [⟨"user", turn.1⟩]) := by
  rw [turnMessages, hturn]

lemma turnMessages_eq_error {turns : List Turn} {t : ℕ} (ht : turns.length ≤ t) :
    turnMessages turns t = .error .index := by
  rw [turnMessages, List.getElem?_eq_none ht]

/-- A turn says what the turn before said, and more. -/
lemma turnMessages_succ {turns : List Turn} {t : ℕ} {messages messages' : List ChatMessage}
    (h : turnMessages turns t = .ok messages) (h' : turnMessages turns (t + 1) = .ok messages') :
    ∃ reply question, messages' = messages ++ [⟨"assistant", reply⟩, ⟨"user", question⟩] := by
  have hlt : t + 1 < turns.length := by
    by_contra hle
    rw [turnMessages_eq_error (by omega)] at h'
    exact nomatch h'
  have hturn := List.getElem?_eq_getElem (show t < turns.length by omega)
  rw [turnMessages_eq hturn] at h
  rw [turnMessages_eq (List.getElem?_eq_getElem hlt)] at h'
  obtain rfl := Except.ok.inj h
  obtain rfl := Except.ok.inj h'
  refine ⟨turns[t].2, turns[t + 1].1, ?_⟩
  rw [List.take_add_one, hturn, List.flatMap_append]
  simp

section Requests

variable {data : List (List Turn)} {conversations turnsPerConversation : ℕ}
  (hlength : data.length = conversations) (hpos : 0 < conversations)
  (hturns : ∀ turns ∈ data, turns.length = turnsPerConversation)

include hlength hpos

/-- The conversation of a request. -/
lemma exists_turns (k : ℕ) : ∃ turns ∈ data, data[k % conversations]? = some turns ∧
    requestMessages data conversations k = turnMessages turns (k / conversations) := by
  have hk : k % conversations < data.length := by
    rw [hlength]
    exact Nat.mod_lt k hpos
  refine ⟨data[k % conversations], List.getElem_mem hk, List.getElem?_eq_getElem hk, ?_⟩
  rw [requestMessages, List.getElem?_eq_getElem hk]

include hturns

/-- Which requests there are turns for. -/
lemma requestMessages_ok_iff (k : ℕ) :
    (∃ messages, requestMessages data conversations k = .ok messages) ↔
      k / conversations < turnsPerConversation := by
  obtain ⟨turns, hmem, -, hrequest⟩ := exists_turns hlength hpos k
  rw [hrequest]
  constructor
  · rintro ⟨messages, hok⟩
    by_contra hle
    rw [turnMessages_eq_error (by rw [hturns turns hmem]; omega)] at hok
    exact nomatch hok
  · intro hlt
    have hturn : k / conversations < turns.length := by
      rw [hturns turns hmem]
      exact hlt
    exact ⟨_, turnMessages_eq (List.getElem?_eq_getElem hturn)⟩

omit hturns

/-- The next request of the same conversation. -/
lemma requestMessages_next {k : ℕ} {messages messages' : List ChatMessage}
    (h : requestMessages data conversations k = .ok messages)
    (h' : requestMessages data conversations (k + conversations) = .ok messages') :
    ∃ reply question, messages' = messages ++ [⟨"assistant", reply⟩, ⟨"user", question⟩] := by
  obtain ⟨turns, -, hget, hrequest⟩ := exists_turns hlength hpos k
  obtain ⟨turns', -, hget', hrequest'⟩ := exists_turns hlength hpos (k + conversations)
  rw [Nat.add_mod_right, hget] at hget'
  obtain rfl := Option.some.inj hget'
  rw [hrequest] at h
  rw [hrequest', Nat.add_div_right k hpos] at h'
  exact turnMessages_succ h h'

end Requests

/-- The requests that the loop of `multi_turn` adds. -/
lemma foldlM_addRequest (data : List (List Turn)) (conversations : ℕ) (ks : List ℕ)
    (before after : List TraceItem) :
    ks.foldlM (addRequest data conversations) before = .ok after ↔
      ∃ items, after = before ++ items ∧
        List.Forall₂ (fun k item => ∃ messages,
          requestMessages data conversations k = .ok messages ∧
            item = ⟨messages, promptBlocks messages 512, k % conversations, k / conversations⟩)
          ks items := by
  induction ks generalizing before with
  | nil =>
    rw [List.foldlM_nil]
    constructor
    · intro h
      obtain rfl := Except.ok.inj h
      exact ⟨[], (List.append_nil _).symm, .nil⟩
    · rintro ⟨items, rfl, hitems⟩
      cases hitems
      rw [List.append_nil]
      rfl
  | cons k ks ih =>
    rw [List.foldlM_cons, addRequest]
    cases hrequest : requestMessages data conversations k with
    | error error =>
      constructor
      · intro h
        have herror : (.error error : Except TraceError (List TraceItem)) = .ok after := h
        exact nomatch herror
      · rintro ⟨items, rfl, hitems⟩
        obtain ⟨item, items, ⟨messages, hmessages, -⟩, -, -⟩ := List.forall₂_cons_left_iff.mp hitems
        rw [hrequest] at hmessages
        exact nomatch hmessages
    | ok messages =>
      show ks.foldlM (addRequest data conversations) (before ++ [_]) = .ok after ↔ _
      rw [ih]
      constructor
      · rintro ⟨items, rfl, hitems⟩
        refine ⟨_ :: items, by rw [List.append_assoc, List.singleton_append], .cons ?_ hitems⟩
        exact ⟨messages, hrequest, rfl⟩
      · rintro ⟨items, rfl, hitems⟩
        obtain ⟨item, items, ⟨messages', hmessages', rfl⟩, hrest, rfl⟩ :=
          List.forall₂_cons_left_iff.mp hitems
        obtain rfl := Except.ok.inj (hrequest.symm.trans hmessages')
        exact ⟨items, by rw [List.append_assoc, List.singleton_append], hrest⟩

/-- When all requests have a turn. -/
lemma forall_div_lt_iff {conversations : ℕ} (hpos : 0 < conversations) (requests : ℕ) :
    (∀ k < requests, k / conversations < max 1 (requests / conversations)) ↔
      requests ≤ conversations ∨ conversations ∣ requests := by
  constructor
  · intro h
    by_cases hle : requests ≤ conversations
    · exact .inl hle
    · right
      obtain ⟨last, rfl⟩ : ∃ last, requests = last + 1 := ⟨requests - 1, by omega⟩
      have hlast := h last (Nat.lt_succ_self last)
      have hone : 1 ≤ (last + 1) / conversations := Nat.div_pos (by omega) hpos
      rw [max_eq_right hone, Nat.succ_div] at hlast
      by_contra hdvd
      rw [if_neg hdvd] at hlast
      omega
  · rintro (hle | ⟨q, rfl⟩) k hk
    · rw [Nat.div_eq_of_lt (by omega)]
      omega
    · have hq : k / conversations < q := Nat.div_lt_of_lt_mul hk
      rw [Nat.mul_div_cancel_left q hpos]
      omega

/-- The items that `multi_turn` makes. -/
lemma multiTurn_eq (rng : Rng) (requests : ℕ) {conversations : ℕ} (hpos : 0 < conversations)
    (turnChars : ℤ) :
    ∃ data rng', data.length = conversations ∧
      (∀ turns ∈ data, turns.length = max 1 (requests / conversations)) ∧
      ∀ items rng'', multiTurn rng requests conversations turnChars = .ok (items, rng'') ↔
        rng' = rng'' ∧ List.Forall₂ (fun k item => ∃ messages,
          requestMessages data conversations k = .ok messages ∧
            item = ⟨messages, promptBlocks messages 512, k % conversations, k / conversations⟩)
          (List.range requests) items := by
  obtain ⟨data, rng', hdata, hlength, hturns⟩ :=
    conversations_eq (max 1 (requests / conversations)) turnChars rng conversations
  refine ⟨data, rng', hlength, hturns, fun items rng'' => ?_⟩
  have hfold := foldlM_addRequest data conversations (List.range requests) [] items
  simp only [List.nil_append, exists_eq_left'] at hfold
  rw [multiTurn, if_neg (by omega), ← hfold]
  dsimp only
  rw [hdata]
  cases (List.range requests).foldlM (addRequest data conversations) [] with
  | error error => exact ⟨fun h => (nomatch h), fun h => (nomatch h.2)⟩
  | ok trace =>
    constructor
    · intro h
      obtain ⟨rfl, rfl⟩ := Prod.mk.inj (Except.ok.inj h)
      exact ⟨rfl, rfl⟩
    · rintro ⟨rfl, h⟩
      obtain rfl := Except.ok.inj h
      rfl

/-- **What `multi_turn` makes.**  There is a trace exactly if there are conversations, and there are
no more requests than these, or a multiple.  Then there is an item for every request; the prompt of
an item has as many blocks as the item says; and the next item of a conversation repeats all messages
and adds two, so the chain of its blocks begins with the full blocks of the item.

**Proof sketch.** The last request needs one turn more than there are unless the requests come in
full rounds (`forall_div_lt_iff`).  The prompt of a continuation only appends
(`chainHash_take_continuation`). -/
theorem multiTurn_continues (rng : Rng) (requests conversations : ℕ) (turnChars : ℤ) :
    ((∃ items rng', multiTurn rng requests conversations turnChars = .ok (items, rng')) ↔
      0 < conversations ∧ (requests ≤ conversations ∨ conversations ∣ requests)) ∧
    ∀ items rng', multiTurn rng requests conversations turnChars = .ok (items, rng') →
      items.length = requests ∧
      (∀ (k : ℕ) item, items[k]? = some item →
        item.group = k % conversations ∧ item.turn = k / conversations ∧
          ∀ hasher, item.blocks = max 1 (chainHash hasher
            (ChatCompletionRequest.canonicalPrompt ⟨item.messages⟩) 512).length) ∧
      ∀ (k : ℕ) item item', items[k]? = some item → items[k + conversations]? = some item' →
        (∃ reply question, item'.messages =
          item.messages ++ [⟨"assistant", reply⟩, ⟨"user", question⟩]) ∧
        ∀ hasher blockSize, (conversationChain hasher item.messages blockSize).take
              (fullBlocks item.messages blockSize) =
            (conversationChain hasher item'.messages blockSize).take
              (fullBlocks item.messages blockSize) := by
  rcases Nat.eq_zero_or_pos conversations with rfl | hpos
  · have herror : multiTurn rng requests 0 turnChars = .error .zeroDivision := rfl
    rw [herror]
    refine ⟨⟨?_, fun h => absurd h.1 (Nat.lt_irrefl 0)⟩, nofun⟩
    rintro ⟨items, rng', h⟩
    exact nomatch h
  obtain ⟨data, rng', hlength, hturns, hresult⟩ := multiTurn_eq rng requests hpos turnChars
  refine ⟨?_, ?_⟩
  · rw [← forall_div_lt_iff hpos]
    constructor
    · rintro ⟨items, rng'', hok⟩
      refine ⟨hpos, fun k hk => ?_⟩
      obtain ⟨-, hitems⟩ := (hresult items rng'').mp hok
      have hlt : k < items.length := by rwa [← hitems.length_eq, List.length_range]
      obtain ⟨messages, hmessages, -⟩ := of_forall₂_range hitems (List.getElem?_eq_getElem hlt)
      exact (requestMessages_ok_iff hlength hpos hturns k).mp ⟨messages, hmessages⟩
    · rintro ⟨-, hall⟩
      have hexists : ∀ k ∈ List.range requests, ∃ item : TraceItem, ∃ messages,
          requestMessages data conversations k = .ok messages ∧
            item = ⟨messages, promptBlocks messages 512, k % conversations, k / conversations⟩ := by
        intro k hk
        obtain ⟨messages, hmessages⟩ :=
          (requestMessages_ok_iff hlength hpos hturns k).mpr (hall k (List.mem_range.mp hk))
        exact ⟨_, messages, hmessages, rfl⟩
      obtain ⟨items, hitems⟩ := exists_forall₂_of_forall hexists
      exact ⟨items, rng', (hresult items rng').mpr ⟨rfl, hitems⟩⟩
  · intro items rng'' hok
    obtain ⟨-, hitems⟩ := (hresult items rng'').mp hok
    refine ⟨?_, ?_, ?_⟩
    · rw [← hitems.length_eq, List.length_range]
    · intro k item hk
      obtain ⟨messages, -, rfl⟩ := of_forall₂_range hitems hk
      exact ⟨rfl, rfl, fun hasher => promptBlocks_eq hasher messages (by omega)⟩
    · intro k item item' hk hk'
      obtain ⟨messages, hmessages, rfl⟩ := of_forall₂_range hitems hk
      obtain ⟨messages', hmessages', rfl⟩ := of_forall₂_range hitems hk'
      obtain ⟨reply, question, rfl⟩ := requestMessages_next hlength hpos hmessages hmessages'
      refine ⟨⟨reply, question, rfl⟩, fun hasher blockSize => ?_⟩
      exact (chainHash_take_continuation hasher messages _ blockSize).2

/-! ## Spreading over workers -/

/-- The turns of a group. -/
lemma exists_stride_iff {groups i : ℕ} (hi : i < groups) (requests k : ℕ) :
    (k < requests ∧ k % groups = i) ↔
      ∃ j < (Rotation.turns groups i requests).ncard, k = i + groups * j := by
  have hpos : 0 < groups := by omega
  have hcount : ∀ j, i + groups * j < requests ↔ j < (Rotation.turns groups i requests).ncard := by
    intro j
    rw [Rotation.ncard_turns hi]
    have hdivision := Nat.div_add_mod requests groups
    have hlt := Nat.mod_lt requests hpos
    rcases Nat.lt_trichotomy j (requests / groups) with hbelow | rfl | habove
    · have hle : groups * (j + 1) ≤ groups * (requests / groups) := Nat.mul_le_mul_left _ hbelow
      rw [Nat.mul_succ] at hle
      constructor <;> intro _ <;> omega
    · split_ifs <;> constructor <;> intro _ <;> omega
    · have hle : groups * (requests / groups + 1) ≤ groups * j := Nat.mul_le_mul_left _ habove
      rw [Nat.mul_succ] at hle
      split_ifs <;> constructor <;> intro _ <;> omega
  constructor
  · rintro ⟨hlt, hmod⟩
    have hk : k = i + groups * (k / groups) := by
      have hdivision := Nat.mod_add_div k groups
      omega
    exact ⟨k / groups, (hcount _).mp (hk ▸ hlt), hk⟩
  · rintro ⟨j, hj, rfl⟩
    refine ⟨(hcount j).mpr hj, ?_⟩
    rw [Nat.add_mul_mod_self_left, Nat.mod_eq_of_lt hi]

/-- Workers that are found at as many places of a list without repetitions. -/
lemma ncard_at_places {order : List Worker} (hnodup : order.Nodup) {places : Set ℕ}
    (hplaces : ∀ m ∈ places, m < order.length) :
    {w | ∃ m ∈ places, order[m]? = some w}.ncard = places.ncard := by
  have himage : some '' {w | ∃ m ∈ places, order[m]? = some w} =
      (fun m => order[m]?) '' places := by
    ext found
    constructor
    · rintro ⟨w, ⟨m, hm, hw⟩, rfl⟩
      exact ⟨m, hm, hw⟩
    · rintro ⟨m, hm, rfl⟩
      have hget := List.getElem?_eq_getElem (hplaces m hm)
      exact ⟨order.get ⟨m, hplaces m hm⟩, ⟨m, hm, hget⟩, hget.symm⟩
  have hinj : Set.InjOn (fun m => order[m]?) places := fun m hm m' _ heq =>
    (List.getElem?_inj (hplaces m hm) hnodup).mp heq
  rw [← Set.ncard_image_of_injective _ (Option.some_injective Worker), himage, hinj.ncard_image]

section Spread

variable {hasher : Option UInt64 → List Char → UInt64} {fl : F64.Rounding} {router : Router}
  {config : RouterConfig} {threads : ℕ → Caller} {tr : List (ℕ × Access)}
  {p' : ThreadPool ℕ Shared Access (Option RouteDecision)}

/-- The workers that serve a group of a trace. -/
def workersOfGroup (items : List TraceItem)
    (p' : ThreadPool ℕ Shared Access (Option RouteDecision)) (i : ℕ) : Set Worker :=
  {w | ∃ (k : ℕ) (item : TraceItem), items[k]? = some item ∧ item.group = i ∧ Chooses p' k w}

/-- Whatever the trace, its requests belong to the groups in turn. -/
lemma groups_of_trace {rng rng' : Rng} {requests groups : ℕ} (hpos : 0 < groups)
    {items : List TraceItem}
    (htrace : (∃ (prefixChars : ℕ) (suffixChars : ℤ),
        sharedPrefix rng requests groups prefixChars suffixChars = .ok (items, rng')) ∨
      ∃ turnChars, multiTurn rng requests groups turnChars = .ok (items, rng')) :
    items.length = requests ∧
      ∀ (k : ℕ) item, items[k]? = some item → item.group = k % groups := by
  obtain ⟨prefixChars, suffixChars, hshared⟩ | ⟨turnChars, hturns⟩ := htrace
  · obtain ⟨systemPrompts, items', rng'', hok, -, hitems⟩ :=
      sharedPrefix_eq rng requests hpos prefixChars suffixChars
    obtain ⟨rfl, -⟩ := Prod.mk.inj (Except.ok.inj (hshared.symm.trans hok))
    refine ⟨by rw [← hitems.length_eq, List.length_range], fun k item hk => ?_⟩
    obtain ⟨systemPrompt, suffix, -, rfl⟩ := of_forall₂_range hitems hk
    rfl
  · obtain ⟨data, rng'', -, -, hresult⟩ := multiTurn_eq rng requests hpos turnChars
    obtain ⟨-, hitems⟩ := (hresult items rng').mp hturns
    refine ⟨by rw [← hitems.length_eq, List.length_range], fun k item hk => ?_⟩
    obtain ⟨messages, -, rfl⟩ := of_forall₂_range hitems hk
    rfl

/-- **Groups in rotation.**  Suppose that `round_robin` serves a trace of `shared_prefix` or of
`multi_turn`, where the requests, interleaved in any way, take their turns in the order of the trace
and all have the same candidates.  Then the requests of a group are served by
`n / gcd n groups` of the `n` workers, or by one each if there are fewer requests.  So if a group has
more than one request, they all go to the same worker exactly if the number of groups is a multiple
of the number of workers.

**Proof sketch.** Request `k` belongs to group `k % groups`, and it is served by the worker at
position `k % n` of one common list (`exists_order`).  The requests of a group are equally far apart
(`Rotation.ncard_image_stride`). -/
theorem roundRobin_spread (h : (callers hasher fl router threads (.new config)).Exec tr p')
    (hpolicy : router.policy = .roundRobin) {rng rng' : Rng} {requests groups : ℕ}
    {items : List TraceItem}
    (htrace : (∃ (prefixChars : ℕ) (suffixChars : ℤ),
        sharedPrefix rng requests groups prefixChars suffixChars = .ok (items, rng')) ∨
      ∃ turnChars, multiTurn rng requests groups turnChars = .ok (items, rng'))
    (horder : takers tr = List.range requests) (hfew : requests < 2 ^ 64)
    (candidates : Finset Worker)
    (hsame : ∀ i ∈ takers tr, ∀ cs, SawCandidates tr i cs → ∀ w, w ∈ cs ↔ w ∈ candidates)
    {i : ℕ} (hi : i < groups) :
    (workersOfGroup items p' i).ncard = min (Rotation.turns groups i requests).ncard
        (candidates.card / candidates.card.gcd groups) ∧
      (2 ≤ (Rotation.turns groups i requests).ncard →
        ((workersOfGroup items p' i).ncard = 1 ↔ candidates.card ∣ groups)) := by
  obtain ⟨hlength, hgroup⟩ := groups_of_trace (by omega) htrace
  have htakers : ∀ k < requests, (takers tr)[k]? = some k := fun k hk => by
    rw [horder, List.getElem?_range hk]
  obtain ⟨order, hnodup, hmem, hturn⟩ :=
    exists_order h hpolicy (by rwa [horder, List.length_range]) hsame
  have hcard : candidates.card = order.length := by
    rw [← List.toFinset_card_of_nodup hnodup]
    congr 1
    ext w
    rw [List.mem_toFinset, hmem]
  rw [hcard]
  -- the positions of the workers that serve the group
  have hworkers : workersOfGroup items p' i =
      {w | ∃ m ∈ (fun j => (i + groups * j) % order.length) ''
        Set.Iio (Rotation.turns groups i requests).ncard, order[m]? = some w} := by
    ext w
    constructor
    · rintro ⟨k, item, hk, hitem, hchooses⟩
      obtain ⟨hlt, -⟩ := List.getElem?_eq_some_iff.mp hk
      rw [hlength] at hlt
      rw [hgroup k item hk] at hitem
      obtain ⟨j, hj, rfl⟩ := (exists_stride_iff hi requests k).mp ⟨hlt, hitem⟩
      refine ⟨_, ⟨j, hj, rfl⟩, ?_⟩
      rw [← hturn _ (by rwa [horder, List.length_range])]
      exact ⟨_, htakers _ hlt, hchooses⟩
    · rintro ⟨_, ⟨j, hj, rfl⟩, hw⟩
      obtain ⟨hlt, hmod⟩ := (exists_stride_iff hi requests _).mpr ⟨j, hj, rfl⟩
      obtain ⟨k, hk, hchooses⟩ := (hturn _ (by rwa [horder, List.length_range]) w).mpr hw
      obtain rfl := Option.some.inj ((htakers _ hlt).symm.trans hk)
      have hitem := List.getElem?_eq_getElem (hlength ▸ hlt)
      exact ⟨_, _, hitem, (hgroup _ _ hitem).trans hmod, hchooses⟩
  have hspread : (workersOfGroup items p' i).ncard =
      min (Rotation.turns groups i requests).ncard (order.length / order.length.gcd groups) := by
    rw [hworkers]
    rcases Nat.eq_zero_or_pos order.length with hnone | hpos
    · have hempty : {w | ∃ m ∈ (fun j => (i + groups * j) % order.length) ''
          Set.Iio (Rotation.turns groups i requests).ncard, order[m]? = some w} = ∅ := by
        ext w
        rw [List.eq_nil_of_length_eq_zero hnone]
        simp
      rw [hempty, Set.ncard_empty, hnone, Nat.zero_div, Nat.min_zero]
    · rw [ncard_at_places hnodup, Rotation.ncard_image_stride hpos]
      rintro _ ⟨j, -, rfl⟩
      exact Nat.mod_lt _ hpos
  refine ⟨hspread, fun hmany => ?_⟩
  rw [hspread]
  have hfirst : 0 < requests := by
    obtain ⟨hlt, -⟩ := (exists_stride_iff hi requests _).mpr ⟨0, by omega, rfl⟩
    omega
  obtain ⟨cs, hne, hsaw, -⟩ := chooses_iff h hpolicy rfl (htakers 0 hfirst) (by omega)
  have hpos : 0 < order.length := by
    obtain ⟨w, hw⟩ := List.exists_mem_of_ne_nil cs hne
    have hcandidate := (hsame 0 (List.mem_of_getElem? (htakers 0 hfirst)) cs
      ((hsaw cs).mpr rfl) w).mp hw
    exact List.length_pos_of_mem ((hmem w).mpr hcandidate)
  have hgcd : 0 < order.length.gcd groups := Nat.gcd_pos_of_pos_left groups hpos
  rw [← Nat.gcd_eq_left_iff_dvd]
  have hround : order.length / order.length.gcd groups = 1 ↔
      order.length.gcd groups = order.length := by
    constructor
    · intro hone
      have hmul := Nat.div_mul_cancel (Nat.gcd_dvd_left order.length groups)
      rw [hone, Nat.one_mul] at hmul
      exact hmul
    · intro hsame
      rw [hsame, Nat.div_self hpos]
  rw [← hround]
  omega

end Spread

/-- Threads 0 to 3 are requests; the others mark two replicas up. -/
def pinningThreads (k : ℕ) : Caller :=
  if k < 4 then .chat (fun _ => 0) ⟨[]⟩ else .other (.setAll [(0, true), (1, true)])

/-- The threads over a new router. -/
def pinningPool : ThreadPool ℕ Shared Access (Option RouteDecision) :=
  callers defaultHasher .exact ⟨.roundRobin, 4, .finite 1, .finite 1⟩ pinningThreads
    (.new threeInTurn)

/-- Four requests, the second and the third at the same time. -/
def pinningRun : List (ℕ × Access) × ThreadPool ℕ Shared Access (Option RouteDecision) :=
  pinningPool.run [4, 4, 0, 0, 1, 2, 1, 2, 3, 3]

lemma trace_pinningRun : pinningRun.1 =
    [(4, .setHealthy 0 true), (4, .setHealthy 1 true), (0, .snapshot firstTwo), (0, .ticket),
      (1, .snapshot firstTwo), (2, .snapshot firstTwo), (1, .ticket), (2, .ticket),
      (3, .snapshot firstTwo), (3, .ticket)] := by
  decide +kernel

lemma exec_pinningRun : pinningPool.Exec pinningRun.1 pinningRun.2 := pinningPool.exec_run _

/-- With two prefixes and two replicas, all requests of a prefix go to one replica. -/
theorem roundRobin_spread_pinned :
    ∃ items rng', sharedPrefix dullRng 4 2 1536 40 = .ok (items, rng') ∧
      (workersOfGroup items pinningRun.2 0).ncard = 1 := by
  obtain ⟨systemPrompts, items, rng', htrace, -, -⟩ :=
    sharedPrefix_eq dullRng 4 (show 0 < 2 by omega) 1536 40
  have htakers : takers pinningRun.1 = List.range 4 := by
    rw [trace_pinningRun]
    rfl
  have hsame : ∀ i ∈ takers pinningRun.1, ∀ cs, SawCandidates pinningRun.1 i cs →
      ∀ w, w ∈ cs ↔ w ∈ firstTwo.toFinset := by
    rintro i - cs ⟨healthy, hmem, rfl⟩ w
    rw [trace_pinningRun] at hmem
    have hhealthy : healthy = firstTwo := by
      simp only [List.mem_cons, Prod.mk.injEq, Access.snapshot.injEq, reduceCtorEq, and_false,
        List.not_mem_nil, or_false, false_or] at hmem
      obtain ⟨-, h⟩ | ⟨-, h⟩ | ⟨-, h⟩ | ⟨-, h⟩ := hmem <;> exact h
    rw [hhealthy, List.mem_toFinset]
    rfl
  have hturns : (Rotation.turns 2 0 4).ncard = 2 := by
    rw [Rotation.ncard_turns (by omega)]
    rfl
  have hspread := (roundRobin_spread exec_pinningRun rfl (.inl ⟨1536, 40, htrace⟩) htakers
    (by omega) firstTwo.toFinset hsame (show 0 < 2 by omega)).2 hturns.ge
  refine ⟨items, rng', htrace, hspread.mpr ?_⟩
  have hcard : firstTwo.toFinset.card = 2 := by decide
  rw [hcard]

end KvRoute
