import KvRoute.Core.Hashing
import KvRoute.Core.Request
import KvRoute.Lib.Records

set_option relaxedAutoImplicit false
set_option autoImplicit false

/-!
# Which conversations have the same prompt

The canonical prompt puts every message on a line of its own, after its role and a colon.  The
format is deliberately simple: it does not quote, so a content with a line that looks like another
message cannot be told from two messages.  Conversations without such lines are determined by their
prompts, and hence by their chains.

## Main definitions

* `KvRoute.SimpleRole` — a role that ends where the first colon and blank of its line begin.
* `ChatMessage.Plain` — a message whose content shows no other message.

## Main results

* `KvRoute.canonicalPrompt_injective` — plain conversations are determined by their prompts, and
  others share theirs.
-/

namespace KvRoute

/-- What stands on a line before the content of a message. -/
def roleHeader (role : String) : List Char := role.toList ++ [':', ' ']

/-- The role has no line feed in it, and no colon followed by a blank. -/
def SimpleRole (role : String) : Prop := '\n' ∉ role.toList ∧ ¬[':', ' '] <:+: role.toList

namespace ChatMessage

/-- A message as a record of its line. -/
def record (m : ChatMessage) : String × List Char := (m.role, m.content.toList)

/-- The role is one of `R`, and no line of the content, after the first, begins like a message with
a role of `R`. -/
def Plain (R : Set String) (m : ChatMessage) : Prop :=
  m.role ∈ R ∧ ∀ role ∈ R, ¬('\n' :: roleHeader role) <:+: m.content.toList

lemma record_injective : Function.Injective record := by
  rintro ⟨role, content⟩ ⟨role', content'⟩ h
  obtain ⟨hrole, hcontent⟩ := Prod.mk.inj h
  exact congrArg₂ ChatMessage.mk hrole (String.toList_inj.mp hcontent)

end ChatMessage

/-! ## Prompts as records -/

/-- The turns of the loop after the first one. -/
lemma toList_foldl_pushMessage (prompt : String) (ms : List ChatMessage) {n : ℕ} (hn : 0 < n) :
    ((ms.zipIdx n).foldl pushMessage prompt).toList =
      prompt.toList ++ Records.text '\n' roleHeader (ms.map ChatMessage.record) := by
  induction ms generalizing prompt n with
  | nil => simp [Records.text]
  | cons m ms ih =>
    rw [List.zipIdx_cons, List.foldl_cons, ih _ n.succ_pos, pushMessage, if_pos hn]
    simp [Records.text, roleHeader, ChatMessage.record]

/-- The prompt of a conversation, after a line feed, is the text of its messages. -/
lemma text_eq_canonicalPrompt {ms : List ChatMessage} (hne : ms ≠ []) :
    '\n' :: (ChatCompletionRequest.canonicalPrompt ⟨ms⟩).toList =
      Records.text '\n' roleHeader (ms.map ChatMessage.record) := by
  cases ms with
  | nil => exact absurd rfl hne
  | cons m ms =>
    rw [ChatCompletionRequest.canonicalPrompt, List.zipIdx_cons, List.foldl_cons,
      toList_foldl_pushMessage _ _ Nat.one_pos, pushMessage, if_neg (Nat.lt_irrefl 0)]
    simp [Records.text, roleHeader, ChatMessage.record]

/-- The prompt of a conversation with a message is not empty. -/
lemma canonicalPrompt_ne_empty {ms : List ChatMessage} (hne : ms ≠ []) :
    ChatCompletionRequest.canonicalPrompt ⟨ms⟩ ≠ "" := by
  intro hempty
  have htext := text_eq_canonicalPrompt hne
  cases ms with
  | nil => exact hne rfl
  | cons m ms =>
    rw [hempty] at htext
    simp [Records.text, roleHeader] at htext

/-- Conversations have the same prompt exactly if their messages have the same text. -/
lemma canonicalPrompt_eq_iff {ms ms' : List ChatMessage} :
    ChatCompletionRequest.canonicalPrompt ⟨ms⟩ = ChatCompletionRequest.canonicalPrompt ⟨ms'⟩ ↔
      Records.text '\n' roleHeader (ms.map ChatMessage.record) =
        Records.text '\n' roleHeader (ms'.map ChatMessage.record) := by
  by_cases hms : ms = []
  · by_cases hms' : ms' = []
    · rw [hms, hms']
      exact iff_of_true rfl rfl
    · rw [hms, ← text_eq_canonicalPrompt hms']
      exact iff_of_false (fun h => canonicalPrompt_ne_empty hms' h.symm) nofun
  · by_cases hms' : ms' = []
    · rw [hms', ← text_eq_canonicalPrompt hms]
      exact iff_of_false (canonicalPrompt_ne_empty hms) nofun
    · rw [← text_eq_canonicalPrompt hms, ← text_eq_canonicalPrompt hms', List.cons.injEq,
        String.toList_inj, and_iff_right rfl]

/-- Simple roles make headers that can be told apart. -/
lemma headers_of_simpleRole {R : Set String} (hR : ∀ role ∈ R, SimpleRole role) :
    Records.Headers '\n' roleHeader R where
  sep_notMem role hrole := by
    simp [roleHeader, (hR role hrole).1]
  eq_of_prefix role _ role' hrole' hprefix := by
    obtain ⟨rest, hrest⟩ := hprefix
    rw [roleHeader, roleHeader, List.append_assoc] at hrest
    apply String.toList_inj.mp
    rcases List.append_eq_append_iff.mp hrest with ⟨d, hd, htail⟩ | ⟨d, hd, htail⟩
    · -- the other role goes on where this header has its colon
      rcases d with _ | ⟨a, _ | ⟨b, d⟩⟩
      · rw [hd, List.append_nil]
      · simp at htail
      · obtain ⟨rfl, rfl, -⟩ : a = ':' ∧ b = ' ' ∧ _ := by simpa using htail.symm
        refine absurd ?_ (hR role' hrole').2
        rw [hd]
        exact ⟨role.toList, d, by simp⟩
    · have hlength := congrArg List.length htail
      simp only [List.length_append, List.length_cons, List.length_nil] at hlength
      obtain rfl := List.length_eq_zero_iff.mp (show d.length = 0 by omega)
      rw [hd, List.append_nil]

/-! ## Plain conversations -/

variable {R : Set String}

/-- Plain conversations with the same prompt are equal. -/
lemma eq_of_canonicalPrompt_eq (hR : ∀ role ∈ R, SimpleRole role) {ms ms' : List ChatMessage}
    (hms : ∀ m ∈ ms, m.Plain R) (hms' : ∀ m ∈ ms', m.Plain R)
    (heq : ChatCompletionRequest.canonicalPrompt ⟨ms⟩ =
      ChatCompletionRequest.canonicalPrompt ⟨ms'⟩) : ms = ms' := by
  have hrecords {ms : List ChatMessage} (h : ∀ m ∈ ms, m.Plain R) :
      ∀ r ∈ ms.map ChatMessage.record, r.1 ∈ R ∧ Records.Plain '\n' roleHeader R r.2 := by
    intro r hr
    obtain ⟨m, hm, rfl⟩ := List.mem_map.mp hr
    exact h m hm
  exact ChatMessage.record_injective.list_map (Records.text_injective (headers_of_simpleRole hR)
    (hrecords hms) (hrecords hms') (canonicalPrompt_eq_iff.mp heq))

/-- A content that shows another message can be read as two messages. -/
lemma exists_ne_of_not_plain {ms : List ChatMessage} (hroles : ∀ m ∈ ms, m.role ∈ R)
    (hplain : ∃ m ∈ ms, ¬m.Plain R) : ∃ ms', ms' ≠ ms ∧ (∀ m ∈ ms', m.role ∈ R) ∧
      ChatCompletionRequest.canonicalPrompt ⟨ms'⟩ = ChatCompletionRequest.canonicalPrompt ⟨ms⟩ := by
  obtain ⟨⟨role, content⟩, hm, hnot⟩ := hplain
  have hrole : role ∈ R := hroles _ hm
  rw [ChatMessage.Plain, not_and] at hnot
  obtain ⟨other, hother, u, v, hcontent⟩ :
      ∃ other ∈ R, ('\n' :: roleHeader other) <:+: content.toList := by
    simpa using hnot hrole
  obtain ⟨before, after, rfl⟩ := List.append_of_mem hm
  refine ⟨before ++ ⟨role, String.ofList u⟩ :: ⟨other, String.ofList v⟩ :: after, fun heq => ?_,
    fun m hmem => ?_, ?_⟩
  · have hlength := congrArg List.length heq
    simp at hlength
  · rcases List.mem_append.mp hmem with hmem | hmem
    · exact hroles m (List.mem_append_left _ hmem)
    · rcases List.mem_cons.mp hmem with rfl | hmem
      · exact hrole
      · rcases List.mem_cons.mp hmem with rfl | hmem
        · exact hother
        · exact hroles m (List.mem_append_right _ (List.mem_cons_of_mem _ hmem))
  · rw [canonicalPrompt_eq_iff]
    simp only [List.map_append, List.map_cons, ChatMessage.record, String.toList_ofList,
      ← hcontent, List.append_assoc]
    rw [Records.text_append, Records.text_append, Records.text_split]

/-- Equal chains come from equal prompts. -/
lemma eq_of_chainHash_eq {hasher : Option UInt64 → List Char → UInt64} {blockSize : ℕ}
    {P Q : String} (hfree : CollisionFree hasher blockSize {P, Q})
    (heq : chainHash hasher P blockSize = chainHash hasher Q blockSize) : P = Q := by
  have hpos : 0 < max blockSize 1 := lt_max_of_lt_right Nat.one_pos
  have hblocks : blocks P blockSize = blocks Q blockSize := by
    have htake := blocks_take_congr hfree (Or.inl rfl) (Or.inr rfl)
      (k := max (blocks P blockSize).length (blocks Q blockSize).length)
      (congrArg (List.take _) heq)
    rwa [List.take_of_length_le (le_max_left _ _), List.take_of_length_le (le_max_right _ _)]
      at htake
  apply String.toList_inj.mp
  rw [← Slices.flatten_chunks hpos P.toList, ← Slices.flatten_chunks hpos Q.toList]
  exact congrArg List.flatten hblocks

/-- **Which conversations share a prompt.**  For every set of roles without line feeds and without
a colon followed by a blank: conversations with these roles, in which no line of a content after
its first begins with one of these roles, a colon and a blank, have the same prompt only if they
are equal, and the same chain, if no hashes collide, only if they are equal.  A conversation in
which such a line occurs shares its prompt with another conversation with these roles.

**Proof sketch.** After a line feed, the prompt is a text of records, with the roles as headers
(`text_eq_canonicalPrompt`), and these are determined by their text if they are plain
(`Records.text_injective`).  The chain determines the blocks, and these make up the prompt. -/
theorem canonicalPrompt_injective (hasher : Option UInt64 → List Char → UInt64) (blockSize : ℕ)
    (R : Set String) (hR : ∀ role ∈ R, SimpleRole role) :
    (∀ ms ms' : List ChatMessage, (∀ m ∈ ms, m.Plain R) → (∀ m ∈ ms', m.Plain R) →
      let P := ChatCompletionRequest.canonicalPrompt ⟨ms⟩
      let P' := ChatCompletionRequest.canonicalPrompt ⟨ms'⟩
      (P = P' → ms = ms') ∧ (CollisionFree hasher blockSize {P, P'} →
        chainHash hasher P blockSize = chainHash hasher P' blockSize → ms = ms')) ∧
    ∀ ms : List ChatMessage, (∀ m ∈ ms, m.role ∈ R) → (∃ m ∈ ms, ¬m.Plain R) →
      ∃ ms', ms' ≠ ms ∧ (∀ m ∈ ms', m.role ∈ R) ∧
        ChatCompletionRequest.canonicalPrompt ⟨ms'⟩ =
          ChatCompletionRequest.canonicalPrompt ⟨ms⟩ := by
  refine ⟨fun ms ms' hms hms' => ⟨fun heq => ?_, fun hfree heq => ?_⟩, fun ms hroles hnot => ?_⟩
  · exact eq_of_canonicalPrompt_eq hR hms hms' heq
  · exact eq_of_canonicalPrompt_eq hR hms hms' (eq_of_chainHash_eq hfree heq)
  · exact exists_ne_of_not_plain hroles hnot

/-- The roles of a user and an assistant. -/
def twoRoles : Set String := {role | role ∈ ["user", "assistant"]}

lemma simpleRole_of_mem_twoRoles : ∀ role ∈ twoRoles, SimpleRole role := by
  have h : ∀ role ∈ ["user", "assistant"], SimpleRole role := by
    unfold SimpleRole
    decide
  exact h

/-- A change of role in one message shows in the prompt. -/
theorem canonicalPrompt_injective_same_words :
    ChatCompletionRequest.canonicalPrompt ⟨[⟨"user", "same words"⟩]⟩ ≠
      ChatCompletionRequest.canonicalPrompt ⟨[⟨"assistant", "same words"⟩]⟩ := by
  have hplain : ∀ role ∈ ["user", "assistant"], ∀ m ∈ [(⟨role, "same words"⟩ : ChatMessage)],
      m.role ∈ ["user", "assistant"] ∧ ∀ role ∈ ["user", "assistant"],
        ¬('\n' :: roleHeader role) <:+: m.content.toList := by
    decide
  intro heq
  have hms := ((canonicalPrompt_injective defaultHasher 512 twoRoles simpleRole_of_mem_twoRoles).1
    _ _ (hplain "user" (by decide)) (hplain "assistant" (by decide))).1 heq
  exact absurd hms (by decide)

/-- One message, and the same text as two messages: they have the same prompt and the same chain,
with no hashes colliding. -/
theorem canonicalPrompt_collision :
    let ms : List ChatMessage := [⟨"user", "a\nassistant: b"⟩]
    let ms' : List ChatMessage := [⟨"user", "a"⟩, ⟨"assistant", "b"⟩]
    ms ≠ ms' ∧ ChatCompletionRequest.canonicalPrompt ⟨ms⟩ =
        ChatCompletionRequest.canonicalPrompt ⟨ms'⟩ ∧
      CollisionFree defaultHasher 512 {ChatCompletionRequest.canonicalPrompt ⟨ms⟩,
        ChatCompletionRequest.canonicalPrompt ⟨ms'⟩} ∧
      chainHash defaultHasher (ChatCompletionRequest.canonicalPrompt ⟨ms⟩) 512 =
        chainHash defaultHasher (ChatCompletionRequest.canonicalPrompt ⟨ms'⟩) 512 := by
  intro ms ms'
  have heq : ChatCompletionRequest.canonicalPrompt ⟨ms⟩ =
      ChatCompletionRequest.canonicalPrompt ⟨ms'⟩ := by decide
  refine ⟨by decide, heq, ?_, congrArg (chainHash defaultHasher · 512) heq⟩
  refine (collisionFree_of_forall ["user: a\nassistant: b"] (by decide +kernel)).mono ?_
  rintro P (rfl | rfl)
  · decide
  · decide

end KvRoute
