import KvRoute.Mock.Completions
import Mathlib.Tactic.Ring

set_option relaxedAutoImplicit false
set_option autoImplicit false

/-!
# Tokens that the router counts

The router counts the tokens of a completion that the mock engine answers with: of a document it
takes the engine's own number, and in a stream it looks for `"content"`, chunk by chunk.  Every
event repeats the name of the model, and so whatever the client chose as such.

## Main results

* `KvRoute.parseU64_toDigits` — a number that the engine writes is read back.
* `KvRoute.Completion.sum_occurrences` — how often a stream says `"content"`.
* `KvRoute.router_counts_mock` — what the router counts.
-/

namespace KvRoute

open JsonText

/-! ## The engine's own number -/

/-- The text of a number is parsed. -/
lemma parseU64_toDigits {n : ℕ} (hn : n < 2 ^ 64) :
    parseU64 (String.ofList (Nat.toDigits 10 n)) = some (UInt64.ofNat n) := by
  have hdigits : ∀ c ∈ Nat.toDigits 10 n, c.isDigit = true := fun c hc =>
    Nat.isDigit_of_mem_toDigits (by omega) (by omega) hc
  have hvalue : (Nat.toDigits 10 n).foldl (fun n c => 10 * n + (c.toNat - '0'.toNat)) 0 = n := by
    rw [← Nat.ofDigitChars_eq_foldl, Nat.ofDigitChars_ten_toDigits]
  have hempty : (Nat.toDigits 10 n).isEmpty = false := by
    rw [List.isEmpty_eq_false_iff]
    exact Nat.toDigits_ne_nil
  have hall : (Nat.toDigits 10 n).all Char.isDigit = true := List.all_eq_true.mpr hdigits
  simp only [parseU64, String.toList_ofList]
  split
  case h_1 rest heq =>
    -- there is no sign
    have hplus : Char.isDigit '+' = true := hdigits '+' (heq ▸ List.mem_cons_self)
    exact absurd hplus (by decide)
  case h_2 =>
    simp only [hvalue, hempty, hall, hn, decide_true, Bool.not_false, Bool.and_self, if_true]

/-- The bytes of a printable text are a header value. -/
lemma headerText_ascii {text : List Char} (htext : text.all isPrintable = true) :
    headerText (ascii text) = some (String.ofList text) := by
  have hsmall : ∀ c ∈ text, 32 ≤ c.toNat ∧ c.toNat ≤ 126 := by
    intro c hc
    have hprintable := List.all_eq_true.mp htext c hc
    simpa [isPrintable] using hprintable
  have hallowed : ((ascii text).all fun b => (32 ≤ b && b < 127) || b == 9) = true := by
    rw [ascii, List.all_map, List.all_eq_true]
    intro c hc
    have hc := hsmall c hc
    have hbyte : c.toNat.toUInt8.toNat = c.toNat := by
      simp only [Nat.toUInt8_eq, UInt8.toNat_ofNat']
      omega
    simp only [Function.comp_apply, UInt8.le_iff_toNat_le, UInt8.lt_iff_toNat_lt, hbyte,
      Bool.or_eq_true, Bool.and_eq_true, decide_eq_true_eq]
    left
    refine ⟨?_, ?_⟩
    · show 32 ≤ c.toNat
      omega
    · show c.toNat < 127
      omega
  have hdecode : decodeAscii (ascii text) = text := by
    have h := asciiCompatible_decodeAscii [] text fun c hc => by have := hsmall c hc; omega
    simpa [decodeAscii] using h
  rw [headerText, if_pos hallowed]
  exact congrArg (fun chars => some (String.ofList chars)) hdecode

/-! ## The count of a stream -/

/-- The text that the router looks for. -/
def contentKey : List Char := quote "content"

lemma unpunctuated_contentKey : Unpunctuated contentKey :=
  ⟨by decide, forall_mem_of_all (by decide)⟩

lemma contentMark_eq : contentMark = ascii contentKey := by decide

/-- In ASCII text, the bytes and the characters count the same. -/
lemma countContentChunks_ascii {text : List Char} (htext : ∀ c ∈ text, c.toNat < 128) :
    countContentChunks (ascii text) = UInt64.ofNat (occurrences contentKey text) := by
  have hkey : ∀ c ∈ contentKey, c.toNat < 128 := forall_mem_of_all (by decide)
  have hinj : ∀ c ∈ contentKey, ∀ d ∈ text, c.toNat.toUInt8 = d.toNat.toUInt8 → c = d := by
    intro c hc d hd h
    have hc := hkey c hc
    have hd := htext d hd
    have hnat : c.toNat.toUInt8.toNat = d.toNat.toUInt8.toNat := congrArg UInt8.toNat h
    simp only [Nat.toUInt8_eq, UInt8.toNat_ofNat'] at hnat
    exact Char.toNat_inj.mp (by omega)
  rw [countContentChunks, Occurrences.length_filter_windows contentMark_ne_nil, contentMark_eq,
    occurrences, ascii, ascii, Occurrences.positions_map unpunctuated_contentKey.1 hinj]

/-- What a stream is counted to have, if each event is a chunk. -/
lemma sum_countContentChunks_ascii {yields : List (List Char)}
    (hyields : ∀ event ∈ yields, ∀ c ∈ event, c.toNat < 128) :
    ((yields.map ascii).map countContentChunks).sum =
      UInt64.ofNat (yields.map (occurrences contentKey)).sum := by
  induction yields with
  | nil => rfl
  | cons event yields ih =>
    rw [List.map_cons, List.map_cons, List.sum_cons, List.map_cons, List.sum_cons,
      UInt64.ofNat_add, ih fun event h => hyields event (List.mem_cons_of_mem _ h),
      countContentChunks_ascii (hyields event List.mem_cons_self)]

/-- An event has what its payload has. -/
lemma occurrences_streamEvent (payload : List Char) :
    occurrences contentKey (streamEvent payload) = occurrences contentKey payload := by
  have hevent : streamEvent payload = ['d', 'a', 't', 'a', ':'] ++ ' ' :: (payload ++ '\n' :: ['\n']) := by
    simp [streamEvent, eventMark]
  have hbefore : occurrences contentKey ['d', 'a', 't', 'a', ':'] = 0 := by decide +kernel
  have hafter : (Occurrences.positions contentKey ['\n']).card = 0 := by decide +kernel
  rw [hevent, occurrences_append_cons unpunctuated_contentKey (by decide), hbefore, occurrences,
    Occurrences.card_positions_append_cons unpunctuated_contentKey.1 (by decide), hafter,
    occurrences]
  omega

/-- A string of letters that are written as they are. -/
lemma not_mem_quote {s : String} {c : Char} (hc : c ≠ '"')
    (hs : ∀ d ∈ s.toList, c ∉ escapeChar d) : c ∉ quote s := by
  rw [quote, List.mem_append, List.mem_cons, List.mem_flatMap, List.mem_singleton]
  rintro ((h | ⟨d, hd, h⟩) | h)
  · exact hc h
  · exact hs d hd h
  · exact hc h

namespace Completion

variable (completion : Completion)

/-- The id has no `o`. -/
lemma occurrences_chatId : occurrences contentKey (quote completion.chatId) = 0 := by
  apply occurrences_eq_zero (show 'o' ∈ contentKey by decide)
  apply not_mem_quote (by decide)
  intro d hd
  rw [chatId, String.toList_append, List.mem_append] at hd
  obtain hd | hd := hd
  · have hname : ∀ c ∈ "chatcmpl-".toList, 'o' ∉ escapeChar c := forall_mem_of_all (by decide)
    exact hname d hd
  · rw [String.toList_ofList, List.mem_map] at hd
    obtain ⟨digit, -, rfl⟩ := hd
    revert digit
    decide

/-- Nor has the time. -/
lemma occurrences_created :
    occurrences contentKey (Nat.toDigits 10 completion.created.toNat) = 0 := by
  apply occurrences_eq_zero (show 'o' ∈ contentKey by decide)
  intro h
  have hdigit : Char.isDigit 'o' = true := Nat.isDigit_of_mem_toDigits (by omega) (by omega) h
  exact absurd hdigit (by decide)

/-- What a chunk has: what the model's name has, and what the delta has. -/
lemma occurrences_chunk (floats : FloatText) (delta finishReason : Json) :
    occurrences contentKey (dumps floats (completion.chunk delta finishReason)) =
      occurrences contentKey (dumps floats completion.model) +
        occurrences contentKey (dumps floats delta) +
        occurrences contentKey (dumps floats finishReason) := by
  have hfixed : ∀ s ∈ ["id", "object", "chat.completion.chunk", "created", "model", "choices",
      "index", "delta", "finish_reason"], occurrences contentKey (quote s) = 0 := by
    decide +kernel
  have hindex : occurrences contentKey (Nat.toDigits 10 (0 : UInt64).toNat) = 0 := by
    decide +kernel
  simp only [List.forall_mem_cons, List.not_mem_nil, false_implies, implies_true, and_true]
    at hfixed
  rw [occurrences_dumps unpunctuated_contentKey, occurrences_dumps unpunctuated_contentKey,
    occurrences_dumps unpunctuated_contentKey, occurrences_dumps unpunctuated_contentKey]
  simp only [chunk, tokens, tokensEntries, tokensEntry, tokensItems, List.map_append, List.map_cons,
    List.map_nil, List.sum_append, List.sum_cons, List.sum_nil, dumps, number, hfixed, hindex,
    completion.occurrences_chatId, completion.occurrences_created]
  omega

/-- A piece is a word, and what follows it. -/
lemma exists_of_mem_pieces {words : List String} {piece : String} (hpiece : piece ∈ pieces words) :
    ∃ word ∈ words, piece = word ++ " " ∨ piece = word ++ "." := by
  rw [pieces, List.mem_append, List.mem_map, Option.mem_toList, Option.map_eq_some_iff] at hpiece
  obtain ⟨word, hword, rfl⟩ | ⟨word, hword, rfl⟩ := hpiece
  · exact ⟨word, List.mem_of_mem_dropLast hword, .inl rfl⟩
  · exact ⟨word, List.mem_of_getLast? hword, .inr rfl⟩

/-- No piece of the vocabulary has the text. -/
lemma occurrences_piece {piece : String} {word : String} (hword : word ∈ vocab)
    (hpiece : piece = word ++ " " ∨ piece = word ++ ".") :
    occurrences contentKey (quote piece) = 0 := by
  have hvocab : ∀ word ∈ vocab, occurrences contentKey (quote (word ++ " ")) = 0 ∧
      occurrences contentKey (quote (word ++ ".")) = 0 := by decide +kernel
  obtain rfl | rfl := hpiece
  · exact (hvocab word hword).1
  · exact (hvocab word hword).2

/-- **The text in a stream.**  A stream has it once for each word, and as often as the name of the
model does for each word and twice more: for the role, and for the end. -/
theorem sum_occurrences (floats : FloatText) (hwords : ∀ word ∈ completion.words, word ∈ vocab) :
    ((eventStream floats completion).map (occurrences contentKey)).sum =
      completion.words.length + (completion.words.length + 2) *
        occurrences contentKey (dumps floats completion.model) := by
  generalize hmodel : occurrences contentKey (dumps floats completion.model) = inModel
  have hrole : occurrences contentKey (dumps floats completion.roleChunk) = inModel := by
    have hdelta : occurrences contentKey (dumps floats (.obj [("role", .str "assistant")])) = 0 := by
      rw [occurrences_dumps unpunctuated_contentKey]
      simp only [tokens, tokensEntries, tokensEntry, dumps, List.append_nil]
      decide +kernel
    have hreason : occurrences contentKey (dumps floats .null) = 0 := by
      rw [dumps]
      decide +kernel
    rw [roleChunk, occurrences_chunk, hdelta, hreason, hmodel, Nat.add_zero]
  have hstop : occurrences contentKey (dumps floats completion.stopChunk) = inModel := by
    have hdelta : occurrences contentKey (dumps floats (.obj [])) = 0 := by
      rw [occurrences_dumps unpunctuated_contentKey]
      rfl
    have hreason : occurrences contentKey (dumps floats (.str "stop")) = 0 := by
      rw [dumps]
      decide +kernel
    rw [stopChunk, occurrences_chunk, hdelta, hreason, hmodel, Nat.add_zero]
  have hpiece : ∀ piece ∈ pieces completion.words,
      occurrences contentKey (dumps floats (completion.pieceChunk piece)) = inModel + 1 := by
    intro piece hpiece
    obtain ⟨word, hword, hpiece⟩ := exists_of_mem_pieces hpiece
    have hkey : occurrences contentKey (quote "content") = 1 := by decide +kernel
    have hdelta : occurrences contentKey (dumps floats (.obj [("content", .str piece)])) = 1 := by
      rw [occurrences_dumps unpunctuated_contentKey]
      simp only [tokens, tokensEntries, tokensEntry, List.append_nil, List.map_cons, List.map_nil,
        List.sum_cons, List.sum_nil, dumps, hkey, occurrences_piece (hwords word hword) hpiece,
        Nat.add_zero]
    have hreason : occurrences contentKey (dumps floats .null) = 0 := by
      rw [dumps]
      decide +kernel
    rw [pieceChunk, occurrences_chunk, hdelta, hreason, hmodel, Nat.add_zero]
  have hdone : occurrences contentKey donePayload = 0 := by decide +kernel
  have hpieces : ((pieces completion.words).map fun piece =>
      occurrences contentKey (dumps floats (completion.pieceChunk piece))) =
      List.replicate completion.words.length (inModel + 1) := by
    rw [List.map_congr_left hpiece, List.map_const', length_pieces]
  have hsum : (eventStream floats completion).map (occurrences contentKey) =
      inModel :: List.replicate completion.words.length (inModel + 1) ++ [inModel, 0] := by
    rw [eventStream, List.map_append, List.map_map]
    simp only [chunks, Function.comp_def, occurrences_streamEvent, List.map_append, List.map_cons,
      List.map_nil, List.map_map, hrole, hstop, hdone, hpieces]
    simp
  rw [hsum, List.sum_append, List.sum_cons, List.sum_replicate_nat, List.sum_cons,
    List.sum_singleton]
  ring

end Completion

/-! ## What the router counts -/

/-- The words of an answer are of the vocabulary. -/
lemma mem_vocab_of_mem_generateWords {choose : ℕ → Fin vocab.length} {count : ℤ} {word : String}
    (hword : word ∈ generateWords choose count) : word ∈ vocab := by
  obtain ⟨i, -, rfl⟩ := List.mem_map.mp hword
  exact List.get_mem vocab _

namespace MockEngine

variable {engine : MockEngine} {floats : FloatText}

/-- An answer has no more words than the cap. -/
lemma maxTokens_le {body : Json} {maxTokens : ℤ} (hmax : engine.maxTokens body = some maxTokens) :
    maxTokens ≤ 256 := by
  rw [MockEngine.maxTokens] at hmax
  split at hmax
  case h_1 =>
    have h16 : 16 = maxTokens := Option.some.inj hmax
    omega
  case h_2 value hvalue =>
    split_ifs at hmax with hfalsy
    · have h16 : 16 = maxTokens := Option.some.inj hmax
      omega
    · obtain ⟨count, -, rfl⟩ := Option.map_eq_some_iff.mp hmax
      exact min_le_right _ _

/-- What an answer says of its tokens fits into a `u64`. -/
lemma completionTokens_le {routerPhase : Option Pool} {body : Json}
    {cache cache' : OrderedDict (List UInt8)} {reply : MockReply}
    (hreply : engine.chatCompletions floats routerPhase body cache = some (cache', reply)) :
    reply.completionTokens ≤ 256 := by
  obtain ⟨messages, maxTokens, prompt, matchedBlocks, -, hmax, -, -, rfl⟩ :=
    exists_of_chatCompletions hreply
  by_cases hphase : routerPhase = some .prefill
  · rw [MockEngine.reply, if_pos hphase]
    exact Nat.zero_le _
  · have hle := maxTokens_le hmax
    rw [reply_of_ne hphase]
    show (generateWords (engine.choose messages) maxTokens).length ≤ 256
    rw [generateWords, List.length_map, List.length_range]
    omega

end MockEngine

/-- The bytes of `x-completion-tokens`. -/
def MockReply.completionTokensValue (reply : MockReply) : Bytes :=
  ascii (Nat.toDigits 10 reply.completionTokens)

/-- **What the router counts of an answer.**  Of a document, the router counts as many tokens as the
engine says.  Of a stream whose events arrive one by one, it counts these, and for each of them and
twice more, as many as there are `"content"` in the text of the model's name.

**Proof sketch.** The pattern has none of the punctuation that separates the tokens of a document,
so it is counted token by token (`JsonText.occurrences_dumps`); the only tokens of an event that the
engine does not choose are those of the model's name (`Completion.sum_occurrences`). -/
theorem router_counts_mock {engine : MockEngine} {floats : FloatText} {routerPhase : Option Pool}
    {body : Json} {cache cache' : OrderedDict (List UInt8)} {reply : MockReply}
    (hreply : engine.chatCompletions floats routerPhase body cache = some (cache', reply))
    (telemetry : RequestTelemetry) (upstreamPrefixHit : Option String)
    (clocks : List (ℕ → Instant)) :
    (∀ yields completionTokens, reply.body = .stream yields → yields.length + 2 ≤ clocks.length →
      finishedTokens (respond telemetry upstreamPrefixHit completionTokens true
        (yields.map ascii) clocks).recorded =
          [.ofNat (reply.completionTokens + (reply.completionTokens + 2) * occurrences contentKey
            (dumps floats ((body.get "model").getD (.str "mock-vllm"))))]) ∧
    (∀ (upstream : UpstreamResponse) (parts : List Bytes),
      upstream.completionTokens = some reply.completionTokensValue →
      parts.length + 2 ≤ clocks.length →
      finishedTokens (respond telemetry upstreamPrefixHit (completionTokensHeader upstream) false
        parts clocks).recorded = [.ofNat reply.completionTokens]) := by
  constructor
  · intro yields completionTokens hyields hclocks
    obtain ⟨messages, maxTokens, prompt, matchedBlocks, -, -, -, -, rfl⟩ :=
      MockEngine.exists_of_chatCompletions hreply
    obtain ⟨hphase, -, rfl⟩ := MockEngine.of_reply_eq_stream hyields
    rw [MockEngine.reply_of_ne hphase]
    generalize hcompletion : engine.completion body messages maxTokens matchedBlocks = completion
    have hwords : ∀ word ∈ completion.words, word ∈ vocab := by
      intro word hword
      rw [← hcompletion] at hword
      exact mem_vocab_of_mem_generateWords hword
    have hmodel : (body.get "model").getD (.str "mock-vllm") = completion.model := by
      rw [← hcompletion]
      rfl
    have hascii : ∀ event ∈ eventStream floats completion, ∀ c ∈ event, c.toNat < 128 :=
      fun event hevent c hc => completion.ascii_of_mem_eventStream (List.mem_flatten.mpr
        ⟨event, hevent, hc⟩)
    rw [hcompletion] at hclocks
    rw [finishedTokens_respond _ _ _ _ _ _ (by simpa using hclocks), if_pos rfl,
      sum_countContentChunks_ascii hascii, completion.sum_occurrences floats hwords, hmodel]
  · intro upstream parts hupstream hclocks
    have hle := MockEngine.completionTokens_le hreply
    have hheader : completionTokensHeader upstream = some (.ofNat reply.completionTokens) := by
      rw [completionTokensHeader, hupstream, Option.bind_some, MockReply.completionTokensValue,
        headerText_ascii (all_toDigits _), Option.bind_some, parseU64_toDigits (by omega)]
    rw [finishedTokens_respond _ _ _ _ _ _ hclocks, hheader]
    rfl

/-- A model may be called `content`: of two words, the router counts six tokens. -/
theorem router_counts_mock_content :
    finishedTokens (respond plainTelemetry none none true
      ((eventStream oneFloat (twoWordsCompletion "content")).map ascii)
      (List.replicate 7 fun _ => 0)).recorded = [6] := by
  have hmodel : (Json.obj (twoWords "content" true)).get "model" = some (.str "content") := by
    simp [twoWords, get_obj_cons, get_obj_nil]
  have hcount : occurrences contentKey (dumps oneFloat (.str "content")) = 1 := by
    rw [dumps]
    decide +kernel
  have h := (router_counts_mock (chatCompletions_twoWords "content") plainTelemetry none
    (List.replicate 7 fun _ => 0)).1 _ none rfl (by decide)
  rw [h, hmodel, Option.getD_some, hcount]
  rfl

end KvRoute
