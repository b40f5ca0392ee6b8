import Mathlib.Order.Bounds.Basic
import KvRoute.Lib.OrderedDict
import KvRoute.Lib.Sha256
import KvRoute.Lib.Slices

set_option relaxedAutoImplicit false
set_option autoImplicit false

/-!
# The prefix cache of the mock engine

The mock engine (`mocks/mock_vllm.py`) keeps the digests of prompt prefixes, one for each block of
512 characters, in an LRU of bounded size, and reports with every request how many blocks of its
prompt it finds there.  It looks for the last block that is cached, and takes all blocks before it
to be cached as well.  They need not be: the blocks of a prompt are inserted from the first to the
last, so the first ones are the oldest, and are dropped first.

A text is a list of characters; a Python text with a lone surrogate in it has no UTF-8 encoding, and
such a request fails before it gets to the cache.

## Main definitions

* `KvRoute.blockPrefixHashes`, `lastHit`, `recordAndMatch` — the functions of the engine.
* `KvRoute.cacheAfter` — the cache after a sequence of requests.
* `KvRoute.residentCounts` — how many of the first blocks of a request are all cached.
* `KvRoute.blockPrefixes` — what the digests of a prompt are digests of.
* `KvRoute.TracksPrefixes` — a request is told the truth, and the cache is an LRU.

## Main results

* `KvRoute.isGreatest_lastHit_iff` — when the report is true.
* `KvRoute.keys_cacheAfter` — the cache holds the most recently used blocks.
* `KvRoute.recordAndMatch_iff` — both, for prompts.
* `KvRoute.tracksPrefixes_of_room` — as long as there is room for all blocks, the report is true.
-/

namespace KvRoute

open OrderedDict

/-! ## The engine -/

/-- The length of a block. -/
def prefixBlockChars : ℕ := 512

/-- `str.encode("utf-8")`. -/
def encode (text : List Char) : List UInt8 := text.flatMap String.utf8EncodeChar

/-- The loop of `block_prefix_hashes` over the remaining blocks; the hasher has been fed `fed`. -/
def digestsFrom (fed : List UInt8) : List (List Char) → List (List UInt8)
  | [] => []
  | block :: rest =>
    let fed := fed ++ encode block
    Sha256.hash fed :: digestsFrom fed rest

/-- SHA-256 chain over every block of the prompt, the last partial block included. -/
def blockPrefixHashes (text : String) : List (List UInt8) :=
  digestsFrom [] (Slices.chunks prefixBlockChars text.toList)

section Cache

variable {α : Type} [DecidableEq α]

/-- The first loop of `record_and_match`: among the first blocks, as many as given, the number of
those up to the last one that is in the cache. -/
def lastHit (cache : OrderedDict α) (hashes : List α) : ℕ → ℕ
  | 0 => 0
  | i + 1 =>
    if hashes[i]?.any (· ∈ cache.keys) then i + 1
    else lastHit cache hashes i

/-- Insert all block hashes into the LRU, and return the number of blocks that match; no number is
the error of the last loop. -/
def recordAndMatch (capacity : ℤ) (hashes : List α) (cache : OrderedDict α) :
    OrderedDict α × Option ℕ :=
  let matched := lastHit cache hashes hashes.length
  let cache := hashes.foldl (fun cache h => (cache.pop h).setItem h) cache
  match cache.evict capacity with
  | some cache => (cache, some matched)
  | none => (.empty, none)

/-- The cache after a sequence of requests. -/
def cacheAfter (capacity : ℤ) (requests : List (List α)) : OrderedDict α :=
  requests.foldl (fun cache hashes => (recordAndMatch capacity hashes cache).1) .empty

/-! ## What is reported -/

/-- The numbers of first blocks of a request that are all in the cache. -/
def residentCounts (cache : OrderedDict α) (hashes : List α) : Set ℕ :=
  {k | k ≤ hashes.length ∧ ∀ h ∈ hashes.take k, h ∈ cache.keys}

variable {cache : OrderedDict α} {hashes : List α}

lemma lastHit_le (n : ℕ) : lastHit cache hashes n ≤ n := by
  induction n with
  | zero => exact le_rfl
  | succ i ih =>
    rw [lastHit]
    split_ifs
    · exact le_rfl
    · exact ih.trans (Nat.le_succ i)

/-- The last block that is counted is in the cache. -/
lemma mem_keys_of_lastHit {n k : ℕ} (hk : lastHit cache hashes n = k + 1) {h : α}
    (hget : hashes[k]? = some h) : h ∈ cache.keys := by
  induction n with
  | zero => cases hk
  | succ i ih =>
    rw [lastHit] at hk
    split_ifs at hk with hhit
    · obtain rfl : i = k := Nat.succ.inj hk
      rw [hget] at hhit
      simpa using hhit
    · exact ih hk

/-- Every block in the cache is counted. -/
lemma lt_lastHit {n k : ℕ} (hk : k < n) {h : α} (hget : hashes[k]? = some h)
    (hmem : h ∈ cache.keys) : k < lastHit cache hashes n := by
  induction n with
  | zero => exact absurd hk (Nat.not_lt_zero k)
  | succ i ih =>
    rw [lastHit]
    split_ifs with hhit
    · exact hk
    · refine ih (lt_of_le_of_ne (Nat.le_of_lt_succ hk) ?_)
      rintro rfl
      rw [hget] at hhit
      simp [hmem] at hhit

/-- The report never falls short of the truth. -/
theorem le_lastHit {k : ℕ} (hk : k ∈ residentCounts cache hashes) :
    k ≤ lastHit cache hashes hashes.length := by
  obtain ⟨hle, hmem⟩ := hk
  cases k with
  | zero => exact Nat.zero_le _
  | succ m =>
    have hget : hashes[m]? = some hashes[m] := List.getElem?_eq_getElem hle
    exact lt_lastHit hle hget (hmem _ (List.mem_take_iff_getElem.mpr ⟨m, by omega, rfl⟩))

/-- **When the report is true**: exactly if no block of the request that is in the cache comes after
one that is not. -/
theorem isGreatest_lastHit_iff :
    IsGreatest (residentCounts cache hashes) (lastHit cache hashes hashes.length) ↔
      hashes.Pairwise fun earlier later => later ∈ cache.keys → earlier ∈ cache.keys := by
  rw [List.pairwise_iff_getElem]
  constructor
  · intro h i j hi hj hij hmem
    have hlt := lt_lastHit hj (List.getElem?_eq_getElem hj) hmem
    exact h.1.2 _ (List.mem_take_iff_getElem.mpr ⟨i, by omega, rfl⟩)
  · intro h
    refine ⟨⟨lastHit_le _, fun hash hmem => ?_⟩, fun k hk => le_lastHit hk⟩
    obtain ⟨i, hi, rfl⟩ := List.mem_take_iff_getElem.mp hmem
    obtain ⟨hilast, hilen⟩ := Nat.lt_min.mp hi
    obtain ⟨k, hk⟩ := Nat.exists_eq_succ_of_ne_zero (Nat.ne_zero_of_lt hilast)
    have hklt : k < hashes.length := by
      have hle := @lastHit_le α _ cache hashes hashes.length
      omega
    have hlast := mem_keys_of_lastHit hk (List.getElem?_eq_getElem hklt)
    -- what is counted is the last block found, or before it
    rcases Nat.lt_or_eq_of_le (Nat.le_of_lt_succ (hk ▸ hilast)) with hik | rfl
    · exact h i k hilen hklt hik hlast
    · exact hlast

/-! ## What the cache holds -/

/-- Without an error, the report is returned, and the blocks become the most recent ones. -/
theorem recordAndMatch_of_nonneg {capacity : ℤ} (h : 0 ≤ capacity) (hashes : List α)
    (cache : OrderedDict α) :
    (recordAndMatch capacity hashes cache).2 = some (lastHit cache hashes hashes.length) ∧
      (recordAndMatch capacity hashes cache).1.keys =
        mostRecent capacity.toNat (cache.keys ++ hashes) := by
  obtain ⟨d, hd, hkeys⟩ := evict_eq_some h (hashes.foldl touch cache)
  have hevict : (hashes.foldl (fun cache h => (cache.pop h).setItem h) cache).evict capacity =
      some d := hd
  rw [recordAndMatch, hevict]
  exact ⟨rfl, hkeys.trans (by rw [keys_foldl_touch, mostRecent])⟩

/-- With a negative capacity, every request ends in an error and leaves the cache empty. -/
theorem recordAndMatch_of_neg {capacity : ℤ} (h : capacity < 0) (hashes : List α)
    (cache : OrderedDict α) : recordAndMatch capacity hashes cache = (.empty, none) := by
  rw [recordAndMatch, evict_eq_none h]

/-- **An LRU.**  After any sequence of requests the cache holds the most recently used blocks. -/
theorem keys_cacheAfter {capacity : ℤ} (h : 0 ≤ capacity) (requests : List (List α)) :
    (cacheAfter capacity requests).keys = mostRecent capacity.toNat requests.flatten := by
  induction requests using List.reverseRecOn with
  | nil => exact (mostRecent_nil _).symm
  | append_singleton requests hashes ih =>
    rw [cacheAfter, List.foldl_append, List.foldl_cons, List.foldl_nil, ← cacheAfter,
      (recordAndMatch_of_nonneg h hashes _).2, ih, mostRecent_append, List.flatten_append,
      List.flatten_singleton]

end Cache

/-! ## Prompts -/

/-- The text up to the end of each block of a prompt. -/
def blockPrefixes (text : String) : List (List Char) :=
  (List.range (Slices.chunks prefixBlockChars text.toList).length).map fun i =>
    text.toList.take (prefixBlockChars * (i + 1))

/-- The digest of a text. -/
def digest (text : List Char) : List UInt8 := Sha256.hash (encode text)

/-- The digests of a chain are those of the text fed so far. -/
lemma digestsFrom_eq (before : List Char) (blocks : List (List Char)) :
    digestsFrom (encode before) blocks =
      (List.range blocks.length).map fun i => digest (before ++ (blocks.take (i + 1)).flatten) := by
  induction blocks generalizing before with
  | nil => rfl
  | cons block rest ih =>
    have hfed : encode before ++ encode block = encode (before ++ block) :=
      List.flatMap_append.symm
    rw [digestsFrom, hfed, ih, List.length_cons, List.range_succ_eq_map, List.map_cons,
      List.map_map]
    congr 1
    · simp [digest]
    · simp [Function.comp_def]

theorem blockPrefixHashes_eq (text : String) :
    blockPrefixHashes text = (blockPrefixes text).map digest := by
  have hfed : digestsFrom [] = digestsFrom (encode []) := rfl
  rw [blockPrefixHashes, hfed, digestsFrom_eq, blockPrefixes, List.map_map]
  refine List.map_congr_left fun i _ => ?_
  rw [List.nil_append, Slices.flatten_take_chunks (by decide)]
  rfl

theorem mem_blockPrefixes {text : String} {piece : List Char} :
    piece ∈ blockPrefixes text ↔ ∃ i, prefixBlockChars * i < text.toList.length ∧
      piece = text.toList.take (prefixBlockChars * (i + 1)) := by
  rw [blockPrefixes, List.mem_map, Slices.length_chunks]
  simp only [List.mem_range, prefixBlockChars]
  constructor
  · rintro ⟨i, hi, rfl⟩
    exact ⟨i, by omega, rfl⟩
  · rintro ⟨i, hi, rfl⟩
    exact ⟨i, by omega, rfl⟩

/-- UTF-8 is injective. -/
lemma encode_injective : Function.Injective encode := by
  intro text text' h
  have hbytes : text.utf8Encode = text'.utf8Encode := congrArg List.toByteArray h
  refine String.ofList_injective (String.toByteArray_inj.mp ?_)
  rw [String.toByteArray_ofList, String.toByteArray_ofList, hbytes]

/-- SHA-256 has no collision among the prefixes of the prompts. -/
def NoCollisions (prompts : List String) : Prop :=
  Set.InjOn Sha256.hash {bytes | ∃ prompt ∈ prompts, ∃ piece ∈ blockPrefixes prompt,
    bytes = encode piece}

lemma NoCollisions.mono {prompts prompts' : List String} (h : NoCollisions prompts')
    (hsub : prompts ⊆ prompts') : NoCollisions prompts := by
  refine Set.InjOn.mono ?_ h
  rintro bytes ⟨prompt, hprompt, hbytes⟩
  exact ⟨prompt, hsub hprompt, hbytes⟩

/-- Then digests tell the blocks of the prompts apart. -/
lemma NoCollisions.injOn_digest {prompts : List String} (h : NoCollisions prompts) :
    Set.InjOn digest {piece | piece ∈ prompts.flatMap blockPrefixes} := by
  intro piece hpiece piece' hpiece' heq
  obtain ⟨prompt, hprompt, hpiece⟩ := List.mem_flatMap.mp hpiece
  obtain ⟨prompt', hprompt', hpiece'⟩ := List.mem_flatMap.mp hpiece'
  exact encode_injective (h ⟨prompt, hprompt, piece, hpiece, rfl⟩
    ⟨prompt', hprompt', piece', hpiece', rfl⟩ heq)

/-- The engine's cache after a sequence of prompts. -/
def promptCache (capacity : ℤ) (prompts : List String) : OrderedDict (List UInt8) :=
  cacheAfter capacity (prompts.map blockPrefixHashes)

lemma flatten_map_blockPrefixHashes (prompts : List String) :
    (prompts.map blockPrefixHashes).flatten = (prompts.flatMap blockPrefixes).map digest := by
  rw [← List.flatMap_def, List.map_flatMap]
  exact congrArg (prompts.flatMap ·) (funext blockPrefixHashes_eq)

/-- **An LRU of blocks.**  After any sequence of prompts the cache holds the digests of the most
recently used blocks. -/
theorem keys_promptCache {capacity : ℤ} (h : 0 ≤ capacity) {prompts : List String}
    (hsha : NoCollisions prompts) : (promptCache capacity prompts).keys =
      (mostRecent capacity.toNat (prompts.flatMap blockPrefixes)).map digest := by
  rw [promptCache, keys_cacheAfter h, flatten_map_blockPrefixHashes,
    mostRecent_map hsha.injOn_digest]

/-- A request after other ones is told how many of its first blocks are cached, and the cache holds
the most recently used blocks afterwards, and no more than its capacity. -/
structure TracksPrefixes (capacity : ℤ) (prompts : List String) (prompt : String) : Prop where
  /-- The greatest number of first blocks of the prompt that are all in the cache is returned. -/
  matched : ∃ k,
    (recordAndMatch capacity (blockPrefixHashes prompt) (promptCache capacity prompts)).2 = some k ∧
      IsGreatest (residentCounts (promptCache capacity prompts) (blockPrefixHashes prompt)) k
  /-- The cache is not larger than its capacity. -/
  bounded : ((recordAndMatch capacity (blockPrefixHashes prompt)
    (promptCache capacity prompts)).1.keys.length : ℤ) ≤ capacity
  /-- The cache holds the most recently used blocks. -/
  recent : (recordAndMatch capacity (blockPrefixHashes prompt)
      (promptCache capacity prompts)).1.keys =
    (mostRecent capacity.toNat ((prompts ++ [prompt]).flatMap blockPrefixes)).map digest

/-- No block of the prompt that is among the most recently used ones comes after one that is not. -/
def Unbroken (capacity : ℤ) (prompts : List String) (prompt : String) : Prop :=
  (blockPrefixes prompt).Pairwise fun earlier later =>
    later ∈ mostRecent capacity.toNat (prompts.flatMap blockPrefixes) →
      earlier ∈ mostRecent capacity.toNat (prompts.flatMap blockPrefixes)

section Request

variable {capacity : ℤ} {prompts : List String} {prompt : String}

/-- A block is in the cache if it is among the most recently used ones. -/
lemma digest_mem_keys (h : 0 ≤ capacity) (hsha : NoCollisions (prompts ++ [prompt]))
    {piece : List Char} (hpiece : piece ∈ blockPrefixes prompt) :
    digest piece ∈ (promptCache capacity prompts).keys ↔
      piece ∈ mostRecent capacity.toNat (prompts.flatMap blockPrefixes) := by
  have hbefore : NoCollisions prompts := hsha.mono fun p hp => List.mem_append_left _ hp
  rw [keys_promptCache h hbefore]
  refine ⟨fun hmem => ?_, List.mem_map_of_mem⟩
  obtain ⟨other, hother, heq⟩ := List.mem_map.mp hmem
  have hused : ∀ q ∈ prompts.flatMap blockPrefixes,
      q ∈ (prompts ++ [prompt]).flatMap blockPrefixes := fun q hq => by
    rw [List.flatMap_append]
    exact List.mem_append_left _ hq
  have hasked : piece ∈ (prompts ++ [prompt]).flatMap blockPrefixes :=
    List.mem_flatMap.mpr ⟨prompt, by simp, hpiece⟩
  rwa [← hsha.injOn_digest (hused _ (mem_of_mem_mostRecent hother)) hasked heq]

/-- The report is true exactly if the cached blocks of the prompt are its first ones. -/
lemma isGreatest_iff_unbroken (h : 0 ≤ capacity) (hsha : NoCollisions (prompts ++ [prompt])) :
    IsGreatest (residentCounts (promptCache capacity prompts) (blockPrefixHashes prompt))
        (lastHit (promptCache capacity prompts) (blockPrefixHashes prompt)
          (blockPrefixHashes prompt).length) ↔
      Unbroken capacity prompts prompt := by
  rw [isGreatest_lastHit_iff, blockPrefixHashes_eq, List.pairwise_map, Unbroken]
  refine List.Pairwise.iff_of_mem fun hearlier hlater => ?_
  rw [digest_mem_keys h hsha hearlier, digest_mem_keys h hsha hlater]

/-- With a capacity that is not negative the cache is an LRU, whatever is reported. -/
theorem keys_recordAndMatch (h : 0 ≤ capacity) (hsha : NoCollisions (prompts ++ [prompt])) :
    (recordAndMatch capacity (blockPrefixHashes prompt) (promptCache capacity prompts)).1.keys =
      (mostRecent capacity.toNat ((prompts ++ [prompt]).flatMap blockPrefixes)).map digest := by
  rw [← keys_promptCache h hsha, promptCache, promptCache, List.map_append, cacheAfter, cacheAfter,
    List.foldl_append]
  rfl

/-- A request tracks prefixes if its report is true. -/
lemma TracksPrefixes.of_unbroken (h : 0 ≤ capacity) (hsha : NoCollisions (prompts ++ [prompt]))
    (hunbroken : Unbroken capacity prompts prompt) : TracksPrefixes capacity prompts prompt where
  matched := ⟨_, (recordAndMatch_of_nonneg h _ _).1, (isGreatest_iff_unbroken h hsha).mpr hunbroken⟩
  bounded := by
    have hle := length_mostRecent_le capacity.toNat ((prompts ++ [prompt]).flatMap blockPrefixes)
    rw [keys_recordAndMatch h hsha, List.length_map]
    omega
  recent := keys_recordAndMatch h hsha

/-- Only with a capacity that is not negative is anything reported. -/
lemma TracksPrefixes.nonneg (h : TracksPrefixes capacity prompts prompt) : 0 ≤ capacity := by
  by_contra hneg
  obtain ⟨k, hk, -⟩ := h.matched
  rw [recordAndMatch_of_neg (not_le.mp hneg)] at hk
  cases hk

lemma TracksPrefixes.unbroken (h : TracksPrefixes capacity prompts prompt)
    (hsha : NoCollisions (prompts ++ [prompt])) : Unbroken capacity prompts prompt := by
  obtain ⟨k, hk, hgreatest⟩ := h.matched
  rw [(recordAndMatch_of_nonneg h.nonneg _ _).1] at hk
  obtain rfl := Option.some.inj hk
  exact (isGreatest_iff_unbroken h.nonneg hsha).mp hgreatest

end Request

/-- **When the engine tracks prefixes.**  For every capacity, every sequence of prompts and every
prompt after it, without SHA-256 collisions among them: the engine returns the greatest number of
first blocks that are all in the cache, and its cache is an LRU of the given capacity, exactly if
the capacity is not negative and no block of the prompt that is among the most recently used ones
comes after one that is not.

**Proof sketch.** Taking keys out and putting them back orders them by their last uses
(`OrderedDict.keys_foldl_touch`), and dropping the oldest ones after each request leaves the most
recent ones of all (`OrderedDict.mostRecent_append`, `keys_cacheAfter`).  The report counts up to
the last block that is cached (`mem_keys_of_lastHit`, `lt_lastHit`), so it is true if the blocks
before that one are cached as well. -/
theorem tracksPrefixes_iff (capacity : ℤ) (prompts : List String) (prompt : String)
    (hsha : NoCollisions (prompts ++ [prompt])) :
    TracksPrefixes capacity prompts prompt ↔ 0 ≤ capacity ∧ Unbroken capacity prompts prompt :=
  ⟨fun h => ⟨h.nonneg, h.unbroken hsha⟩, fun ⟨h, hunbroken⟩ => .of_unbroken h hsha hunbroken⟩

/-- Prompts whose blocks are among some texts with different digests have no collisions. -/
lemma noCollisions_of_nodup {prompts : List String} {pieces : List (List Char)}
    (hsub : ∀ prompt ∈ prompts, ∀ piece ∈ blockPrefixes prompt, piece ∈ pieces)
    (hnodup : (pieces.map digest).Nodup) : NoCollisions prompts := by
  rintro _ ⟨prompt, hprompt, piece, hpiece, rfl⟩ _ ⟨prompt', hprompt', piece', hpiece', rfl⟩ heq
  exact congrArg encode (List.inj_on_of_nodup_map hnodup (hsub _ hprompt _ hpiece)
    (hsub _ hprompt' _ hpiece') heq)

/-- A message of the user's of `n` equal characters. -/
def userText (n : ℕ) : List Char := ['u', 's', 'e', 'r', ':', ' '] ++ List.replicate n 'x'

lemma length_userText (n : ℕ) : (userText n).length = n + 6 := by
  rw [userText, List.length_append, List.length_replicate, Nat.add_comm]
  rfl

lemma take_userText {m n : ℕ} (h : m ≤ n) : (userText n).take (m + 6) = userText m := by
  have hhead : ['u', 's', 'e', 'r', ':', ' '].length = 6 := rfl
  rw [userText, List.take_append, hhead, Nat.add_sub_cancel, List.take_replicate, min_eq_left h,
    List.take_of_length_le (by omega), userText]

lemma digest_userText (n : ℕ) : digest (userText n) =
    Sha256.hash ([0x75, 0x73, 0x65, 0x72, 0x3a, 0x20] ++ List.replicate n 0x78) := by
  have hx : encode (List.replicate n 'x') = List.replicate n 0x78 := by
    induction n with
    | zero => rfl
    | succ n ih => exact congrArg (0x78 :: ·) ih
  have huser : encode ['u', 's', 'e', 'r', ':', ' '] = [0x75, 0x73, 0x65, 0x72, 0x3a, 0x20] := rfl
  rw [digest, userText, encode, List.flatMap_append, ← encode, ← encode, hx, huser]

/-- Its prompt. -/
def userPrompt (n : ℕ) : String := String.ofList (userText n)

lemma blockPrefixes_userPrompt {n : ℕ} (h : n ≤ 506) :
    blockPrefixes (userPrompt n) = [userText n] := by
  have hpieces : (n + 6 + prefixBlockChars - 1) / prefixBlockChars = 1 := by
    rw [prefixBlockChars]
    omega
  have hall : (userText n).take (prefixBlockChars * (0 + 1)) = userText n :=
    List.take_of_length_le (by rw [length_userText, prefixBlockChars]; omega)
  rw [blockPrefixes, Slices.length_chunks, userPrompt, String.toList_ofList, length_userText,
    hpieces, List.range_one, List.map_singleton, hall]

/-- A prompt with one character in its second block. -/
lemma blockPrefixes_userPrompt_two :
    blockPrefixes (userPrompt 507) = [userText 506, userText 507] := by
  have hpieces : List.range ((507 + 6 + prefixBlockChars - 1) / prefixBlockChars) = [0, 1] := by
    decide
  have hfirst : (userText 507).take (prefixBlockChars * (0 + 1)) = userText 506 :=
    take_userText (Nat.le_succ 506)
  have hsecond : (userText 507).take (prefixBlockChars * (1 + 1)) = userText 507 :=
    List.take_of_length_le (by rw [length_userText]; decide)
  rw [blockPrefixes, Slices.length_chunks, userPrompt, String.toList_ofList, length_userText,
    hpieces, List.map_cons, List.map_cons, List.map_nil, hfirst, hsecond]

/-- Three requests for two blocks, with room for both. -/
theorem tracksPrefixes_iff_two_blocks :
    TracksPrefixes 2 [userPrompt 1, userPrompt 2] (userPrompt 1) := by
  have hne : digest (userText 1) ≠ digest (userText 2) := by
    rw [digest_userText, digest_userText]
    decide +kernel
  have hsha : NoCollisions ([userPrompt 1, userPrompt 2] ++ [userPrompt 1]) := by
    refine @noCollisions_of_nodup _ [userText 1, userText 2] ?_ (by simpa using hne)
    simp [blockPrefixes_userPrompt]
  refine (tracksPrefixes_iff 2 _ _ hsha).mpr ⟨by decide, ?_⟩
  rw [Unbroken, blockPrefixes_userPrompt (by decide)]
  exact List.pairwise_singleton _ _

lemma digest_userText_ne : digest (userText 506) ≠ digest (userText 507) := by
  intro heq
  have hhash := (digest_userText 506).symm.trans (heq.trans (digest_userText 507))
  revert hhash
  decide +kernel

/-- With room for one block, a prompt of two blocks leaves the second one behind.  When it comes
again, both blocks are reported, though the first one is not there. -/
theorem recordAndMatch_counts_dropped_block :
    NoCollisions ([userPrompt 507] ++ [userPrompt 507]) ∧
      (recordAndMatch 1 (blockPrefixHashes (userPrompt 507)) (promptCache 1 [userPrompt 507])).2 =
        some 2 ∧
      IsGreatest (residentCounts (promptCache 1 [userPrompt 507])
        (blockPrefixHashes (userPrompt 507))) 0 ∧
      ¬∀ (capacity : ℤ) (prompts : List String) (prompt : String), 0 ≤ capacity →
        NoCollisions (prompts ++ [prompt]) → TracksPrefixes capacity prompts prompt := by
  have hsha : NoCollisions ([userPrompt 507] ++ [userPrompt 507]) := by
    refine @noCollisions_of_nodup _ [userText 506, userText 507] (fun prompt hprompt => ?_) ?_
    · obtain rfl : prompt = userPrompt 507 := by simpa using hprompt
      rw [blockPrefixes_userPrompt_two]
      exact fun _ => id
    · simpa using digest_userText_ne
  have hhashes : blockPrefixHashes (userPrompt 507) =
      [digest (userText 506), digest (userText 507)] := by
    rw [blockPrefixHashes_eq, blockPrefixes_userPrompt_two, List.map_cons, List.map_cons,
      List.map_nil]
  have hkeys : (promptCache 1 [userPrompt 507]).keys = [digest (userText 507)] := by
    rw [promptCache, keys_cacheAfter (by decide), List.map_cons, List.map_nil, hhashes,
      List.flatten_singleton, mostRecent,
      List.dedup_cons_of_notMem (by simpa using digest_userText_ne),
      List.dedup_cons_of_notMem List.not_mem_nil, List.dedup_nil, List.rtake]
    simp only [List.length_cons, List.length_nil, Int.toNat_one, Nat.add_sub_cancel,
      List.drop_succ_cons, List.drop_zero]
  have hreported : (recordAndMatch 1 (blockPrefixHashes (userPrompt 507))
      (promptCache 1 [userPrompt 507])).2 = some 2 := by
    rw [(recordAndMatch_of_nonneg (by decide) _ _).1, hhashes]
    have hmem : digest (userText 507) ∈ (promptCache 1 [userPrompt 507]).keys := by
      rw [hkeys]
      exact List.mem_singleton_self _
    exact congrArg some (le_antisymm (lastHit_le 2) (lt_lastHit Nat.one_lt_two rfl hmem))
  have htrue : IsGreatest (residentCounts (promptCache 1 [userPrompt 507])
      (blockPrefixHashes (userPrompt 507))) 0 := by
    refine ⟨⟨Nat.zero_le _, by simp⟩, fun k hk => Nat.le_zero.mpr ?_⟩
    by_contra hpos
    obtain ⟨m, rfl⟩ := Nat.exists_eq_succ_of_ne_zero hpos
    have hfirst := hk.2 (digest (userText 506)) (by rw [hhashes]; exact List.mem_cons_self)
    rw [hkeys, List.mem_singleton] at hfirst
    exact digest_userText_ne hfirst
  refine ⟨hsha, hreported, htrue, fun h => ?_⟩
  obtain ⟨k, hk, hgreatest⟩ := (h 1 [userPrompt 507] (userPrompt 507) (by decide) hsha).matched
  obtain rfl := Option.some.inj (hreported.symm.trans hk)
  exact absurd (hgreatest.unique htrue) (by decide)

/-! ## Room for all blocks -/

/-- A block is used together with all blocks before it. -/
lemma mem_blockPrefixes_of_later {text other : String} {i j : ℕ} (hij : i < j)
    (hj : prefixBlockChars * j < text.toList.length)
    (hlater : text.toList.take (prefixBlockChars * (j + 1)) ∈ blockPrefixes other) :
    text.toList.take (prefixBlockChars * (i + 1)) ∈ blockPrefixes other := by
  obtain ⟨k, hk, heq⟩ := mem_blockPrefixes.mp hlater
  have hle : prefixBlockChars * (i + 1) ≤ prefixBlockChars * j := Nat.mul_le_mul_left _ hij
  have hlength := congrArg List.length heq
  rw [List.length_take, List.length_take] at hlength
  have hcut := congrArg (List.take (prefixBlockChars * (i + 1))) heq
  rw [List.take_take, List.take_take] at hcut
  have hpos : 0 < prefixBlockChars := by decide
  have hi : prefixBlockChars * (i + 1) = prefixBlockChars * i + prefixBlockChars := Nat.mul_succ _ _
  have hj' : prefixBlockChars * (j + 1) = prefixBlockChars * j + prefixBlockChars := Nat.mul_succ _ _
  rw [min_eq_left (by omega), min_eq_left (by omega)] at hcut
  exact mem_blockPrefixes.mpr ⟨i, by omega, hcut⟩

/-- **As long as there is room** for all blocks used so far, nothing has been dropped, and the
engine tracks prefixes: whoever used a block used all blocks before it. -/
theorem tracksPrefixes_of_room {capacity : ℤ} {prompts : List String} {prompt : String}
    (hsha : NoCollisions (prompts ++ [prompt]))
    (hroom : ((prompts.flatMap blockPrefixes).dedup.length : ℤ) ≤ capacity) :
    TracksPrefixes capacity prompts prompt := by
  refine .of_unbroken (by omega) hsha ?_
  rw [Unbroken, mostRecent_eq_dedup (by omega), blockPrefixes, List.pairwise_map]
  refine List.pairwise_lt_range.imp_of_mem fun {i j} _ hj hij hlater => ?_
  rw [List.mem_range, Slices.length_chunks, prefixBlockChars] at hj
  obtain ⟨other, hother, hlater⟩ := List.mem_flatMap.mp (List.mem_dedup.mp hlater)
  refine List.mem_dedup.mpr (List.mem_flatMap.mpr ⟨other, hother, ?_⟩)
  exact mem_blockPrefixes_of_later hij (by rw [prefixBlockChars]; omega) hlater

end KvRoute
