import KvRoute.Lib.Json
import KvRoute.Lib.Occurrences

set_option relaxedAutoImplicit false
set_option autoImplicit false

/-!
# The text of a JSON document

Writing a document the way Python's `json.dumps` does by default: items are separated by a comma and
a blank, keys and values by a colon and a blank, and characters of strings that are not printable
ASCII are escaped, in two halves if they take more than 16 bits.  How floating-point numbers are
written is a parameter.

## Main definitions

* `JsonText.quote` — a string in quotation marks.
* `JsonText.dumps` — a document.
* `JsonText.tokens` — its tokens that are no punctuation.

## Main results

* `JsonText.all_dumps` — the text of a document is printable ASCII, on a single line.
* `JsonText.occurrences_dumps` — how often a pattern occurs in it, by its tokens.
-/

namespace JsonText

/-- Printable ASCII. -/
def isPrintable (c : Char) : Bool := 32 ≤ c.toNat && c.toNat ≤ 126

/-! ## Strings -/

/-- A hexadecimal digit. -/
def hexDigit (d : Fin 16) : Char := Char.ofNat (if d.val < 10 then 48 + d.val else 87 + d.val)

/-- The escape of a 16-bit code. -/
def unicodeEscape (code : ℕ) : List Char :=
  ['\\', 'u', hexDigit (.ofNat 16 (code / 4096)), hexDigit (.ofNat 16 (code / 256)),
    hexDigit (.ofNat 16 (code / 16)), hexDigit (.ofNat 16 code)]

/-- How a character of a string is written. -/
def escapeChar (c : Char) : List Char :=
  if c = '"' then ['\\', '"']
  else if c = '\\' then ['\\', '\\']
  else if c = '\n' then ['\\', 'n']
  else if c = '\r' then ['\\', 'r']
  else if c = '\t' then ['\\', 't']
  else if c.toNat = 0x08 then ['\\', 'b']
  else if c.toNat = 0x0c then ['\\', 'f']
  else if isPrintable c then [c]
  else if c.toNat < 0x10000 then unicodeEscape c.toNat
  else
    -- a pair of surrogates
    unicodeEscape (0xd800 + (c.toNat - 0x10000) / 0x400) ++
      unicodeEscape (0xdc00 + (c.toNat - 0x10000) % 0x400)

/-- A string in quotation marks. -/
def quote (s : String) : List Char := '"' :: s.toList.flatMap escapeChar ++ ['"']

/-- What can be checked of the characters of a text one by one. -/
lemma forall_mem_of_all {p : Char → Prop} [DecidablePred p] {text : List Char}
    (h : text.all (fun c => decide (p c)) = true) : ∀ c ∈ text, p c := by
  intro c hc
  exact of_decide_eq_true (List.all_eq_true.mp h c hc)

/-! ## Documents -/

/-- How floating-point numbers are written: in printable characters. -/
structure FloatText where
  /-- The text of a number. -/
  write : ℚ → List Char
  /-- It is printable. -/
  printable : ∀ q, ∀ c ∈ write q, isPrintable c = true

variable (floats : FloatText)

/-- The text of a number. -/
def number : JsonNumber → List Char
  | .posInt n => Nat.toDigits 10 n.toNat
  | .negInt z => '-' :: Nat.toDigits 10 z.val.natAbs
  | .float q => floats.write q

mutual

/-- The text of a document. -/
def dumps : Json → List Char
  | .null => "null".toList
  | .bool true => "true".toList
  | .bool false => "false".toList
  | .num n => number floats n
  | .str s => quote s
  | .arr items => '[' :: dumpsItems items ++ [']']
  | .obj entries => '{' :: dumpsEntries entries ++ ['}']

/-- The items of an array. -/
def dumpsItems : List Json → List Char
  | [] => []
  | item :: items => dumps item ++ dumpsMoreItems items

/-- The items of an array that are not the first. -/
def dumpsMoreItems : List Json → List Char
  | [] => []
  | item :: items => ", ".toList ++ dumps item ++ dumpsMoreItems items

/-- The entries of an object. -/
def dumpsEntries : List (String × Json) → List Char
  | [] => []
  | entry :: entries => dumpsEntry entry ++ dumpsMoreEntries entries

/-- The entries of an object that are not the first. -/
def dumpsMoreEntries : List (String × Json) → List Char
  | [] => []
  | entry :: entries => ", ".toList ++ dumpsEntry entry ++ dumpsMoreEntries entries

/-- An entry of an object. -/
def dumpsEntry : String × Json → List Char
  | (key, value) => quote key ++ ": ".toList ++ dumps value

end

/-! ## Printable text -/

lemma isPrintable_hexDigit (d : Fin 16) : isPrintable (hexDigit d) = true := by
  revert d
  decide

lemma all_unicodeEscape (code : ℕ) : (unicodeEscape code).all isPrintable = true := by
  have hmarks : isPrintable '\\' = true ∧ isPrintable 'u' = true := by decide
  simp [unicodeEscape, isPrintable_hexDigit, hmarks]

lemma all_escapeChar (c : Char) : (escapeChar c).all isPrintable = true := by
  unfold escapeChar
  split_ifs with h1 h2 h3 h4 h5 h6 h7 hprintable hshort
  case pos => decide
  case pos => decide
  case pos => decide
  case pos => decide
  case pos => decide
  case pos => decide
  case pos => decide
  case pos => simp [hprintable]
  case pos => exact all_unicodeEscape _
  case neg =>
    rw [List.all_append, all_unicodeEscape, all_unicodeEscape]
    rfl

lemma all_quote (s : String) : (quote s).all isPrintable = true := by
  have hmark : isPrintable '"' = true := by decide
  simp only [quote, List.cons_append, List.all_cons, List.all_append, List.all_flatMap, hmark]
  simp [all_escapeChar]

lemma all_toDigits (n : ℕ) : (Nat.toDigits 10 n).all isPrintable = true := by
  rw [List.all_eq_true]
  intro c hc
  have hdigit : c.isDigit = true := Nat.isDigit_of_mem_toDigits (by omega) (by omega) hc
  simp only [Char.isDigit, isPrintable, Bool.and_eq_true, decide_eq_true_eq, UInt32.le_iff_toNat_le]
    at hdigit ⊢
  have hlow : 48 ≤ c.toNat := hdigit.1
  have hhigh : c.toNat ≤ 57 := hdigit.2
  omega

variable {floats}

lemma all_number (n : JsonNumber) : (number floats n).all isPrintable = true := by
  cases n with
  | posInt n => exact all_toDigits _
  | negInt z =>
    rw [number, List.all_cons, all_toDigits]
    decide
  | float q => exact List.all_eq_true.mpr (floats.printable q)

mutual

/-- The text of a document is printable ASCII. -/
lemma all_dumps : ∀ document : Json, (dumps floats document).all isPrintable = true
  | .null => by
    rw [dumps]
    decide
  | .bool true => by
    rw [dumps]
    decide
  | .bool false => by
    rw [dumps]
    decide
  | .num n => all_number n
  | .str s => all_quote s
  | .arr items => by
    have hmarks : isPrintable '[' = true ∧ isPrintable ']' = true := by decide
    simp [dumps, all_dumpsItems items, hmarks]
  | .obj entries => by
    have hmarks : isPrintable '\x7b' = true ∧ isPrintable '\x7d' = true := by decide
    simp [dumps, all_dumpsEntries entries, hmarks]

lemma all_dumpsItems : ∀ items : List Json, (dumpsItems floats items).all isPrintable = true
  | [] => rfl
  | item :: items => by
    rw [dumpsItems, List.all_append, all_dumps item, all_dumpsMoreItems items]
    rfl

lemma all_dumpsMoreItems :
    ∀ items : List Json, (dumpsMoreItems floats items).all isPrintable = true
  | [] => rfl
  | item :: items => by
    rw [dumpsMoreItems, List.all_append, List.all_append, all_dumps item, all_dumpsMoreItems items]
    rfl

lemma all_dumpsEntries :
    ∀ entries : List (String × Json), (dumpsEntries floats entries).all isPrintable = true
  | [] => rfl
  | entry :: entries => by
    rw [dumpsEntries, List.all_append, all_dumpsEntry entry, all_dumpsMoreEntries entries]
    rfl

lemma all_dumpsMoreEntries :
    ∀ entries : List (String × Json), (dumpsMoreEntries floats entries).all isPrintable = true
  | [] => rfl
  | entry :: entries => by
    rw [dumpsMoreEntries, List.all_append, List.all_append, all_dumpsEntry entry,
      all_dumpsMoreEntries entries]
    rfl

lemma all_dumpsEntry :
    ∀ entry : String × Json, (dumpsEntry floats entry).all isPrintable = true
  | (key, value) => by
    rw [dumpsEntry, List.all_append, List.all_append, all_quote, all_dumps value]
    rfl

end

/-! ## Tokens -/

variable (floats)

mutual

/-- The tokens of a document that are no punctuation, in order. -/
def tokens : Json → List (List Char)
  | .arr items => tokensItems items
  | .obj entries => tokensEntries entries
  | document => [dumps floats document]

/-- The tokens of the items of an array. -/
def tokensItems : List Json → List (List Char)
  | [] => []
  | item :: items => tokens item ++ tokensItems items

/-- The tokens of the entries of an object. -/
def tokensEntries : List (String × Json) → List (List Char)
  | [] => []
  | entry :: entries => tokensEntry entry ++ tokensEntries entries

/-- The tokens of an entry. -/
def tokensEntry : String × Json → List (List Char)
  | (key, value) => quote key :: tokens value

end

/-- A pattern without blanks and punctuation, but for quotation marks. -/
def Unpunctuated (w : List Char) : Prop :=
  w ≠ [] ∧ ∀ c ∈ w, c ∉ [' ', ',', ':', '[', ']', '\x7b', '\x7d']

instance (w : List Char) : Decidable (Unpunctuated w) := inferInstanceAs (Decidable (_ ∧ _))

/-- How often a pattern occurs in a text. -/
def occurrences (w text : List Char) : ℕ := (Occurrences.positions w text).card

section Occurrences

variable {floats} {w : List Char} (hw : Unpunctuated w)

include hw

/-- Punctuation separates. -/
lemma occurrences_append_cons {c : Char} (hc : c ∈ [' ', ',', ':', '[', ']', '\x7b', '\x7d'])
    (before after : List Char) :
    occurrences w (before ++ c :: after) = occurrences w before + occurrences w after :=
  Occurrences.card_positions_append_cons hw.1 (fun hmem => hw.2 c hmem hc) before after

lemma occurrences_nil : occurrences w [] = 0 := by
  rw [occurrences, Finset.card_eq_zero, ← Finset.not_nonempty_iff_eq_empty,
    Occurrences.positions_nonempty_iff hw.1]
  exact fun h => hw.1 (List.infix_nil.mp h)

lemma occurrences_cons {c : Char} (hc : c ∈ [' ', ',', ':', '[', ']', '\x7b', '\x7d'])
    (after : List Char) : occurrences w (c :: after) = occurrences w after := by
  have h := occurrences_append_cons hw hc [] after
  rw [occurrences_nil hw, Nat.zero_add] at h
  exact h

lemma occurrences_concat {c : Char} (hc : c ∈ [' ', ',', ':', '[', ']', '\x7b', '\x7d'])
    (before : List Char) : occurrences w (before ++ [c]) = occurrences w before := by
  rw [occurrences_append_cons hw hc, occurrences_nil hw]
  rfl

mutual

/-- **Occurrences in documents.**  A pattern without punctuation occurs in the text of a document as
often as in its tokens, taken together. -/
theorem occurrences_dumps : ∀ document : Json, occurrences w (dumps floats document) =
    ((tokens floats document).map (occurrences w)).sum
  | .null => rfl
  | .bool b => rfl
  | .num n => rfl
  | .str s => rfl
  | .arr items => by
    rw [dumps, tokens, List.cons_append, occurrences_cons hw (by decide),
      occurrences_concat hw (by decide)]
    exact occurrences_dumpsItems items
  | .obj entries => by
    rw [dumps, tokens, List.cons_append, occurrences_cons hw (by decide),
      occurrences_concat hw (by decide)]
    exact occurrences_dumpsEntries entries

theorem occurrences_dumpsItems : ∀ items : List Json,
    occurrences w (dumpsItems floats items) =
      ((tokensItems floats items).map (occurrences w)).sum
  | [] => occurrences_nil hw
  | item :: items => by
    rw [dumpsItems, tokensItems, List.map_append, List.sum_append, ← occurrences_dumps item]
    exact occurrences_append_dumpsMoreItems _ items

theorem occurrences_append_dumpsMoreItems (before : List Char) : ∀ items : List Json,
    occurrences w (before ++ dumpsMoreItems floats items) =
      occurrences w before + ((tokensItems floats items).map (occurrences w)).sum
  | [] => by
    rw [dumpsMoreItems, List.append_nil]
    rfl
  | item :: items => by
    have hcomma : dumpsMoreItems floats (item :: items) =
        ',' :: ' ' :: (dumps floats item ++ dumpsMoreItems floats items) := by
      rw [dumpsMoreItems]
      rfl
    rw [hcomma, occurrences_append_cons hw (by decide), occurrences_cons hw (by decide),
      occurrences_append_dumpsMoreItems _ items, occurrences_dumps item, tokensItems,
      List.map_append, List.sum_append]

theorem occurrences_dumpsEntries : ∀ entries : List (String × Json),
    occurrences w (dumpsEntries floats entries) =
      ((tokensEntries floats entries).map (occurrences w)).sum
  | [] => occurrences_nil hw
  | entry :: entries => by
    rw [dumpsEntries, tokensEntries, List.map_append, List.sum_append,
      ← occurrences_dumpsEntry entry]
    exact occurrences_append_dumpsMoreEntries _ entries

theorem occurrences_append_dumpsMoreEntries (before : List Char) :
    ∀ entries : List (String × Json),
      occurrences w (before ++ dumpsMoreEntries floats entries) =
        occurrences w before + ((tokensEntries floats entries).map (occurrences w)).sum
  | [] => by
    rw [dumpsMoreEntries, List.append_nil]
    rfl
  | entry :: entries => by
    have hcomma : dumpsMoreEntries floats (entry :: entries) =
        ',' :: ' ' :: (dumpsEntry floats entry ++ dumpsMoreEntries floats entries) := by
      rw [dumpsMoreEntries]
      rfl
    rw [hcomma, occurrences_append_cons hw (by decide), occurrences_cons hw (by decide),
      occurrences_append_dumpsMoreEntries _ entries, occurrences_dumpsEntry entry, tokensEntries,
      List.map_append, List.sum_append]

theorem occurrences_dumpsEntry : ∀ entry : String × Json,
    occurrences w (dumpsEntry floats entry) =
      ((tokensEntry floats entry).map (occurrences w)).sum
  | (key, value) => by
    have hcolon : dumpsEntry floats (key, value) =
        quote key ++ ':' :: ' ' :: dumps floats value := by
      rw [dumpsEntry, List.append_assoc]
      rfl
    rw [hcolon, tokensEntry, occurrences_append_cons hw (by decide),
      occurrences_cons hw (by decide), List.map_cons, List.sum_cons, occurrences_dumps value]

end

end Occurrences

/-- A pattern with a letter that a text does not have does not occur in the text. -/
lemma occurrences_eq_zero {w text : List Char} {c : Char} (hw : c ∈ w) (htext : c ∉ text) :
    occurrences w text = 0 := by
  rw [occurrences, Finset.card_eq_zero, ← Finset.not_nonempty_iff_eq_empty,
    Occurrences.positions_nonempty_iff (List.ne_nil_of_mem hw)]
  exact fun h => htext (h.subset hw)

end JsonText
