import Mathlib.Data.List.DropRight

set_option relaxedAutoImplicit false
set_option autoImplicit false

/-!
# Lines and slices of a text

Methods of `str` that read a text line by line: `lines` ends a line at a line feed, with a carriage
return right before it taken off too, and `trim` removes white space from both ends.  A text is the
list of its characters, and positions count characters.

## Main definitions

* `RustText.isWhitespace`, `RustText.trim`, `RustText.lines`.
* `RustText.rfind` — the last position of a character of some kind.
* `RustText.insertLine` — a text with one line more.

## Main results

* `RustText.trim_padded` — what is trimmed off.
* `RustText.foldlM_lines` — a fold that trims its lines, and skips empty ones, goes over the pieces
  between line feeds.
* `RustText.rfind_append_cons` — the last position.
-/

namespace RustText

/-- `char::is_whitespace`. -/
def isWhitespace (c : Char) : Bool :=
  c.toNat ∈ [0x09, 0x0a, 0x0b, 0x0c, 0x0d, 0x20, 0x85, 0xa0, 0x1680, 0x2028, 0x2029, 0x202f, 0x205f,
      0x3000] ∨
    0x2000 ≤ c.toNat ∧ c.toNat ≤ 0x200a

/-- `str::trim`. -/
def trim (text : List Char) : List Char := (text.dropWhile isWhitespace).rdropWhile isWhitespace

/-- Take a carriage return off the end. -/
def stripCarriageReturn (line : List Char) : List Char :=
  if line.getLast? = some '\r' then line.dropLast else line

/-- `str::lines`: the pieces that end in a line feed, and what comes after the last of these, if
anything. -/
def lines (text : List Char) : List (List Char) :=
  let pieces := text.splitOn '\n'
  pieces.dropLast.map stripCarriageReturn ++ pieces.getLast?.toList.filter (· ≠ [])

/-- `str::rfind`: the last position of a character of some kind. -/
def rfind (p : Char → Bool) (text : List Char) : Option ℕ :=
  (text.reverse.findIdx? p).map fun i => text.length - 1 - i

/-- A text with a line put before its `i`-th line, or at its end if there is no such line. -/
def insertLine (i : ℕ) (line text : List Char) : List Char :=
  List.intercalate ['\n'] ((text.splitOn '\n').take i ++ line :: (text.splitOn '\n').drop i)

/-! ## Trimming -/

lemma trim_eq_nil {text : List Char} (h : ∀ c ∈ text, isWhitespace c = true) : trim text = [] := by
  rw [trim, List.dropWhile_eq_nil_iff.mpr h, List.rdropWhile_nil]

/-- White space around a text that neither starts nor ends with white space is trimmed off. -/
lemma trim_padded {before text after : List Char}
    (hbefore : ∀ c ∈ before, isWhitespace c = true) (hafter : ∀ c ∈ after, isWhitespace c = true)
    (hne : text ≠ []) (hfirst : isWhitespace (text.head hne) = false)
    (hlast : isWhitespace (text.getLast hne) = false) :
    trim (before ++ text ++ after) = text := by
  rw [trim, List.append_assoc, List.dropWhile_append_of_pos hbefore]
  obtain ⟨c, rest, rfl⟩ := List.exists_cons_of_ne_nil hne
  have hdrop : (c :: rest ++ after).dropWhile isWhitespace = c :: rest ++ after := by
    rw [List.cons_append, List.dropWhile_cons_of_neg (by simpa using hfirst)]
  rw [hdrop, List.rdropWhile, List.reverse_append,
    List.dropWhile_append_of_pos fun c hc => hafter c (List.mem_reverse.mp hc), ← List.rdropWhile,
    List.rdropWhile_eq_self_iff]
  intro _
  simpa using hlast

/-- A text is not trimmed beyond its first character that is not white space. -/
lemma exists_trim_eq_cons {before : List Char} (hbefore : ∀ c ∈ before, isWhitespace c = true)
    {c : Char} (hc : isWhitespace c = false) (text : List Char) :
    ∃ rest, trim (before ++ c :: text) = c :: rest := by
  have hneg : ¬isWhitespace c = true := by simp [hc]
  rw [trim, List.dropWhile_append_of_pos hbefore, List.dropWhile_cons_of_neg hneg]
  have hne : (c :: text).rdropWhile isWhitespace ≠ [] := by
    intro hnil
    exact hneg (List.rdropWhile_eq_nil_iff.mp hnil c List.mem_cons_self)
  obtain ⟨d, rest, hd⟩ := List.exists_cons_of_ne_nil hne
  have hbegins := List.rdropWhile_prefix isWhitespace (l := c :: text)
  rw [hd, List.cons_prefix_cons] at hbegins
  exact ⟨rest, by rw [hd, hbegins.1]⟩

/-- White space at the end makes no difference. -/
lemma trim_concat (text : List Char) {c : Char} (hc : isWhitespace c = true) :
    trim (text ++ [c]) = trim text := by
  rw [trim, trim, List.dropWhile_append]
  by_cases hblank : (text.dropWhile isWhitespace).isEmpty = true
  · rw [if_pos hblank, List.isEmpty_iff.mp hblank, List.dropWhile_cons_of_pos hc]
    rfl
  · rw [if_neg hblank, List.rdropWhile_concat_pos _ _ _ hc]

/-- A trimmed text does not begin with white space. -/
lemma isWhitespace_head_trim {text : List Char} (hne : trim text ≠ []) :
    isWhitespace ((trim text).head hne) = false := by
  have hbegins : trim text <+: text.dropWhile isWhitespace := List.rdropWhile_prefix _ _
  rw [hbegins.head hne]
  exact List.head_dropWhile_not _ _

lemma trim_stripCarriageReturn (line : List Char) :
    trim (stripCarriageReturn line) = trim line := by
  unfold stripCarriageReturn
  split_ifs with h
  · obtain ⟨rest, rfl⟩ := List.getLast?_eq_some_iff.mp h
    rw [List.dropLast_concat, trim_concat rest (by decide)]
  · rfl

/-! ## Lines -/

/-- A fold that looks at trimmed lines only, and skips empty ones, goes over the pieces between
line feeds. -/
lemma foldlM_lines {m : Type → Type} [Monad m] [LawfulMonad m] {β : Type}
    {f : β → List Char → m β}
    (htrim : ∀ b line line', trim line = trim line' → f b line = f b line')
    (hempty : ∀ b, f b [] = pure b) (text : List Char) (b : β) :
    (lines text).foldlM f b = (text.splitOn '\n').foldlM f b := by
  have hstrip : ∀ (pieces : List (List Char)) (b : β),
      (pieces.map stripCarriageReturn).foldlM f b = pieces.foldlM f b := by
    intro pieces
    induction pieces with
    | nil => exact fun _ => rfl
    | cons line pieces ih =>
      intro b
      rw [List.map_cons, List.foldlM_cons, List.foldlM_cons,
        htrim b _ _ (trim_stripCarriageReturn line)]
      exact bind_congr ih
  have hne : text.splitOn '\n' ≠ [] := List.splitOn_ne_nil _ _
  unfold lines
  rw [List.foldlM_append, hstrip, List.getLast?_eq_some_getLast hne]
  conv_rhs => rw [← List.dropLast_concat_getLast hne, List.foldlM_append]
  refine bind_congr fun b => ?_
  by_cases hlast : (text.splitOn '\n').getLast hne = []
  · rw [hlast]
    exact (hempty b).symm.trans (bind_pure _).symm
  · simp [hlast]

/-- No piece between line feeds has one. -/
lemma newline_not_mem_of_mem_splitOn {text piece : List Char} (h : piece ∈ text.splitOn '\n') :
    '\n' ∉ piece := by
  induction text generalizing piece with
  | nil =>
    rw [List.splitOn_nil, List.mem_singleton] at h
    rw [h]
    exact List.not_mem_nil
  | cons c text ih =>
    obtain ⟨first, rest, hsplit⟩ := List.exists_cons_of_ne_nil (List.splitOn_ne_nil '\n' text)
    rw [List.splitOn_cons_eq_if_modifyHead, hsplit] at h
    rw [hsplit] at ih
    split_ifs at h with hc
    · rcases List.mem_cons.mp h with rfl | h
      · exact List.not_mem_nil
      · exact ih h
    · rw [List.modifyHead_cons] at h
      rcases List.mem_cons.mp h with rfl | h
      · rintro (_ | ⟨_, hmem⟩)
        · exact hc (beq_self_eq_true _)
        · exact ih List.mem_cons_self hmem
      · exact ih (List.mem_cons_of_mem _ h)

/-- The pieces of a text with one line more. -/
lemma splitOn_insertLine (i : ℕ) {line : List Char} (hline : '\n' ∉ line) (text : List Char) :
    (insertLine i line text).splitOn '\n' =
      (text.splitOn '\n').take i ++ line :: (text.splitOn '\n').drop i := by
  refine List.splitOn_intercalate _ (fun piece hpiece => ?_) (by simp)
  rcases List.mem_append.mp hpiece with hpiece | hpiece
  · exact newline_not_mem_of_mem_splitOn (List.mem_of_mem_take hpiece)
  · rcases List.mem_cons.mp hpiece with rfl | hpiece
    · exact hline
    · exact newline_not_mem_of_mem_splitOn (List.mem_of_mem_drop hpiece)

/-! ## Positions -/

lemma rfind_eq_none {p : Char → Bool} {text : List Char} (h : ∀ c ∈ text, p c = false) :
    rfind p text = none := by
  rw [rfind, Option.map_eq_none_iff, List.findIdx?_eq_none_iff]
  exact fun c hc => h c (List.mem_reverse.mp hc)

lemma rfind_append_cons {p : Char → Bool} (before : List Char) {c : Char} {after : List Char}
    (hc : p c = true) (hafter : ∀ d ∈ after, p d = false) :
    rfind p (before ++ c :: after) = some before.length := by
  have hnone : after.reverse.findIdx? p = none :=
    List.findIdx?_eq_none_iff.mpr fun d hd => hafter d (List.mem_reverse.mp hd)
  rw [rfind, List.reverse_append, List.reverse_cons, List.append_assoc, List.findIdx?_append, hnone,
    List.singleton_append, List.findIdx?_cons, if_pos hc]
  simp

/-- The last position splits a text. -/
lemma exists_last {p : Char → Bool} {text : List Char} (h : ∃ c ∈ text, p c = true) :
    ∃ before c after, text = before ++ c :: after ∧ p c = true ∧ ∀ d ∈ after, p d = false := by
  induction text with
  | nil =>
    obtain ⟨c, hc, -⟩ := h
    exact absurd hc List.not_mem_nil
  | cons x text ih =>
    by_cases hrest : ∃ c ∈ text, p c = true
    · obtain ⟨before, c, after, rfl, hc, hafter⟩ := ih hrest
      exact ⟨x :: before, c, after, rfl, hc, hafter⟩
    · obtain ⟨c, hmem, hc⟩ := h
      rcases List.mem_cons.mp hmem with rfl | hmem
      · refine ⟨[], c, text, rfl, hc, fun d hd => ?_⟩
        rw [Bool.eq_false_iff]
        exact fun hd' => hrest ⟨d, hd, hd'⟩
      · exact absurd ⟨c, hmem, hc⟩ hrest

end RustText
