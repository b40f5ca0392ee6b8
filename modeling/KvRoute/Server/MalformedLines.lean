import KvRoute.Server.PrometheusText

set_option relaxedAutoImplicit false
set_option autoImplicit false

/-!
# Malformed lines in a text exposition

`find_metric` (`crates/router-server/src/prometheus_text.rs`) skips a line that it cannot read a
value from, with one exception: a line of the metric without a blank after the name, such as the
bare name or a sample that is cut off after its labels.  Such a line ends the whole lookup, and
hides every other series of the metric.

Here the text is any text at all; a line is what `find_metric` makes of it, once it is trimmed.

## Main definitions

* `KvRoute.isBare`, `lineNumber` — a line as the lookup sees it.
* `KvRoute.CarriesValue` — the line is a sample of the format.

## Main results

* `KvRoute.findMetric_eq` — the lookup in any text.
* `KvRoute.findMetric_insertLine_iff` — when one line more makes no difference.
-/

namespace KvRoute

open RustText

/-! ## One line -/

/-- A line of the metric without a blank after the name. -/
def isBare (name line : List Char) : Bool :=
  isLineOf name line && (afterName line).all fun c => !isBlank c

/-- The number after the last blank of a line of the metric. -/
def lineNumber (num : NumberParsing) (name line : List Char) : Option F64 :=
  if isLineOf name line then (lastField (afterName line)).bind num.parse else none

/-- A line that carries a value: a sample of the format. -/
def CarriesValue (num : NumberParsing) (line : List Char) : Prop :=
  ∃ sample : Sample num, line = sample.text

section Line

variable {num : NumberParsing} {name line : List Char}

lemma exists_lastField {text : List Char} (h : ∃ c ∈ text, isBlank c = true) :
    ∃ field, lastField text = some field := by
  obtain ⟨before, c, after, rfl, hc, hafter⟩ := exists_last h
  exact ⟨after, lastField_append_cons before hc hafter⟩

lemma isBare_eq_true : isBare name line = true ↔
    isLineOf name line = true ∧ ∀ c ∈ afterName line, isBlank c = false := by
  simp [isBare]

/-- A bare line has no number. -/
lemma lineNumber_of_isBare (h : isBare name line = true) : lineNumber num name line = none := by
  obtain ⟨hname, hblank⟩ := isBare_eq_true.mp h
  rw [lineNumber, if_pos hname, lastField_eq_none hblank, Option.bind_none]

/-- What the loop does with a line: it breaks off at a bare line, and collects the number of any
other one. -/
lemma readLine_eq (values : List F64) (line : List Char) :
    readLine num name values line =
      if isBare name line then none else some (values ++ (lineNumber num name line).toList) := by
  cases hname : isLineOf name line with
  | false =>
    have hbare : isBare name line = false := by rw [isBare, hname, Bool.false_and]
    rw [readLine_of_not_isLineOf values hname, if_neg (ne_true_of_eq_false hbare), lineNumber,
      if_neg (ne_true_of_eq_false hname), Option.toList_none, List.append_nil]
  | true =>
    rw [readLine_of_isLineOf values hname]
    by_cases hblank : ∀ c ∈ afterName line, isBlank c = false
    · rw [if_pos (isBare_eq_true.mpr ⟨hname, hblank⟩), lastField_eq_none hblank, Option.map_none]
    · have hbare : ¬isBare name line = true := fun h => hblank (isBare_eq_true.mp h).2
      push Not at hblank
      obtain ⟨field, hfield⟩ := exists_lastField (by simpa using hblank)
      rw [if_neg hbare, lineNumber, if_pos hname, hfield, Option.map_some, Option.bind_some]

end Line

/-! ## Any text -/

section Text

variable {num : NumberParsing} {name : List Char}

/-- The loop breaks off if there is a bare line, and collects the numbers of all lines if not. -/
lemma foldlM_readLine_eq (pieces : List (List Char)) (values : List F64) :
    pieces.foldlM (readLine num name) values =
      if pieces.any (isBare name) then none
      else some (values ++ pieces.filterMap (lineNumber num name)) := by
  induction pieces generalizing values with
  | nil => simp
  | cons line pieces ih =>
    rw [List.foldlM_cons, readLine_eq, List.any_cons, List.filterMap_cons]
    cases isBare name line with
    | true => rfl
    | false =>
      rw [Bool.false_or, if_neg Bool.false_ne_true]
      refine (ih _).trans ?_
      rw [List.append_assoc]
      cases lineNumber num name line <;> rfl

/-- **The lookup in any text.**  A bare line anywhere in the text ends it; else it returns the mean
of the numbers of all lines. -/
theorem findMetric_eq (fl : F64.Rounding) (text : List Char) :
    findMetric fl num text name =
      if (text.splitOn '\n').any (isBare name) then none
      else F64.mean fl ((text.splitOn '\n').filterMap (lineNumber num name)) := by
  rw [findMetric, foldlM_lines (fun values line line' h => readLine_congr values h)
    (fun values => readLine_of_trim_eq_nil values rfl), foldlM_readLine_eq]
  split_ifs
  · rfl
  · rw [List.nil_append, F64.mean]
    simp only [List.isEmpty_iff]
    rfl

/-- A bare line with a blank and a number put after it is one with a number. -/
lemma lineNumber_append_value {line token : List Char} {value : F64}
    (h : isBare name line = true) (hvalue : num.parse token = some value) :
    lineNumber num name (trim line ++ ' ' :: token) = some value := by
  have hname := (isBare_eq_true.mp h).1
  rw [isLineOf, Bool.and_eq_true, Bool.not_eq_true', Bool.or_eq_false_iff, List.isEmpty_eq_false_iff,
    decide_eq_false_iff_not, decide_eq_true_eq] at hname
  obtain ⟨⟨hne, hcomment⟩, htake⟩ := hname
  have htoken : ∀ c ∈ token, 43 ≤ c.toNat ∧ c.toNat ≤ 122 :=
    fun c hc => toNat_of_isNumeral (num.isNumeral_of_mem hvalue c hc)
  have htoken_ne := num.ne_nil hvalue
  -- nothing is trimmed off, and the name still ends where it did
  have htrim : trim (trim line ++ ' ' :: token) = trim line ++ ' ' :: token := by
    have hpadded := @trim_padded [] (trim line ++ ' ' :: token) [] (by simp) (by simp)
      (List.append_ne_nil_of_left_ne_nil hne _)
      (by rw [List.head_append_of_ne_nil hne]; exact isWhitespace_head_trim hne)
      (by
        rw [List.getLast_append_of_ne_nil _ (List.cons_ne_nil _ _), List.getLast_cons htoken_ne]
        exact isWhitespace_of_toNat (htoken _ (List.getLast_mem _)))
    rwa [List.nil_append, List.append_nil] at hpadded
  have hidx : (trim line ++ ' ' :: token).findIdx endsName = (trim line).findIdx endsName := by
    rw [List.findIdx_append]
    split_ifs with hlt
    · rfl
    · rw [List.findIdx_cons, show endsName ' ' = true from rfl, cond_true, Nat.zero_add]
      exact le_antisymm (not_lt.mp hlt) (List.findIdx_le_length)
  have hle : (trim line).findIdx endsName ≤ (trim line).length := List.findIdx_le_length
  have hlineOf : isLineOf name (trim line ++ ' ' :: token) = true := by
    have hhead : (trim line ++ ' ' :: token).head? = (trim line).head? :=
      List.head?_append_of_ne_nil _ hne
    rw [isLineOf, htrim, hidx, List.take_append_of_le_length hle, htake, hhead]
    simp [hcomment]
  have hafter : afterName (trim line ++ ' ' :: token) = afterName line ++ ' ' :: token := by
    rw [afterName, htrim, hidx, List.drop_append_of_le_length hle, afterName]
  rw [lineNumber, if_pos hlineOf, hafter,
    lastField_append_cons _ rfl fun c hc => isBlank_of_toNat (htoken c hc), Option.bind_some, hvalue]

lemma mean_singleton_ne_none (fl : F64.Rounding) (value : F64) : F64.mean fl [value] ≠ none :=
  fun h => List.cons_ne_nil _ _ ((F64.mean_eq_none fl).mp h)

/-- The lookup in a text of one line. -/
lemma findMetric_of_newline_not_mem (fl : F64.Rounding) {line : List Char} (hline : '\n' ∉ line) :
    findMetric fl num line name =
      if isBare name line then none else F64.mean fl (lineNumber num name line).toList := by
  rw [findMetric_eq, List.splitOn_eq_singleton hline]
  simp only [List.any_cons, List.any_nil, Bool.or_false, List.filterMap_cons, List.filterMap_nil]
  cases lineNumber num name line <;> rfl

/-- The lookup in a text with one line more. -/
lemma findMetric_insertLine (fl : F64.Rounding) (i : ℕ) {line : List Char} (hline : '\n' ∉ line)
    (text : List Char) :
    findMetric fl num (insertLine i line text) name =
      if isBare name line || (text.splitOn '\n').any (isBare name) then none
      else F64.mean fl
        (((insertLine i line text).splitOn '\n').filterMap (lineNumber num name)) := by
  have hany : ((insertLine i line text).splitOn '\n').any (isBare name) =
      (isBare name line || (text.splitOn '\n').any (isBare name)) := by
    rw [splitOn_insertLine i hline, List.any_append, List.any_cons, Bool.or_left_comm,
      ← List.any_append, List.take_append_drop]
  rw [findMetric_eq, hany]

/-- A line without a number adds none. -/
lemma filterMap_splitOn_insertLine (i : ℕ) {line : List Char} (hline : '\n' ∉ line)
    (hnone : lineNumber num name line = none) (text : List Char) :
    ((insertLine i line text).splitOn '\n').filterMap (lineNumber num name) =
      (text.splitOn '\n').filterMap (lineNumber num name) := by
  rw [splitOn_insertLine i hline, List.filterMap_append, List.filterMap_cons_none hnone,
    ← List.filterMap_append, List.take_append_drop]

/-- A line without a number that is not bare makes no difference. -/
lemma findMetric_insertLine_of_none (fl : F64.Rounding) (i : ℕ) {line : List Char}
    (hline : '\n' ∉ line) (hbare : isBare name line = false)
    (hnone : lineNumber num name line = none) (text : List Char) :
    findMetric fl num (insertLine i line text) name = findMetric fl num text name := by
  rw [findMetric_insertLine fl i hline, hbare, Bool.false_or,
    filterMap_splitOn_insertLine i hline hnone, ← findMetric_eq]

/-- A text for which a bare line, or one with a number, makes a difference. -/
lemma exists_findMetric_insertLine_ne (fl : F64.Rounding)
    (hnum : ∃ token, (num.parse token).isSome = true) {line : List Char} (hline : '\n' ∉ line)
    (h : isBare name line = true ∨ lineNumber num name line ≠ none) :
    ∃ text, findMetric fl num (insertLine 0 line text) name ≠ findMetric fl num text name := by
  by_cases hbare : isBare name line = true
  · -- the line itself, with a number put after it, is a series that the line then hides
    obtain ⟨token, htoken⟩ := hnum
    obtain ⟨value, hvalue⟩ := Option.isSome_iff_exists.mp htoken
    have hnumber := lineNumber_append_value hbare hvalue
    have hnewline : '\n' ∉ trim line ++ ' ' :: token := by
      have htrim : '\n' ∉ trim line := fun hmem => hline
        ((List.dropWhile_sublist _).mem ((List.rdropWhile_prefix _ _).sublist.mem hmem))
      have htoken : '\n' ∉ token :=
        newline_not_mem_of_toNat fun c hc => toNat_of_isNumeral (num.isNumeral_of_mem hvalue c hc)
      simp [htrim, htoken]
    have hother : ¬isBare name (trim line ++ ' ' :: token) = true := fun hbare' => by
      rw [lineNumber_of_isBare hbare'] at hnumber
      cases hnumber
    refine ⟨trim line ++ ' ' :: token, ?_⟩
    rw [findMetric_insertLine fl 0 hline, hbare, Bool.true_or, if_pos rfl,
      findMetric_of_newline_not_mem fl hnewline, if_neg hother, hnumber]
    exact (mean_singleton_ne_none fl value).symm
  · -- the empty text has no series
    obtain ⟨value, hvalue⟩ := Option.ne_none_iff_exists'.mp (h.resolve_left hbare)
    have hempty : findMetric fl num [] name = none := rfl
    have hbareEmpty : isBare name [] = false := rfl
    have hnumberEmpty : lineNumber num name [] = none := rfl
    refine ⟨[], ?_⟩
    rw [hempty, findMetric_insertLine fl 0 hline, splitOn_insertLine 0 hline, List.splitOn_nil,
      Bool.eq_false_iff.mpr hbare]
    simp only [List.any_cons, List.any_nil, hbareEmpty, Bool.or_false, Bool.false_eq_true, if_false,
      List.take_zero, List.drop_zero, List.nil_append, List.filterMap_cons, List.filterMap_nil,
      hvalue, hnumberEmpty]
    exact mean_singleton_ne_none fl value

end Text

/-- **When one line more makes no difference.**  Put into any text at any place, a line never
changes what the lookup of a metric returns exactly if it is not a bare line of the metric, and
there is no number of the metric after its last blank.  In one text, a bare line makes no
difference exactly if the text has a bare line already, or no number of the metric in it, and any
other line exactly if the text has a bare line, or the mean stays as it is.

**Proof sketch.** The lookup is `none` if there is a bare line, and the mean of the numbers if not
(`findMetric_eq`).  A bare line that is followed by a blank and a number is a series, and the bare
line put before it hides it (`exists_findMetric_insertLine_ne`). -/
theorem findMetric_insertLine_iff (fl : F64.Rounding) (num : NumberParsing)
    (hnum : ∃ token, (num.parse token).isSome = true) (name : List Char) {line : List Char}
    (hline : '\n' ∉ line) :
    ((∀ text i, findMetric fl num (insertLine i line text) name = findMetric fl num text name) ↔
      isBare name line = false ∧ lineNumber num name line = none) ∧
    ∀ text i, findMetric fl num (insertLine i line text) name = findMetric fl num text name ↔
      (∃ other ∈ text.splitOn '\n', isBare name other = true) ∨
      if isBare name line then ∀ other ∈ text.splitOn '\n', lineNumber num name other = none
      else
        F64.mean fl (((insertLine i line text).splitOn '\n').filterMap (lineNumber num name)) =
          F64.mean fl ((text.splitOn '\n').filterMap (lineNumber num name)) := by
  refine ⟨⟨fun h => ?_, fun ⟨hbare, hnone⟩ text i =>
    findMetric_insertLine_of_none fl i hline hbare hnone text⟩, fun text i => ?_⟩
  · by_contra hnot
    obtain ⟨text, htext⟩ := exists_findMetric_insertLine_ne fl hnum hline
      (or_iff_not_imp_left.mpr fun hbare hnone => hnot ⟨Bool.eq_false_iff.mpr hbare, hnone⟩)
    exact htext (h text 0)
  · rw [findMetric_insertLine fl i hline, findMetric_eq, ← List.any_eq_true]
    cases (text.splitOn '\n').any (isBare name) with
    | true => simp
    | false =>
      cases isBare name line with
      | true =>
        -- the bare line hides the numbers there are
        simp only [Bool.true_or, if_true, Bool.false_eq_true, if_false, false_or]
        rw [eq_comm, F64.mean_eq_none, List.filterMap_eq_nil_iff]
      | false => simp

/-- A sample that is cut off in a label value, between two series. -/
theorem findMetric_insertLine_iff_truncated :
    insertLine 1 "m\x7ba=\"x y".toList "m 1\nm 3".toList = "m 1\nm\x7ba=\"x y\nm 3".toList ∧
      findMetric .exact decimals (insertLine 1 "m\x7ba=\"x y".toList "m 1\nm 3".toList) ['m'] =
        some (.finite 2) :=
  ⟨by decide,
    ((findMetric_insertLine_iff .exact decimals ⟨['1'], by decide⟩ ['m'] (by decide)).1.mpr
      ⟨by decide, by decide⟩ _ 1).trans (by decide +kernel)⟩

/-- The bare name of a metric, and a sample that is cut off after its labels. -/
example : isBare ['m'] "m".toList = true ∧ isBare ['m'] "m\x7ba=\"x\"\x7d".toList = true ∧
    isBare ['m'] "m\x7ba=\"x y".toList = false ∧ isBare ['m'] "m abc".toList = false := by decide

/-- The bare name of the metric carries no value, and hides the series after it. -/
theorem findMetric_hidden_by_bare_name :
    ¬CarriesValue decimals ['m'] ∧
      insertLine 0 ['m'] "m 1".toList = "m\nm 1".toList ∧
      findMetric .exact decimals "m 1".toList ['m'] = some (.finite 1) ∧
      findMetric .exact decimals "m\nm 1".toList ['m'] = none ∧
      ¬∀ (text name line : List Char) (i : ℕ), '\n' ∉ line → ¬CarriesValue decimals line →
        findMetric .exact decimals (insertLine i line text) name =
          findMetric .exact decimals text name := by
  have hcarries : ¬CarriesValue decimals ['m'] := by
    rintro ⟨sample, hsample⟩
    -- a sample has a brace or a blank after its name
    obtain ⟨c, rest, hfields, hc⟩ := sample.fields_eq_cons
    have hmem : c ∈ sample.text := by
      rw [Sample.text, hfields]
      simp
    rw [← hsample, List.mem_singleton] at hmem
    rw [hmem] at hc
    exact absurd hc (by decide)
  have hinsert : insertLine 0 ['m'] "m 1".toList = "m\nm 1".toList := by decide
  have hfound : findMetric .exact decimals "m 1".toList ['m'] = some (.finite 1) := by
    decide +kernel
  have hhidden : findMetric .exact decimals "m\nm 1".toList ['m'] = none := by decide +kernel
  refine ⟨hcarries, hinsert, hfound, hhidden, fun h => ?_⟩
  have hsame := h "m 1".toList ['m'] ['m'] 0 (by decide) hcarries
  rw [hinsert, hfound, hhidden] at hsame
  cases hsame

end KvRoute
