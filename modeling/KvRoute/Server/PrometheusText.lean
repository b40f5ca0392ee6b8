import KvRoute.Lib.Float64
import KvRoute.Lib.RustText

set_option relaxedAutoImplicit false
set_option autoImplicit false

/-!
# Reading a metric from a text exposition

`find_metric` (`crates/router-server/src/prometheus_text.rs`) looks a metric up in the text that an
engine exposes, line by line: the name of a sample is what comes before the first brace or blank,
and its value is taken to be what comes after the last blank.  In the format a sample may end in a
timestamp, and a label set needs no blank after it; what is after the last blank is then not the
value.

The format is given by its syntax: documents are built from lines, and lines from their tokens and
the blanks between them.  Number parsing is a parameter.

## Main definitions

* `KvRoute.NumberParsing`, `findMetric` — the lookup.
* `KvRoute.LabelSet`, `KvRoute.Sample`, `KvRoute.ExpositionLine`, `expositionText` — the format.
* `Sample.lastNumber` — the number in the last field of a sample, if it stands by itself.
* `KvRoute.isLineOf`, `afterName` — what the loop takes a line for.
* `Sample.Plain` — the value stands by itself, and no timestamp follows it.

## Main results

* `KvRoute.foldlM_readLine` — only samples of the metric are read.
* `KvRoute.findMetric_mean_iff` — when the lookup returns the mean of the values.
-/

namespace KvRoute

open RustText

/-! ## The lookup -/

/-- The characters of numbers. -/
def isNumeral (c : Char) : Bool := c.isAlphanum || c = '+' || c = '-' || c = '.'

/-- `str::parse::<f64>`, and what is relied on: a number is not empty, and has no other
characters. -/
structure NumberParsing where
  /-- The number that a text is read as, if it is one. -/
  parse : List Char → Option F64
  /-- The empty text is no number. -/
  ne_nil : ∀ {text value}, parse text = some value → text ≠ []
  /-- Numbers are made of letters, digits, signs and points. -/
  isNumeral_of_mem : ∀ {text value}, parse text = some value → ∀ c ∈ text, isNumeral c = true

/-- A blank or a tab. -/
def isBlank (c : Char) : Bool := c = ' ' || c = '\t'

/-- The characters that end the name of a metric. -/
def endsName (c : Char) : Bool := c = '{' || isBlank c

section Lookup

variable (fl : F64.Rounding) (num : NumberParsing)

/-- The body of the loop; `none` is a return from within it. -/
def readLine (name : List Char) (values : List F64) (line : List Char) : Option (List F64) :=
  let line := trim line
  if line.isEmpty || line.head? = some '#' then some values
  else
    let nameEnd := line.findIdx endsName
    if line.take nameEnd ≠ name then some values
    else
      let rest := line.drop nameEnd
      match rfind isBlank rest with
      | none => none
      | some lastBlank =>
        let valueStart := lastBlank + 1
        match num.parse (rest.drop valueStart) with
        | some value => some (values ++ [value])
        | none => some values

/-- Look up a metric by name and return the mean value across all of its series. -/
def findMetric (text name : List Char) : Option F64 := do
  let values ← (lines text).foldlM (readLine num name) []
  if values.isEmpty then none
  else some (F64.div fl (F64.sum fl values) (F64.ofNat fl values.length))

end Lookup

/-! ## The format -/

/-- Blanks and tabs between tokens. -/
abbrev Blanks := {text : List Char // ∀ c ∈ text, isBlank c = true}

/-- A character of a quoted label value. -/
inductive LabelChar where
  /-- A character that stands for itself. -/
  | plain (c : Char) (h : c ≠ '"' ∧ c ≠ '\\' ∧ c ≠ '\n')
  /-- An escaped quotation mark. -/
  | quote
  /-- An escaped backslash. -/
  | backslash
  /-- An escaped line feed. -/
  | lineFeed

/-- How a character of a label value is written. -/
def LabelChar.text : LabelChar → List Char
  | plain c _ => [c]
  | quote => ['\\', '"']
  | backslash => ['\\', '\\']
  | lineFeed => ['\\', 'n']

/-- The names of labels. -/
def isLabelName (name : List Char) : Bool :=
  name.all (fun c => c.isAlphanum || c = '_') && name.head?.any fun c => !c.isDigit

/-- The names of metrics. -/
def isMetricName (name : List Char) : Bool :=
  name.all (fun c => c.isAlphanum || c = '_' || c = ':') && name.head?.any fun c => !c.isDigit

/-- A label with its value, and the blanks around its tokens. -/
structure Label where
  /-- Blanks before the name. -/
  before : Blanks
  /-- The name. -/
  name : {name : List Char // isLabelName name = true}
  /-- Blanks before the equals sign. -/
  beforeEq : Blanks
  /-- Blanks after it. -/
  afterEq : Blanks
  /-- The value between the quotation marks. -/
  value : List LabelChar
  /-- Blanks after the value. -/
  after : Blanks

/-- How a label is written. -/
def Label.text (label : Label) : List Char :=
  label.before.1 ++ label.name.1 ++ label.beforeEq.1 ++ '=' :: label.afterEq.1 ++
    '"' :: label.value.flatMap LabelChar.text ++ '"' :: label.after.1

/-- A label set; the last label may be followed by a comma. -/
structure LabelSet where
  /-- The labels. -/
  labels : List Label
  /-- Whether a comma follows the last label. -/
  comma : Bool
  /-- A comma only follows a label. -/
  comma_ok : comma = true → labels ≠ []
  /-- Blanks before the closing brace. -/
  beforeClose : Blanks

/-- How a label set is written. -/
def LabelSet.text (set : LabelSet) : List Char :=
  '{' :: List.intercalate [','] (set.labels.map Label.text) ++ (if set.comma then [','] else []) ++
    set.beforeClose.1 ++ ['}']

/-- A timestamp, with the blanks that separate it. -/
structure Timestamp where
  /-- Blanks before the timestamp. -/
  before : Blanks
  /-- There are some. -/
  separated : before.1 ≠ []
  /-- Whether it is negative. -/
  negative : Bool
  /-- Its digits. -/
  digits : List Char
  /-- There are some. -/
  digits_ne_nil : digits ≠ []
  /-- They are digits. -/
  isDigit_of_mem : ∀ c ∈ digits, c.isDigit = true

/-- How the number of a timestamp is written. -/
def Timestamp.token (stamp : Timestamp) : List Char :=
  (if stamp.negative then ['-'] else []) ++ stamp.digits

/-- A sample. -/
structure Sample (num : NumberParsing) where
  /-- Blanks before the name. -/
  indent : Blanks
  /-- The name of the metric. -/
  name : {name : List Char // isMetricName name = true}
  /-- The label set, if any, and the blanks before it. -/
  labels : Option (Blanks × LabelSet)
  /-- Blanks before the value. -/
  beforeValue : Blanks
  /-- A value does not directly follow a name. -/
  separated : labels = none → beforeValue.1 ≠ []
  /-- How the value is written. -/
  token : List Char
  /-- The value. -/
  value : F64
  /-- What is written is the value. -/
  parse_token : num.parse token = some value
  /-- The timestamp, if any. -/
  timestamp : Option Timestamp
  /-- Blanks at the end of the line. -/
  trailing : Blanks

namespace Sample

variable {num : NumberParsing}

/-- How the label set and the blanks before it are written. -/
def labelsText (sample : Sample num) : List Char :=
  match sample.labels with
  | none => []
  | some (before, set) => before.1 ++ set.text

/-- How the timestamp and the blanks before it are written. -/
def timestampText (sample : Sample num) : List Char :=
  match sample.timestamp with
  | none => []
  | some stamp => stamp.before.1 ++ stamp.token

/-- What follows the name, without blanks at the end of the line. -/
def fields (sample : Sample num) : List Char :=
  sample.labelsText ++ sample.beforeValue.1 ++ sample.token ++ sample.timestampText

/-- How a sample is written. -/
def text (sample : Sample num) : List Char :=
  sample.indent.1 ++ (sample.name.1 ++ sample.fields) ++ sample.trailing.1

/-- The number in the last field: the timestamp, or else the value if a blank precedes it. -/
def lastNumber (sample : Sample num) : Option F64 :=
  match sample.timestamp with
  | some stamp => num.parse stamp.token
  | none => if sample.beforeValue.1 = [] then none else some sample.value

end Sample

/-- A line of a text exposition. -/
inductive ExpositionLine (num : NumberParsing) where
  /-- A blank line. -/
  | blank (blanks : Blanks)
  /-- A comment. -/
  | comment (indent : Blanks) (text : {text : List Char // '\n' ∉ text})
  /-- A sample. -/
  | sample (sample : Sample num)

section Document

variable {num : NumberParsing}

/-- How a line is written. -/
def ExpositionLine.text : ExpositionLine num → List Char
  | .blank blanks => blanks.1
  | .comment indent text => indent.1 ++ '#' :: text.1
  | .sample written => written.text

/-- A text exposition: lines between line feeds. -/
def expositionText (document : List (ExpositionLine num)) : List Char :=
  List.intercalate ['\n'] (document.map ExpositionLine.text)

/-- The samples of a metric. -/
def samplesOf (name : List Char) (document : List (ExpositionLine num)) : List (Sample num) :=
  document.filterMap fun
    | .sample sample => if sample.name.1 = name then some sample else none
    | .blank _ | .comment _ _ => none

end Document

/-! ## Characters -/

lemma isWhitespace_of_isBlank {c : Char} (h : isBlank c = true) : isWhitespace c = true := by
  simp only [isBlank, Bool.or_eq_true, decide_eq_true_eq] at h
  rcases h with rfl | rfl <;> decide

lemma toNat_of_isAlphanum {c : Char} (h : c.isAlphanum = true) :
    48 ≤ c.toNat ∧ c.toNat ≤ 122 := by
  change ((decide ('A'.val ≤ c.val ∧ c.val ≤ 'Z'.val) ||
    (decide ('a'.val ≤ c.val) && decide (c.val ≤ 'z'.val))) ||
    (decide ('0'.val ≤ c.val) && decide (c.val ≤ '9'.val))) = true at h
  simp only [Bool.or_eq_true, Bool.and_eq_true, decide_eq_true_eq, UInt32.le_iff_toNat_le,
    Char.reduceVal, UInt32.reduceToNat, Char.toNat_val] at h
  omega

/-- The characters of numbers and names have codes in a range without blanks and braces. -/
lemma toNat_of_isNumeral {c : Char} (h : isNumeral c = true) : 43 ≤ c.toNat ∧ c.toNat ≤ 122 := by
  simp only [isNumeral, Bool.or_eq_true, decide_eq_true_eq] at h
  rcases h with ((h | rfl) | rfl) | rfl
  · have := toNat_of_isAlphanum h
    omega
  all_goals decide

section Codes

variable {c : Char} (h : 43 ≤ c.toNat ∧ c.toNat ≤ 122)

include h

lemma isWhitespace_of_toNat : isWhitespace c = false := by
  simp [isWhitespace]
  omega

lemma ne_of_toNat {d : Char} (hd : d.toNat < 43 ∨ 122 < d.toNat) : c ≠ d := by
  rintro rfl
  omega

lemma endsName_of_toNat : endsName c = false := by
  simp [endsName, isBlank, ne_of_toNat h]

end Codes

/-! ## Lines -/

/-- Joining texts adds no character but those of the separator. -/
lemma not_mem_intercalate {c : Char} {separator : List Char} (hsep : c ∉ separator)
    {texts : List (List Char)} (h : ∀ text ∈ texts, c ∉ text) :
    c ∉ List.intercalate separator texts := by
  induction texts with
  | nil => exact List.not_mem_nil
  | cons text texts ih =>
    have hrest := ih fun t ht => h t (List.mem_cons_of_mem _ ht)
    cases texts with
    | nil =>
      rw [List.intercalate_singleton]
      exact h text List.mem_cons_self
    | cons next texts =>
      rw [List.intercalate_cons_cons, List.mem_append, List.mem_append]
      rintro ((hc | hc) | hc)
      · exact h text List.mem_cons_self hc
      · exact hsep hc
      · exact hrest hc

lemma newline_not_mem_blanks (blanks : Blanks) : '\n' ∉ blanks.1 :=
  fun h => absurd (blanks.2 _ h) (by decide)

lemma newline_not_mem_of_toNat {text : List Char}
    (h : ∀ c ∈ text, 43 ≤ c.toNat ∧ c.toNat ≤ 122) : '\n' ∉ text :=
  fun hmem => absurd (h _ hmem).1 (by decide)

lemma LabelChar.newline_not_mem_text (c : LabelChar) : '\n' ∉ c.text := by
  cases c with
  | plain c h => simpa [LabelChar.text] using h.2.2.symm
  | quote => decide
  | backslash => decide
  | lineFeed => decide

lemma toNat_of_mem_labelName {name : List Char} (h : isLabelName name = true) :
    ∀ c ∈ name, 43 ≤ c.toNat ∧ c.toNat ≤ 122 := by
  intro c hc
  rw [isLabelName, Bool.and_eq_true, List.all_eq_true] at h
  rcases Bool.or_eq_true _ _ ▸ h.1 c hc with hc | hc
  · have := toNat_of_isAlphanum hc
    omega
  · rw [of_decide_eq_true hc]
    decide

lemma toNat_of_mem_metricName {name : List Char} (h : isMetricName name = true) :
    ∀ c ∈ name, 43 ≤ c.toNat ∧ c.toNat ≤ 122 := by
  intro c hc
  rw [isMetricName, Bool.and_eq_true, List.all_eq_true] at h
  have hchar := h.1 c hc
  simp only [Bool.or_eq_true, decide_eq_true_eq] at hchar
  rcases hchar with (hc | rfl) | rfl
  · have := toNat_of_isAlphanum hc
    omega
  all_goals decide

lemma Label.newline_not_mem_text (label : Label) : '\n' ∉ label.text := by
  have hname := newline_not_mem_of_toNat (toNat_of_mem_labelName label.name.2)
  have hvalue : '\n' ∉ label.value.flatMap LabelChar.text := by
    simpa using fun c _ => c.newline_not_mem_text
  simp [Label.text, newline_not_mem_blanks, hname, hvalue]

lemma LabelSet.newline_not_mem_text (set : LabelSet) : '\n' ∉ set.text := by
  have hlabels : '\n' ∉ List.intercalate [','] (set.labels.map Label.text) := by
    refine not_mem_intercalate (by decide) fun text htext => ?_
    obtain ⟨label, -, rfl⟩ := List.mem_map.mp htext
    exact label.newline_not_mem_text
  have hcomma : '\n' ∉ (if set.comma then [','] else []) := by
    split <;> simp
  simp [LabelSet.text, newline_not_mem_blanks, hlabels, hcomma]

lemma Timestamp.toNat_of_mem_token (stamp : Timestamp) :
    ∀ c ∈ stamp.token, 43 ≤ c.toNat ∧ c.toNat ≤ 122 := by
  intro c hc
  rw [Timestamp.token, List.mem_append] at hc
  rcases hc with hc | hc
  · split at hc
    · rw [List.mem_singleton.mp hc]
      decide
    · exact absurd hc List.not_mem_nil
  · have := toNat_of_isAlphanum (c := c) (by simp [Char.isAlphanum, stamp.isDigit_of_mem c hc])
    omega

namespace Sample

variable {num : NumberParsing} (sample : Sample num)

lemma toNat_of_mem_token : ∀ c ∈ sample.token, 43 ≤ c.toNat ∧ c.toNat ≤ 122 :=
  fun c hc => toNat_of_isNumeral (num.isNumeral_of_mem sample.parse_token c hc)

lemma newline_not_mem_text : '\n' ∉ sample.text := by
  have hname := newline_not_mem_of_toNat (toNat_of_mem_metricName sample.name.2)
  have htoken := newline_not_mem_of_toNat sample.toNat_of_mem_token
  have hlabels : '\n' ∉ sample.labelsText := by
    unfold labelsText
    split
    · exact List.not_mem_nil
    · simp [newline_not_mem_blanks, LabelSet.newline_not_mem_text]
  have hstamp : '\n' ∉ sample.timestampText := by
    unfold timestampText
    split
    · exact List.not_mem_nil
    · simp [newline_not_mem_blanks, newline_not_mem_of_toNat (Timestamp.toNat_of_mem_token _)]
  simp [text, fields, newline_not_mem_blanks, hname, htoken, hlabels, hstamp]

end Sample

/-- A line has no line feed. -/
lemma ExpositionLine.newline_not_mem_text {num : NumberParsing} (line : ExpositionLine num) :
    '\n' ∉ line.text := by
  cases line with
  | blank blanks => exact newline_not_mem_blanks blanks
  | comment indent text => simp [ExpositionLine.text, newline_not_mem_blanks, text.2]
  | sample sample => exact sample.newline_not_mem_text

/-! ## Reading one line -/

namespace Sample

variable {num : NumberParsing} (sample : Sample num)

/-- There is a blank after the name. -/
def Spaced : Prop := ∃ c ∈ sample.fields, isBlank c = true

/-- The last field is a number or a timestamp, so it is not white space. -/
lemma isWhitespace_getLast_fields (h : sample.fields ≠ []) :
    isWhitespace (sample.fields.getLast h) = false := by
  have hlast : ∀ (before token : List Char) (hne : token ≠ []) (h : before ++ token ≠ []),
      (∀ c ∈ token, 43 ≤ c.toNat ∧ c.toNat ≤ 122) →
        isWhitespace ((before ++ token).getLast h) = false := by
    intro before token hne h htoken
    rw [List.getLast_append_of_ne_nil h hne]
    exact isWhitespace_of_toNat (htoken _ (List.getLast_mem hne))
  cases hstamp : sample.timestamp with
  | none =>
    have hfields : sample.fields = (sample.labelsText ++ sample.beforeValue.1) ++ sample.token := by
      rw [fields, timestampText, hstamp, List.append_nil]
    simp only [hfields]
    exact hlast _ _ (num.ne_nil sample.parse_token) _ sample.toNat_of_mem_token
  | some stamp =>
    have hfields : sample.fields = (sample.labelsText ++ sample.beforeValue.1 ++ sample.token ++
        stamp.before.1) ++ stamp.token := by
      rw [fields, timestampText, hstamp, List.append_assoc _ stamp.before.1]
    have hne : stamp.token ≠ [] := by
      simp [Timestamp.token, stamp.digits_ne_nil]
    simp only [hfields]
    exact hlast _ _ hne _ stamp.toNat_of_mem_token

/-- What follows the name begins with a brace or a blank. -/
lemma fields_eq_cons : ∃ c rest, sample.fields = c :: rest ∧ endsName c = true := by
  have hblanks : ∀ (blanks : Blanks) (more : List Char), blanks.1 ≠ [] →
      ∃ c rest, blanks.1 ++ more = c :: rest ∧ endsName c = true := by
    intro blanks more hne
    obtain ⟨c, rest, hc⟩ := List.exists_cons_of_ne_nil hne
    refine ⟨c, rest ++ more, by rw [hc, List.cons_append], ?_⟩
    rw [endsName, blanks.2 c (hc ▸ List.mem_cons_self), Bool.or_true]
  unfold fields
  rw [List.append_assoc, List.append_assoc]
  cases hlabels : sample.labels with
  | none =>
    rw [labelsText, hlabels, List.nil_append]
    exact hblanks _ _ (sample.separated hlabels)
  | some labels =>
    rw [labelsText, hlabels, List.append_assoc]
    by_cases hne : labels.1.1 = []
    · rw [hne, LabelSet.text]
      exact ⟨_, _, rfl, rfl⟩
    · exact hblanks _ _ hne

lemma name_ne_nil : sample.name.1 ≠ [] := by
  intro hnil
  have h := sample.name.2
  rw [hnil] at h
  exact absurd h (by decide)

/-- The line is trimmed to the name and the fields. -/
lemma trim_text : trim sample.text = sample.name.1 ++ sample.fields := by
  have hname := toNat_of_mem_metricName sample.name.2
  obtain ⟨c, rest, hfields, -⟩ := sample.fields_eq_cons
  have hne : sample.fields ≠ [] := by simp [hfields]
  refine trim_padded (fun c hc => isWhitespace_of_isBlank (sample.indent.2 c hc))
    (fun c hc => isWhitespace_of_isBlank (sample.trailing.2 c hc))
    (List.append_ne_nil_of_left_ne_nil sample.name_ne_nil _) ?_ ?_
  · rw [List.head_append_of_ne_nil sample.name_ne_nil]
    exact isWhitespace_of_toNat (hname _ (List.head_mem _))
  · rw [List.getLast_append_of_ne_nil _ hne]
    exact sample.isWhitespace_getLast_fields hne

/-- The name is what comes before the first brace or blank. -/
lemma findIdx_endsName :
    (sample.name.1 ++ sample.fields).findIdx endsName = sample.name.1.length := by
  obtain ⟨c, rest, hfields, hc⟩ := sample.fields_eq_cons
  have hname : sample.name.1.findIdx endsName = sample.name.1.length := by
    rw [List.findIdx_eq_length]
    exact fun c hc => endsName_of_toNat (toNat_of_mem_metricName sample.name.2 c hc)
  rw [List.findIdx_append, hname, if_neg (lt_irrefl _), hfields, List.findIdx_cons, hc,
    cond_true, Nat.zero_add]

end Sample

/-! ## The last field -/

/-- What comes after the last blank, if there is one. -/
def lastField (text : List Char) : Option (List Char) :=
  (rfind isBlank text).map fun lastBlank => text.drop (lastBlank + 1)

lemma lastField_append_cons (before : List Char) {c : Char} {after : List Char}
    (hc : isBlank c = true) (hafter : ∀ d ∈ after, isBlank d = false) :
    lastField (before ++ c :: after) = some after := by
  rw [lastField, rfind_append_cons before hc hafter, Option.map_some, List.drop_append,
    List.drop_of_length_le (Nat.le_succ _), Nat.add_sub_cancel_left]
  rfl

lemma lastField_eq_none {text : List Char} (h : ∀ c ∈ text, isBlank c = false) :
    lastField text = none := by
  rw [lastField, rfind_eq_none h, Option.map_none]

lemma isBlank_of_toNat {c : Char} (h : 43 ≤ c.toNat ∧ c.toNat ≤ 122) : isBlank c = false := by
  simp [isBlank, ne_of_toNat h]

/-- A token after blanks is what comes after the last blank. -/
lemma lastField_blanks (before : List Char) {blanks : Blanks} (hne : blanks.1 ≠ [])
    {token : List Char} (htoken : ∀ c ∈ token, 43 ≤ c.toNat ∧ c.toNat ≤ 122) :
    lastField (before ++ blanks.1 ++ token) = some token := by
  obtain ⟨first, c, hblanks⟩ := (List.eq_nil_or_concat blanks.1).resolve_left hne
  have hc : isBlank c = true := blanks.2 c (by simp [hblanks])
  have hsplit : before ++ blanks.1 ++ token = (before ++ first) ++ c :: token := by
    simp [hblanks]
  rw [hsplit]
  exact lastField_append_cons _ hc fun d hd => isBlank_of_toNat (htoken d hd)

/-- If a text ends in a character, this is in every rest of it after another character. -/
lemma mem_after_of_concat {before first after : List Char} {c d : Char}
    (h : before ++ [d] = first ++ c :: after) (hne : c ≠ d) : d ∈ after := by
  have hlast := congrArg List.getLast? h
  rw [List.getLast?_concat, List.getLast?_append_cons, List.getLast?_cons,
    Option.some.injEq] at hlast
  cases hafter : after.getLast? with
  | none =>
    rw [hafter] at hlast
    exact absurd hlast.symm hne
  | some last =>
    rw [hafter] at hlast
    exact List.mem_of_getLast? (hafter.trans (congrArg some hlast.symm))

namespace Sample

variable {num : NumberParsing} (sample : Sample num)

/-- A label set ends in a brace. -/
lemma labelsText_eq_concat (h : sample.labels ≠ none) :
    ∃ before, sample.labelsText = before ++ ['}'] := by
  obtain ⟨⟨before, set⟩, hlabels⟩ := Option.ne_none_iff_exists'.mp h
  rw [labelsText, hlabels]
  exact ⟨_, (List.append_assoc _ _ _).symm⟩

/-- If the value follows a label set with blanks in it, the last field holds the closing brace: the
last blank is one in the label set. -/
lemma lastField_fields_of_adjacent (h : sample.Spaced) (hstamp : sample.timestamp = none)
    (hbefore : sample.beforeValue.1 = []) :
    ∃ field, lastField sample.fields = some field ∧ '\x7d' ∈ field := by
  have hfields : sample.fields = sample.labelsText ++ sample.token := by
    rw [fields, timestampText, hstamp, hbefore, List.append_nil, List.append_nil]
  have htoken : ∀ c ∈ sample.token, isBlank c = false :=
    fun c hc => isBlank_of_toNat (sample.toNat_of_mem_token c hc)
  obtain ⟨before, hlabels⟩ := sample.labelsText_eq_concat fun hnone =>
    sample.separated hnone hbefore
  have hblank : ∃ c ∈ sample.labelsText, isBlank c = true := by
    obtain ⟨c, hmem, hc⟩ := h
    rw [hfields, List.mem_append] at hmem
    refine ⟨c, hmem.resolve_right fun hmem => ?_, hc⟩
    rw [htoken c hmem] at hc
    cases hc
  obtain ⟨first, c, after, hsplit, hc, hafter⟩ := exists_last hblank
  have hbrace : '\x7d' ∈ after :=
    mem_after_of_concat (hlabels.symm.trans hsplit) fun heq => by
      rw [heq] at hc
      exact absurd hc (by decide)
  refine ⟨after ++ sample.token, ?_, List.mem_append_left _ hbrace⟩
  rw [hfields, hsplit, List.append_assoc, List.cons_append]
  refine lastField_append_cons _ hc fun d hd => ?_
  rcases List.mem_append.mp hd with hd | hd
  · exact hafter d hd
  · exact htoken d hd

/-- If the last field stands by itself, it is a number or a timestamp; if the value follows a label
set with blanks in it, it is no number. -/
lemma lastField_fields (h : sample.Spaced) :
    ∃ field, lastField sample.fields = some field ∧ num.parse field = sample.lastNumber := by
  cases hstamp : sample.timestamp with
  | some stamp =>
    have hfields : sample.fields = (sample.labelsText ++ sample.beforeValue.1 ++ sample.token) ++
        stamp.before.1 ++ stamp.token := by
      rw [fields, timestampText, hstamp, List.append_assoc _ stamp.before.1]
    refine ⟨stamp.token, ?_, ?_⟩
    · rw [hfields]
      exact lastField_blanks _ stamp.separated stamp.toNat_of_mem_token
    · rw [lastNumber, hstamp]
  | none =>
    by_cases hbefore : sample.beforeValue.1 = []
    · obtain ⟨field, hfield, hbrace⟩ := sample.lastField_fields_of_adjacent h hstamp hbefore
      refine ⟨field, hfield, ?_⟩
      rw [lastNumber, hstamp]
      dsimp only
      rw [if_pos hbefore]
      -- no number has a brace in it
      by_contra hsome
      obtain ⟨value, hvalue⟩ := Option.ne_none_iff_exists'.mp hsome
      have hnumeral := num.isNumeral_of_mem hvalue _ hbrace
      exact absurd hnumeral (by decide)
    · have hfields : sample.fields = sample.labelsText ++ sample.beforeValue.1 ++ sample.token := by
        rw [fields, timestampText, hstamp, List.append_nil]
      refine ⟨sample.token, ?_, ?_⟩
      · rw [hfields]
        exact lastField_blanks _ hbefore sample.toNat_of_mem_token
      · rw [sample.parse_token, lastNumber, hstamp]
        dsimp only
        rw [if_neg hbefore]

/-- If there is no blank at all, there is no last field. -/
lemma lastField_fields_eq_none (h : ¬sample.Spaced) : lastField sample.fields = none := by
  refine lastField_eq_none fun c hc => ?_
  rw [Bool.eq_false_iff]
  exact fun hblank => h ⟨c, hc, hblank⟩

end Sample

/-! ## The whole text -/

section Fold

variable {num : NumberParsing} {name line : List Char}

/-- A line is read by what it is trimmed to. -/
lemma readLine_congr (values : List F64) {line line' : List Char} (h : trim line = trim line') :
    readLine num name values line = readLine num name values line' := by
  unfold readLine
  rw [h]

/-- A line of the metric: it has the metric's name, and is not a comment. -/
def isLineOf (name line : List Char) : Bool :=
  !((trim line).isEmpty || (trim line).head? = some '#') &&
    (trim line).take ((trim line).findIdx endsName) = name

/-- What follows the name. -/
def afterName (line : List Char) : List Char := (trim line).drop ((trim line).findIdx endsName)

/-- A line that is not one of the metric's is skipped. -/
lemma readLine_of_not_isLineOf (values : List F64) (h : isLineOf name line = false) :
    readLine num name values line = some values := by
  unfold readLine
  dsimp only
  by_cases hskip : ((trim line).isEmpty || decide ((trim line).head? = some '#')) = true
  · rw [if_pos hskip]
  · rw [isLineOf, Bool.eq_false_iff.mpr hskip, Bool.not_false, Bool.true_and,
      decide_eq_false_iff_not] at h
    rw [if_neg hskip, if_pos h]

/-- Of a line of the metric the last field is read. -/
lemma readLine_of_isLineOf (values : List F64) (h : isLineOf name line = true) :
    readLine num name values line =
      (lastField (afterName line)).map fun field => values ++ (num.parse field).toList := by
  rw [isLineOf, Bool.and_eq_true, Bool.not_eq_true', decide_eq_true_eq] at h
  unfold readLine
  dsimp only
  rw [h.1, if_neg Bool.false_ne_true, if_neg (not_not.mpr h.2), lastField, ← afterName]
  cases rfind isBlank (afterName line) with
  | none => rfl
  | some lastBlank =>
    dsimp only [Option.map_some]
    cases num.parse ((afterName line).drop (lastBlank + 1)) with
    | none => simp
    | some value => rfl

lemma readLine_of_trim_eq_nil (values : List F64) {line : List Char} (h : trim line = []) :
    readLine num name values line = some values := by
  refine readLine_of_not_isLineOf values ?_
  rw [isLineOf, h]
  rfl

/-- Comments are skipped. -/
lemma readLine_comment (values : List F64) (indent : Blanks) (text : List Char) :
    readLine num name values (indent.1 ++ '#' :: text) = some values := by
  obtain ⟨rest, hrest⟩ := exists_trim_eq_cons
    (fun c hc => isWhitespace_of_isBlank (indent.2 c hc)) (c := '#') (by decide) text
  refine readLine_of_not_isLineOf values ?_
  rw [isLineOf, hrest]
  rfl

/-- A sample is a line of its own metric. -/
lemma isLineOf_text (sample : Sample num) :
    isLineOf name sample.text = decide (sample.name.1 = name) := by
  have hskip : ((sample.name.1 ++ sample.fields).isEmpty ||
      decide ((sample.name.1 ++ sample.fields).head? = some '#')) = false := by
    have hchars := toNat_of_mem_metricName sample.name.2
    obtain ⟨c, rest, hc⟩ := List.exists_cons_of_ne_nil sample.name_ne_nil
    rw [hc] at hchars ⊢
    simp [ne_of_toNat (hchars c List.mem_cons_self) (d := '#')]
  rw [isLineOf, sample.trim_text, hskip, sample.findIdx_endsName, List.take_left, Bool.not_false,
    Bool.true_and]

lemma afterName_text (sample : Sample num) : afterName sample.text = sample.fields := by
  rw [afterName, sample.trim_text, sample.findIdx_endsName, List.drop_left]

/-- A sample of another metric is skipped. -/
lemma readLine_sample_of_ne (values : List F64) (sample : Sample num)
    (hname : sample.name.1 ≠ name) : readLine num name values sample.text = some values :=
  readLine_of_not_isLineOf values ((isLineOf_text sample).trans (decide_eq_false hname))

/-- What the loop does with a sample of the metric: it reads the last field, or breaks off. -/
def readSample (values : List F64) (sample : Sample num) : Option (List F64) :=
  (lastField sample.fields).map fun field => values ++ (num.parse field).toList

lemma readLine_sample (values : List F64) (sample : Sample num) (hname : sample.name.1 = name) :
    readLine num name values sample.text = readSample values sample := by
  rw [readLine_of_isLineOf values ((isLineOf_text sample).trans (decide_eq_true hname)),
    afterName_text, readSample]

/-- Only the samples of the metric are read. -/
lemma foldlM_readLine (document : List (ExpositionLine num)) (values : List F64) :
    (document.map ExpositionLine.text).foldlM (readLine num name) values =
      (samplesOf name document).foldlM readSample values := by
  induction document generalizing values with
  | nil => rfl
  | cons line document ih =>
    have hskip : readLine num name values line.text = some values →
        samplesOf name (line :: document) = samplesOf name document →
        ((line :: document).map ExpositionLine.text).foldlM (readLine num name) values =
          (samplesOf name (line :: document)).foldlM readSample values := by
      intro hread hsamples
      rw [List.map_cons, List.foldlM_cons, hread, hsamples]
      exact ih values
    cases line with
    | blank blanks =>
      exact hskip (readLine_of_trim_eq_nil values
        (trim_eq_nil fun c hc => isWhitespace_of_isBlank (blanks.2 c hc))) rfl
    | comment indent text => exact hskip (readLine_comment values indent text.1) rfl
    | sample sample =>
      by_cases hname : sample.name.1 = name
      · have hsamples : samplesOf name (.sample sample :: document) =
            sample :: samplesOf name document := by
          simp [samplesOf, hname]
        rw [List.map_cons, List.foldlM_cons, hsamples, List.foldlM_cons, ExpositionLine.text,
          readLine_sample values sample hname]
        exact bind_congr ih
      · refine hskip (readLine_sample_of_ne values sample hname) ?_
        simp [samplesOf, hname]

/-- Samples with blanks are all read. -/
lemma foldlM_readSample_of_spaced {samples : List (Sample num)}
    (h : ∀ sample ∈ samples, sample.Spaced) (values : List F64) :
    samples.foldlM readSample values = some (values ++ samples.filterMap Sample.lastNumber) := by
  induction samples generalizing values with
  | nil => simp
  | cons sample samples ih =>
    obtain ⟨field, hfield, hnumber⟩ := sample.lastField_fields (h sample List.mem_cons_self)
    rw [List.foldlM_cons, readSample, hfield, Option.map_some, hnumber]
    refine (ih (fun s hs => h s (List.mem_cons_of_mem _ hs)) _).trans ?_
    rw [List.append_assoc, List.filterMap_cons]
    cases sample.lastNumber <;> rfl

/-- A sample without a blank ends the loop. -/
lemma foldlM_readSample_of_not_spaced {samples : List (Sample num)}
    (h : ∃ sample ∈ samples, ¬sample.Spaced) (values : List F64) :
    samples.foldlM readSample values = none := by
  induction samples generalizing values with
  | nil =>
    obtain ⟨sample, hsample, -⟩ := h
    exact absurd hsample List.not_mem_nil
  | cons first samples ih =>
    rw [List.foldlM_cons]
    obtain ⟨sample, hsample, hspaced⟩ := h
    rcases List.mem_cons.mp hsample with rfl | hsample
    · rw [readSample, sample.lastField_fields_eq_none hspaced]
      rfl
    · cases readSample values first with
      | none => rfl
      | some values => exact ih ⟨sample, hsample, hspaced⟩ values

end Fold

/-- The lookup of a metric in a document. -/
lemma findMetric_expositionText (fl : F64.Rounding) {num : NumberParsing}
    (document : List (ExpositionLine num)) (name : List Char) :
    findMetric fl num (expositionText document) name =
      (samplesOf name document).foldlM readSample [] >>= F64.mean fl := by
  have hlines : (lines (expositionText document)).foldlM (readLine num name) [] =
      (samplesOf name document).foldlM readSample [] := by
    rw [foldlM_lines (fun values line line' h => readLine_congr values h)
      (fun values => readLine_of_trim_eq_nil values rfl)]
    cases document with
    | nil => rfl
    | cons line document =>
      rw [expositionText, List.splitOn_intercalate _ ?_ (by simp), foldlM_readLine]
      intro text htext
      obtain ⟨line, -, rfl⟩ := List.mem_map.mp htext
      exact line.newline_not_mem_text
  rw [findMetric, hlines]
  refine bind_congr fun values => ?_
  rw [F64.mean]
  simp only [List.isEmpty_iff]

/-- If all samples have blanks, the numbers in their last fields are averaged. -/
lemma findMetric_of_spaced (fl : F64.Rounding) {num : NumberParsing}
    {document : List (ExpositionLine num)} {name : List Char}
    (h : ∀ sample ∈ samplesOf name document, sample.Spaced) :
    findMetric fl num (expositionText document) name =
      F64.mean fl ((samplesOf name document).filterMap Sample.lastNumber) := by
  rw [findMetric_expositionText, foldlM_readSample_of_spaced h, List.nil_append]
  rfl

/-- A sample without a blank ends the lookup. -/
lemma findMetric_of_not_spaced (fl : F64.Rounding) {num : NumberParsing}
    {document : List (ExpositionLine num)} {name : List Char}
    (h : ∃ sample ∈ samplesOf name document, ¬sample.Spaced) :
    findMetric fl num (expositionText document) name = none := by
  rw [findMetric_expositionText, foldlM_readSample_of_not_spaced h]
  rfl

/-- A value that stands by itself and ends the line. -/
structure Sample.Plain {num : NumberParsing} (sample : Sample num) : Prop where
  /-- No timestamp follows. -/
  timestamp_eq : sample.timestamp = none
  /-- A blank precedes it. -/
  beforeValue_ne : sample.beforeValue.1 ≠ []

section Plain

variable {num : NumberParsing} {sample : Sample num} (h : sample.Plain)

include h

lemma Sample.Plain.spaced : sample.Spaced := by
  obtain ⟨c, rest, hc⟩ := List.exists_cons_of_ne_nil h.beforeValue_ne
  refine ⟨c, ?_, sample.beforeValue.2 c (hc ▸ List.mem_cons_self)⟩
  simp [Sample.fields, hc]

lemma Sample.Plain.lastNumber_eq : sample.lastNumber = some sample.value := by
  rw [Sample.lastNumber, h.timestamp_eq]
  dsimp only
  rw [if_neg h.beforeValue_ne]

end Plain

/-- **When the lookup returns the mean.**  For every text exposition and every metric: the lookup
returns the mean of the values of its samples, and nothing if there are none, exactly if all of them
have a blank after the name, and the mean stays as it is when every timestamp takes the place of the
value before it and values that directly follow a label set are left out.  In particular it does if
every value has a blank before it and no timestamp after it.

**Proof sketch.** A line is trimmed to the name and the fields of a sample, the name ends at the
first brace or blank, and the fields that follow it end in a number or a timestamp
(`Sample.lastField_fields`).  So the loop collects the numbers in the last fields
(`foldlM_readSample_of_spaced`), and breaks off at a sample without blanks. -/
theorem findMetric_mean_iff (fl : F64.Rounding) (num : NumberParsing)
    (document : List (ExpositionLine num)) (name : List Char) :
    (findMetric fl num (expositionText document) name =
        F64.mean fl ((samplesOf name document).map (·.value)) ↔
      (∀ sample ∈ samplesOf name document, sample.Spaced) ∧
        F64.mean fl ((samplesOf name document).filterMap Sample.lastNumber) =
          F64.mean fl ((samplesOf name document).map (·.value))) ∧
    ((∀ sample ∈ samplesOf name document, sample.Plain) →
      findMetric fl num (expositionText document) name =
        F64.mean fl ((samplesOf name document).map (·.value))) := by
  constructor
  · by_cases hspaced : ∀ sample ∈ samplesOf name document, sample.Spaced
    · rw [findMetric_of_spaced fl hspaced, and_iff_right hspaced]
    · have hsome : ∃ sample ∈ samplesOf name document, ¬sample.Spaced := by
        push Not at hspaced
        exact hspaced
      rw [findMetric_of_not_spaced fl hsome]
      refine iff_of_false (fun h => ?_) fun h => hspaced h.1
      obtain ⟨sample, hsample, -⟩ := hsome
      have hnil := List.map_eq_nil_iff.mp ((F64.mean_eq_none fl).mp h.symm)
      exact List.ne_nil_of_mem hsample hnil
  · intro hplain
    have hnumbers : (samplesOf name document).filterMap Sample.lastNumber =
        (samplesOf name document).map (·.value) := by
      rw [← List.filterMap_eq_map]
      exact List.filterMap_congr fun sample h => (hplain sample h).lastNumber_eq
    rw [findMetric_of_spaced fl fun sample h => (hplain sample h).spaced, hnumbers]

/-- Natural numbers in decimal. -/
def decimals : NumberParsing where
  parse text :=
    if text ≠ [] ∧ text.all Char.isDigit then
      some (.finite (text.foldl (fun n c => 10 * n + (c.toNat - 48)) 0 : ℕ))
    else none
  ne_nil h := by
    split_ifs at h with hdigits
    exact hdigits.1
  isNumeral_of_mem h c hc := by
    split_ifs at h with hdigits
    simp [isNumeral, Char.isAlphanum, List.all_eq_true.mp hdigits.2 c hc]

/-- One blank. -/
def oneBlank : Blanks := ⟨[' '], List.all_eq_true.mp rfl⟩

/-- No blank. -/
def noBlanks : Blanks := ⟨[], List.all_eq_true.mp rfl⟩

/-- A sample of `m`. -/
def sampleOfM (labels : Option (Blanks × LabelSet)) (token : List Char) (value : F64)
    (h : decimals.parse token = some value) (timestamp : Option Timestamp) : Sample decimals where
  indent := noBlanks
  name := ⟨['m'], by decide⟩
  labels := labels
  beforeValue := oneBlank
  separated := fun _ => List.cons_ne_nil _ _
  token := token
  value := value
  parse_token := h
  timestamp := timestamp
  trailing := noBlanks

/-- A label whose value is a brace and a blank. -/
def braceLabel : Label :=
  ⟨noBlanks, ⟨['a'], by decide⟩, noBlanks, noBlanks,
    [.plain '\x7d' (by decide), .plain ' ' (by decide)], noBlanks⟩

/-- A comment and two series of `m`. -/
def twoSeries : List (ExpositionLine decimals) :=
  [.comment noBlanks ⟨" a gauge".toList, by decide⟩,
    .sample (sampleOfM none ['2'] (.finite 2) rfl none),
    .sample (sampleOfM (some (noBlanks, ⟨[braceLabel], false, nofun, noBlanks⟩)) ['4'] (.finite 4)
      rfl none)]

example : expositionText twoSeries = "# a gauge\nm 2\nm\x7ba=\"\x7d \"\x7d 4".toList := by decide

/-- Their mean is returned. -/
theorem findMetric_mean_iff_two_series :
    findMetric .exact decimals (expositionText twoSeries) ['m'] = some (.finite 3) := by
  have hsamples : ∀ sample ∈ samplesOf ['m'] twoSeries, sample.Plain := by
    intro sample hsample
    rcases List.mem_cons.mp hsample with rfl | hsample
    · exact ⟨rfl, List.cons_ne_nil _ _⟩
    · rw [List.mem_singleton.mp hsample]
      exact ⟨rfl, List.cons_ne_nil _ _⟩
  exact ((findMetric_mean_iff .exact decimals twoSeries ['m']).2 hsamples).trans
    (by decide +kernel)

/-- A sample of `m` with a timestamp. -/
def stampedSample : Sample decimals :=
  sampleOfM none ['5'] (.finite 5) rfl
    (some ⟨oneBlank, List.cons_ne_nil _ _, false, ['9', '0'], List.cons_ne_nil _ _,
      List.all_eq_true.mp rfl⟩)

/-- The timestamp is returned in place of the value. -/
theorem findMetric_returns_timestamp :
    expositionText [.sample stampedSample] = "m 5 90".toList ∧
      findMetric .exact decimals (expositionText [.sample stampedSample]) ['m'] =
        some (.finite 90) ∧
      F64.mean .exact ((samplesOf ['m'] [.sample stampedSample]).map (·.value)) =
        some (.finite 5) ∧
      ¬∀ (document : List (ExpositionLine decimals)) (name : List Char),
        findMetric .exact decimals (expositionText document) name =
          F64.mean .exact ((samplesOf name document).map (·.value)) := by
  have hfound : findMetric .exact decimals (expositionText [.sample stampedSample]) ['m'] =
      some (.finite 90) := by decide +kernel
  have hmean : F64.mean .exact ((samplesOf ['m'] [.sample stampedSample]).map (·.value)) =
      some (.finite 5) := by decide +kernel
  refine ⟨by decide, hfound, hmean, fun h => ?_⟩
  have hsame := hfound.symm.trans ((h [.sample stampedSample] ['m']).trans hmean)
  exact absurd hsame (by decide)

/-- A label set right before its value. -/
example : findMetric .exact decimals "m\x7ba=\"\x7d\"\x7d4\nm 4".toList ['m'] = none := by
  decide +kernel

end KvRoute
