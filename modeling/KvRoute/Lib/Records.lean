import Mathlib.Data.List.Infix

set_option relaxedAutoImplicit false
set_option autoImplicit false

/-!
# Records that start with a separator and a header

A text that consists of records, each of them a separator, a header and a body.  If no header
contains the separator, none is the beginning of another, and no body looks as if another record
began in it, the text can be read in one way only.

## Main definitions

* `Records.text` — the text of some records.
* `Records.Plain` — no record seems to begin in a body.

## Main results

* `Records.text_injective` — plain records are determined by their text.
-/

namespace Records

variable {α ρ : Type*} {sep : α} {header : ρ → List α} {R : Set ρ}

/-- The text of some records. -/
def text (sep : α) (header : ρ → List α) (records : List (ρ × List α)) : List α :=
  records.flatMap fun r => sep :: header r.1 ++ r.2

/-- The headers of the kinds in `R` do not contain the separator, and none of them is the beginning
of another. -/
structure Headers (sep : α) (header : ρ → List α) (R : Set ρ) : Prop where
  /-- No header contains the separator. -/
  sep_notMem : ∀ r ∈ R, sep ∉ header r
  /-- No header is the beginning of another. -/
  eq_of_prefix : ∀ r ∈ R, ∀ r' ∈ R, header r <+: header r' → r = r'

/-- No record of a kind in `R` seems to begin in the body. -/
def Plain (sep : α) (header : ρ → List α) (R : Set ρ) (body : List α) : Prop :=
  ∀ r ∈ R, ¬(sep :: header r) <:+: body

/-- Headers at the same place are equal. -/
lemma Headers.eq_of_append (h : Headers sep header R) {r r' : ρ} (hr : r ∈ R) (hr' : r' ∈ R)
    {l l' : List α} (heq : header r ++ l = header r' ++ l') : r = r' := by
  have hprefix : header r <+: header r' ++ l' := heq ▸ List.prefix_append _ _
  rcases List.prefix_or_prefix_of_prefix hprefix (List.prefix_append _ _) with hle | hge
  · exact h.eq_of_prefix r hr r' hr' hle
  · exact (h.eq_of_prefix r' hr' r hr hge).symm

/-- Part of a plain body is plain. -/
lemma Plain.of_suffix {body d : List α} (h : Plain sep header R body) (hd : d <:+ body) :
    Plain sep header R d := fun r hr hin => h r hr (hin.trans hd.isInfix)

/-- A text is empty, or it begins with a separator. -/
lemma text_eq_nil_or (records : List (ρ × List α)) :
    text sep header records = [] ∨ ∃ l, text sep header records = sep :: l := by
  cases records with
  | nil => exact Or.inl rfl
  | cons r records => exact Or.inr ⟨_, rfl⟩

@[simp] lemma text_append (records records' : List (ρ × List α)) :
    text sep header (records ++ records') =
      text sep header records ++ text sep header records' := List.flatMap_append

/-- A body in which a record seems to begin can be read as two records. -/
lemma text_split (kind r : ρ) (body rest : List α) (records : List (ρ × List α)) :
    text sep header ((kind, body ++ (sep :: header r ++ rest)) :: records) =
      text sep header ((kind, body) :: (r, rest) :: records) := by
  simp [text]

/-- Where a record begins, no other body can be going on: the rest of the body would show the whole
header, or end within it, and then the next record would begin with a separator there.

**Proof sketch.** Of the header and what is left of the body after the separator, one is a beginning
of the other. -/
lemma eq_nil_of_header_eq (h : Headers sep header R) {r : ρ} (hr : r ∈ R) {d rest : List α}
    (hd : Plain sep header R d) {records : List (ρ × List α)}
    (heq : sep :: header r ++ rest = d ++ text sep header records) : d = [] := by
  cases d with
  | nil => rfl
  | cons a d =>
    rw [List.cons_append, List.cons_append, List.cons.injEq] at heq
    obtain ⟨rfl, htail⟩ := heq
    have hnot : ¬header r <+: d := fun hle =>
      hd r hr (List.IsPrefix.isInfix (List.cons_prefix_cons.mpr ⟨rfl, hle⟩))
    have hprefix : d <+: header r ++ rest := ⟨_, htail.symm⟩
    obtain ⟨e, he⟩ : d <+: header r :=
      (List.prefix_or_prefix_of_prefix (List.prefix_append _ _) hprefix).resolve_left hnot
    rw [← he, List.append_assoc, List.append_cancel_left_eq] at htail
    cases e with
    | nil => exact absurd (by rw [← he, List.append_nil]) hnot
    | cons x e =>
      rcases @text_eq_nil_or _ _ sep header records with hnil | ⟨l, hl⟩
      · rw [hnil] at htail
        cases htail
      · rw [hl] at htail
        obtain rfl := (List.cons.inj htail).1
        exact absurd (he ▸ List.mem_append_right d List.mem_cons_self) (h.sep_notMem r hr)

/-- Two bodies at the same place, the first of which is not longer, are equal. -/
lemma body_eq (h : Headers sep header R) {records records' : List (ρ × List α)}
    (hkinds : ∀ r ∈ records, r.1 ∈ R) {body d : List α} (hplain : Plain sep header R (body ++ d))
    (heq : text sep header records = d ++ text sep header records') : d = [] := by
  cases records with
  | nil => exact (List.append_eq_nil_iff.mp heq.symm).1
  | cons r records =>
    have hrest : sep :: header r.1 ++ (r.2 ++ text sep header records) =
        d ++ text sep header records' := by
      rw [← heq, ← List.append_assoc]
      rfl
    exact eq_nil_of_header_eq h (hkinds r List.mem_cons_self)
      (hplain.of_suffix (List.suffix_append _ _)) hrest

/-- **Plain records are determined by their text.**

**Proof sketch.** Induction on the records.  The first headers stand at the same place, so they are
of the same kind (`Headers.eq_of_append`), and then so do the first bodies; neither goes on where
the other one has ended (`body_eq`). -/
theorem text_injective (h : Headers sep header R) {records records' : List (ρ × List α)}
    (hrecords : ∀ r ∈ records, r.1 ∈ R ∧ Plain sep header R r.2)
    (hrecords' : ∀ r ∈ records', r.1 ∈ R ∧ Plain sep header R r.2)
    (heq : text sep header records = text sep header records') : records = records' := by
  induction records generalizing records' with
  | nil =>
    cases records' with
    | nil => rfl
    | cons r' records' => cases heq
  | cons r records ih =>
    cases records' with
    | nil => cases heq
    | cons r' records' =>
      obtain ⟨⟨hr, hbody⟩, hrest⟩ := List.forall_mem_cons.mp hrecords
      obtain ⟨⟨hr', hbody'⟩, hrest'⟩ := List.forall_mem_cons.mp hrecords'
      obtain ⟨kind, body⟩ := r
      obtain ⟨kind', body'⟩ := r'
      simp only [text, List.flatMap_cons, List.cons_append, List.cons.injEq, true_and,
        List.append_assoc] at heq
      obtain rfl := h.eq_of_append hr hr' heq
      rw [List.append_cancel_left_eq] at heq
      -- the two bodies agree as far as the shorter one goes
      have hcases : body = body' ∧ text sep header records = text sep header records' := by
        rcases List.append_eq_append_iff.mp heq with ⟨d, rfl, htext⟩ | ⟨d, rfl, htext⟩
        · obtain rfl := body_eq h (fun r hr => (hrest r hr).1) hbody' htext
          exact ⟨(List.append_nil _).symm, htext⟩
        · obtain rfl := body_eq h (fun r hr => (hrest' r hr).1) hbody htext
          exact ⟨List.append_nil _, htext.symm⟩
      rw [hcases.1, ih hrest hrest' hcases.2]

end Records
