import Mathlib.Algebra.Group.Embedding
import Mathlib.Algebra.GroupWithZero.Nat
import Mathlib.Algebra.Order.Group.Nat
import Mathlib.Data.Finset.Card
import Mathlib.Data.Finset.Max
import KvRoute.Lib.Slices

set_option relaxedAutoImplicit false
set_option autoImplicit false

/-!
# Occurrences of a pattern in a text that comes in chunks

Where a pattern occurs in a text, overlaps included, and which of these occurrences survive when
the text is cut into chunks: those that no end of a chunk tears apart.  Looking for the pattern
chunk by chunk finds exactly these.

## Main definitions

* `Occurrences.positions` — where a pattern begins in a text.
* `Occurrences.ends` — where the chunks of a text end.
* `Occurrences.whole` — the positions at which no chunk ends within the pattern.

## Main results

* `Occurrences.sum_card_positions` — what the chunks contain, counted one by one, are the whole
  occurrences of the text.
* `Occurrences.positions_map` — occurrences in a text whose letters are recoded.
* `Occurrences.card_positions_append_cons` — on both sides of a letter that the pattern does not
  have, occurrences are counted separately.
* `Occurrences.card_whole_cut` — a cut within the first occurrence tears this one only.
-/

namespace Occurrences

variable {α : Type*} [DecidableEq α]

/-- The positions at which `w` begins in `l`. -/
def positions (w l : List α) : Finset ℕ :=
  (Finset.range (l.length + 1)).filter fun i => w <+: l.drop i

/-- Where the chunks end, as positions in the whole text. -/
def ends : List (List α) → List ℕ
  | [] => []
  | chunk :: chunks => chunk.length :: (ends chunks).map (chunk.length + ·)

/-- The end `k` of a chunk lies within an occurrence of length `n` at position `i`. -/
def Tears (n i k : ℕ) : Prop := i < k ∧ k < i + n

instance (n i k : ℕ) : Decidable (Tears n i k) := inferInstanceAs (Decidable (_ ∧ _))

/-- The positions at which `w` begins in the whole text and is not torn by the end of a chunk. -/
def whole (w : List α) (chunks : List (List α)) : Finset ℕ :=
  (positions w chunks.flatten).filter fun i => ∀ k ∈ ends chunks, ¬Tears w.length i k

omit [DecidableEq α] in
/-- An occurrence fits into the text. -/
lemma add_length_le_of_prefix_drop {w l : List α} {i : ℕ} (hw : w ≠ []) (h : w <+: l.drop i) :
    i + w.length ≤ l.length := by
  have hpos : 0 < w.length := List.length_pos_iff.mpr hw
  have hle := h.length_le
  rw [List.length_drop] at hle
  omega

lemma mem_positions {w l : List α} {i : ℕ} (hw : w ≠ []) :
    i ∈ positions w l ↔ w <+: l.drop i := by
  rw [positions, Finset.mem_filter, Finset.mem_range]
  constructor
  · exact fun h => h.2
  · intro h
    have hle := add_length_le_of_prefix_drop hw h
    exact ⟨by omega, h⟩

lemma mem_whole {w : List α} {chunks : List (List α)} {i : ℕ} (hw : w ≠ []) :
    i ∈ whole w chunks ↔
      w <+: chunks.flatten.drop i ∧ ∀ k ∈ ends chunks, ¬Tears w.length i k := by
  rw [whole, Finset.mem_filter, mem_positions hw]

/-- The windows that equal a pattern are its occurrences. -/
theorem length_filter_windows {w : List α} (hw : w ≠ []) (l : List α) :
    ((Slices.windows w.length l).filter fun window => window == w).length =
      (positions w l).card := by
  have hpositions : positions w l =
      ((List.range (l.length + 1 - w.length)).filter fun i =>
        (l.drop i).take w.length == w).toFinset := by
    ext i
    rw [mem_positions hw, List.mem_toFinset, List.mem_filter, List.mem_range, beq_iff_eq]
    constructor
    · intro h
      have hle := add_length_le_of_prefix_drop hw h
      exact ⟨by omega, (List.prefix_iff_eq_take.mp h).symm⟩
    · rintro ⟨-, h⟩
      rw [← h]
      exact List.take_prefix _ _
  rw [hpositions, List.toFinset_card_of_nodup (List.nodup_range.filter _), Slices.windows,
    List.filter_map, List.length_map]
  rfl

/-- Some position is an occurrence exactly if the pattern is somewhere in the text. -/
theorem positions_nonempty_iff {w : List α} (hw : w ≠ []) (l : List α) :
    (positions w l).Nonempty ↔ w <:+: l := by
  constructor
  · rintro ⟨i, hi⟩
    exact ((mem_positions hw).mp hi).isInfix.trans (List.drop_suffix i l).isInfix
  · rintro ⟨pre, post, rfl⟩
    refine ⟨pre.length, (mem_positions hw).mpr ?_⟩
    simp

/-- A map that tells the letters of a pattern from others keeps its occurrences. -/
theorem positions_map {β : Type*} [DecidableEq β] {f : α → β} {w l : List α} (hw : w ≠ [])
    (hf : ∀ a ∈ w, ∀ b ∈ l, f a = f b → a = b) : positions (w.map f) (l.map f) = positions w l := by
  have hprefix : ∀ {v m : List α}, (∀ a ∈ v, ∀ b ∈ m, f a = f b → a = b) →
      v.map f <+: m.map f → v <+: m := by
    intro v m hvm h
    obtain ⟨front, hfront, hmap⟩ := List.prefix_map_iff.mp h
    suffices v = front by
      rw [this]
      exact hfront
    apply List.ext_getElem (by simpa using congrArg List.length hmap)
    intro i hi hi'
    apply hvm _ (List.getElem_mem hi) _ (hfront.subset (List.getElem_mem hi'))
    simpa [hi, hi'] using congrArg (·[i]?) hmap
  ext i
  rw [mem_positions hw, mem_positions (by simpa using hw), ← List.map_drop]
  constructor
  · exact hprefix fun a ha b hb => hf a ha b (List.mem_of_mem_drop hb)
  · exact fun h => h.map f

/-! ## Chunk by chunk -/

/-- What is whole in a text is in its first chunk, or whole in the rest. -/
theorem whole_cons {w : List α} (hw : w ≠ []) (chunk : List α) (chunks : List (List α)) :
    whole w (chunk :: chunks) =
      positions w chunk ∪ (whole w chunks).map (addLeftEmbedding chunk.length) := by
  have hpos : 0 < w.length := List.length_pos_iff.mpr hw
  ext i
  simp only [mem_whole hw, Finset.mem_union, Finset.mem_map, mem_positions hw, ends,
    List.forall_mem_cons, List.forall_mem_map, List.flatten_cons, addLeftEmbedding_apply, Tears]
  rcases Nat.lt_or_ge i chunk.length with hlt | hge
  · rw [List.drop_append_of_le_length hlt.le]
    constructor
    · rintro ⟨hstart, hend, -⟩
      -- the occurrence begins in the chunk and is not torn by its end
      refine Or.inl (List.prefix_of_prefix_length_le hstart (List.prefix_append _ _) ?_)
      rw [List.length_drop]
      omega
    · rintro (hstart | ⟨j, -, hj⟩)
      · have hle := add_length_le_of_prefix_drop hw hstart
        exact ⟨hstart.trans (List.prefix_append _ _), by omega, fun k _ => by omega⟩
      · omega
  · obtain ⟨j, rfl⟩ := Nat.exists_eq_add_of_le hge
    rw [List.drop_append, List.drop_eq_nil_of_le (by omega), List.nil_append,
      Nat.add_sub_cancel_left]
    constructor
    · rintro ⟨hstart, -, hends⟩
      exact Or.inr ⟨j, ⟨hstart, fun k hk => by have := hends k hk; omega⟩, rfl⟩
    · rintro (hstart | ⟨j', ⟨hstart, hends⟩, hj⟩)
      · exact absurd (List.prefix_nil.mp hstart) hw
      · obtain rfl : j' = j := by omega
        exact ⟨hstart, by omega, fun k hk => by have := hends k hk; omega⟩

/-- **Chunk by chunk.**  The occurrences of a pattern in the chunks of a text, taken together, are
as many as those of the whole text that no end of a chunk tears.

**Proof sketch.** Induction on the chunks: an occurrence that is not torn lies in the first chunk
or behind it (`whole_cons`), and no occurrence does both. -/
theorem sum_card_positions {w : List α} (hw : w ≠ []) (chunks : List (List α)) :
    (chunks.map fun chunk => (positions w chunk).card).sum = (whole w chunks).card := by
  induction chunks with
  | nil =>
    have hnil : ¬w <+: [] := fun h => hw (List.prefix_nil.mp h)
    simp [whole, positions, hnil, ends]
  | cons chunk chunks ih =>
    have hdisjoint : Disjoint (positions w chunk)
        ((whole w chunks).map (addLeftEmbedding chunk.length)) := by
      refine Finset.disjoint_left.mpr fun i hi hi' => ?_
      obtain ⟨j, -, rfl⟩ := Finset.mem_map.mp hi'
      have hle := add_length_le_of_prefix_drop hw ((mem_positions hw).mp hi)
      have hpos : 0 < w.length := List.length_pos_iff.mpr hw
      rw [addLeftEmbedding_apply] at hle
      omega
    rw [List.map_cons, List.sum_cons, ih, whole_cons hw, Finset.card_union_of_disjoint hdisjoint,
      Finset.card_map]

/-- Some chunk contains the pattern exactly if some occurrence in the text is whole. -/
theorem exists_infix_iff {w : List α} (hw : w ≠ []) (chunks : List (List α)) :
    (∃ chunk ∈ chunks, w <:+: chunk) ↔ (whole w chunks).Nonempty := by
  rw [← Finset.card_pos, ← sum_card_positions hw, List.sum_pos_iff_exists_pos_nat]
  simp only [List.mem_map, exists_exists_and_eq_and, Finset.card_pos, positions_nonempty_iff hw]

/-! ## Separators -/

omit [DecidableEq α] in
/-- A letter that the pattern does not have is not covered by an occurrence. -/
lemma not_covered {w text : List α} {x : α} (hx : x ∉ w) {i k : ℕ} (hk : text[k]? = some x)
    (h : w <+: text.drop i) (hi : i ≤ k) : i + w.length ≤ k := by
  by_contra hlt
  obtain ⟨rest, hrest⟩ := h
  have hletter : (w ++ rest)[k - i]? = some x := by
    rw [hrest, List.getElem?_drop, Nat.add_sub_cancel' hi]
    exact hk
  rw [List.getElem?_append_left (by omega)] at hletter
  exact hx (List.mem_of_getElem? hletter)

/-- **Separated texts.**  On both sides of a letter that the pattern does not have, occurrences are
counted separately. -/
theorem card_positions_append_cons {w : List α} (hw : w ≠ []) {x : α} (hx : x ∉ w) (l r : List α) :
    (positions w (l ++ x :: r)).card = (positions w l).card + (positions w r).card := by
  have hletter : (l ++ x :: r)[l.length]? = some x := by simp
  have hflat : [l, [x], r].flatten = l ++ x :: r := by simp
  have hwhole : whole w [l, [x], r] = positions w (l ++ x :: r) := by
    rw [whole, hflat, Finset.filter_eq_self]
    intro i hi k hk htears
    have hstart := (mem_positions hw).mp hi
    have hfits := add_length_le_of_prefix_drop hw hstart
    rw [List.length_append, List.length_cons] at hfits
    simp only [ends, List.map_cons, List.map_nil, List.length_cons, List.length_nil, List.mem_cons,
      List.not_mem_nil, or_false] at hk
    unfold Tears at htears
    rcases Nat.lt_or_ge l.length i with hlt | hle
    · omega
    · have hcovered := not_covered hx hletter hstart hle
      omega
  have hnone : positions w [x] = ∅ := by
    rw [← Finset.not_nonempty_iff_eq_empty, positions_nonempty_iff hw]
    intro hcontained
    obtain ⟨y, hy⟩ := List.exists_mem_of_ne_nil w hw
    obtain rfl := List.mem_singleton.mp (hcontained.subset hy)
    exact hx hy
  have hsum := sum_card_positions hw [l, [x], r]
  rw [hwhole] at hsum
  simp only [List.map_cons, List.map_nil, List.sum_cons, List.sum_nil, hnone, Finset.card_empty]
    at hsum
  omega

/-! ## Cutting a text -/

/-- A text in one chunk tears nothing. -/
theorem whole_singleton (w l : List α) : whole w [l] = positions w l := by
  rw [whole, List.flatten_singleton, Finset.filter_eq_self]
  intro i hi k hk htears
  obtain rfl : k = l.length := by simpa [ends] using hk
  have hstart := (Finset.mem_filter.mp hi).2.length_le
  rw [List.length_drop] at hstart
  exact absurd htears.2 (by have := htears.1; omega)

/-- A cut right behind the first letter of the first occurrence tears this occurrence, and no
other. -/
theorem card_whole_cut {w l : List α} (hw : 1 < w.length) (h : (positions w l).Nonempty) :
    (whole w [l.take ((positions w l).min' h + 1), l.drop ((positions w l).min' h + 1)]).card + 1 =
      (positions w l).card := by
  have hne : w ≠ [] := by
    rintro rfl
    simp at hw
  set i := (positions w l).min' h with hi
  have hmem : i ∈ positions w l := Finset.min'_mem _ h
  have hle := add_length_le_of_prefix_drop hne ((mem_positions hne).mp hmem)
  have hwhole : whole w [l.take (i + 1), l.drop (i + 1)] = (positions w l).erase i := by
    ext j
    have hlen : (l.take (i + 1)).length = i + 1 := by
      rw [List.length_take]
      omega
    simp only [mem_whole hne, Finset.mem_erase, mem_positions hne, ends, List.forall_mem_cons,
      hlen, List.map_cons, List.map_nil, List.not_mem_nil, false_imp_iff, forall_const, and_true,
      List.flatten_cons, List.flatten_nil, List.append_nil, List.take_append_drop, Tears,
      List.length_drop]
    constructor
    · rintro ⟨hj, hend, -⟩
      refine ⟨?_, hj⟩
      rintro rfl
      omega
    · rintro ⟨hji, hj⟩
      have hij : i ≤ j := Finset.min'_le _ _ ((mem_positions hne).mpr hj)
      have hjle := add_length_le_of_prefix_drop hne hj
      exact ⟨hj, by omega, by omega⟩
  rw [hwhole, Finset.card_erase_add_one hmem]

end Occurrences
