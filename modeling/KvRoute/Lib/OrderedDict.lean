import Mathlib.Data.List.Dedup
import Mathlib.Data.List.DropRight
import Mathlib.Data.List.Perm.Subperm
import Mathlib.Data.Set.Function

set_option relaxedAutoImplicit false
set_option autoImplicit false

/-!
# Ordered dictionaries, and what was used last

The keys of Python's `collections.OrderedDict`, in the order in which they were inserted.  A key
that is taken out and put back becomes the newest one, so a dictionary whose keys are taken out and
put back at every use has them in the order of their last uses.  A bounded one, from which the
oldest keys are dropped now and then, holds the most recently used keys, whenever they are dropped.

## Main definitions

* `OrderedDict` — the keys, with `pop`, `setItem` and the loop `evict` around `popitem`.
* `OrderedDict.mostRecent` — the elements of a list that were used last.

## Main results

* `OrderedDict.keys_foldl_touch` — after a sequence of uses, the keys are in the order of their
  last uses.
* `OrderedDict.evict_eq_some` — what is left after eviction.
* `OrderedDict.mostRecent_append` — dropping old elements early loses nothing.
-/

/-- The keys of an ordered dictionary, the oldest first. -/
structure OrderedDict (α : Type) where
  /-- The keys. -/
  keys : List α
  /-- No key is there twice. -/
  nodup : keys.Nodup

namespace OrderedDict

variable {α : Type}

/-- No keys. -/
def empty : OrderedDict α := ⟨[], List.nodup_nil⟩

section Eviction

/-- `while len(d) > capacity: d.popitem(last=False)` on a dictionary with the given keys; `none` is
the `KeyError` of `popitem` on an empty dictionary. -/
def evictFrom (capacity : ℤ) : (keys : List α) → keys.Nodup → Option (OrderedDict α)
  | [], h => if capacity < 0 then none else some ⟨[], h⟩
  | key :: rest, h =>
    if capacity < (key :: rest).length then evictFrom capacity rest h.of_cons
    else some ⟨key :: rest, h⟩

/-- Drop the oldest keys as long as there are more than the capacity. -/
def evict (capacity : ℤ) (d : OrderedDict α) : Option (OrderedDict α) :=
  evictFrom capacity d.keys d.nodup

/-- With a negative capacity, the loop ends in an error. -/
theorem evict_eq_none {capacity : ℤ} (h : capacity < 0) (d : OrderedDict α) :
    d.evict capacity = none := by
  have hkeys : ∀ (keys : List α) (hnodup : keys.Nodup), evictFrom capacity keys hnodup = none := by
    intro keys hnodup
    induction keys with
    | nil => exact if_pos h
    | cons key rest ih =>
      have hlt : capacity < ((key :: rest).length : ℤ) := by omega
      rw [evictFrom, if_pos hlt]
      exact ih hnodup.of_cons
  exact hkeys d.keys d.nodup

/-- The newest keys are left, as many as the capacity allows. -/
theorem evict_eq_some {capacity : ℤ} (h : 0 ≤ capacity) (d : OrderedDict α) :
    ∃ d' : OrderedDict α, d.evict capacity = some d' ∧ d'.keys = d.keys.rtake capacity.toNat := by
  have hleft : ∀ (keys : List α) (hnodup : keys.Nodup), ∃ d' : OrderedDict α,
      evictFrom capacity keys hnodup = some d' ∧ d'.keys = keys.rtake capacity.toNat := by
    intro keys hnodup
    induction keys with
    | nil =>
      have hnot : ¬capacity < 0 := by omega
      exact ⟨⟨[], hnodup⟩, if_neg hnot, (List.rtake_nil _).symm⟩
    | cons key rest ih =>
      rw [evictFrom]
      split_ifs with hlt
      · obtain ⟨d', hd', hkeys⟩ := ih hnodup.of_cons
        refine ⟨d', hd', hkeys.trans ?_⟩
        have hsub : (key :: rest).length - capacity.toNat = rest.length - capacity.toNat + 1 := by
          rw [List.length_cons] at hlt ⊢
          omega
        rw [List.rtake, List.rtake, hsub, List.drop_succ_cons]
      · refine ⟨_, rfl, ?_⟩
        rw [List.rtake, Nat.sub_eq_zero_of_le (by omega), List.drop_zero]
  exact hleft d.keys d.nodup

end Eviction

/-! ## Uses -/

variable [DecidableEq α]

/-- `d.pop(key, None)`. -/
def pop (d : OrderedDict α) (key : α) : OrderedDict α := ⟨d.keys.erase key, d.nodup.erase key⟩

/-- `d[key] = True`: a new key becomes the newest one, and another one keeps its place. -/
def setItem (d : OrderedDict α) (key : α) : OrderedDict α :=
  if h : key ∈ d.keys then d
  else ⟨d.keys ++ [key], List.concat_eq_append ▸ d.nodup.concat h⟩

/-- Take a key out and put it back. -/
def touch (d : OrderedDict α) (key : α) : OrderedDict α := (d.pop key).setItem key

theorem keys_touch (d : OrderedDict α) (key : α) :
    (d.touch key).keys = d.keys.erase key ++ [key] := by
  have hnot : key ∉ (d.pop key).keys := d.nodup.not_mem_erase
  rw [touch, setItem, dif_neg hnot]
  rfl

/-- The uses before a use matter for the order of the other elements only. -/
lemma dedup_concat (uses : List α) (key : α) :
    (uses ++ [key]).dedup = uses.dedup.erase key ++ [key] := by
  induction uses with
  | nil => simp
  | cons a uses ih =>
    rw [List.cons_append]
    by_cases ha : a ∈ uses
    · rw [List.dedup_cons_of_mem (List.mem_append_left _ ha), ih, List.dedup_cons_of_mem ha]
    · rw [List.dedup_cons_of_notMem ha]
      by_cases hkey : a = key
      · subst hkey
        have hnot : a ∉ uses.dedup := fun h => ha (List.mem_dedup.mp h)
        rw [List.dedup_cons_of_mem (List.mem_append_right _ (List.mem_singleton_self a)), ih,
          List.erase_cons_head, List.erase_of_not_mem hnot]
      · have hnot : a ∉ uses ++ [key] := by simp [ha, hkey]
        rw [List.dedup_cons_of_notMem hnot, ih, List.erase_cons_tail (by simpa using hkey)]
        rfl

/-- **The order of last uses.**  After a sequence of uses, the keys are in the order in which they
were used last. -/
theorem keys_foldl_touch (d : OrderedDict α) (uses : List α) :
    (uses.foldl touch d).keys = (d.keys ++ uses).dedup := by
  induction uses using List.reverseRecOn with
  | nil => rw [List.append_nil, d.nodup.dedup]; rfl
  | append_singleton uses key ih =>
    rw [List.foldl_append, List.foldl_cons, List.foldl_nil, keys_touch, ih, ← List.append_assoc,
      dedup_concat]

/-! ## What was used last -/

/-- The last `n` elements of a list in the order of their last occurrences. -/
def mostRecent (n : ℕ) (uses : List α) : List α := uses.dedup.rtake n

@[simp] theorem mostRecent_nil (n : ℕ) : mostRecent n ([] : List α) = [] := List.rtake_nil n

theorem length_mostRecent_le (n : ℕ) (uses : List α) : (mostRecent n uses).length ≤ n := by
  rw [mostRecent, List.rtake, List.length_drop]
  omega

theorem nodup_mostRecent (n : ℕ) (uses : List α) : (mostRecent n uses).Nodup :=
  uses.nodup_dedup.sublist (List.drop_sublist _ _)

theorem mem_of_mem_mostRecent {n : ℕ} {uses : List α} {a : α} (h : a ∈ mostRecent n uses) :
    a ∈ uses :=
  List.mem_dedup.mp (List.mem_of_mem_drop h)

/-- If there is room, everything used is among it. -/
theorem mostRecent_eq_dedup {n : ℕ} {uses : List α} (h : uses.dedup.length ≤ n) :
    mostRecent n uses = uses.dedup := by
  rw [mostRecent, List.rtake, Nat.sub_eq_zero_of_le h, List.drop_zero]

omit [DecidableEq α] in
lemma rtake_of_suffix {l l' : List α} (h : l <:+ l') {n : ℕ} (hn : n ≤ l.length) :
    l'.rtake n = l.rtake n := by
  obtain ⟨before, rfl⟩ := h
  have hsub : (before ++ l).length - n = before.length + (l.length - n) := by
    rw [List.length_append]
    omega
  rw [List.rtake, List.rtake, hsub, List.drop_append, List.drop_of_length_le (by omega),
    Nat.add_sub_cancel_left, List.nil_append]

/-- What follows the first uses keeps its order. -/
lemma dedup_suffix (first uses : List α) : uses.dedup <:+ (first ++ uses).dedup := by
  rw [List.dedup_append]
  exact List.suffix_union_right _ _

lemma dedup_dedup_append (uses more : List α) :
    (uses.dedup ++ more).dedup = (uses ++ more).dedup := by
  induction uses with
  | nil => rfl
  | cons a uses ih =>
    by_cases ha : a ∈ uses
    · rw [List.dedup_cons_of_mem ha, ih, List.cons_append,
        List.dedup_cons_of_mem (List.mem_append_left _ ha)]
    · rw [List.dedup_cons_of_notMem ha, List.cons_append, List.cons_append]
      by_cases hmore : a ∈ more
      · rw [List.dedup_cons_of_mem (List.mem_append_right _ hmore), ih,
          List.dedup_cons_of_mem (List.mem_append_right _ hmore)]
      · have hnot : a ∉ uses ++ more := by simp [ha, hmore]
        have hnot' : a ∉ uses.dedup ++ more := by simp [ha, hmore]
        rw [List.dedup_cons_of_notMem hnot', ih, List.dedup_cons_of_notMem hnot]

/-- A renaming that keeps the elements apart. -/
lemma dedup_map_of_injOn {β : Type} [DecidableEq β] {f : α → β} {uses : List α}
    (h : Set.InjOn f {a | a ∈ uses}) : (uses.map f).dedup = uses.dedup.map f := by
  induction uses with
  | nil => rfl
  | cons a uses ih =>
    have hrest := ih (h.mono fun b hb => List.mem_cons_of_mem _ hb)
    rw [List.map_cons]
    by_cases ha : a ∈ uses
    · rw [List.dedup_cons_of_mem (List.mem_map_of_mem ha), hrest, List.dedup_cons_of_mem ha]
    · have hnot : f a ∉ uses.map f := by
        intro hmem
        obtain ⟨b, hb, heq⟩ := List.mem_map.mp hmem
        rw [h (List.mem_cons_of_mem _ hb) List.mem_cons_self heq] at hb
        exact ha hb
      rw [List.dedup_cons_of_notMem hnot, hrest, List.dedup_cons_of_notMem ha, List.map_cons]

theorem mostRecent_map {β : Type} [DecidableEq β] {f : α → β} {uses : List α}
    (h : Set.InjOn f {a | a ∈ uses}) (n : ℕ) :
    mostRecent n (uses.map f) = (mostRecent n uses).map f := by
  rw [mostRecent, dedup_map_of_injOn h, mostRecent, List.rtake, List.rtake, List.length_map,
    List.map_drop]

/-- **Dropping early.**  What is most recent after more uses does not depend on elements that were
not among the most recent ones before. -/
theorem mostRecent_append (n : ℕ) (uses more : List α) :
    mostRecent n (mostRecent n uses ++ more) = mostRecent n (uses ++ more) := by
  have hright : mostRecent n (uses ++ more) = (uses.dedup ++ more).dedup.rtake n := by
    rw [dedup_dedup_append, mostRecent]
  rw [hright, mostRecent]
  by_cases hroom : uses.dedup.length ≤ n
  · rw [mostRecent_eq_dedup hroom]
  · have hsplit : uses.dedup = uses.dedup.take (uses.dedup.length - n) ++ mostRecent n uses :=
      (List.take_append_drop _ _).symm
    have hlength : (mostRecent n uses).length = n := by
      rw [mostRecent, List.rtake, List.length_drop]
      omega
    -- there are already `n` elements in what comes after the old ones
    have henough : n ≤ (mostRecent n uses ++ more).dedup.length := by
      have hsub : mostRecent n uses ⊆ (mostRecent n uses ++ more).dedup :=
        fun a ha => List.mem_dedup.mpr (List.mem_append_left _ ha)
      have hle := (List.subperm_of_subset (nodup_mostRecent n uses) hsub).length_le
      rwa [hlength] at hle
    conv_rhs => rw [hsplit, List.append_assoc]
    exact (rtake_of_suffix (dedup_suffix _ _) henough).symm

end OrderedDict
