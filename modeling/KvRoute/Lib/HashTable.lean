import Mathlib.Data.List.AList
import Mathlib.Data.Set.Card

set_option relaxedAutoImplicit false
set_option autoImplicit false

/-!
# Hash tables

The part of a mutable hash map's interface that a program sees, over Mathlib's association
lists without repeated keys (`AList`): lookup, insertion, removal, the in-place filter
`retain`, and iteration.  Two tables are compared by their lookups only; the order in which a
table is iterated is never determined by its contents, so every operation that iterates takes
the order as an argument (`IterOrder`).

## Main definitions

* `HashTable κ ν` — a finite map from `κ` to `ν`, with `get`, `insert`, `remove`, `retain`,
  `keys`, `toList` and `len`.
* `IterOrder α` — one way of enumerating a collection: a rearrangement of its elements.

## Main results

* `HashTable.get_insert`, `get_remove`, `get_retain` — lookups after an update.
* `HashTable.get_foldl_insert` — of a series of insertions under one key the last one counts.
* `HashTable.mem_toList`, `mem_keys`, `nodup_keys` — iteration visits every entry once.
* `HashTable.len_eq_ncard`, `len_eq_of_keys_iff` — the size is the number of keys with an entry.
-/

/-- A finite map from `κ` to `ν`: a list of key-value pairs in which no key repeats. -/
structure HashTable (κ ν : Type*) where
  /-- The entries, in the order in which the table happens to hold them. -/
  entries : AList fun _ : κ => ν

namespace HashTable

variable {κ ν : Type*}

/-- The table without entries. -/
def empty : HashTable κ ν := ⟨∅⟩

instance : Inhabited (HashTable κ ν) := ⟨empty⟩

/-- The entries as key-value pairs. -/
def toList (t : HashTable κ ν) : List (κ × ν) := t.entries.entries.map fun e => (e.1, e.2)

/-- The keys, in the order of `toList`. -/
def keys (t : HashTable κ ν) : List κ := t.toList.map Prod.fst

/-- The number of entries. -/
def len (t : HashTable κ ν) : ℕ := t.toList.length

/-- What `retain` does to one entry. -/
private def retainEntry (f : κ → ν → Option ν) (e : Sigma fun _ : κ => ν) :
    Option (Sigma fun _ : κ => ν) := (f e.1 e.2).map fun v => ⟨e.1, v⟩

/-- Filtering entries only drops keys. -/
private theorem retainEntry_keys_sublist (f : κ → ν → Option ν)
    (l : List (Sigma fun _ : κ => ν)) :
    ((l.filterMap (retainEntry f)).keys).Sublist l.keys := by
  induction l with
  | nil => simp
  | cons e l ih =>
    cases h : f e.1 e.2 with
    | none => simpa [List.filterMap_cons, retainEntry, h] using ih.cons _
    | some v => simpa [List.filterMap_cons, retainEntry, h] using ih

/-- Filter the table in place: `f` sees every entry and answers with the value to keep there,
or with `none` to drop the entry. -/
def retain (t : HashTable κ ν) (f : κ → ν → Option ν) : HashTable κ ν :=
  ⟨⟨t.entries.entries.filterMap (retainEntry f), by
    have h := t.entries.nodupKeys
    exact (retainEntry_keys_sublist f _).nodup h⟩⟩

variable [DecidableEq κ]

/-- The value stored at `k`, if any. -/
def get (t : HashTable κ ν) (k : κ) : Option ν := t.entries.lookup k

/-- Whether the table has an entry at `k`. -/
def containsKey (t : HashTable κ ν) (k : κ) : Bool := (t.get k).isSome

/-- Store `v` at `k`, over whatever was there. -/
def insert (t : HashTable κ ν) (k : κ) (v : ν) : HashTable κ ν := ⟨t.entries.insert k v⟩

/-- Drop the entry at `k`, if there is one. -/
def remove (t : HashTable κ ν) (k : κ) : HashTable κ ν := ⟨t.entries.erase k⟩

/-! ## Lookups -/

@[simp] theorem get_empty (k : κ) : (empty : HashTable κ ν).get k = none := rfl

/-- A lookup after an insertion. -/
theorem get_insert (t : HashTable κ ν) (k k' : κ) (v : ν) :
    (t.insert k v).get k' = if k' = k then some v else t.get k' := by
  unfold get insert
  split_ifs with h
  · subst h; exact AList.lookup_insert t.entries
  · exact AList.lookup_insert_ne h

@[simp] theorem get_insert_self (t : HashTable κ ν) (k : κ) (v : ν) :
    (t.insert k v).get k = some v := by simp [get_insert]

theorem get_insert_of_ne (t : HashTable κ ν) {k k' : κ} (h : k' ≠ k) (v : ν) :
    (t.insert k v).get k' = t.get k' := by simp [get_insert, h]

/-- A lookup after a series of insertions: the last one under the key counts. -/
theorem get_foldl_insert {α : Type*} (key : α → κ) (value : α → ν) (l : List α)
    (t : HashTable κ ν) (k : κ) :
    (l.foldl (fun t a => t.insert (key a) (value a)) t).get k =
      ((l.filter fun a => key a = k).getLast?.map value).or (t.get k) := by
  induction l using List.reverseRecOn with
  | nil => rfl
  | append_singleton l a ih =>
    rw [List.foldl_concat, get_insert, ih, List.filter_append]
    by_cases h : key a = k
    · rw [if_pos h.symm, List.filter_cons_of_pos (by simpa using h), List.filter_nil,
        List.getLast?_concat, Option.map_some, Option.some_or]
    · rw [if_neg (Ne.symm h), List.filter_cons_of_neg (by simpa using h), List.filter_nil,
        List.append_nil]

/-- A lookup after a removal. -/
theorem get_remove (t : HashTable κ ν) (k k' : κ) :
    (t.remove k).get k' = if k' = k then none else t.get k' := by
  unfold get remove
  split_ifs with h
  · subst h; exact AList.lookup_erase k' t.entries
  · exact AList.lookup_erase_ne h

theorem containsKey_iff (t : HashTable κ ν) (k : κ) :
    t.containsKey k = true ↔ ∃ v, t.get k = some v := by
  rw [containsKey, Option.isSome_iff_exists]

/-! ## Iteration -/

/-- Iteration visits exactly the entries that lookups find. -/
theorem mem_toList (t : HashTable κ ν) {k : κ} {v : ν} :
    (k, v) ∈ t.toList ↔ t.get k = some v := by
  unfold toList get
  rw [← Option.mem_def, AList.mem_lookup_iff, List.mem_map]
  constructor
  · rintro ⟨⟨k', v'⟩, hmem, heq⟩
    obtain ⟨rfl, rfl⟩ := Prod.mk.inj heq
    exact hmem
  · exact fun h => ⟨_, h, rfl⟩

omit [DecidableEq κ] in
/-- No key is visited twice. -/
theorem nodup_keys (t : HashTable κ ν) : t.keys.Nodup := by
  have h : t.keys = t.entries.keys := by
    simp [keys, toList, AList.keys, List.keys, Function.comp_def]
  rw [h]
  exact t.entries.keys_nodup

theorem mem_keys (t : HashTable κ ν) {k : κ} : k ∈ t.keys ↔ ∃ v, t.get k = some v := by
  simp [keys, mem_toList]

omit [DecidableEq κ] in
theorem length_keys (t : HashTable κ ν) : t.keys.length = t.len := by simp [keys, len]

/-- A lookup after a filter. -/
theorem get_retain (t : HashTable κ ν) (f : κ → ν → Option ν) (k : κ) :
    (t.retain f).get k = (t.get k).bind (f k) := by
  ext v
  rw [← mem_toList, Option.bind_eq_some_iff]
  simp only [toList, retain, List.mem_map, List.mem_filterMap, retainEntry,
    Option.map_eq_some_iff]
  constructor
  · rintro ⟨e, ⟨e', hmem, w, hw, rfl⟩, heq⟩
    obtain ⟨rfl, rfl⟩ := Prod.mk.inj heq
    exact ⟨e'.2, t.mem_toList.mp (List.mem_map.mpr ⟨e', hmem, rfl⟩), hw⟩
  · rintro ⟨w, hw, hf⟩
    obtain ⟨e', hmem, heq⟩ := List.mem_map.mp (t.mem_toList.mpr hw)
    obtain ⟨rfl, rfl⟩ := Prod.mk.inj heq
    exact ⟨⟨e'.1, v⟩, ⟨e', hmem, v, hf, rfl⟩, rfl⟩

omit [DecidableEq κ] in
/-- A filter does not grow the table. -/
theorem len_retain_le (t : HashTable κ ν) (f : κ → ν → Option ν) : (t.retain f).len ≤ t.len := by
  simp only [len, toList, retain, List.length_map]
  exact List.length_filterMap_le _ _

/-- The size of a table is the number of keys that have an entry. -/
theorem len_eq_ncard (t : HashTable κ ν) : t.len = {k | ∃ v, t.get k = some v}.ncard := by
  have hset : {k | ∃ v, t.get k = some v} = (t.keys.toFinset : Set κ) := by
    ext k; simp [mem_keys]
  rw [hset, Set.ncard_coe_finset, List.toFinset_card_of_nodup t.nodup_keys, length_keys]

/-- Tables with the same keys have the same size. -/
theorem len_eq_of_keys_iff {ν' : Type*} {t : HashTable κ ν} {t' : HashTable κ ν'}
    (h : ∀ k, (∃ v, t.get k = some v) ↔ ∃ v, t'.get k = some v) : t.len = t'.len := by
  rw [len_eq_ncard, len_eq_ncard]
  exact congrArg Set.ncard (Set.ext h)

end HashTable

/-- One way of enumerating a collection that has no order of its own: a function that
rearranges the elements, whatever they are. -/
structure IterOrder (α : Type*) where
  /-- The elements in the order in which they are visited. -/
  arrange : List α → List α
  /-- Every element is visited as often as it occurs. -/
  perm : ∀ l, (arrange l).Perm l

namespace IterOrder

variable {α : Type*}

/-- The order in which the collection happens to be held. -/
def held : IterOrder α := ⟨id, fun _ => List.Perm.refl _⟩

instance : Inhabited (IterOrder α) := ⟨held⟩

variable (o : IterOrder α)

@[simp] theorem mem_arrange {l : List α} {a : α} : a ∈ o.arrange l ↔ a ∈ l :=
  (o.perm l).mem_iff

end IterOrder
