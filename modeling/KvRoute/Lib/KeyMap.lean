import Mathlib.Data.List.Induction
import Mathlib.Order.Lattice

set_option relaxedAutoImplicit false
set_option autoImplicit false

/-!
# Ordered maps

A map as the list of its entries in the order of their keys, which is how a B-tree map iterates
over them.  A map is filled from a list of entries one after the other, so that the last value of a
key counts.

## Main definitions

* `KeyMap.get`, `KeyMap.insert`, `KeyMap.ofEntries` — the operations.
* `KeyMap.mapValues` — a function applied to every value.
* `KeyMap.Ordered` — the invariant: no key occurs twice, and the keys are in order.

## Main results

* `KeyMap.get_insert`, `KeyMap.get_ofEntries_append` — lookups after the operations.
* `KeyMap.ofEntries_mapValues`, `KeyMap.Ordered.ofEntries_eq` — filling a map from images of
  entries, and from a map.
* `KeyMap.Ordered.ext` — a map is determined by its lookups.
-/

namespace KeyMap

variable {κ β γ : Type*} [LinearOrder κ]

/-- The value of a key. -/
def get : List (κ × β) → κ → Option β
  | [], _ => none
  | e :: m, key => if e.1 = key then some e.2 else get m key

/-- Enter a value for a key, in the place of the one it has. -/
def insert (key : κ) (value : β) : List (κ × β) → List (κ × β)
  | [] => [(key, value)]
  | e :: m =>
    if key < e.1 then (key, value) :: e :: m
    else if key = e.1 then (key, value) :: m
    else e :: insert key value m

/-- The map that is filled from a list of entries. -/
def ofEntries (entries : List (κ × β)) : List (κ × β) :=
  entries.foldl (fun m e => insert e.1 e.2 m) []

/-- A function applied to every value. -/
def mapValues (f : β → γ) (m : List (κ × β)) : List (κ × γ) := m.map fun e => (e.1, f e.2)

/-- The keys are in order, and none occurs twice. -/
def Ordered (m : List (κ × β)) : Prop := m.Pairwise fun e e' => e.1 < e'.1

/-! ## Lookups -/

/-- An entered value is found, and other keys keep theirs. -/
theorem get_insert (m : List (κ × β)) (key : κ) (value : β) (k : κ) :
    get (insert key value m) k = if k = key then some value else get m k := by
  induction m with
  | nil => simp only [insert, get, eq_comm]
  | cons e m ih =>
    rw [insert]
    by_cases hk : k = key
    · subst hk
      rw [if_pos rfl]
      split_ifs with hlt heq
      · rw [get, if_pos rfl]
      · rw [get, if_pos rfl]
      · rw [get, if_neg (Ne.symm heq), ih, if_pos rfl]
    · rw [if_neg hk]
      split_ifs with hlt heq
      · rw [get, if_neg (Ne.symm hk)]
      · rw [get, get, if_neg (Ne.symm hk), if_neg (heq ▸ Ne.symm hk)]
      · rw [get, ih, if_neg hk, get]

theorem ofEntries_concat (entries : List (κ × β)) (e : κ × β) :
    ofEntries (entries ++ [e]) = insert e.1 e.2 (ofEntries entries) := by
  rw [ofEntries, List.foldl_append]
  rfl

theorem get_foldl_insert (entries m : List (κ × β)) (k : κ) :
    get (entries.foldl (fun m e => insert e.1 e.2 m) m) k =
      (get (ofEntries entries) k).or (get m k) := by
  induction entries using List.reverseRecOn generalizing m with
  | nil => rfl
  | append_singleton entries e ih =>
    rw [ofEntries_concat, List.foldl_append, List.foldl_cons, List.foldl_nil, get_insert,
      get_insert, ih m]
    split_ifs <;> rfl

/-- The values of later entries count. -/
theorem get_ofEntries_append (entries entries' : List (κ × β)) (k : κ) :
    get (ofEntries (entries ++ entries')) k =
      (get (ofEntries entries') k).or (get (ofEntries entries) k) := by
  rw [ofEntries, List.foldl_append, get_foldl_insert]
  rfl

theorem get_ofEntries_concat (entries : List (κ × β)) (e : κ × β) (k : κ) :
    get (ofEntries (entries ++ [e])) k =
      if k = e.1 then some e.2 else get (ofEntries entries) k := by
  rw [ofEntries_concat, get_insert]

theorem insert_mapValues (f : β → γ) (m : List (κ × β)) (key : κ) (value : β) :
    insert key (f value) (mapValues f m) = mapValues f (insert key value m) := by
  induction m with
  | nil => rfl
  | cons e m ih =>
    rw [mapValues, List.map_cons, insert, insert, ← mapValues, ih]
    split_ifs <;> rfl

/-- Filling a map from images of entries. -/
theorem ofEntries_mapValues (f : β → γ) (entries : List (κ × β)) :
    ofEntries (mapValues f entries) = mapValues f (ofEntries entries) := by
  induction entries using List.reverseRecOn with
  | nil => rfl
  | append_singleton entries e ih =>
    rw [ofEntries_concat, ← insert_mapValues, ← ih, mapValues, List.map_append]
    exact ofEntries_concat _ _

/-! ## Order -/

theorem mem_insert {m : List (κ × β)} {key : κ} {value : β} {e : κ × β}
    (h : e ∈ insert key value m) : e = (key, value) ∨ e ∈ m := by
  induction m with
  | nil => exact Or.inl (List.mem_singleton.mp h)
  | cons e' m ih =>
    rw [insert] at h
    split_ifs at h
    · exact List.mem_cons.mp h
    · exact (List.mem_cons.mp h).imp_right (List.mem_cons_of_mem _)
    · rcases List.mem_cons.mp h with heq | hmem
      · exact Or.inr (heq ▸ List.mem_cons_self)
      · exact (ih hmem).imp_right (List.mem_cons_of_mem _)

theorem Ordered.insert {m : List (κ × β)} (h : Ordered m) (key : κ) (value : β) :
    Ordered (insert key value m) := by
  induction m with
  | nil => exact List.pairwise_singleton _ _
  | cons e m ih =>
    obtain ⟨hhead, htail⟩ := List.pairwise_cons.mp h
    rw [KeyMap.insert]
    split_ifs with hlt heq
    · refine List.pairwise_cons.mpr ⟨fun e' he' => ?_, h⟩
      rcases List.mem_cons.mp he' with rfl | he'
      · exact hlt
      · exact hlt.trans (hhead e' he')
    · exact List.pairwise_cons.mpr ⟨fun e' he' => heq ▸ hhead e' he', htail⟩
    · refine List.pairwise_cons.mpr ⟨fun e' he' => ?_, ih htail⟩
      rcases mem_insert he' with rfl | he'
      · exact lt_of_le_of_ne (not_lt.mp hlt) (Ne.symm heq)
      · exact hhead e' he'

theorem ordered_ofEntries (entries : List (κ × β)) : Ordered (ofEntries entries) := by
  induction entries using List.reverseRecOn with
  | nil => exact List.Pairwise.nil
  | append_singleton entries e ih =>
    rw [ofEntries_concat]
    exact ih.insert _ _

/-- A key above all others is entered at the end. -/
theorem insert_eq_concat {m : List (κ × β)} {key : κ} (h : ∀ e ∈ m, e.1 < key) (value : β) :
    insert key value m = m ++ [(key, value)] := by
  induction m with
  | nil => rfl
  | cons e m ih =>
    have hlt := h e List.mem_cons_self
    rw [insert, if_neg hlt.not_gt, if_neg hlt.ne',
      ih fun e' he' => h e' (List.mem_cons_of_mem _ he')]
    rfl

/-- Filling a map from a map changes nothing. -/
theorem Ordered.ofEntries_eq {m : List (κ × β)} (h : Ordered m) : ofEntries m = m := by
  induction m using List.reverseRecOn with
  | nil => rfl
  | append_singleton m e ih =>
    obtain ⟨hm, -, hlast⟩ := List.pairwise_append.mp h
    rw [ofEntries_concat, ih hm]
    exact insert_eq_concat (fun e' he' => hlast e' he' e (List.mem_singleton_self e)) e.2

theorem Ordered.mem_iff {m : List (κ × β)} (h : Ordered m) {e : κ × β} :
    e ∈ m ↔ get m e.1 = some e.2 := by
  induction m with
  | nil => simp [get]
  | cons e' m ih =>
    obtain ⟨hhead, htail⟩ := List.pairwise_cons.mp h
    rw [List.mem_cons, ih htail, get]
    split_ifs with hkey
    · have hnone : get m e.1 ≠ some e.2 := fun hget =>
        (hhead e ((ih htail).mpr hget)).ne hkey
      rw [or_iff_left hnone, Option.some.injEq, Prod.ext_iff, and_iff_right hkey.symm, eq_comm]
    · exact or_iff_right fun heq => hkey (congrArg Prod.fst heq).symm

/-- A map is determined by its lookups. -/
theorem Ordered.ext {m m' : List (κ × β)} (h : Ordered m) (h' : Ordered m')
    (hget : ∀ k, get m k = get m' k) : m = m' := by
  have hne : ∀ {e e' : κ × β}, e.1 < e'.1 → e ≠ e' := by
    rintro e _ hlt rfl
    exact lt_irrefl _ hlt
  refine List.Perm.eq_of_pairwise (fun e e' _ _ hlt hgt => absurd hlt (lt_asymm hgt)) h h' ?_
  rw [List.perm_ext_iff_of_nodup (List.Pairwise.imp hne h) (List.Pairwise.imp hne h')]
  intro e
  rw [h.mem_iff, h'.mem_iff, hget]

end KeyMap
