import Primer.Machine.Value

/-!
# Stores

A store gives values to keys, each key at most one. It is a list of pairs in
the order in which the keys were first set; `set` changes the pair of a key in
place, so a store that was made by `set` holds no key twice. What matters of
it is what `get?` finds after `set`, and that is what the lemmas say. The
order of the pairs is never looked at.

A frame has two stores: one from names to the values of its places, and one
from indices to the arguments it has set aside.
-/

namespace Primer

/-- **A store** of values under keys. -/
structure Store (κ : Type) where
  /-- The keys and their values. -/
  entries : List (κ × Value)
  deriving DecidableEq

namespace Store

variable {κ : Type} [DecidableEq κ]

/-- The store without keys. -/
def empty : Store κ := ⟨[]⟩

/-- The value of a key in a list of pairs. -/
def find (key : κ) : List (κ × Value) → Option Value
  | [] => none
  | (k, v) :: rest => if k = key then some v else find key rest

/-- A list of pairs with the value of a key changed. -/
def replace (key : κ) (value : Value) : List (κ × Value) → List (κ × Value)
  | [] => [(key, value)]
  | (k, v) :: rest =>
    if k = key then (k, value) :: rest else (k, v) :: replace key value rest

/-- **The value of a key.** -/
def get? (s : Store κ) (key : κ) : Option Value := find key s.entries

/-- **The store with a key set.** -/
def set (s : Store κ) (key : κ) (value : Value) : Store κ :=
  ⟨replace key value s.entries⟩

/-- The keys that have values. -/
def keys (s : Store κ) : List κ := s.entries.map Prod.fst

@[simp] theorem get?_empty (key : κ) : (empty : Store κ).get? key = none := rfl

@[simp] theorem get?_set_self (s : Store κ) (key : κ) (value : Value) :
    (s.set key value).get? key = some value := by
  rw [get?, set]
  induction s.entries with
  | nil => simp [replace, find]
  | cons entry rest ih =>
    rw [replace]
    split
    · next h => simp [find, h]
    · next h => simpa [find, h] using ih

/-- Setting a key leaves the others alone. -/
theorem get?_set_of_ne (s : Store κ) {key other : κ} (value : Value)
    (h : key ≠ other) : (s.set key value).get? other = s.get? other := by
  rw [get?, get?, set]
  induction s.entries with
  | nil => simp [replace, find, h]
  | cons entry rest ih =>
    rw [replace]
    split
    · next hk => simp [find, hk ▸ h]
    · rw [find, find, ih]

end Store

end Primer
