/-
# Flat layout of types

A `TypeTable` gives the field types of named structs.  In the flat layout nested
structs are spread out inside their parent, so a value occupies a number of
slots: none for `void`, one for a scalar or a pointer, the sum over the fields
for a struct, the product for an array.  Nothing behind a pointer counts.

A type has no flat size if a struct in it is undefined, or embeds itself, or if
a sum or product met on the way needs more than 64 bits.  `flatSize` finds this
out by keeping the names of the structs it is inside of; each time it enters a
struct one more of the table's names is open, and between two entries the type
gets smaller.

The offsets of a struct's fields are sums of flat sizes as well, but they are added up
without a test, so an overflow there is an outcome of its own (`Overflow`).
-/

import StructuredFlow.Ty

namespace StructuredFlow

/-- The field types of the structs of a module, by name. -/
structure TypeTable where
  /-- One entry per struct, the latest first. -/
  structs : List (String × List Ty) := []
deriving DecidableEq, Repr, Inhabited

namespace TypeTable

/-- Gives a struct its fields, in place of those it may have had. -/
def define (table : TypeTable) (name : String) (fields : List Ty) : TypeTable :=
  ⟨(name, fields) :: table.structs.filter fun entry => entry.1 ≠ name⟩

/-- The fields of a struct. -/
def fields? (table : TypeTable) (name : String) : Option (List Ty) := table.structs.lookup name

/-- The number as a number of 64 bits, if it is one. -/
def fit64 (n : Nat) : Option Nat := if n ≤ Decimal.max64 then some n else none

/-- The number of entries whose struct is not open. -/
def unopened (table : TypeTable) (opened : List String) : Nat :=
  table.structs.countP fun entry => entry.1 ∉ opened

/-- Opening a struct that is defined leaves fewer to open. -/
theorem unopened_lt {table : TypeTable} {opened : List String} {name : String} {fields : List Ty}
    (hn : name ∉ opened) (hf : table.fields? name = some fields) :
    table.unopened (name :: opened) < table.unopened opened := by
  unfold unopened
  unfold fields? at hf
  generalize table.structs = entries at hf ⊢
  induction entries with
  | nil => simp at hf
  | cons entry rest ih =>
    have hle : rest.countP (fun entry => decide (entry.1 ∉ name :: opened)) ≤
        rest.countP fun entry => decide (entry.1 ∉ opened) :=
      List.countP_mono_left fun e _ h => by simp_all
    obtain ⟨key, value⟩ := entry
    rw [List.countP_cons, List.countP_cons]
    rw [List.lookup_cons] at hf
    by_cases hk : name = key
    · subst hk
      rw [if_neg (by simp), if_pos (by simpa using hn)]
      omega
    · have hb : (name == key) = false := by simpa using hk
      rw [hb] at hf
      have hlt := ih hf
      by_cases ho : key ∈ opened
      · rw [if_neg (by simp [ho]), if_neg (by simp [ho])]
        omega
      · rw [if_pos (by simp [ho, Ne.symm hk]), if_pos (by simp [ho])]
        omega

mutual

/-- The flat size of a type met inside the structs `opened`. -/
def sizeWithin (table : TypeTable) (opened : List String) (ty : Ty) : Option Nat :=
  match ty with
  | .void => some 0
  | .int _ | .float _ | .ptr _ => some 1
  | .array length element => do fit64 ((← sizeWithin table opened element) * length)
  | .struct name =>
    if _hn : name ∈ opened then none
    else
      match _hf : table.fields? name with
      | none => none
      | some fields => sumWithin table (name :: opened) 0 fields
termination_by (table.unopened opened, sizeOf ty)
decreasing_by
  · exact Prod.Lex.right _ (by simp only [Ty.array.sizeOf_spec]; omega)
  · exact Prod.Lex.left _ _ (unopened_lt _hn _hf)

/-- The flat size of a row of fields, added to the slots before them. -/
def sumWithin (table : TypeTable) (opened : List String) (total : Nat) (fields : List Ty) :
    Option Nat :=
  match fields with
  | [] => some total
  | field :: rest => do
    let size ← sizeWithin table opened field
    let total ← fit64 (total + size)
    sumWithin table opened total rest
termination_by (table.unopened opened, sizeOf fields)
decreasing_by
  · exact Prod.Lex.right _ (by simp only [List.cons.sizeOf_spec]; omega)
  · exact Prod.Lex.right _ (by simp only [List.cons.sizeOf_spec]; omega)

end

/-- The number of slots that a value of a type occupies. -/
def flatSize (table : TypeTable) (ty : Ty) : Option Nat := table.sizeWithin [] ty

/-- A sum of slots needs more than 64 bits.  Nothing tests for that where offsets are
added up, so what becomes of it is left to the build: it stops, or goes on with the lower
64 bits. -/
inductive Overflow
  | overflow
deriving DecidableEq, Repr

/-- The slots at which the fields of a row start, the first at `start`; none if a field
without a flat size is met before a sum overflows. -/
def offsetsFrom (table : TypeTable) (start : Nat) : List Ty → Except Overflow (Option (List Nat))
  | [] => .ok (some [])
  | field :: rest =>
    match table.flatSize field with
    | none => .ok none
    | some size =>
      match fit64 (start + size) with
      | none => .error .overflow
      | some next => (offsetsFrom table next rest).map (Option.map (start :: ·))

/-- The slot at which each field of a struct starts. -/
def flatOffsets (table : TypeTable) (name : String) : Except Overflow (Option (List Nat)) :=
  match table.fields? name with
  | none => .ok none
  | some fields => table.offsetsFrom 0 fields

/-- Tests whether a type holds more than one slot; a type without a flat size
counts as if it did. -/
def isMultiField (table : TypeTable) (ty : Ty) : Bool :=
  match table.flatSize ty with
  | some size => decide (1 < size)
  | none => true

end TypeTable
end StructuredFlow
