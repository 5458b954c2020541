/-
# Flat sizes are exact

Unfolding a type goes on from an array to its element and from a struct to its fields,
and never behind a pointer (`Holds`).  What it comes to are the types met (`Meets`); a
struct that meets itself again would be unfolded for ever (`Embeds`).  Where it ends, the
number of slots is counted without a bound (`Unfolds`).

A type is `Sizable` if each struct met is defined, none embeds itself, and each count on
the way is a number of 64 bits.  Measuring keeps a list of the structs it is inside of,
and all it knows of them is that they embed the type at hand.  So the list turns down a
struct only where it embeds itself, and any other list would have given the same size:

* what is measured unfolds to its size (`unfolds_of_sizeWithin`), and so does all that it
  meets, for that is measured as well (`exists_sizeWithin_of_meets`);
* what unfolds does not embed itself (`Unfolds.not_embeds_self`);
* what is sizable is measured (`Sizable.exists_sizeWithin`).
-/

import Mathlib
import StructuredFlow.Ty.Layout

namespace StructuredFlow
namespace TypeTable

open Relation

/-! ### Unfolding -/

/-- The types that unfolding goes on to: the element of an array, whatever its length, and
the fields of a struct. -/
def parts (table : TypeTable) : Ty → List Ty
  | .array _ element => [element]
  | .struct name => (table.fields? name).getD []
  | _ => []

/-- Unfolding goes on from a type to another. -/
def Holds (table : TypeTable) (ty part : Ty) : Prop := part ∈ table.parts ty

/-- Unfolding a type comes to another, or starts there. -/
def Meets (table : TypeTable) : Ty → Ty → Prop := ReflTransGen table.Holds

/-- A type holds another directly or through others. -/
def Embeds (table : TypeTable) : Ty → Ty → Prop := TransGen table.Holds

/-- A type can be unfolded to the end, and has so many slots then. -/
inductive Unfolds (table : TypeTable) : Ty → Nat → Prop
  /-- No value takes no slot. -/
  | void : Unfolds table .void 0
  /-- An integer takes one slot. -/
  | int (bits : Nat) : Unfolds table (.int bits) 1
  /-- A floating-point number takes one slot. -/
  | float (bits : Nat) : Unfolds table (.float bits) 1
  /-- A pointer takes one slot, whatever it points to. -/
  | ptr (pointee : Ty) : Unfolds table (.ptr pointee) 1
  /-- An array takes the slots of its element as often as it has elements. -/
  | array {element : Ty} {n : Nat} (length : Nat) (h : Unfolds table element n) :
    Unfolds table (.array length element) (length * n)
  /-- A struct takes the slots of its fields. -/
  | struct {name : String} {fields : List Ty} (size : Ty → Nat)
    (hfields : table.fields? name = some fields)
    (h : ∀ field ∈ fields, Unfolds table field (size field)) :
    Unfolds table (.struct name) (fields.map size).sum

/-- Unfolding a type ends, and no count on the way exceeds 64 bits. -/
structure Sizable (table : TypeTable) (ty : Ty) : Prop where
  /-- The structs met are defined. -/
  defined : ∀ name, table.Meets ty (.struct name) → ∃ fields, table.fields? name = some fields
  /-- None of them embeds itself. -/
  apart : ∀ name, table.Meets ty (.struct name) → ¬table.Embeds (.struct name) (.struct name)
  /-- The counts of the types met are numbers of 64 bits. -/
  fits : ∀ part n, table.Meets ty part → table.Unfolds part n → n ≤ 2 ^ 64 - 1

variable {table : TypeTable} {ty part : Ty} {name : String} {fields : List Ty} {n m : Nat}
  {opened : List String}

/-- Unfolding a struct goes on to its fields. -/
theorem parts_struct (h : table.fields? name = some fields) :
    table.parts (.struct name) = fields := by
  rw [parts, h, Option.getD_some]

/-- A struct that is defined holds its fields. -/
theorem holds_field (h : table.fields? name = some fields) (hpart : part ∈ fields) :
    table.Holds (.struct name) part := by
  rw [Holds, parts_struct h]
  exact hpart

/-- An array holds its element. -/
theorem holds_element (length : Nat) (element : Ty) :
    table.Holds (.array length element) element := List.mem_singleton_self element

/-- A type without parts holds nothing. -/
theorem not_holds_scalar (h : table.parts ty = []) : ¬table.Holds ty part := by
  rw [Holds, h]
  exact List.not_mem_nil

namespace Unfolds

/-- **A type is unfolded to one count only.** -/
theorem unique (h : table.Unfolds ty n) (h' : table.Unfolds ty m) : n = m := by
  induction h generalizing m with
  | void | int | float | ptr => cases h'; rfl
  | array length _ ih =>
    cases h' with
    | array _ helement => rw [ih helement]
  | struct size hfields _ ih =>
    cases h' with
    | struct size' hfields' h' =>
      obtain rfl := Option.some.inj (hfields.symm.trans hfields')
      exact congrArg List.sum (List.map_congr_left fun field hfield =>
        ih field hfield (h' field hfield))

/-- A type that embeds itself has a part that does. -/
theorem exists_part_embeds_self (h : table.Embeds ty ty) :
    ∃ part, table.Holds ty part ∧ table.Embeds part part := by
  obtain ⟨part, hpart, hback⟩ := TransGen.head'_iff.mp h
  exact ⟨part, hpart, TransGen.tail' hback hpart⟩

/-- **What unfolds does not embed itself.** -/
theorem not_embeds_self (h : table.Unfolds ty n) : ¬table.Embeds ty ty := by
  intro hself
  obtain ⟨part, hpart, hpself⟩ := exists_part_embeds_self hself
  induction h generalizing part with
  | void | int | float | ptr => exact not_holds_scalar rfl hpart
  | array length _ ih =>
    obtain rfl := List.mem_singleton.mp hpart
    obtain ⟨p, hp, hpp⟩ := exists_part_embeds_self hpself
    exact ih hpself p hp hpp
  | struct size hfields _ ih =>
    rw [Holds, parts_struct hfields] at hpart
    obtain ⟨p, hp, hpp⟩ := exists_part_embeds_self hpself
    exact ih part hpart hpself p hp hpp

end Unfolds

/-! ### Measuring -/

/-- A number is fit if it is at most the largest of 64 bits. -/
theorem fit64_eq_some_iff : fit64 n = some m ↔ n = m ∧ n ≤ 2 ^ 64 - 1 := by
  have hmax : Decimal.max64 = 2 ^ 64 - 1 := by decide
  rw [fit64, hmax]
  split
  next h => rw [Option.some.injEq, and_iff_left h]
  next h => exact iff_of_false (by simp) fun hn => h hn.2

/-- The slots of a type inside the structs `opened`, none if it has no size there. -/
def slotsWithin (table : TypeTable) (opened : List String) (ty : Ty) : Nat :=
  (table.sizeWithin opened ty).getD 0

/-- Where measuring succeeds it counts the slots. -/
theorem sizeWithin_slotsWithin (h : ∃ n, table.sizeWithin opened ty = some n) :
    table.sizeWithin opened ty = some (table.slotsWithin opened ty) := by
  obtain ⟨n, hn⟩ := h
  rw [slotsWithin, hn, Option.getD_some]

/-- **An array is measured** if its element is, and if all elements together keep to 64 bits. -/
theorem sizeWithin_array_eq_some_iff {length : Nat} {element : Ty} :
    table.sizeWithin opened (.array length element) = some n ↔
      ∃ m, table.sizeWithin opened element = some m ∧ m * length = n ∧ m * length ≤ 2 ^ 64 - 1 := by
  rw [sizeWithin, Option.bind_eq_bind, Option.bind_eq_some_iff]
  exact exists_congr fun m => and_congr_right fun _ => fit64_eq_some_iff

/-- A row of fields is measured if each field is and the sum is a number of 64 bits. -/
theorem sumWithin_eq_some_iff {total : Nat} (htotal : total ≤ 2 ^ 64 - 1) :
    table.sumWithin opened total fields = some n ↔
      (∀ field ∈ fields, ∃ m, table.sizeWithin opened field = some m) ∧
        total + (fields.map (table.slotsWithin opened)).sum = n ∧ n ≤ 2 ^ 64 - 1 := by
  induction fields generalizing total with
  | nil =>
    rw [sumWithin, Option.some.injEq]
    simp only [List.not_mem_nil, false_implies, implies_true, true_and, List.map_nil, List.sum_nil,
      Nat.add_zero]
    exact ⟨fun h => ⟨h, h ▸ htotal⟩, And.left⟩
  | cons field rest ih =>
    rw [sumWithin, Option.bind_eq_bind, Option.bind_eq_some_iff]
    simp only [List.forall_mem_cons, List.map_cons, List.sum_cons, ← Nat.add_assoc]
    constructor
    · rintro ⟨size, hsize, hrest⟩
      obtain ⟨total', htotal', hrest⟩ := Option.bind_eq_some_iff.mp hrest
      obtain ⟨rfl, hle⟩ := fit64_eq_some_iff.mp htotal'
      obtain ⟨hfields, hsum⟩ := (ih hle).mp hrest
      have hslots : table.slotsWithin opened field = size := by
        rw [slotsWithin, hsize, Option.getD_some]
      exact ⟨⟨⟨size, hsize⟩, hfields⟩, hslots ▸ hsum⟩
    · rintro ⟨⟨hfield, hfields⟩, hsum, hn⟩
      have hle : total + table.slotsWithin opened field ≤ 2 ^ 64 - 1 := by omega
      exact ⟨_, sizeWithin_slotsWithin hfield, Option.bind_eq_some_iff.mpr
        ⟨_, fit64_eq_some_iff.mpr ⟨rfl, hle⟩, (ih hle).mpr ⟨hfields, hsum, hn⟩⟩⟩

/-- **A struct is measured** if it is not open, is defined, has fields that are measured, and
their sizes together keep to 64 bits. -/
theorem sizeWithin_struct_eq_some_iff :
    table.sizeWithin opened (.struct name) = some n ↔ name ∉ opened ∧
      ∃ fields, table.fields? name = some fields ∧
        (∀ field ∈ fields, ∃ m, table.sizeWithin (name :: opened) field = some m) ∧
          (fields.map (table.slotsWithin (name :: opened))).sum = n ∧ n ≤ 2 ^ 64 - 1 := by
  have hsum : ∀ fields, table.sumWithin (name :: opened) 0 fields = some n ↔ _ := fun fields =>
    sumWithin_eq_some_iff (by decide)
  simp only [Nat.zero_add] at hsum
  rw [sizeWithin]
  split
  next hn => simp [hn]
  next hn =>
    split
    next hf => simp [hf]
    next fields hf => simp [hf, hn, hsum]

/-- Measuring goes on from an array to its element, and from a struct to its fields with one
more struct open. -/
theorem within_induction (table : TypeTable) {motive : List String → Ty → Prop}
    (void : ∀ opened, motive opened .void) (int : ∀ opened bits, motive opened (.int bits))
    (float : ∀ opened bits, motive opened (.float bits))
    (ptr : ∀ opened pointee, motive opened (.ptr pointee))
    (array : ∀ opened length element, motive opened element → motive opened (.array length element))
    (struct : ∀ opened name, (name ∉ opened → ∀ fields, table.fields? name = some fields →
      ∀ field ∈ fields, motive (name :: opened) field) → motive opened (.struct name))
    (opened : List String) (ty : Ty) : motive opened ty :=
  sizeWithin.induct table motive (fun opened _ fields => ∀ field ∈ fields, motive opened field)
    void int float ptr array
    (fun opened name hn => struct opened name fun h => absurd hn h)
    (fun opened name _ hf => struct opened name fun _ fields hfields => by simp [hf] at hfields)
    (fun opened name _ fields hf hfields => struct opened name fun _ fields' hf' =>
      Option.some.inj (hf.symm.trans hf') ▸ hfields)
    (fun _ _ _ hfield => absurd hfield List.not_mem_nil)
    (fun _ _ _ _ hfield hrest => List.forall_mem_cons.mpr ⟨hfield, hrest 0⟩)
    opened ty

/-! ### What is measured is sizable -/

/-- A size that is measured keeps to 64 bits. -/
theorem le_of_sizeWithin (h : table.sizeWithin opened ty = some n) : n ≤ 2 ^ 64 - 1 := by
  cases ty with
  | void | int | float | ptr => simp only [sizeWithin, Option.some.injEq] at h; omega
  | array => obtain ⟨m, -, rfl, hle⟩ := sizeWithin_array_eq_some_iff.mp h; exact hle
  | struct => obtain ⟨-, _, -, -, -, hle⟩ := sizeWithin_struct_eq_some_iff.mp h; exact hle

/-- **What is measured unfolds to its size**, whichever structs are open. -/
theorem unfolds_of_sizeWithin (h : table.sizeWithin opened ty = some n) : table.Unfolds ty n := by
  induction opened, ty using within_induction table generalizing n with
  | void | int | float | ptr =>
    simp only [sizeWithin, Option.some.injEq] at h
    subst h
    constructor
  | array opened length element ih =>
    obtain ⟨m, helement, rfl, -⟩ := sizeWithin_array_eq_some_iff.mp h
    rw [Nat.mul_comm]
    exact .array length (ih helement)
  | struct opened name ih =>
    obtain ⟨hn, fields, hf, hfields, rfl, -⟩ := sizeWithin_struct_eq_some_iff.mp h
    exact .struct _ hf fun field hfield =>
      ih hn fields hf field hfield (sizeWithin_slotsWithin (hfields field hfield))

/-- The parts of what is measured are measured. -/
theorem exists_sizeWithin_of_holds (h : table.sizeWithin opened ty = some n)
    (hpart : table.Holds ty part) : ∃ opened' m, table.sizeWithin opened' part = some m := by
  cases ty with
  | void | int | float | ptr => exact absurd hpart (not_holds_scalar rfl)
  | array length element =>
    obtain rfl := List.mem_singleton.mp hpart
    obtain ⟨m, hm, -⟩ := sizeWithin_array_eq_some_iff.mp h
    exact ⟨opened, m, hm⟩
  | struct name =>
    obtain ⟨-, fields, hf, hfields, -⟩ := sizeWithin_struct_eq_some_iff.mp h
    rw [Holds, parts_struct hf] at hpart
    exact ⟨_, hfields part hpart⟩

/-- What a type that is measured meets is measured too, with some structs open. -/
theorem exists_sizeWithin_of_meets (h : table.sizeWithin opened ty = some n)
    (hpart : table.Meets ty part) : ∃ opened' m, table.sizeWithin opened' part = some m := by
  induction hpart with
  | refl => exact ⟨opened, n, h⟩
  | tail _ hpart ih =>
    obtain ⟨_, _, h'⟩ := ih
    exact exists_sizeWithin_of_holds h' hpart

/-- **What is measured is sizable.** -/
theorem sizable_of_sizeWithin (h : table.sizeWithin opened ty = some n) : table.Sizable ty where
  defined name hmeets := by
    obtain ⟨_, _, hname⟩ := exists_sizeWithin_of_meets h hmeets
    obtain ⟨-, fields, hf, -⟩ := sizeWithin_struct_eq_some_iff.mp hname
    exact ⟨fields, hf⟩
  apart name hmeets := by
    obtain ⟨_, _, hname⟩ := exists_sizeWithin_of_meets h hmeets
    exact (unfolds_of_sizeWithin hname).not_embeds_self
  fits part m hmeets hm := by
    obtain ⟨_, _, hpart⟩ := exists_sizeWithin_of_meets h hmeets
    rw [hm.unique (unfolds_of_sizeWithin hpart)]
    exact le_of_sizeWithin hpart

/-! ### What is sizable is measured -/

/-- The parts of a type that is sizable are sizable. -/
theorem Sizable.of_holds (h : table.Sizable ty) (hpart : table.Holds ty part) :
    table.Sizable part where
  defined name hmeets := h.defined name (hmeets.head hpart)
  apart name hmeets := h.apart name (hmeets.head hpart)
  fits p n hmeets hn := h.fits p n (hmeets.head hpart) hn

/-- **What is sizable is measured** inside structs that embed it. -/
theorem Sizable.exists_sizeWithin (h : table.Sizable ty)
    (hopened : ∀ name ∈ opened, table.Embeds (.struct name) ty) :
    ∃ n, table.sizeWithin opened ty = some n := by
  induction opened, ty using within_induction table with
  | void | int | float | ptr => exact ⟨_, sizeWithin.eq_def table _ _⟩
  | array opened length element ih =>
    have hpart : table.Holds (.array length element) element := holds_element length element
    obtain ⟨m, hm⟩ := ih (h.of_holds hpart) fun name hn => (hopened name hn).tail hpart
    have hle := h.fits _ _ .refl (.array length (unfolds_of_sizeWithin hm))
    rw [Nat.mul_comm] at hle
    exact ⟨_, sizeWithin_array_eq_some_iff.mpr ⟨m, hm, rfl, hle⟩⟩
  | struct opened name ih =>
    have hn : name ∉ opened := fun hn => h.apart name .refl (hopened name hn)
    obtain ⟨fields, hf⟩ := h.defined name .refl
    have hfields : ∀ field ∈ fields, ∃ m, table.sizeWithin (name :: opened) field = some m := by
      intro field hfield
      have hpart := holds_field hf hfield
      refine ih hn fields hf field hfield (h.of_holds hpart) (List.forall_mem_cons.mpr ⟨?_, ?_⟩)
      · exact .single hpart
      · exact fun o ho => (hopened o ho).tail hpart
    have hunfolds := Unfolds.struct (table.slotsWithin (name :: opened)) hf fun field hfield =>
      unfolds_of_sizeWithin (sizeWithin_slotsWithin (hfields field hfield))
    exact ⟨_, sizeWithin_struct_eq_some_iff.mpr
      ⟨hn, fields, hf, hfields, rfl, h.fits _ _ .refl hunfolds⟩⟩

/-! ### The flat size -/

/-- **The flat size of a type** is the number of slots that it unfolds to, and there is one just
where the type is sizable. -/
theorem flatSize_eq_some_iff : table.flatSize ty = some n ↔
    table.Sizable ty ∧ table.Unfolds ty n := by
  constructor
  · exact fun h => ⟨sizable_of_sizeWithin h, unfolds_of_sizeWithin h⟩
  · rintro ⟨hsizable, hn⟩
    obtain ⟨m, hm⟩ : ∃ m, table.sizeWithin [] ty = some m :=
      hsizable.exists_sizeWithin (List.forall_mem_nil _)
    rw [flatSize, hm, hn.unique (unfolds_of_sizeWithin hm)]

/-- A type has at most one field if its flat size is known and at most one. -/
theorem isMultiField_eq_false_iff :
    table.isMultiField ty = false ↔ ∃ n, table.flatSize ty = some n ∧ n ≤ 1 := by
  rw [isMultiField]
  cases table.flatSize ty <;> simp

/-- **The flat size is exact, also on tables with cycles.**  A type has a size exactly if the
structs that unfolding meets are defined and do not embed themselves and no count on the way
exceeds 64 bits, and then the size is the count.  A type is taken to have at most one slot
exactly if there is such a count and it is at most one. -/
theorem flatSize_unfolds (table : TypeTable) (ty : Ty) :
    (∀ n, table.flatSize ty = some n ↔ table.Sizable ty ∧ table.Unfolds ty n) ∧
      ((table.flatSize ty).isSome = true ↔ table.Sizable ty) ∧
        (table.isMultiField ty = false ↔ table.Sizable ty ∧ ∃ n ≤ 1, table.Unfolds ty n) := by
  refine ⟨fun n => flatSize_eq_some_iff, ?_, ?_⟩
  · rw [Option.isSome_iff_exists]
    constructor
    · rintro ⟨n, hn⟩
      exact sizable_of_sizeWithin hn
    · exact fun h => h.exists_sizeWithin (by simp)
  · simp only [isMultiField_eq_false_iff, flatSize_eq_some_iff]
    constructor
    · rintro ⟨n, ⟨hsizable, hn⟩, hle⟩
      exact ⟨hsizable, n, hle, hn⟩
    · rintro ⟨hsizable, n, hle, hn⟩
      exact ⟨n, ⟨hsizable, hn⟩, hle⟩

/-- A struct may be used side by side, and a pointer may lead back to it; two structs that
embed each other have no size, even in an array without elements. -/
example :
    let table : TypeTable := ⟨[("pair", [.struct "node", .struct "node"]),
      ("node", [.int 8, .ptr (.struct "pair")]), ("odd", [.array 0 (.struct "even")]),
      ("even", [.struct "odd"])]⟩
    table.flatSize (.array 3 (.struct "pair")) = some 12 ∧
      table.flatSize (.struct "odd") = none := by
  decide_cbv

end TypeTable
end StructuredFlow
