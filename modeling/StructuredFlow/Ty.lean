/-
# Types of values

A type is `void`, an integer or a float of some width, a pointer, a named struct
or an array.  Its notation is

| type | notation |
| --- | --- |
| `void` | `void` |
| `int 32` | `i32` |
| `float 32`, `float 64`, `float 16` | `float`, `double`, `f16` |
| `ptr t` | the notation of `t` followed by `*` |
| `struct "point"` | `%point` |
| `array 4 t` | `[4 x ` the notation of `t` and `]` |
-/

import StructuredFlow.Text.Decimal

namespace StructuredFlow

/-- The type of a value. -/
inductive Ty
  /-- No value. -/
  | void
  /-- An integer of a width in bits. -/
  | int (bits : Nat)
  /-- A floating-point number of a width in bits. -/
  | float (bits : Nat)
  /-- A pointer. -/
  | ptr (pointee : Ty)
  /-- A struct known by its name. -/
  | struct (name : String)
  /-- A number of elements of one type. -/
  | array (length : Nat) (element : Ty)
deriving DecidableEq, Repr, Inhabited

namespace Ty

/-- The number of pointer levels on top of the base type. -/
def depth : Ty → Nat
  | .ptr pointee => pointee.depth + 1
  | _ => 0

/-- The type behind a pointer. -/
def pointee? : Ty → Option Ty
  | .ptr pointee => some pointee
  | _ => none

/-- Tests for a struct or an array. -/
def isAggregate : Ty → Bool
  | .struct _ | .array _ _ => true
  | _ => false

/-- Tests for `void`. -/
def isVoid : Ty → Bool
  | .void => true
  | _ => false

/-- The characters of the notation of a type. -/
def chars : Ty → List Char
  | .void => "void".toList
  | .int bits => 'i' :: Decimal.digits bits
  | .float 32 => "float".toList
  | .float 64 => "double".toList
  | .float bits => 'f' :: Decimal.digits bits
  | .ptr pointee => pointee.chars ++ ['*']
  | .struct name => '%' :: name.toList
  | .array length element =>
    '[' :: Decimal.digits length ++ " x ".toList ++ element.chars ++ [']']

/-- The notation of a type. -/
def text (ty : Ty) : String := String.ofList ty.chars

end Ty
end StructuredFlow
