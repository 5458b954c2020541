/-
# Reading the notation of types

`Ty.read` takes blanks away from both ends of the text and then goes by its last
and first characters, the first rule that applies deciding:

1. it ends in `*`: a pointer to what the rest reads as;
2. it stands in `[` and `]`: an array, its length before the first ` x ` and its
   element type after it;
3. it begins with `%`: a struct, its name without quotes at either end;
4. it is `void`, `float`, `double`, or `i` and a number of 32 bits.

A failure names the trimmed text of the part in which it arose.
-/

import StructuredFlow.Text.Blank
import StructuredFlow.Ty

namespace StructuredFlow
namespace Ty

/-- Why a text denotes no type. -/
inductive ReadError
  /-- An array without ` x ` between its brackets. -/
  | arrayForm (text : String)
  /-- An array whose length is no number of 64 bits. -/
  | arrayLength (text : String)
  /-- A lone `%`. -/
  | emptyStructName
  /-- None of the forms. -/
  | unknown (text : String)
deriving DecidableEq, Repr

/-- What a failed reading reports. -/
def ReadError.message : ReadError → String
  | .arrayForm text => s!"Invalid array type - {text}"
  | .arrayLength text => s!"Invalid array length - {text}"
  | .emptyStructName => "Empty struct type name"
  | .unknown text => s!"Unknown type - {text}"

/-- The text between a leading `[` and a closing `]`. -/
def stripBrackets (text : List Char) : Option (List Char) :=
  (Text.stripFirst '[' text).bind (Text.stripLast ']')

/-- Reads the name of a type without parts. -/
def readScalar (text : List Char) : Except ReadError Ty :=
  if text = "void".toList then .ok .void
  else if text = "float".toList then .ok (.float 32)
  else if text = "double".toList then .ok (.float 64)
  else
    match (Text.stripFirst 'i' text).bind (Decimal.read Decimal.max32) with
    | some bits => .ok (.int bits)
    | none => .error (.unknown (String.ofList text))

/-- Reads a struct reference after its `%`. -/
def readStructName (name : List Char) : Except ReadError Ty :=
  if name.isEmpty then .error .emptyStructName
  else .ok (.struct (String.ofList (Text.trimBy (· == '"') name)))

/-- What a star leaves is shorter. -/
theorem length_lt_of_stripLast {c : Char} {text rest : List Char}
    (h : Text.stripLast c (Text.trim text) = some rest) : rest.length < text.length := by
  have := Text.length_trim_le text
  rw [Text.stripLast_eq_some.mp h] at this
  simp only [List.length_append, List.length_singleton] at this
  omega

/-- What stands for the element between brackets is shorter. -/
theorem length_lt_of_stripBrackets {text body before after : List Char}
    (h : stripBrackets (Text.trim text) = some body)
    (hs : Text.splitOnce " x ".toList body = some (before, after)) :
    after.length < text.length := by
  obtain ⟨rest, hf, hl⟩ := Option.bind_eq_some_iff.mp h
  have := Text.length_trim_le text
  rw [Text.stripFirst_eq_some.mp hf, Text.stripLast_eq_some.mp hl,
    Text.splitOnce_eq_some hs] at this
  simp only [List.length_append, List.length_cons, List.length_nil] at this
  omega

/-- Reads the notation of a type. -/
def readChars (text : List Char) : Except ReadError Ty :=
  match _hp : Text.stripLast '*' (Text.trim text) with
  | some base => (readChars base).map .ptr
  | none =>
    match _hb : stripBrackets (Text.trim text) with
    | some body =>
      match _hs : Text.splitOnce " x ".toList body with
      | none => .error (.arrayForm (String.ofList (Text.trim text)))
      | some (length, element) =>
        match Decimal.read Decimal.max64 (Text.trim length) with
        | none => .error (.arrayLength (String.ofList (Text.trim text)))
        | some n => (readChars element).map (.array n)
    | none =>
      match Text.stripFirst '%' (Text.trim text) with
      | some name => readStructName name
      | none => readScalar (Text.trim text)
termination_by text.length
decreasing_by
  · exact length_lt_of_stripLast _hp
  · exact length_lt_of_stripBrackets _hb _hs

/-- Reads the notation of a type. -/
def read (text : String) : Except ReadError Ty := readChars text.toList

end Ty
end StructuredFlow
