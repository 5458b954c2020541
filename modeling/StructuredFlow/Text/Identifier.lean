/-
# Identifiers of the generated code

A name of the input may hold any character.  In the generated code every
character other than an ASCII letter, an ASCII digit, `_` and `$` becomes `_`,
and a name that is empty or would start with a digit gets a `_` in front.
Different names can share an identifier: `a.b` and `a_b` both become `a_b`.
`distinct` gives the names of a list identifiers that differ from each other.
-/

namespace StructuredFlow
namespace Identifier

/-- Tests whether a character may stand in an identifier. -/
def isLegal (c : Char) : Bool := c.isAlphanum || c == '_' || c == '$'

/-- Puts `_` in front of characters that are none or start with a digit. -/
def protectStart : List Char → List Char
  | [] => ['_']
  | c :: rest => if c.isDigit then '_' :: c :: rest else c :: rest

/-- The characters of the identifier of a name. -/
def identChars (name : List Char) : List Char :=
  protectStart (name.map fun c => if isLegal c then c else '_')

/-- The identifier of a name. -/
def ofName (name : String) : String := String.ofList (identChars name.toList)

/-- The binding of a function-local name. -/
def ofLocal (name : String) : String := "$" ++ ofName name

/-- The binding of a module-level name. -/
def ofGlobal (name : String) : String := "_" ++ ofName name

/-- An identifier with a number behind it: `base_7`. -/
def numbered (base : String) (n : Nat) : String := s!"{base}_{n}"

/-- The first of `base_suffix`, `base_(suffix + 1)`, … that is not taken, looking
at no more than `fuel` of them. -/
def firstFree (taken : List String) (base : String) : Nat → Nat → String
  | 0, suffix => numbered base suffix
  | fuel + 1, suffix =>
    if numbered base suffix ∈ taken then firstFree taken base fuel (suffix + 1)
    else numbered base suffix

/-- The identifier of the name at position `index`, given those of the names
before it: its own if that is free, else numbered from `index` upward.  Among
one number more than there are taken identifiers one is free. -/
def choose (taken : List String) (index : Nat) (name : String) : String :=
  if ofName name ∈ taken then firstFree taken (ofName name) taken.length index else ofName name

/-- Identifiers for the names of a list, each chosen in view of those before. -/
def distinct (names : List String) : List String :=
  names.foldl (fun taken name => taken ++ [choose taken taken.length name]) []

end Identifier
end StructuredFlow
