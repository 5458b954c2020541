/-
# Decimal numbers

`digits n` writes a number without leading zeros.  `read bound` accepts one
optional plus sign and then one or more decimal digits, leading zeros included,
and refuses a value above the bound.
-/

namespace StructuredFlow
namespace Decimal

/-- The decimal digits of a number, most significant first. -/
def digits (n : Nat) : List Char := Nat.toDigits 10 n

/-- The value of a decimal digit. -/
def digitValue (c : Char) : Nat := c.toNat - '0'.toNat

/-- The number that decimal digits write, most significant first. -/
def value (ds : List Char) : Nat := ds.foldl (fun n c => 10 * n + digitValue c) 0

/-- The text without one leading plus sign. -/
def dropPlus : List Char → List Char
  | '+' :: rest => rest
  | text => text

/-- Reads a number of at most `bound`: an optional plus sign, then only decimal
digits and at least one. -/
def read (bound : Nat) (text : List Char) : Option Nat :=
  let ds := dropPlus text
  if ds.isEmpty || !ds.all Char.isDigit then none
  else if value ds ≤ bound then some (value ds)
  else none

/-- The largest number of 32 bits. -/
def max32 : Nat := 4294967295

/-- The largest number of 64 bits. -/
def max64 : Nat := 18446744073709551615

end Decimal
end StructuredFlow
