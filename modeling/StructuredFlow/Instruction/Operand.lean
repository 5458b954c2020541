/-
# Operands

An instruction reads function-local names, module-level symbols and literals.
Names are held without the sigil that the notation puts in front: `%x` is
`ssa "x"`, `@g` is `symbol "g"`.
-/

namespace StructuredFlow

/-- A value that an instruction reads. -/
inductive Operand
  /-- A function-local name. -/
  | ssa (name : String)
  /-- A module-level symbol. -/
  | symbol (name : String)
  /-- A literal, as it was written. -/
  | literal (text : String)
deriving DecidableEq, Repr, Inhabited

namespace Operand

/-- The notation of an operand. -/
def text : Operand → String
  | .ssa name => "%" ++ name
  | .symbol name => "@" ++ name
  | .literal text => text

/-- The function-local name read, if the operand is one. -/
def ssa? : Operand → Option String
  | .ssa name => some name
  | _ => none

/-- Tests for the literal `0`. -/
def isZero : Operand → Bool
  | .literal text => text == "0"
  | _ => false

end Operand
end StructuredFlow
