/-
# Operators and comparisons

The arithmetic, comparison and conversion operators of a computing instruction,
and the predicates that the two comparisons `icmp` and `fcmp` carry.  Each has
one lower-case name, and only that name is read back.
-/

namespace StructuredFlow

/-- An operator on values. -/
inductive Operator
  | add | sub | mul | sdiv | udiv | srem | urem
  | fadd | fsub | fmul | fdiv
  | and | or | xor | shl | lshr | ashr
  | icmp | fcmp
  | zext | sext | trunc | sitofp | fptosi
deriving DecidableEq, Repr, Inhabited

namespace Operator

/-- The name of an operator. -/
def name : Operator → String
  | .add => "add" | .sub => "sub" | .mul => "mul" | .sdiv => "sdiv" | .udiv => "udiv"
  | .srem => "srem" | .urem => "urem"
  | .fadd => "fadd" | .fsub => "fsub" | .fmul => "fmul" | .fdiv => "fdiv"
  | .and => "and" | .or => "or" | .xor => "xor" | .shl => "shl" | .lshr => "lshr"
  | .ashr => "ashr"
  | .icmp => "icmp" | .fcmp => "fcmp"
  | .zext => "zext" | .sext => "sext" | .trunc => "trunc" | .sitofp => "sitofp"
  | .fptosi => "fptosi"

/-- Every operator. -/
def all : List Operator :=
  [.add, .sub, .mul, .sdiv, .udiv, .srem, .urem, .fadd, .fsub, .fmul, .fdiv, .and, .or, .xor,
    .shl, .lshr, .ashr, .icmp, .fcmp, .zext, .sext, .trunc, .sitofp, .fptosi]

/-- The operator of a name. -/
def ofName? (name : String) : Option Operator := all.find? fun op => op.name == name

/-- What reading a name reports that is none of an operator or of a predicate. -/
def unknownName : String := "Matching variant not found"

/-- Tests for the conversions, which take a single operand. -/
def isConversion : Operator → Bool
  | .zext | .sext | .trunc | .sitofp | .fptosi => true
  | _ => false

/-- The number of operands that an operator takes. -/
def arity (op : Operator) : Nat := if op.isConversion then 1 else 2

/-- Tests for the comparisons, which need a predicate. -/
def isComparison : Operator → Bool
  | .icmp | .fcmp => true
  | _ => false

end Operator

/-- The predicate of a comparison; `u` marks the unsigned ones. -/
inductive Comparison
  | eq | ne | slt | sle | sgt | sge | ult | ule | ugt | uge
deriving DecidableEq, Repr, Inhabited

namespace Comparison

/-- The name of a predicate. -/
def name : Comparison → String
  | .eq => "eq" | .ne => "ne"
  | .slt => "slt" | .sle => "sle" | .sgt => "sgt" | .sge => "sge"
  | .ult => "ult" | .ule => "ule" | .ugt => "ugt" | .uge => "uge"

/-- Every predicate. -/
def all : List Comparison := [.eq, .ne, .slt, .sle, .sgt, .sge, .ult, .ule, .ugt, .uge]

/-- The predicate of a name. -/
def ofName? (name : String) : Option Comparison := all.find? fun p => p.name == name

/-- Tests for the predicates that compare without sign. -/
def isUnsigned : Comparison → Bool
  | .ult | .ule | .ugt | .uge => true
  | _ => false

end Comparison
end StructuredFlow
