/-
# Expressions and the statements of instructions

Every instruction that is no control transfer is written as one statement, which
binds the defined name, if there is one, to an expression.  How memory is written
depends on the storage of the pointer:

| storage of `p` | its `alloca` | load through `p` | store of `v` through `p` |
| --- | --- | --- | --- |
| nativized | `var $p;` | `$p` | `$p = v;` |
| any other | `var $p = STACKTOP; STACKTOP += n;` | `HEAP[$p]` | `HEAP[$p] = v;` |

`n` is the number of slots of the cell, at least one.  An address inside an
aggregate is the sum of the base and the indices other than `0`.
-/

import StructuredFlow.Storage
import StructuredFlow.Text.Identifier

namespace StructuredFlow

/-- Why an instruction cannot be written. -/
inductive StatementError
  /-- A cell is made and no name is to point to it. -/
  | allocaWithoutResult
  /-- An operator has another number of operands than it takes. -/
  | wrongArity (op : Operator) (count : Nat)
  /-- A comparison has no predicate. -/
  | missingPredicate (op : Operator)
  /-- The instruction is a control transfer. -/
  | controlTransfer (opcode : Opcode)
deriving DecidableEq, Repr

/-- What an instruction that cannot be written reports. -/
def StatementError.message : StatementError → String
  | .allocaWithoutResult => "alloca without a result"
  | .wrongArity op count => s!"{op.name} takes {op.arity} operands, got {count}"
  | .missingPredicate op => s!"{op.name} without a predicate"
  | .controlTransfer opcode => s!"{opcode.name} is a control transfer"

/-- What the names of a function stand for. -/
structure Bindings where
  /-- The classified variables. -/
  table : VariableTable := []
  /-- The parameters. -/
  params : List String := []
  /-- The struct layouts. -/
  types : TypeTable := {}
  /-- The flag that a call which unwinds sets. -/
  exceptionFlag : String
deriving DecidableEq, Repr, Inhabited

/-- The storage of a name: its own, native for a parameter, else emulated. -/
def Bindings.storage (b : Bindings) (name : String) : Storage :=
  match b.table.get? name with
  | some v => v.storage
  | none => if name ∈ b.params then .native else .emulated

/-- An operand as an expression. -/
def Operand.expression : Operand → String
  | .ssa name => Identifier.ofLocal name
  | .symbol name => Identifier.ofGlobal name
  | .literal text => text

/-- What a pointer points to as an expression. -/
def Bindings.deref (b : Bindings) (pointer : Operand) : String :=
  match pointer with
  | .ssa name =>
    if b.storage name = .nativized then Identifier.ofLocal name
    else s!"HEAP[{pointer.expression}]"
  | _ => s!"HEAP[{pointer.expression}]"

/-- An address inside an aggregate. -/
def address (base : Operand) (indices : List Operand) : String :=
  String.intercalate " + " <|
    base.expression :: (indices.filter fun index => !index.isZero).map Operand.expression

/-- A call. -/
def callExpression (callee : Operand) (args : List Operand) : String :=
  s!"{callee.expression}(" ++ String.intercalate ", " (args.map Operand.expression) ++ ")"

/-- The sign of a predicate. -/
def Comparison.sign : Comparison → String
  | .eq => "=="
  | .ne => "!="
  | .slt | .ult => "<"
  | .sle | .ule => "<="
  | .sgt | .ugt => ">"
  | .sge | .uge => ">="

/-- A comparison; an unsigned one takes both sides without sign. -/
def Comparison.expression (p : Comparison) (a b : String) : String :=
  if p.isUnsigned then s!"({a}>>>0) {p.sign} ({b}>>>0)" else s!"{a} {p.sign} {b}"

/-- The sign of an arithmetic operator; other operators have none. -/
def Operator.sign : Operator → String
  | .add | .fadd => "+"
  | .sub | .fsub => "-"
  | .mul | .fmul => "*"
  | .sdiv | .udiv | .fdiv => "/"
  | .srem | .urem => "%"
  | .and => "&"
  | .or => "|"
  | .xor => "^"
  | .shl => "<<"
  | .lshr => ">>>"
  | .ashr => ">>"
  | .icmp | .fcmp | .zext | .sext | .trunc | .sitofp | .fptosi => ""

/-- An arithmetic operator between two expressions; a division of integers is
rounded down. -/
def Operator.arithmetic (op : Operator) (a b : String) : String :=
  match op with
  | .sdiv | .udiv => s!"Math.floor({a} {op.sign} {b})"
  | _ => s!"{a} {op.sign} {b}"

/-- A conversion of an expression; only the one from floats to integers is
written. -/
def Operator.conversion (op : Operator) (a : String) : String :=
  match op with
  | .fptosi => s!"Math.trunc({a})"
  | _ => a

/-- An operator between two expressions, a comparison under its predicate. -/
def Operator.binary (op : Operator) (predicate : Option Comparison) (a b : String) :
    Except StatementError String :=
  if op.isComparison then
    match predicate with
    | some p => .ok (p.expression a b)
    | none => .error (.missingPredicate op)
  else .ok (op.arithmetic a b)

/-- An operator applied to expressions. -/
def Operator.expression (op : Operator) (predicate : Option Comparison) (args : List String) :
    Except StatementError String :=
  match op.isConversion, args with
  | true, [a] => .ok (op.conversion a)
  | false, [a, b] => op.binary predicate a b
  | _, _ => .error (.wrongArity op args.length)

/-- A statement that evaluates an expression, for a name if there is one. -/
def bindStatement (result : Option String) (expression : String) : String :=
  match result with
  | some name => s!"var {Identifier.ofLocal name} = {expression};"
  | none => s!"{expression};"

/-- The statement that makes a cell for a value of a type. -/
def Bindings.allocaStatement (b : Bindings) (name : String) (ty : Ty) : String :=
  let cell := Identifier.ofLocal name
  if b.storage name = .nativized then s!"var {cell};"
  else
    let slots := max ((b.types.flatSize ty).getD 1) 1
    s!"var {cell} = STACKTOP; STACKTOP += {slots};"

/-- The statement of an operation, for the name that it defines. -/
def Operation.statement (b : Bindings) (result : Option String) :
    Operation → Except StatementError String
  | .assign value => .ok (bindStatement result value.expression)
  | .alloca ty =>
    match result with
    | some name => .ok (b.allocaStatement name ty)
    | none => .error .allocaWithoutResult
  | .load _ pointer => .ok (bindStatement result (b.deref pointer))
  | .store _ value pointer => .ok s!"{b.deref pointer} = {value.expression};"
  | .call callee args => .ok (bindStatement result (callExpression callee args))
  | .elementPtr base indices => .ok (bindStatement result (address base indices))
  | .fusedLoad base indices =>
    .ok <| bindStatement result <|
      if isStart indices then b.deref base else s!"HEAP[{address base indices}]"
  | .bitcast value _ => .ok (bindStatement result value.expression)
  | .compute op predicate operands =>
    (op.expression predicate (operands.map Operand.expression)).map (bindStatement result)

/-- The statement of a call that may unwind, which it reports by the flag. -/
def Bindings.invokeStatement (b : Bindings) (result : Option String) (callee : Operand)
    (args : List Operand) : String :=
  let call := bindStatement result (callExpression callee args)
  b.exceptionFlag ++ " = false; try \x7b " ++ call ++ " \x7d catch (e) \x7b " ++
    b.exceptionFlag ++ " = true; \x7d"

/-- The statement of an instruction; of the control transfers only the call of an
invoke has one. -/
def Instruction.statement (b : Bindings) (inst : Instruction) : Except StatementError String :=
  match inst.action with
  | .operation op => op.statement b inst.definedName?
  | .transfer (.invoke callee args _ _) => .ok (b.invokeStatement inst.definedName? callee args)
  | .transfer _ => .error (.controlTransfer inst.opcode)

end StructuredFlow
