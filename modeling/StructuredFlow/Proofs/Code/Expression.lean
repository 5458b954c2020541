/-
# Instructions that cannot be written

Whether an instruction can be written depends on the instruction alone, not on what its
names stand for (`Instruction.refusal?`).  Three kinds of operation are refused; of the
control transfers only the call of an invoke is written, and it always can be.
-/

import StructuredFlow.Code.Expression

namespace StructuredFlow

/-- No conversion compares. -/
theorem Operator.isComparison_of_isConversion {op : Operator} (h : op.isConversion = true) :
    op.isComparison = false := by
  cases op <;> first | rfl | exact absurd h Bool.false_ne_true

/-- Why an operation cannot be written for a name, if it cannot. -/
def Operation.refusal? (result : Option String) : Operation → Option StatementError
  | .alloca _ => if result.isNone then some .allocaWithoutResult else none
  | .compute op predicate operands =>
    if operands.length ≠ op.arity then some (.wrongArity op operands.length)
    else if op.isComparison && predicate.isNone then some (.missingPredicate op)
    else none
  | _ => none

/-- Why an instruction cannot be written, if it cannot. -/
def Instruction.refusal? (inst : Instruction) : Option StatementError :=
  match inst.action with
  | .operation op => op.refusal? inst.definedName?
  | .transfer _ => none

/-- Why a label cannot be written: its first instruction that cannot. -/
def Label.refusal? (label : Label) : Option StatementError :=
  label.instructions.findSome? Instruction.refusal?

/-- A label is written exactly if none of its instructions is refused. -/
theorem Label.refusal?_eq_none_iff {label : Label} :
    label.refusal? = none ↔ ∀ inst ∈ label.instructions, inst.refusal? = none :=
  List.findSome?_eq_none_iff

/-- An operator is refused for the number of its operands first, and a comparison then for want of
a predicate. -/
theorem Operator.expression_eq_error_iff {op : Operator} {predicate : Option Comparison}
    {args : List String} {error : StatementError} :
    op.expression predicate args = .error error ↔
      (if args.length ≠ op.arity then some (.wrongArity op args.length)
        else if op.isComparison && predicate.isNone then some (.missingPredicate op)
        else none) = some error := by
  unfold expression
  cases hconv : op.isConversion with
  | true =>
    have harity : op.arity = 1 := by rw [arity, hconv, if_pos rfl]
    rw [harity, isComparison_of_isConversion hconv]
    match args with
    | [] => simp
    | [_] => simp
    | _ :: _ :: _ => simp
  | false =>
    have harity : op.arity = 2 := by rw [arity, hconv, if_neg Bool.false_ne_true]
    rw [harity]
    match args with
    | [] => simp
    | [_] => simp
    | [a, b] => cases hcomp : op.isComparison <;> cases predicate <;> simp [binary, hcomp]
    | _ :: _ :: _ :: _ => simp

/-- **An operation is refused for just the reasons given.** -/
theorem Operation.statement_eq_error_iff {b : Bindings} {result : Option String} {op : Operation}
    {error : StatementError} :
    op.statement b result = .error error ↔ op.refusal? result = some error := by
  cases op with
  | alloca ty => cases result <;> simp [statement, refusal?]
  | compute op predicate operands =>
    have hlength : (operands.map Operand.expression).length = operands.length := List.length_map _
    rw [statement, refusal?, ← hlength, ← Operator.expression_eq_error_iff]
    cases op.expression predicate (operands.map Operand.expression) <;> simp [Except.map]
  | _ => simp [statement, refusal?]

/-- What an operation that is not refused is written as. -/
theorem Operation.exists_statement_eq_ok {b : Bindings} {result : Option String} {op : Operation}
    (h : op.refusal? result = none) : ∃ text, op.statement b result = .ok text := by
  cases hs : op.statement b result with
  | ok text => exact ⟨text, rfl⟩
  | error error => exact absurd (statement_eq_error_iff.mp hs) (by simp [h])

/-- An operation is written as an instruction unless it is refused. -/
theorem Instruction.statement_eq_error_iff {b : Bindings} {inst : Instruction} {op : Operation}
    (h : inst.action = .operation op) {error : StatementError} :
    inst.statement b = .error error ↔ inst.refusal? = some error := by
  rw [statement, refusal?, h]
  exact Operation.statement_eq_error_iff

end StructuredFlow
