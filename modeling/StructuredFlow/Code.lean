/-
# Structured code

The code made for a function is a chain of constructs, each written on lines of
its own.

| construct | written |
| --- | --- |
| `statements` | one after the other |
| `loop name body` | `name: while (true) {` body `}` |
| `once name body` | `name: do {` body `} while (false);` |
| `ifThen test body` | `if (test) {` body `}` |
| `ifThenElse test first second` | `if (test) {` first `} else {` second `}` |
| `dispatch name selector start cases` | `var selector = start;` |
|  | `name: while (true) switch (selector) {` cases `}` |

A `Jump` names the construct that it leaves or starts again.  One that goes to
another case of a dispatch sets the variable that selects the case and starts the
dispatch again.
-/

import StructuredFlow.Text.Identifier

namespace StructuredFlow

/-- A test of an expression. -/
structure Test where
  /-- The expression. -/
  expression : String
  /-- The test holds when the expression does not. -/
  negated : Bool := false
deriving DecidableEq, Repr, Inhabited

/-- A test as it is written. -/
def Test.text (test : Test) : String :=
  if test.negated then "!(" ++ test.expression ++ ")" else test.expression

/-- The test that holds when another does not. -/
def Test.not (test : Test) : Test := { test with negated := !test.negated }

/-- A transfer of control within a function. -/
inductive Jump
  /-- Goes on with a case of a dispatch. -/
  | redirect (selector : String) (index : Nat) (dispatch : String)
  /-- Leaves a construct. -/
  | leave (construct : String)
  /-- Starts a construct again. -/
  | restart (construct : String)
deriving DecidableEq, Repr, Inhabited

/-- The lines of a jump. -/
def Jump.lines : Jump → List String
  | .redirect selector index dispatch => [s!"{selector} = {index};", s!"continue {dispatch};"]
  | .leave construct => [s!"break {construct};"]
  | .restart construct => [s!"continue {construct};"]

/-- A statement without constructs in it. -/
inductive Statement
  /-- A comment. -/
  | comment (text : String)
  /-- The text of an instruction. -/
  | action (text : String)
  /-- A jump. -/
  | jump (way : Jump)
  /-- The jump of the first arm whose test holds, or else the last; an arm without
  a jump goes on with the next statement. -/
  | choice (arms : List (Test × Option Jump)) (fallback : Option Jump)
  /-- The end of the function. -/
  | ret (value : Option String)
deriving DecidableEq, Repr, Inhabited

/-- A case of a dispatch. -/
structure Case where
  /-- The value of the selector that chooses it. -/
  index : Nat
  /-- A comment at its head. -/
  note : Option String := none
  /-- What it does. -/
  body : List Statement
deriving DecidableEq, Repr, Inhabited

/-- A chain of constructs. -/
inductive Code
  /-- The end of a chain. -/
  | done
  /-- Statements. -/
  | statements (list : List Statement) (next : Code)
  /-- A loop that only jumps leave. -/
  | loop (name : String) (body next : Code)
  /-- A body that jumps can leave early. -/
  | once (name : String) (body next : Code)
  /-- A body that runs if a test holds. -/
  | ifThen (test : Test) (body next : Code)
  /-- Two bodies, one of which runs. -/
  | ifThenElse (test : Test) (first second next : Code)
  /-- Cases that jump among each other, beginning with the one of index `start`. -/
  | dispatch (name selector : String) (start : Nat) (cases : List Case) (next : Code)
deriving DecidableEq, Repr, Inhabited

namespace Code

/-- A chain followed by another. -/
def append : Code → Code → Code
  | .done, after => after
  | .statements list next, after => .statements list (next.append after)
  | .loop name body next, after => .loop name body (next.append after)
  | .once name body next, after => .once name body (next.append after)
  | .ifThen test body next, after => .ifThen test body (next.append after)
  | .ifThenElse test first second next, after => .ifThenElse test first second (next.append after)
  | .dispatch name selector start cases next, after =>
    .dispatch name selector start cases (next.append after)

instance : Append Code := ⟨append⟩

@[simp] theorem append_done (code : Code) : code ++ Code.done = code := by
  change code.append .done = code
  induction code <;> simp_all [append]

end Code

/-- The code of a function. -/
structure FunctionCode where
  /-- The identifier of the function. -/
  name : String
  /-- The identifiers of its parameters. -/
  params : List String
  /-- What it does. -/
  body : Code
deriving DecidableEq, Repr, Inhabited

end StructuredFlow
