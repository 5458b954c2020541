/-
# The text of structured code

Code is written line by line.  Each line stands at a depth of nesting, which puts
that many indentations in front of it, and holds code, a comment, or code with a
comment behind it.  The comments are told apart, so leaving them out is an
operation on lines.  So are the texts of instructions, which hold operands as they
were given and may look like any other line.
-/

import StructuredFlow.Code

namespace StructuredFlow

/-- A line of written code. -/
inductive Line
  /-- Code. -/
  | code (depth : Nat) (text : String)
  /-- Code that is the text of an instruction. -/
  | instruction (depth : Nat) (text : String)
  /-- A comment. -/
  | comment (depth : Nat) (note : String)
  /-- Code with a comment behind it. -/
  | commented (depth : Nat) (text note : String)
deriving DecidableEq, Repr, Inhabited

namespace Line

/-- The text of a line, its end included. -/
def text (indent : String) : Line → String
  | .code depth text | .instruction depth text =>
    String.join (List.replicate depth indent) ++ text ++ "\n"
  | .comment depth note => String.join (List.replicate depth indent) ++ "// " ++ note ++ "\n"
  | .commented depth text note =>
    String.join (List.replicate depth indent) ++ text ++ " // " ++ note ++ "\n"

/-- The line without its comment; a line that is one disappears. -/
def withoutComment? : Line → Option Line
  | .code depth text => some (.code depth text)
  | .instruction depth text => some (.instruction depth text)
  | .comment _ _ => none
  | .commented depth text _ => some (.code depth text)

end Line

/-- Lines of code at one depth. -/
def linesAt (depth : Nat) (texts : List String) : List Line := texts.map (Line.code depth)

/-- The lines of a jump, if there is one. -/
def jumpLines (depth : Nat) (jump : Option Jump) : List Line :=
  linesAt depth ((jump.map Jump.lines).getD [])

/-- What opens an arm: the first with `if`, the others with `else if`. -/
def armHead (position : Nat) (test : Test) : String :=
  (if position = 0 then "" else "\x7d else ") ++ "if (" ++ test.text ++ ") \x7b"

/-- What opens the other arm of a conditional. -/
def elseHead : String := "\x7d else \x7b"

/-- What closes a construct. -/
def closing : String := "\x7d"

/-- The lines of a statement. -/
def Statement.lines (depth : Nat) : Statement → List Line
  | .comment text => [.comment depth text]
  | .action text => [.instruction depth text]
  | .jump way => linesAt depth way.lines
  | .choice arms fallback =>
    (arms.zipIdx.flatMap fun ((test, way), position) =>
      .code depth (armHead position test) :: jumpLines (depth + 1) way) ++
    (match fallback with
      | some way => .code depth elseHead :: linesAt (depth + 1) way.lines
      | none => []) ++
    [.code depth closing]
  | .ret (some value) => [.code depth s!"return {value};"]
  | .ret none => [.code depth "return;"]

/-- The lines of statements. -/
def statementLines (depth : Nat) (list : List Statement) : List Line :=
  list.flatMap (Statement.lines depth)

/-- The lines of a case. -/
def Case.lines (depth : Nat) (c : Case) : List Line :=
  let head := s!"case {c.index}: " ++ "\x7b"
  (match c.note with
    | some note => .commented depth head note
    | none => .code depth head) ::
  statementLines (depth + 1) c.body ++ [.code depth closing]

/-- The lines of code. -/
def Code.lines (depth : Nat) : Code → List Line
  | .done => []
  | .statements list next => statementLines depth list ++ next.lines depth
  | .loop name body next =>
    .code depth (name ++ ": while (true) \x7b") :: body.lines (depth + 1) ++
      .code depth closing :: next.lines depth
  | .once name body next =>
    .code depth (name ++ ": do \x7b") :: body.lines (depth + 1) ++
      .code depth "\x7d while (false);" :: next.lines depth
  | .ifThen test body next =>
    .code depth (armHead 0 test) :: body.lines (depth + 1) ++
      .code depth closing :: next.lines depth
  | .ifThenElse test first second next =>
    .code depth (armHead 0 test) :: first.lines (depth + 1) ++
      .code depth elseHead :: second.lines (depth + 1) ++
      .code depth closing :: next.lines depth
  | .dispatch name selector start cases next =>
    .code depth s!"var {selector} = {start};" ::
      .code depth (name ++ ": while (true) switch (" ++ selector ++ ") \x7b") ::
      cases.flatMap (Case.lines (depth + 1)) ++
      .code depth closing :: next.lines depth

/-- The lines of code behind other code come behind its lines. -/
theorem Code.lines_append (depth : Nat) (a b : Code) :
    (a ++ b).lines depth = a.lines depth ++ b.lines depth := by
  change (a.append b).lines depth = _
  induction a generalizing depth <;> simp_all [Code.append, Code.lines]

namespace FunctionCode

/-- The lines of the code of a function. -/
def lines (code : FunctionCode) : List Line :=
  .code 0 ("function " ++ code.name ++ "(" ++ String.intercalate ", " code.params ++ ") \x7b") ::
    code.body.lines 1 ++ [.code 0 closing]

/-- The text of the code of a function. -/
def text (indent : String) (code : FunctionCode) : String :=
  String.join (code.lines.map (Line.text indent))

end FunctionCode
end StructuredFlow
