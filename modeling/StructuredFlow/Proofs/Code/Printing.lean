/-
# What printed code is read as

The text of a function shows its lines (`FunctionCode.shows_text`).  Each construct of code
stands for a script (`Code.script`), with what follows it as a variable.  The lines of code
are read as this script, in front of any lines that were read before (`readAll_lines`), so a
function is read as the script of its body (`read?_lines`).  To run the script is to run the
code, if tests are read as they are written (`exec_script`), and its dispatches are those
printed for the code (`dispatches_script`).

What is read must have been written in such a way that no line stands for two things
(`Code.Legible`).

| in the code | has |
| --- | --- |
| a construct | a name with `L_` or `D_` in front and no colon |
| a jump that starts a dispatch again | an assignment in front of it |
| any other jump | no name with `D_` in front, if it starts a construct again |
| a dispatch | the variable that dispatches switch on |
| a conditional | an arm |
-/

import StructuredFlow.Proofs.Code.Dispatches
import StructuredFlow.Proofs.Code.Reading
import StructuredFlow.Proofs.Text.Naming

namespace StructuredFlow

universe u

variable {σ : Type u}

/-! ### Lines of text -/

namespace Line

/-- The depth of nesting that a line stands at. -/
def depth : Line → Nat
  | .code depth _ | .instruction depth _ | .comment depth _ | .commented depth _ _ => depth

/-- What a line shows behind its indentation. -/
def shown : Line → String
  | .code _ text | .instruction _ text => text
  | .comment _ note => "// " ++ note
  | .commented _ text note => text ++ " // " ++ note

end Line

/-- A text shows lines one after the other: each behind as many indentations as its depth
says, and with an end of line behind it. -/
def Shows (indent : String) (lines : List Line) (text : String) : Prop :=
  text = String.join (lines.map fun line =>
    String.join (List.replicate line.depth indent) ++ line.shown ++ "\n")

/-- **The text of a function shows its lines.** -/
theorem FunctionCode.shows_text (code : FunctionCode) (indent : String) :
    Shows indent code.lines (code.text indent) := by
  refine congrArg String.join (List.map_congr_left fun line _ => ?_)
  cases line with
  | code depth text | instruction depth text => rfl
  | comment depth note | commented depth text note =>
    simp only [Line.text, Line.depth, Line.shown, String.append_assoc]

/-! ### Scripts of code -/

/-- What a jump is read as, in front of a script. -/
def Jump.script (next : Script) : Jump → Script
  | .redirect selector index dispatch => .assign selector index (.restart dispatch next)
  | .leave construct => .leave construct next
  | .restart construct => .restart construct next

/-- What a jump is read as, if there is one. -/
def jumpScript (way : Option Jump) (next : Script) : Script := way.elim next (Jump.script next)

/-- What is read between the first arm of a conditional and its end, if anything stands
there: a conditional over the next arm, or the last. -/
def armsScript : List (Test × Option Jump) → Option Jump → Option Script
  | [], fallback => fallback.map (Jump.script .done)
  | (test, way) :: arms, fallback =>
    some (.branch test.text (jumpScript way .done) ((armsScript arms fallback).getD .done) .done)

/-- What a statement is read as, in front of a script. -/
def Statement.script (next : Script) : Statement → Script
  | .comment _ => next
  | .action text => .perform text next
  | .jump way => way.script next
  | .choice [] fallback => jumpScript fallback next
  | .choice ((test, way) :: arms) fallback =>
    .branch test.text (jumpScript way .done) ((armsScript arms fallback).getD .done) next
  | .ret value => .ret value next

/-- What statements are read as. -/
def statementsScript (list : List Statement) (next : Script) : Script :=
  list.foldr (fun statement next => statement.script next) next

/-- What the cases of a dispatch are read as. -/
def casesScript (cases : List Case) : Script :=
  cases.foldr (fun c next => .clause c.index (statementsScript c.body .done) next) .done

/-- What code is read as. -/
def Code.script : Code → Script → Script
  | .done, after => after
  | .statements list next, after => statementsScript list (next.script after)
  | .loop name body next, after => .loop name (body.script .done) (next.script after)
  | .once name body next, after => .once name (body.script .done) (next.script after)
  | .ifThen test body next, after =>
    .branch test.text (body.script .done) .done (next.script after)
  | .ifThenElse test first second next, after =>
    .branch test.text (first.script .done) (second.script .done) (next.script after)
  | .dispatch name selector start cases next, after =>
    .assign selector start (.dispatch name selector (casesScript cases) (next.script after))

/-! ### Code that can be read -/

/-- A jump whose lines stand for one thing only. -/
def Jump.Legible (selector : String) : Jump → Prop
  | .redirect name _ dispatch => name = selector ∧ "D_".toList <+: dispatch.toList
  | .leave _ => True
  | .restart construct => ¬"D_".toList <+: construct.toList

/-- A statement whose lines stand for one thing only. -/
structure Statement.Legible (selector : String) (statement : Statement) : Prop where
  /-- So do those of its jumps. -/
  jumps : ∀ way ∈ statement.jumps, way.Legible selector
  /-- A conditional has an arm. -/
  ne_choice : ∀ fallback, statement ≠ .choice [] fallback

/-- Code whose lines stand for one thing only. -/
def Code.Legible (selector : String) : Code → Prop
  | .done => True
  | .statements list next =>
    (∀ statement ∈ list, statement.Legible selector) ∧ next.Legible selector
  | .loop name body next | .once name body next =>
    IsConstruct name ∧ body.Legible selector ∧ next.Legible selector
  | .ifThen _ body next => body.Legible selector ∧ next.Legible selector
  | .ifThenElse _ first second next =>
    first.Legible selector ∧ second.Legible selector ∧ next.Legible selector
  | .dispatch name selector' _ cases next =>
    (IsConstruct name ∧ selector' = selector) ∧
      (∀ c ∈ cases, ∀ statement ∈ c.body, statement.Legible selector) ∧ next.Legible selector

/-- Code that can be read, behind code that can, makes code that can. -/
theorem Code.legible_append {selector : String} {a b : Code} (ha : a.Legible selector)
    (hb : b.Legible selector) : (a ++ b).Legible selector := by
  change (a.append b).Legible selector
  induction a with
  | done => exact hb
  | statements list next ih => exact ⟨ha.1, ih ha.2⟩
  | loop name body next _ ih => exact ⟨ha.1, ha.2.1, ih ha.2.2⟩
  | once name body next _ ih => exact ⟨ha.1, ha.2.1, ih ha.2.2⟩
  | ifThen test body next _ ih => exact ⟨ha.1, ih ha.2⟩
  | ifThenElse test first second next _ _ ih => exact ⟨ha.1, ha.2.1, ih ha.2.2⟩
  | dispatch name selector' start cases next ih => exact ⟨ha.1, ha.2.1, ih ha.2.2⟩

/-! ### The lines are read as the script -/

section Lines

variable {selector : String} {z : Reading} {depth : Nat} {next : Script}

/-- The lines of a jump begin with an assignment where one is needed. -/
theorem Jump.needsAssignment_script {way : Jump} (h : way.Legible selector) :
    (way.script next).needsAssignment = false := by
  cases way with
  | redirect name index dispatch => rfl
  | leave construct => rfl
  | restart construct =>
    exact Bool.eq_false_iff.mpr fun hprefix => h (List.isPrefixOf_iff_prefix.mp hprefix)

/-- In front of a jump, or of what follows where there is none, no assignment is looked for. -/
theorem needsAssignment_jumpScript {way : Option Jump} (h : ∀ jump ∈ way, jump.Legible selector)
    (hnext : next.needsAssignment = false) : (jumpScript way next).needsAssignment = false := by
  cases way with
  | none => exact hnext
  | some jump => exact Jump.needsAssignment_script (h jump rfl)

/-- In front of a statement no assignment is looked for. -/
theorem Statement.needsAssignment_script {statement : Statement} (h : statement.Legible selector)
    (hnext : next.needsAssignment = false) : (statement.script next).needsAssignment = false := by
  cases statement with
  | comment text => exact hnext
  | action text => rfl
  | jump way => exact Jump.needsAssignment_script (h.jumps way (List.mem_singleton_self way))
  | choice arms fallback =>
    cases arms with
    | nil => exact absurd rfl (h.ne_choice fallback)
    | cons arm arms => rfl
  | ret value => rfl

/-- In front of statements no assignment is looked for. -/
theorem needsAssignment_statementsScript {list : List Statement}
    (h : ∀ statement ∈ list, statement.Legible selector) (hnext : next.needsAssignment = false) :
    (statementsScript list next).needsAssignment = false := by
  induction list with
  | nil => exact hnext
  | cons statement list ih =>
    obtain ⟨hstatement, hlist⟩ := List.forall_mem_cons.mp h
    exact Statement.needsAssignment_script hstatement (ih hlist)

/-- In front of the cases of a dispatch no assignment is looked for. -/
theorem needsAssignment_casesScript (cases : List Case) :
    (casesScript cases).needsAssignment = false := by
  cases cases <;> rfl

/-- The script of code begins with an assignment where one is needed. -/
theorem Code.needsAssignment_script {code : Code} (h : code.Legible selector)
    (hnext : next.needsAssignment = false) : (code.script next).needsAssignment = false := by
  induction code with
  | done => exact hnext
  | statements list after ih => exact needsAssignment_statementsScript h.1 (ih h.2)
  | _ => rfl

namespace Reading

/-- A line in front of others is read where they have been read. -/
theorem readAll_cons {line : Line} {lines : List Line} {z' : Reading}
    (h : z.readAll selector lines = some z') :
    z.readAll selector (line :: lines) = z'.readLine selector line := by
  rw [readAll, h, Option.bind_some]

/-- Lines in front of others are read where they have been read. -/
theorem readAll_append_of_eq (lines : List Line) {lines' : List Line} {z' : Reading}
    (h : z.readAll selector lines' = some z') :
    z.readAll selector (lines ++ lines') = z'.readAll selector lines := by
  rw [readAll_append, h, Option.bind_some]

/-- Where no assignment can stand a mark in front of lines is read as what it says. -/
theorem readAll_mark_cons (mark : Mark) {lines : List Line} {z' : Reading}
    (h : z.readAll selector lines = some z') (hmark : mark.Named)
    (hz : z'.script.needsAssignment = false) :
    z.readAll selector (.code depth mark.text :: lines) = z'.readMark mark := by
  rw [readAll_cons h]
  exact readAll_mark mark hmark hz depth

/-- The assignment in front of a jump that starts a dispatch again is read. -/
theorem assigned?_restart {dispatch : String} (h : "D_".toList <+: dispatch.toList) (index : Nat)
    (hscript : z.script = .restart dispatch next) :
    z.assigned? selector (selector ++ " = " ++ toString index ++ ";") = some index := by
  rw [assigned?, hscript]
  dsimp only
  rw [if_pos (List.isPrefixOf_iff_prefix.mpr h), between?_eq_some_iff.mpr rfl, Option.bind_some,
    number?_toString]

/-- The declaration in front of a dispatch is read. -/
theorem assigned?_dispatch {name selector' : String} {cases : Script} (start : Nat)
    (hscript : z.script = .dispatch name selector' cases next) :
    z.assigned? selector ("var " ++ selector ++ " = " ++ toString start ++ ";") = some start := by
  rw [assigned?, hscript]
  dsimp only
  rw [between?_eq_some_iff.mpr rfl, Option.bind_some, number?_toString]

/-- **The lines of a jump are read as it.** -/
theorem readAll_jump {way : Jump} (h : way.Legible selector)
    (hz : z.script.needsAssignment = false) :
    z.readAll selector (linesAt depth way.lines) =
      some { z with script := way.script z.script } := by
  cases way with
  | leave construct => exact readAll_mark (.leaves construct) trivial hz depth
  | restart construct => exact readAll_mark (.restarts construct) trivial hz depth
  | redirect name index dispatch =>
    obtain ⟨rfl, hdispatch⟩ := h
    have hrestart : z.readAll name [.code depth s!"continue {dispatch};"] =
        some { z with script := .restart dispatch z.script } :=
      readAll_mark (.restarts dispatch) trivial hz depth
    change z.readAll name (_ :: [.code depth s!"continue {dispatch};"]) = _
    rw [readAll_cons hrestart]
    change readText name _ (name ++ " = " ++ toString index ++ ";") = _
    rw [readText, assigned?_restart hdispatch index rfl]
    rfl

/-- The lines of a jump are read as it, if there is one. -/
theorem readAll_jumpLines {way : Option Jump} (h : ∀ jump ∈ way, jump.Legible selector)
    (hz : z.script.needsAssignment = false) :
    z.readAll selector (jumpLines depth way) =
      some { z with script := jumpScript way z.script } := by
  cases way with
  | none => rfl
  | some jump => exact readAll_jump (h jump rfl) hz

/-- **The lines behind the first arm of a conditional are read as its other arms.** -/
theorem readAll_armLines {arms : List (Test × Option Jump)} {fallback : Option Jump}
    (harms : ∀ arm ∈ arms, ∀ jump ∈ arm.2, jump.Legible selector)
    (hfallback : ∀ jump ∈ fallback, jump.Legible selector)
    (hz : z.script.needsAssignment = false) (depth position : Nat) :
    z.readAll selector (armLines depth (position + 1) arms fallback) =
      some ⟨.done, (.brace (armsScript arms fallback), z.script) :: z.around⟩ := by
  have hclosing : z.readAll selector [.code depth closing] =
      some ⟨.done, (.brace none, z.script) :: z.around⟩ :=
    readAll_mark .closes trivial hz depth
  induction arms generalizing position with
  | nil =>
    cases fallback with
    | none => exact hclosing
    | some way =>
      have hway : z.readAll selector (linesAt (depth + 1) way.lines ++ [.code depth closing]) =
          some ⟨way.script .done, (.brace none, z.script) :: z.around⟩ := by
        rw [readAll_append_of_eq _ hclosing]
        exact readAll_jump (hfallback way rfl) rfl
      exact readAll_mark_cons .otherwise hway trivial
        (Jump.needsAssignment_script (hfallback way rfl))
  | cons arm arms ih =>
    obtain ⟨test, way⟩ := arm
    obtain ⟨hway, harms⟩ := List.forall_mem_cons.mp harms
    rw [armLines_cons]
    have hrest := readAll_append_of_eq (jumpLines (depth + 1) way) (ih harms (position + 1))
    rw [readAll_jumpLines hway rfl] at hrest
    exact readAll_mark_cons (.otherwiseIf test.text) hrest trivial
      (needsAssignment_jumpScript hway rfl)

/-- **The lines of a statement are read as it.** -/
theorem readAll_statement {statement : Statement} (h : statement.Legible selector)
    (hz : z.script.needsAssignment = false) :
    z.readAll selector (statement.lines depth) =
      some { z with script := statement.script z.script } := by
  cases statement with
  | comment text => rfl
  | action text => rfl
  | jump way => exact readAll_jump (h.jumps way (List.mem_singleton_self way)) hz
  | choice arms fallback =>
    cases arms with
    | nil => exact absurd rfl (h.ne_choice fallback)
    | cons arm arms =>
      obtain ⟨test, way⟩ := arm
      have hways : ∀ arm ∈ (test, way) :: arms, ∀ jump ∈ arm.2, jump.Legible selector :=
        fun arm harm jump hjump => h.jumps jump
          (List.mem_append_left _ (List.mem_filterMap.mpr ⟨arm, harm, hjump⟩))
      have hfallback : ∀ jump ∈ fallback, jump.Legible selector := fun jump hjump =>
        h.jumps jump (List.mem_append_right _ (Option.mem_toList.mpr hjump))
      obtain ⟨hway, harms⟩ := List.forall_mem_cons.mp hways
      have hrest := readAll_append_of_eq (jumpLines (depth + 1) way)
        (readAll_armLines harms hfallback hz depth 0)
      rw [readAll_jumpLines hway rfl] at hrest
      change z.readAll selector (armLines depth 0 ((test, way) :: arms) fallback) = _
      rw [armLines_cons]
      exact readAll_mark_cons (.opensIf test.text) hrest trivial
        (needsAssignment_jumpScript hway rfl)
  | ret value =>
    cases value with
    | none => exact readAll_mark (.returns none) trivial hz depth
    | some value => exact readAll_mark (.returns (some value)) trivial hz depth

/-- **The lines of statements are read as them.** -/
theorem readAll_statementLines {list : List Statement}
    (h : ∀ statement ∈ list, statement.Legible selector) (hz : z.script.needsAssignment = false) :
    z.readAll selector (statementLines depth list) =
      some { z with script := statementsScript list z.script } := by
  induction list with
  | nil => rfl
  | cons statement list ih =>
    obtain ⟨hstatement, hlist⟩ := List.forall_mem_cons.mp h
    rw [statementLines, List.flatMap_cons]
    change z.readAll selector (_ ++ statementLines depth list) = _
    rw [readAll_append_of_eq _ (ih hlist)]
    exact readAll_statement hstatement (needsAssignment_statementsScript hlist hz)

/-- **The lines of a construct are read as it**, if those of its body are. -/
theorem readAll_enclosed (mark closing : Mark) {ending : Ending} {body rest : List Line}
    {script after : Script} {z' : Reading}
    (hrest : z.readAll selector rest = some { z with script := after })
    (hafter : after.needsAssignment = false) (hmark : mark.Named) (hclosing : closing.Named)
    (hcloses : ∀ z : Reading, z.readMark closing = some ⟨.done, (ending, z.script) :: z.around⟩)
    (hbody : ∀ around, (⟨.done, around⟩ : Reading).readAll selector body = some ⟨script, around⟩)
    (hscript : script.needsAssignment = false)
    (hopens : (⟨script, (ending, after) :: z.around⟩ : Reading).readMark mark = some z') :
    z.readAll selector (.code depth mark.text :: body ++ .code depth closing.text :: rest) =
      some z' := by
  have hend : z.readAll selector (.code depth closing.text :: rest) =
      some ⟨.done, (ending, after) :: z.around⟩ := by
    rw [readAll_mark_cons closing hrest hclosing hafter, hcloses]
  have hinside := readAll_append_of_eq body hend
  rw [hbody] at hinside
  rw [List.cons_append, readAll_mark_cons mark hinside hmark hscript, hopens]

/-- **The lines of a conditional with two bodies are read as it**, if those of its bodies are. -/
theorem readAll_divided (test : String) {first second rest : List Line}
    {ifTrue ifFalse after : Script}
    (hrest : z.readAll selector rest = some { z with script := after })
    (hafter : after.needsAssignment = false)
    (hfirst : ∀ around, (⟨.done, around⟩ : Reading).readAll selector first = some ⟨ifTrue, around⟩)
    (htrue : ifTrue.needsAssignment = false)
    (hsecond : ∀ around,
      (⟨.done, around⟩ : Reading).readAll selector second = some ⟨ifFalse, around⟩)
    (hfalse : ifFalse.needsAssignment = false) :
    z.readAll selector (.code depth (Mark.opensIf test).text :: first ++
        .code depth elseHead :: second ++ .code depth closing :: rest) =
      some { z with script := .branch test ifTrue ifFalse after } := by
  have hend : z.readAll selector (.code depth closing :: rest) =
      some ⟨.done, (.brace none, after) :: z.around⟩ :=
    readAll_mark_cons .closes hrest trivial hafter
  have helse := readAll_append_of_eq second hend
  rw [hsecond] at helse
  have hdivided : z.readAll selector
      (.code depth elseHead :: (second ++ .code depth closing :: rest)) =
      some ⟨.done, (.brace (some ifFalse), after) :: z.around⟩ :=
    readAll_mark_cons .otherwise helse trivial hfalse
  have hthen := readAll_append_of_eq first hdivided
  rw [hfirst] at hthen
  simp only [List.cons_append, List.append_assoc]
  exact readAll_mark_cons (.opensIf test) hthen trivial htrue

/-- **The lines of cases are read as them.** -/
theorem readAll_caseLines {cases : List Case}
    (h : ∀ c ∈ cases, ∀ statement ∈ c.body, statement.Legible selector)
    (around : List (Ending × Script)) :
    (⟨.done, around⟩ : Reading).readAll selector (cases.flatMap (Case.lines depth)) =
      some ⟨casesScript cases, around⟩ := by
  induction cases with
  | nil => rfl
  | cons c cases ih =>
    obtain ⟨hc, hcases⟩ := List.forall_mem_cons.mp h
    rw [List.flatMap_cons, readAll_append_of_eq _ (ih hcases)]
    have htext : s!"case {c.index}: " ++ "\x7b" = (Mark.opensCase c.index).text := by
      change "case " ++ toString c.index ++ ": " ++ "\x7b" = _
      rw [String.append_assoc]
      rfl
    have hhead : (⟨casesScript cases, around⟩ : Reading).readAll selector (c.lines depth) =
        (⟨casesScript cases, around⟩ : Reading).readAll selector
          (.code depth (Mark.opensCase c.index).text :: statementLines (depth + 1) c.body ++
            [.code depth Mark.closes.text]) := by
      rw [Case.lines, htext]
      cases c.note <;> rfl
    rw [hhead]
    exact readAll_enclosed (.opensCase c.index) .closes rfl (needsAssignment_casesScript cases)
      trivial trivial (fun _ => rfl) (fun around => readAll_statementLines hc rfl)
      (needsAssignment_statementsScript hc rfl) rfl

/-- **The lines of code are read as its script**, whatever was read behind them. -/
theorem readAll_lines {code : Code} (h : code.Legible selector)
    (hz : z.script.needsAssignment = false) (depth : Nat) :
    z.readAll selector (code.lines depth) = some { z with script := code.script z.script } := by
  induction code generalizing z depth with
  | done => rfl
  | statements list next ih =>
    obtain ⟨hlist, hnext⟩ := h
    rw [Code.lines, readAll_append_of_eq _ (ih hnext hz depth)]
    exact readAll_statementLines hlist (Code.needsAssignment_script hnext hz)
  | loop name body next ihBody ih =>
    obtain ⟨hname, hbody, hnext⟩ := h
    exact readAll_enclosed (.opensLoop name) .closes (ih hnext hz depth)
      (Code.needsAssignment_script hnext hz) hname trivial (fun _ => rfl)
      (fun around => ihBody hbody rfl (depth + 1)) (Code.needsAssignment_script hbody rfl) rfl
  | once name body next ihBody ih =>
    obtain ⟨hname, hbody, hnext⟩ := h
    exact readAll_enclosed (.opensOnce name) .closesOnce (ih hnext hz depth)
      (Code.needsAssignment_script hnext hz) hname trivial (fun _ => rfl)
      (fun around => ihBody hbody rfl (depth + 1)) (Code.needsAssignment_script hbody rfl) rfl
  | ifThen test body next ihBody ih =>
    obtain ⟨hbody, hnext⟩ := h
    exact readAll_enclosed (.opensIf test.text) .closes (ih hnext hz depth)
      (Code.needsAssignment_script hnext hz) trivial trivial (fun _ => rfl)
      (fun around => ihBody hbody rfl (depth + 1)) (Code.needsAssignment_script hbody rfl) rfl
  | ifThenElse test first second next ihFirst ihSecond ih =>
    obtain ⟨hfirst, hsecond, hnext⟩ := h
    exact readAll_divided test.text (ih hnext hz depth) (Code.needsAssignment_script hnext hz)
      (fun around => ihFirst hfirst rfl (depth + 1)) (Code.needsAssignment_script hfirst rfl)
      (fun around => ihSecond hsecond rfl (depth + 1)) (Code.needsAssignment_script hsecond rfl)
  | dispatch name selector' start cases next ih =>
    obtain ⟨⟨hname, rfl⟩, hcases, hnext⟩ := h
    have hdispatch : z.readAll selector' (.code depth (Mark.opensDispatch name selector').text ::
        cases.flatMap (Case.lines (depth + 1)) ++ .code depth closing :: next.lines depth) =
        some { z with
          script := .dispatch name selector' (casesScript cases) (next.script z.script) } :=
      readAll_enclosed (.opensDispatch name selector') .closes (ih hnext hz depth)
        (Code.needsAssignment_script hnext hz) hname trivial (fun _ => rfl)
        (readAll_caseLines hcases) (needsAssignment_casesScript cases) rfl
    have hlines : (Code.dispatch name selector' start cases next).lines depth =
        .code depth ("var " ++ selector' ++ " = " ++ toString start ++ ";") ::
          (.code depth (Mark.opensDispatch name selector').text ::
            cases.flatMap (Case.lines (depth + 1)) ++ .code depth closing :: next.lines depth) := by
      simp only [Code.lines, List.cons_append]
      rfl
    rw [hlines, readAll_cons hdispatch]
    change readText selector' _ ("var " ++ selector' ++ " = " ++ toString start ++ ";") = _
    rw [readText, assigned?_dispatch start rfl]
    rfl

end Reading

/-- **The lines of a function are read as the script of its body.** -/
theorem read?_lines {code : FunctionCode} (h : code.body.Legible selector) :
    Script.read? selector code.lines = some (code.body.script .done) := by
  have hhead : between? "function " ") \x7b"
      ("function " ++ code.name ++ "(" ++ String.intercalate ", " code.params ++ ") \x7b") =
      some (code.name ++ "(" ++ String.intercalate ", " code.params) :=
    between?_eq_some_iff.mpr (by simp only [String.append_assoc])
  have hend : (⟨.done, []⟩ : Reading).readAll selector [.code 0 closing] =
      some ⟨.done, [(.brace none, .done)]⟩ := Reading.readAll_mark .closes trivial rfl 0
  have hbody := Reading.readAll_append_of_eq (code.body.lines 1) hend
  rw [Reading.readAll_lines h rfl 1] at hbody
  rw [FunctionCode.lines, List.cons_append, Script.read?, hhead, hbody]

end Lines

/-! ### Running the script -/

section Runs

variable (I : Interpretation σ) (limit : Nat)

/-- Where tests are read as they are written, the text of a test says what the test does. -/
theorem holds_text (test : Test) (m : Machine σ) :
    I.negating.holds test.text m.progress.state = test.holds I.negating m := by
  obtain ⟨e, negated⟩ := test
  cases negated with
  | false => exact (Bool.bne_false _).symm
  | true => exact (I.negating_holds_not e _).trans (Bool.bne_true _).symm

/-- To run what a jump is read as is to take it; what follows is not reached. -/
theorem Jump.exec_script (way : Jump) (next : Script) (m : Machine σ) :
    (way.script next).exec I limit m = way.take m := by
  cases way <;> rfl

/-- To run what a jump is read as is to take it, or to go on if there is none. -/
theorem exec_jumpScript (way : Option Jump) (next : Script) (m : Machine σ) :
    (jumpScript way next).exec I limit m = (takeJump m way).andThen (next.exec I limit) := by
  cases way with
  | none => rfl
  | some way => cases way <;> rfl

/-- A conditional takes the jump of the first arm whose test holds, or else the last. -/
theorem exec_armsScript (arms : List (Test × Option Jump)) (fallback : Option Jump)
    (m : Machine σ) : ((armsScript arms fallback).getD .done).exec I.negating limit m =
      takeJump m (chosenJump I.negating m arms fallback) := by
  induction arms with
  | nil => cases fallback with
    | none => rfl
    | some way => exact way.exec_script _ _ _ _
  | cons arm arms ih =>
    obtain ⟨test, way⟩ := arm
    have hchosen : chosenJump I.negating m ((test, way) :: arms) fallback =
        if test.holds I.negating m then way else chosenJump I.negating m arms fallback := by
      rw [chosenJump, List.find?_cons]
      cases test.holds I.negating m <;> rfl
    change CodeRun.andThen (if I.negating.holds test.text m.progress.state then _ else _) _ = _
    rw [hchosen, holds_text, ih, exec_jumpScript]
    cases test.holds I.negating m with
    | false => exact CodeRun.andThen_self _
    | true => exact (CodeRun.andThen_self _).trans (CodeRun.andThen_self _)

/-- To run what a statement is read as is to run it. -/
theorem Statement.exec_script (statement : Statement) (next : Script) (m : Machine σ) :
    (statement.script next).exec I.negating limit m =
      (statement.exec I.negating m).andThen (next.exec I.negating limit) := by
  cases statement with
  | comment text => rfl
  | action text => rfl
  | jump way => cases way <;> rfl
  | choice arms fallback =>
    cases arms with
    | nil => exact exec_jumpScript _ _ fallback next m
    | cons arm arms =>
      have harms := exec_armsScript I limit (arm :: arms) fallback m
      change _ = (takeJump m _).andThen _
      rw [← harms]
      exact congrArg (CodeRun.andThen · (next.exec I.negating limit)) (CodeRun.andThen_self _).symm
  | ret value => rfl

/-- To run what statements are read as is to run them one after the other. -/
theorem exec_statementsScript (list : List Statement) (next : Script) (m : Machine σ) :
    (statementsScript list next).exec I.negating limit m =
      (execAll I.negating list m).andThen (next.exec I.negating limit) := by
  induction list generalizing m with
  | nil => rfl
  | cons statement list ih =>
    change (statement.script (statementsScript list next)).exec I.negating limit m = _
    rw [Statement.exec_script, execAll, CodeRun.andThen_assoc]
    exact congrArg _ (funext ih)

/-- Cases that are run on into are run one after the other. -/
theorem exec_casesScript (cases : List Case) (m : Machine σ) :
    (casesScript cases).exec I.negating limit m =
      execAll I.negating (cases.flatMap Case.body) m := by
  induction cases generalizing m with
  | nil => rfl
  | cons c cases ih =>
    change ((statementsScript c.body .done).exec I.negating limit m).andThen _ = _
    rw [List.flatMap_cons, execAll_append, exec_statementsScript]
    change ((execAll I.negating c.body m).andThen fun m => (.falls, m)).andThen _ = _
    rw [CodeRun.andThen_self]
    exact congrArg _ (funext ih)

/-- **A switch runs the first case of the value and those behind it.** -/
theorem execFrom_casesScript (cases : List Case) (value : Nat) (m : Machine σ) :
    Script.execFrom I.negating limit (casesScript cases) value m =
      execAll I.negating (casesFrom cases value) m := by
  induction cases with
  | nil => rfl
  | cons c cases ih =>
    change (if c.index = value then _ else _) = _
    rw [casesFrom, List.dropWhile_cons]
    by_cases h : c.index = value
    · rw [if_pos h, if_neg (by simp [h])]
      exact exec_casesScript I limit (c :: cases) m
    · rw [if_neg h, if_pos (by simp [h])]
      exact ih

/-- **To run the script is to run the code**, where tests are read as they are written. -/
theorem exec_script (code : Code) (after : Script) (m : Machine σ) :
    (code.script after).exec I.negating limit m =
      (code.exec I.negating limit m).andThen (after.exec I.negating limit) := by
  have hbody : ∀ {code : Code}, (∀ (after : Script) (m : Machine σ),
      (code.script after).exec I.negating limit m =
        (code.exec I.negating limit m).andThen (after.exec I.negating limit)) →
      (code.script .done).exec I.negating limit = code.exec I.negating limit := fun h =>
    funext fun m => (h .done m).trans (CodeRun.andThen_self _)
  induction code generalizing after m with
  | done => rfl
  | statements list next ih =>
    rw [Code.script, Code.exec, exec_statementsScript, CodeRun.andThen_assoc]
    exact congrArg _ (funext (ih after))
  | loop name body next ihBody ih =>
    rw [Code.script, Script.exec, Code.exec, CodeRun.andThen_assoc, hbody ihBody]
    exact congrArg _ (funext (ih after))
  | once name body next ihBody ih =>
    rw [Code.script, Script.exec, Code.exec, CodeRun.andThen_assoc, hbody ihBody]
    exact congrArg _ (funext (ih after))
  | ifThen test body next ihBody ih =>
    rw [Code.script, Script.exec, Code.exec, CodeRun.andThen_assoc, hbody ihBody, holds_text]
    exact congrArg _ (funext (ih after))
  | ifThenElse test first second next ihFirst ihSecond ih =>
    rw [Code.script, Script.exec, Code.exec, CodeRun.andThen_assoc, hbody ihFirst, hbody ihSecond,
      holds_text]
    exact congrArg _ (funext (ih after))
  | dispatch name selector start cases next ih =>
    rw [Code.script, Script.exec, Script.exec, Code.exec, CodeRun.andThen_assoc]
    simp only [execFrom_casesScript]
    exact congrArg _ (funext (ih after))

end Runs

/-! ### The dispatches of the script -/

/-- A jump assigns what it does, and what follows comes behind it. -/
theorem assigns_jumpScript (way : Option Jump) (next : Script) :
    (jumpScript way next).assigns = way.toList.filterMap Jump.assigns? ++ next.assigns := by
  cases way with
  | none => rfl
  | some way => cases way <;> rfl

/-- There is no dispatch in a jump. -/
theorem dispatches_jumpScript (way : Option Jump) (next : Script) :
    (jumpScript way next).dispatches = next.dispatches := by
  cases way with
  | none => rfl
  | some way => cases way <;> rfl

/-- The other arms of a conditional assign what their jumps do. -/
theorem assigns_armsScript (arms : List (Test × Option Jump)) (fallback : Option Jump) :
    ((armsScript arms fallback).getD .done).assigns =
      (arms.filterMap Prod.snd ++ fallback.toList).filterMap Jump.assigns? := by
  induction arms with
  | nil => cases fallback with
    | none => rfl
    | some way => exact (assigns_jumpScript (some way) .done).trans (List.append_nil _)
  | cons arm arms ih =>
    obtain ⟨test, way⟩ := arm
    change (jumpScript way .done).assigns ++ ((armsScript arms fallback).getD .done).assigns ++
      [] = _
    have hjumps : ((test, way) :: arms).filterMap Prod.snd =
        way.toList ++ arms.filterMap Prod.snd := by
      cases way <;> rfl
    rw [ih, assigns_jumpScript, hjumps, List.filterMap_append]
    simp [Script.assigns]

/-- There is no dispatch in the arms of a choice. -/
theorem dispatches_armsScript (arms : List (Test × Option Jump)) (fallback : Option Jump) :
    ((armsScript arms fallback).getD .done).dispatches = [] := by
  induction arms with
  | nil => cases fallback with
    | none => rfl
    | some way => exact dispatches_jumpScript (some way) .done
  | cons arm arms ih =>
    obtain ⟨test, way⟩ := arm
    change (jumpScript way .done).dispatches ++
      ((armsScript arms fallback).getD .done).dispatches ++ [] = _
    rw [ih, dispatches_jumpScript]
    rfl

/-- A statement assigns what its jumps do, and what follows comes behind it. -/
theorem Statement.assigns_script (statement : Statement) (next : Script) :
    (statement.script next).assigns =
      statement.jumps.filterMap Jump.assigns? ++ next.assigns := by
  cases statement with
  | jump way => exact assigns_jumpScript (some way) next
  | choice arms fallback =>
    cases arms with
    | nil => exact assigns_jumpScript fallback next
    | cons arm arms =>
      have harms := assigns_armsScript (arm :: arms) fallback
      change _ = List.filterMap Jump.assigns? (_ ++ _) ++ _
      rw [← harms]
      exact congrArg (· ++ next.assigns) (List.append_nil _).symm
  | _ => rfl

/-- There is no dispatch in a statement. -/
theorem Statement.dispatches_script (statement : Statement) (next : Script) :
    (statement.script next).dispatches = next.dispatches := by
  cases statement with
  | jump way => exact dispatches_jumpScript (some way) next
  | choice arms fallback =>
    cases arms with
    | nil => exact dispatches_jumpScript fallback next
    | cons arm arms =>
      have harms := dispatches_armsScript (arm :: arms) fallback
      exact congrArg (· ++ next.dispatches) ((List.append_nil _).symm.trans harms)
  | _ => rfl

/-- Statements assign what they do, and what follows comes behind them. -/
theorem assigns_statementsScript (list : List Statement) (next : Script) :
    (statementsScript list next).assigns = assignsOf list ++ next.assigns := by
  induction list with
  | nil => rfl
  | cons statement list ih =>
    change (statement.script (statementsScript list next)).assigns = _
    have hcons : assignsOf (statement :: list) =
        statement.jumps.filterMap Jump.assigns? ++ assignsOf list := List.filterMap_append
    rw [Statement.assigns_script, ih, hcons, List.append_assoc]

/-- There is no dispatch in statements. -/
theorem dispatches_statementsScript (list : List Statement) (next : Script) :
    (statementsScript list next).dispatches = next.dispatches := by
  induction list with
  | nil => rfl
  | cons statement list ih => exact (Statement.dispatches_script statement _).trans ih

/-- **The cases that are read are those that are printed.** -/
theorem printedCases_casesScript (cases : List Case) :
    (casesScript cases).printedCases = cases.map Case.printed := by
  induction cases with
  | nil => rfl
  | cons c cases ih =>
    change ⟨c.index, (statementsScript c.body .done).assigns⟩ :: (casesScript cases).printedCases =
      _
    rw [ih, assigns_statementsScript, List.map_cons]
    exact congrArg (⟨c.index, ·⟩ :: cases.map Case.printed) (List.append_nil _)

/-- There is no dispatch in the cases of a dispatch. -/
theorem dispatches_casesScript (cases : List Case) : (casesScript cases).dispatches = [] := by
  induction cases with
  | nil => rfl
  | cons c cases ih =>
    change (statementsScript c.body .done).dispatches ++ (casesScript cases).dispatches = []
    rw [ih, dispatches_statementsScript]
    rfl

/-- **The dispatches that are read are those that are printed.** -/
theorem dispatches_script (code : Code) (after : Script) :
    (code.script after).dispatches = code.dispatches ++ after.dispatches := by
  induction code generalizing after with
  | done => rfl
  | statements list next ih => exact (dispatches_statementsScript list _).trans (ih after)
  | loop name body next ihBody ih | once name body next ihBody ih =>
    change (body.script .done).dispatches ++ (next.script after).dispatches = _
    rw [ihBody, ih, Code.dispatches]
    simp [Script.dispatches]
  | ifThen test body next ihBody ih =>
    change (body.script .done).dispatches ++ [] ++ (next.script after).dispatches = _
    rw [ihBody, ih, Code.dispatches]
    simp [Script.dispatches]
  | ifThenElse test first second next ihFirst ihSecond ih =>
    change (first.script .done).dispatches ++ (second.script .done).dispatches ++
      (next.script after).dispatches = _
    rw [ihFirst, ihSecond, ih, Code.dispatches]
    simp [Script.dispatches]
  | dispatch name selector start cases next ih =>
    change PrintedDispatch.mk name selector (if selector = selector then some start else none)
      (casesScript cases).printedCases ::
        ((casesScript cases).dispatches ++ (next.script after).dispatches) = _
    rw [if_pos rfl, printedCases_casesScript, dispatches_casesScript, ih]
    rfl

/-! ### What is written can be read -/

namespace Emission

variable {s : Source} {index : Nat → Nat} {around : Option Dispatch}

/-- The conditionals of control transfers have arms. -/
theorem ne_choice_of_mem_transfer {inst : Instruction} {t : Transfer} {statement : Statement}
    (h : statement ∈ Written.transfer s index around inst t) (fallback : Option Jump) :
    statement ≠ .choice [] fallback := by
  have hjump : ∀ {way : Option Jump}, statement ∈ (way.map Statement.jump).toList →
      statement ≠ .choice [] fallback := by
    intro way hway
    obtain ⟨jump, -, rfl⟩ := Option.map_eq_some_iff.mp (Option.mem_toList.mp hway)
    exact Statement.noConfusion
  have htwo : ∀ {test : Test} {first second : Option Jump}, statement ∈ twoWay test first second →
      statement ≠ .choice [] fallback := by
    intro test first second hmem
    cases first <;> cases second <;> simp_all [twoWay]
  cases t with
  | branch target => exact hjump h
  | condBranch condition ifTrue ifFalse => exact htwo h
  | switch scrutinee default cases =>
    rw [Written.transfer, manyWay] at h
    split at h
    next => exact absurd h List.not_mem_nil
    next =>
      split at h
      next => exact hjump h
      next hne =>
        obtain rfl := List.mem_singleton.mp h
        exact fun heq => hne (by rw [(Statement.choice.inj heq).1]; rfl)
  | invoke callee args normal unwind =>
    rcases List.mem_cons.mp h with rfl | h
    · exact Statement.noConfusion
    · exact htwo h
  | ret value =>
    obtain rfl := List.mem_singleton.mp h
    exact Statement.noConfusion
  | unreachable => exact absurd h List.not_mem_nil

/-- The jumps to targets can be read. -/
theorem legible_jump (haround : ∀ d ∈ around, "D_".toList <+: d.name.toList) {target : Target}
    {way : Jump} (h : Written.jump s index around target = some way) :
    way.Legible s.config.dispatchVariable := by
  cases target with
  | label id =>
    obtain ⟨d, hd, rfl⟩ := Option.map_eq_some_iff.mp h
    exact ⟨rfl, haround d hd⟩
  | breakOf entry =>
    obtain rfl := Option.some.inj h
    trivial
  | continueOf entry =>
    obtain rfl := Option.some.inj h
    change ¬"D_".toList <+: ("L_" ++ _).toList
    rw [String.toList_append]
    simp
  | nop =>
    obtain ⟨d, -, rfl⟩ := Option.map_eq_some_iff.mp h
    trivial

/-- The statements of an instruction can be read. -/
theorem legible_instruction (haround : ∀ d ∈ around, "D_".toList <+: d.name.toList)
    {inst : Instruction} {statement : Statement}
    (h : statement ∈ Written.instruction s index around inst) :
    statement.Legible s.config.dispatchVariable := by
  rw [Written.instruction] at h
  cases ha : inst.action with
  | operation op =>
    rw [ha] at h
    obtain rfl := List.mem_singleton.mp h
    exact ⟨List.forall_mem_nil _, fun _ => Statement.noConfusion⟩
  | transfer t =>
    rw [ha] at h
    refine ⟨fun way hway => ?_, ne_choice_of_mem_transfer h⟩
    have hmem : way ∈ t.writtenTargets.filterMap (Written.jump s index around) :=
      jumpsOf_transfer inst t ▸ List.mem_flatMap.mpr ⟨statement, h, hway⟩
    obtain ⟨target, -, hjump⟩ := List.mem_filterMap.mp hmem
    exact legible_jump haround hjump

/-- The statements of a label can be read. -/
theorem legible_label (haround : ∀ d ∈ around, "D_".toList <+: d.name.toList) (id : Nat) :
    ∀ statement ∈ Written.label s index around id,
      statement.Legible s.config.dispatchVariable := by
  have hbody : ∀ statement ∈ (s.label id).instructions.flatMap (Written.instruction s index around),
      statement.Legible s.config.dispatchVariable := by
    intro statement hstatement
    obtain ⟨inst, -, hinst⟩ := List.mem_flatMap.mp hstatement
    exact legible_instruction haround hinst
  rw [Written.label]
  split
  next =>
    exact List.forall_mem_cons.mpr
      ⟨⟨List.forall_mem_nil _, fun _ => Statement.noConfusion⟩, hbody⟩
  next => exact hbody

section Trees

variable (hnames : ∀ identifier ∈ s.identifiers, ':' ∉ identifier.toList)
include hnames

/-- The names of constructs are made as those that can be read. -/
theorem isConstruct_append {opening : String} (hopening : opening = "L_" ∨ opening = "D_")
    (entry : Nat) : IsConstruct (opening ++ s.identifiers.getD entry "") where
  begins := by
    rcases hopening with rfl | rfl
    · exact Or.inl (toList_prefix_append _ _)
    · exact Or.inr (toList_prefix_append _ _)
  colon_not_mem := by
    have hidentifier : ':' ∉ (s.identifiers.getD entry "").toList := by
      rw [List.getD_eq_getElem?_getD]
      cases h : s.identifiers[entry]? with
      | none => exact List.not_mem_nil
      | some identifier => exact hnames identifier (List.mem_of_getElem? h)
    rw [String.toList_append, List.mem_append]
    rcases hopening with rfl | rfl <;> simpa using hidentifier

/-- A leaf can be read, whether it is printed as a dispatch or not. -/
theorem legible_leaf (kind : LeafKind) (entry : Nat) (labels : List Nat) :
    (Written.leaf s index kind entry labels).Legible s.config.dispatchVariable := by
  rw [Written.leaf, Source.around]
  cases s.dispatches kind entry labels with
  | false => exact ⟨legible_label (fun _ hd => absurd hd (by simp)) entry, trivial⟩
  | true =>
    refine ⟨⟨isConstruct_append hnames (Or.inr rfl) entry, rfl⟩, fun c hc => ?_, trivial⟩
    obtain ⟨id, -, rfl⟩ := List.mem_map.mp hc
    refine legible_label (fun d hd => ?_) id
    obtain rfl := Option.some.inj hd
    exact toList_prefix_append _ _

/-- **The code of a tree can be read**, if no identifier holds a colon. -/
theorem legible_tree (t : BlockTree) :
    (Written.tree s index t).Legible s.config.dispatchVariable := by
  have hconditional : ∀ (test : Condition) (ifFalse : BlockTree) {first second : Code},
      first.Legible s.config.dispatchVariable → second.Legible s.config.dispatchVariable →
      (conditional test ifFalse first second).Legible s.config.dispatchVariable := by
    intro test ifFalse first second hfirst hsecond
    rw [conditional]
    split
    · exact ⟨hfirst, trivial⟩
    · exact ⟨hfirst, hsecond, trivial⟩
  induction t with
  | nil => trivial
  | leaf kind entry labels next ih =>
    exact Code.legible_append (legible_leaf hnames kind entry labels) ih
  | loop entry labels inc rest next ihInc ihRest ihNext =>
    exact ⟨isConstruct_append hnames (Or.inl rfl) entry, Code.legible_append ihInc ihRest, ihNext⟩
  | cond entry labels breaking test check ifTrue ifFalse next ihCheck ihTrue ihFalse ihNext =>
    have harms := hconditional test ifFalse ihTrue ihFalse
    cases breaking with
    | false => exact Code.legible_append (Code.legible_append ihCheck harms) ihNext
    | true =>
      refine Code.legible_append (Code.legible_append ihCheck ?_) ihNext
      exact ⟨isConstruct_append hnames (Or.inl rfl) entry, harms, trivial⟩

end Trees
end Emission

/-- **What is written for a function is read as the script of it.** -/
theorem Function.read?_written (f : Function) (config : Config) (types : TypeTable)
    (table : VariableTable) (labels : List Label) (index : Nat → Nat) (t : BlockTree)
    (name : String) (params : List String) :
    let body := Emission.Written.tree (f.source config types table labels) index t
    Script.read? config.dispatchVariable (FunctionCode.mk name params body).lines =
      some (body.script .done) :=
  read?_lines <| Emission.legible_tree (s := f.source config types table labels) (fun _ h =>
    Identifier.colon_not_mem_of_isIdentifier (Identifier.isIdentifier_of_mem_distinct h)) t

end StructuredFlow
