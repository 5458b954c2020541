/-
# Scripts

A script is what lines of code say when they are read as labelled structured statements,
whatever they were written for.

| statement | written |
| --- | --- |
| `perform` | the text of an instruction |
| `assign` | `name = value;`, or a declaration `var name = value;` |
| `leave` | `break name;` |
| `restart` | `continue name;` |
| `ret` | `return value;` or `return;` |
| `loop` | `name: while (true) {` body `}` |
| `once` | `name: do {` body `} while (false);` |
| `branch` | `if (test) {` first `} else {` second `}`, the second part often left out |
| `dispatch` | `name: while (true) switch (selector) {` cases `}` |
| `clause` | `case value: {` body `}` |

`Script.exec` runs a script.  An instruction is any change of the state and a test any
predicate on it (`Interpretation`); the variables that are assigned to are apart from the
state.  A loop makes no more than a number of turns each time it is entered.

The statements that tell what a script prints are read off it in the order of the lines: the
dispatches (`Script.dispatches`), and in a case what is assigned (`Script.assigns`).
-/

import StructuredFlow.Proofs.Code.Run

namespace StructuredFlow

universe u

variable {σ : Type u}

/-- A chain of statements. -/
inductive Script
  /-- The end of a chain. -/
  | done
  /-- An instruction. -/
  | perform (text : String) (next : Script)
  /-- A variable gets a value. -/
  | assign (selector : String) (value : Nat) (next : Script)
  /-- Control leaves a construct. -/
  | leave (name : String) (next : Script)
  /-- Control starts a construct again. -/
  | restart (name : String) (next : Script)
  /-- Control leaves the function. -/
  | ret (value : Option String) (next : Script)
  /-- A loop that only jumps leave. -/
  | loop (name : String) (body next : Script)
  /-- A body that runs once. -/
  | once (name : String) (body next : Script)
  /-- Two bodies, of which the first runs if the test holds and else the second. -/
  | branch (test : String) (first second next : Script)
  /-- A loop that only jumps leave over a switch on a variable. -/
  | dispatch (name selector : String) (cases next : Script)
  /-- A case of a switch, and the cases behind it. -/
  | clause (value : Nat) (body next : Script)
deriving DecidableEq, Repr, Inhabited

namespace Script

/-! ### Runs -/

mutual

/-- Runs a script in which no loop makes more than `limit` turns each time it is entered. -/
def exec (I : Interpretation σ) (limit : Nat) : Script → Machine σ → CodeRun σ
  | .done, m => (.falls, m)
  | .perform text next, m => exec I limit next (m.perform I text)
  | .assign selector value next, m => exec I limit next (m.select selector value)
  | .leave name _, m => (.leaves name, m)
  | .restart name _, m => (.restarts name, m)
  | .ret value _, m => (.returns value, m)
  | .loop name body next, m =>
    (CodeRun.turns name (exec I limit body) limit m).andThen (exec I limit next)
  | .once name body next, m =>
    (CodeRun.endOnce name (exec I limit body m)).andThen (exec I limit next)
  | .branch test first second next, m =>
    (if I.holds test m.progress.state then exec I limit first m
      else exec I limit second m).andThen (exec I limit next)
  | .dispatch name selector cases next, m =>
    (CodeRun.turns name (fun m => execFrom I limit cases (m.selectors selector) m) limit m).andThen
      (exec I limit next)
  | .clause _ body next, m => (exec I limit body m).andThen (exec I limit next)
termination_by structural script => script

/-- Runs what stands in a switch from the first case of a value on. -/
def execFrom (I : Interpretation σ) (limit : Nat) : Script → Nat → Machine σ → CodeRun σ
  | .clause index body next, value, m =>
    if index = value then (exec I limit body m).andThen (exec I limit next)
    else execFrom I limit next value m
  | _, _, m => (.falls, m)
termination_by structural script => script

end

/-! ### Dispatches -/

/-- What is assigned in a script, in the order of the lines: the variable, the value, and the
construct that is started again right behind, if one is. -/
def assigns : Script → List (String × Nat × Option String)
  | .done => []
  | .assign selector value (.restart name next) => (selector, value, some name) :: next.assigns
  | .assign selector value next => (selector, value, none) :: next.assigns
  | .perform _ next | .leave _ next | .restart _ next | .ret _ next => next.assigns
  | .loop _ body next | .once _ body next | .clause _ body next => body.assigns ++ next.assigns
  | .branch _ first second next => first.assigns ++ second.assigns ++ next.assigns
  | .dispatch _ _ cases next => cases.assigns ++ next.assigns

end Script

/-- A case as it stands in a script. -/
structure PrintedCase where
  /-- Its value. -/
  index : Nat
  /-- What is assigned in it. -/
  assigns : List (String × Nat × Option String)
deriving DecidableEq, Repr, Inhabited

/-- A dispatch as it stands in a script. -/
structure PrintedDispatch where
  /-- The name of the construct. -/
  name : String
  /-- The variable that selects the case. -/
  selector : String
  /-- The value that this variable gets right in front, if it does. -/
  start : Option Nat
  /-- The cases. -/
  cases : List PrintedCase
deriving DecidableEq, Repr, Inhabited

namespace Script

/-- The cases that stand in a switch. -/
def printedCases : Script → List PrintedCase
  | .clause value body next => ⟨value, body.assigns⟩ :: next.printedCases
  | _ => []

/-- The dispatches in a script, in the order of the lines. -/
def dispatches : Script → List PrintedDispatch
  | .done => []
  | .assign declared value (.dispatch name selector cases next) =>
    ⟨name, selector, if declared = selector then some value else none, cases.printedCases⟩ ::
      (cases.dispatches ++ next.dispatches)
  | .dispatch name selector cases next =>
    ⟨name, selector, none, cases.printedCases⟩ :: (cases.dispatches ++ next.dispatches)
  | .assign _ _ next | .perform _ next | .leave _ next | .restart _ next | .ret _ next =>
    next.dispatches
  | .loop _ body next | .once _ body next | .clause _ body next =>
    body.dispatches ++ next.dispatches
  | .branch _ first second next => first.dispatches ++ second.dispatches ++ next.dispatches

end Script
end StructuredFlow
