/-
# Running structured code

Code is run as its lines read.  Nothing is known of the texts in it: an
`Interpretation` says what performing a statement does to a state and in which states
an expression holds.  The variables that dispatches switch on are no part of the state.

| line | what it does |
| --- | --- |
| `break name;` | leaves the construct of that name that is nearest around |
| `continue name;` | starts it again; a `do … while (false)` ends |
| `while (true)` | runs its body until a jump leaves it |
| `switch (selector)` | runs the first case of that value, and on into the cases behind it |

A run ends early where a loop has made `limit` turns without being left, so what code
does without end is what it does up to every limit.
-/

import StructuredFlow.Code

namespace StructuredFlow

universe u

/-- What the texts of statements and expressions stand for. -/
structure Interpretation (σ : Type u) where
  /-- What performing a statement does to the state. -/
  perform : String → σ → σ
  /-- Whether an expression holds in a state. -/
  holds : String → σ → Bool

variable {σ : Type u}

/-- What was performed so far. -/
structure Progress (σ : Type u) where
  /-- The statements performed, in order. -/
  performed : List String
  /-- The state that they led to. -/
  state : σ

namespace Progress

/-- Performs a statement. -/
def perform (I : Interpretation σ) (p : Progress σ) (text : String) : Progress σ :=
  ⟨p.performed ++ [text], I.perform text p.state⟩

/-- Performs statements one after the other. -/
def performAll (I : Interpretation σ) (p : Progress σ) (texts : List String) : Progress σ :=
  texts.foldl (perform I) p

end Progress

/-- What a run of code works on. -/
structure Machine (σ : Type u) where
  /-- What was performed so far. -/
  progress : Progress σ
  /-- The values of the variables that dispatches switch on. -/
  selectors : String → Nat

namespace Machine

/-- Performs a statement. -/
def perform (I : Interpretation σ) (m : Machine σ) (text : String) : Machine σ :=
  { m with progress := m.progress.perform I text }

/-- Performs statements one after the other. -/
def performAll (I : Interpretation σ) (m : Machine σ) (texts : List String) : Machine σ :=
  { m with progress := m.progress.performAll I texts }

/-- Sets the variable of a dispatch. -/
def select (m : Machine σ) (selector : String) (index : Nat) : Machine σ :=
  { m with selectors := fun name => if name = selector then index else m.selectors name }

/-- Statements are performed one after the other. -/
theorem performAll_append (I : Interpretation σ) (m : Machine σ) (texts texts' : List String) :
    m.performAll I (texts ++ texts') = (m.performAll I texts).performAll I texts' := by
  rw [performAll, Progress.performAll, List.foldl_append]
  rfl

@[simp] theorem selectors_select (m : Machine σ) (selector : String) (index : Nat) :
    (m.select selector index).selectors selector = index := if_pos rfl

end Machine

/-- How control leaves code. -/
inductive CodeExit
  /-- It goes on with what follows. -/
  | falls
  /-- It leaves a construct. -/
  | leaves (construct : String)
  /-- It starts a construct again. -/
  | restarts (construct : String)
  /-- It leaves the function. -/
  | returns (value : Option String)
  /-- A loop has made as many turns as are allowed. -/
  | stops
deriving DecidableEq

/-- The outcome of a run. -/
abbrev CodeRun (σ : Type u) := CodeExit × Machine σ

namespace CodeRun

/-- Goes on if control falls through. -/
def andThen (r : CodeRun σ) (next : Machine σ → CodeRun σ) : CodeRun σ :=
  match r with
  | (.falls, m) => next m
  | r => r

/-- What a construct that runs its body once makes of an outcome of the body. -/
def endOnce (name : String) (r : CodeRun σ) : CodeRun σ :=
  match r with
  | (.leaves construct, m) => if construct = name then (.falls, m) else (.leaves construct, m)
  | (.restarts construct, m) => if construct = name then (.falls, m) else (.restarts construct, m)
  | r => r

/-- Runs the body of a loop again and again. -/
def turns (name : String) (body : Machine σ → CodeRun σ) : Nat → Machine σ → CodeRun σ
  | 0, m => (.stops, m)
  | limit + 1, m =>
    match body m with
    | (.falls, m) => turns name body limit m
    | (.restarts construct, m) =>
      if construct = name then turns name body limit m else (.restarts construct, m)
    | (.leaves construct, m) => if construct = name then (.falls, m) else (.leaves construct, m)
    | r => r

@[simp] theorem andThen_falls (m : Machine σ) (next : Machine σ → CodeRun σ) :
    andThen (.falls, m) next = next m := rfl

/-- It does not matter which of three parts of a run are put together first. -/
theorem andThen_assoc (r : CodeRun σ) (next after : Machine σ → CodeRun σ) :
    andThen (andThen r next) after = andThen r fun m => andThen (next m) after := by
  obtain ⟨exit, m⟩ := r
  cases exit <;> rfl

/-- A run that nothing follows stays as it is. -/
@[simp] theorem andThen_self (r : CodeRun σ) : andThen r (fun m => (.falls, m)) = r := by
  obtain ⟨exit, m⟩ := r
  cases exit <;> rfl

end CodeRun

/-! ### Statements -/

/-- Tests whether a test holds. -/
def Test.holds (I : Interpretation σ) (test : Test) (m : Machine σ) : Bool :=
  I.holds test.expression m.progress.state != test.negated

/-- Takes a jump. -/
def Jump.take (m : Machine σ) : Jump → CodeRun σ
  | .redirect selector index dispatch => (.restarts dispatch, m.select selector index)
  | .leave construct => (.leaves construct, m)
  | .restart construct => (.restarts construct, m)

/-- Takes a jump, or goes on if there is none. -/
def takeJump (m : Machine σ) : Option Jump → CodeRun σ
  | some way => way.take m
  | none => (.falls, m)

/-- The jump of the first arm whose test holds, or else the last. -/
def chosenJump (I : Interpretation σ) (m : Machine σ) (arms : List (Test × Option Jump))
    (fallback : Option Jump) : Option Jump :=
  match arms.find? fun arm => arm.1.holds I m with
  | some arm => arm.2
  | none => fallback

/-- Runs a statement. -/
def Statement.exec (I : Interpretation σ) (m : Machine σ) : Statement → CodeRun σ
  | .comment _ => (.falls, m)
  | .action text => (.falls, m.perform I text)
  | .jump way => way.take m
  | .choice arms fallback => takeJump m (chosenJump I m arms fallback)
  | .ret value => (.returns value, m)

/-- Runs statements one after the other. -/
def execAll (I : Interpretation σ) : List Statement → Machine σ → CodeRun σ
  | [], m => (.falls, m)
  | statement :: rest, m => (statement.exec I m).andThen (execAll I rest)

/-- Statements are run one after the other. -/
theorem execAll_append (I : Interpretation σ) (list list' : List Statement) (m : Machine σ) :
    execAll I (list ++ list') m = (execAll I list m).andThen (execAll I list') := by
  induction list generalizing m with
  | nil => rfl
  | cons statement rest ih =>
    rw [List.cons_append, execAll, execAll, CodeRun.andThen_assoc]
    exact congrArg _ (funext ih)

/-- The statements that a switch runs for a value: the body of the first case of that
value, and the bodies of all cases behind it. -/
def casesFrom (cases : List Case) (value : Nat) : List Statement :=
  (cases.dropWhile fun c => c.index != value).flatMap Case.body

/-! ### Constructs -/

namespace Code

/-- Runs code in which no loop makes more than `limit` turns each time it is entered. -/
def exec (I : Interpretation σ) (limit : Nat) : Code → Machine σ → CodeRun σ
  | .done, m => (.falls, m)
  | .statements list next, m => (execAll I list m).andThen (exec I limit next)
  | .loop name body next, m =>
    (CodeRun.turns name (exec I limit body) limit m).andThen (exec I limit next)
  | .once name body next, m =>
    (CodeRun.endOnce name (exec I limit body m)).andThen (exec I limit next)
  | .ifThen test body next, m =>
    (if test.holds I m then exec I limit body m else (.falls, m)).andThen (exec I limit next)
  | .ifThenElse test first second next, m =>
    (if test.holds I m then exec I limit first m else exec I limit second m).andThen
      (exec I limit next)
  | .dispatch name selector start cases next, m =>
    (CodeRun.turns name (fun m => execAll I (casesFrom cases (m.selectors selector)) m) limit
      (m.select selector start)).andThen (exec I limit next)

/-- **Code behind other code is run where control falls out of it.** -/
theorem exec_append (I : Interpretation σ) (limit : Nat) (a b : Code) (m : Machine σ) :
    (a ++ b).exec I limit m = (a.exec I limit m).andThen (b.exec I limit) := by
  have hfun : (a.append b).exec I limit = fun m => (a.exec I limit m).andThen (b.exec I limit) := by
    induction a <;> funext m <;> simp_all [append, exec, CodeRun.andThen_assoc]
  exact congrFun hfun m

end Code

/-! ### Nothing performed is undone -/

/-- A run performs after what was performed before. -/
def CodeRun.Continues (p : Progress σ) (r : CodeRun σ) : Prop :=
  p.performed <+: r.2.progress.performed

namespace CodeRun.Continues

variable {p : Progress σ} {r : CodeRun σ}

/-- What ends at once takes nothing back. -/
theorem refl (exit : CodeExit) (m : Machine σ) : Continues m.progress (exit, m) := List.prefix_rfl

/-- A run that goes on takes nothing back if its parts do not. -/
theorem andThen (h : Continues p r) {next : Machine σ → CodeRun σ}
    (hnext : ∀ m, Continues m.progress (next m)) : Continues p (r.andThen next) := by
  obtain ⟨exit, m⟩ := r
  cases exit with
  | falls => exact h.trans (hnext m)
  | _ => exact h

/-- The end of a body that runs once takes nothing back. -/
theorem endOnce (h : Continues p r) (name : String) : Continues p (r.endOnce name) := by
  obtain ⟨exit, m⟩ := r
  cases exit with
  | leaves construct => rw [CodeRun.endOnce]; split <;> exact h
  | restarts construct => rw [CodeRun.endOnce]; split <;> exact h
  | _ => exact h

/-- A loop goes on from what its first turn goes on from. -/
theorem turns_succ {body : Machine σ → CodeRun σ} {name : String} {limit : Nat} {m : Machine σ}
    (hfirst : Continues p (body m))
    (h : ∀ m, Continues m.progress (CodeRun.turns name body limit m)) :
    Continues p (CodeRun.turns name body (limit + 1) m) := by
  rw [CodeRun.turns]
  generalize body m = r at hfirst
  obtain ⟨exit, m'⟩ := r
  cases exit with
  | falls => exact hfirst.trans (h m')
  | leaves construct => dsimp only; split <;> exact hfirst
  | restarts construct =>
    dsimp only
    split
    · exact hfirst.trans (h m')
    · exact hfirst
  | _ => exact hfirst

/-- A loop takes nothing back if its body does not. -/
theorem turns {body : Machine σ → CodeRun σ} (h : ∀ m, Continues m.progress (body m))
    (name : String) (limit : Nat) (m : Machine σ) :
    Continues m.progress (CodeRun.turns name body limit m) := by
  induction limit generalizing m with
  | zero => exact refl .stops m
  | succ limit ih => exact turns_succ (h m) ih

/-- A jump takes nothing back. -/
theorem takeJump (m : Machine σ) (way : Option Jump) :
    Continues m.progress (takeJump m way) := by
  cases way with
  | none => exact refl .falls m
  | some way => cases way <;> exact List.prefix_rfl

/-- Statements take nothing back. -/
theorem execAll (I : Interpretation σ) (list : List Statement) (m : Machine σ) :
    Continues m.progress (StructuredFlow.execAll I list m) := by
  induction list generalizing m with
  | nil => exact refl .falls m
  | cons statement rest ih =>
    refine Continues.andThen ?_ ih
    cases statement with
    | action text => exact List.prefix_append _ _
    | jump way => exact takeJump m (some way)
    | choice arms fallback => exact takeJump m _
    | _ => exact List.prefix_rfl

/-- **A run of code performs after what was performed before.** -/
theorem exec (I : Interpretation σ) (limit : Nat) (code : Code) (m : Machine σ) :
    Continues m.progress (code.exec I limit m) := by
  induction code generalizing m with
  | done => exact refl .falls m
  | statements list next ih => exact (execAll I list m).andThen ih
  | loop name body next ihBody ih => exact (turns ihBody name limit m).andThen ih
  | once name body next ihBody ih => exact ((ihBody m).endOnce name).andThen ih
  | ifThen test body next ihBody ih =>
    refine Continues.andThen ?_ ih
    split
    · exact ihBody m
    · exact refl .falls m
  | ifThenElse test first second next ihFirst ihSecond ih =>
    refine Continues.andThen ?_ ih
    split
    · exact ihFirst m
    · exact ihSecond m
  | dispatch name selector start cases next ih =>
    exact (turns (fun m => execAll I _ m) name limit (m.select selector start)).andThen ih

end CodeRun.Continues

end StructuredFlow
