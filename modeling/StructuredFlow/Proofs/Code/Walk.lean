/-
# Walking through a function

A walk performs the statements of the label it has come to, takes the target that its
control transfer chooses in the state they lead to, and goes on there.  Statements and
tests are those of the code, under the same interpretation (`Interpretation`).

| transfer | the walk goes on |
| --- | --- |
| a branch | at its target |
| a choice | at the first target if the condition holds, else at the second |
| a switch | at the target of the first case that the scrutinee equals, else at the default |
| an invoke | at the normal target if the call has not unwound, else at the other |

`Agrees walk run` says that a run does what the walk does.  A walk that comes to an
unreachable point is followed up to there.
-/

import Mathlib.Logic.Function.Iterate
import StructuredFlow.Code.Expression
import StructuredFlow.Function
import StructuredFlow.Proofs.Code.Run

namespace StructuredFlow

universe u

variable {σ : Type u}

/-- Where a walk has come to. -/
inductive Point (σ : Type u)
  /-- A label, which is next in turn. -/
  | here (id : Nat) (p : Progress σ)
  /-- The end of the function. -/
  | returned (value : Option String) (p : Progress σ)
  /-- An instruction that control does not reach. -/
  | stranded (p : Progress σ)
  /-- A target that is no label, or a label that does not transfer control. -/
  | lost (p : Progress σ)

/-- What was performed up to a point. -/
def Point.progress : Point σ → Progress σ
  | .here _ p | .returned _ p | .stranded p | .lost p => p

/-- The statements of a label: those of its operations, and the call of an invoke. -/
def Label.texts (b : Bindings) (label : Label) : List String :=
  label.instructions.filterMap fun inst => (inst.statement b).toOption

/-- The target that a control transfer takes in a state, if it has targets. -/
def Transfer.choose (I : Interpretation σ) (exceptionFlag : String) (state : σ) :
    Transfer → Option Target
  | .branch target => some target
  | .condBranch condition ifTrue ifFalse =>
    some (if I.holds condition.expression state then ifTrue else ifFalse)
  | .switch scrutinee default cases =>
    match cases.find? fun c => I.holds s!"{scrutinee.expression} == {c.1}" state with
    | some c => some c.2
    | none => some default
  | .invoke _ _ normal unwind =>
    some (if I.holds ("!" ++ exceptionFlag) state then normal else unwind)
  | .ret _ | .unreachable => none

namespace Function

/-- Where a control transfer leads. -/
def leave (I : Interpretation σ) (b : Bindings) (t : Transfer) (p : Progress σ) : Point σ :=
  match t with
  | .ret value => .returned (value.map Operand.expression) p
  | .unreachable => .stranded p
  | t =>
    match t.choose I b.exceptionFlag p.state with
    | some (.label id) => .here id p
    | _ => .lost p

/-- One step of a walk. -/
def step (f : Function) (b : Bindings) (I : Interpretation σ) : Point σ → Point σ
  | .here id p =>
    match f.label? id with
    | none => .lost p
    | some label =>
      let p := p.performAll I (label.texts b)
      match label.transfer? with
      | none => .lost p
      | some t => leave I b t p
  | point => point

/-- Where a walk has come to after a number of labels. -/
def walk (f : Function) (b : Bindings) (I : Interpretation σ) (n : Nat) (start : Point σ) :
    Point σ := (f.step b I)^[n] start

variable {f : Function} {b : Bindings} {I : Interpretation σ}

/-- A walk of no labels stays where it is. -/
theorem walk_zero (start : Point σ) : f.walk b I 0 start = start := rfl

/-- A walk begins with a step. -/
theorem walk_succ (n : Nat) (start : Point σ) :
    f.walk b I (n + 1) start = f.walk b I n (f.step b I start) := rfl

/-- A walk goes on where it has come to. -/
theorem walk_add (m n : Nat) (start : Point σ) :
    f.walk b I (m + n) start = f.walk b I n (f.walk b I m start) := by
  rw [walk, walk, walk, Nat.add_comm, Function.iterate_add_apply]

/-- A walk goes on from where it has come to. -/
theorem walk_from {start point : Point σ} {m : Nat} (h : f.walk b I m start = point) (n : Nat) :
    f.walk b I (m + n) start = f.walk b I n point := by
  rw [walk_add, h]

end Function

/-! ### Ends -/

/-- A walk does not go on from here. -/
def Point.IsEnd : Point σ → Prop
  | .here _ _ => False
  | _ => True

namespace Function

variable {f : Function} {b : Bindings} {I : Interpretation σ} {start : Point σ} {m n : Nat}

/-- A walk does not leave an end. -/
theorem walk_of_isEnd (h : start.IsEnd) (n : Nat) : f.walk b I n start = start := by
  induction n with
  | zero => rfl
  | succ n ih =>
    rw [walk_succ]
    cases start with
    | here => exact False.elim h
    | _ => exact ih

/-- A walk that has ended stays where it is. -/
theorem walk_of_le (h : (f.walk b I m start).IsEnd) (hmn : m ≤ n) :
    f.walk b I n start = f.walk b I m start := by
  obtain ⟨d, rfl⟩ := Nat.exists_eq_add_of_le hmn
  rw [walk_add, walk_of_isEnd h]

end Function

/-- What is performed comes behind what was performed before. -/
theorem Progress.performed_performAll (I : Interpretation σ) (p : Progress σ)
    (texts : List String) :
    (p.performAll I texts).performed = p.performed ++ texts := by
  induction texts generalizing p with
  | nil => exact (List.append_nil _).symm
  | cons text texts ih =>
    change ((p.perform I text).performAll I texts).performed = _
    rw [ih, perform, List.append_assoc]
    rfl

namespace Function

variable {f : Function} {b : Bindings} {I : Interpretation σ} {start : Point σ} {m n : Nat}

/-- To leave a label performs nothing. -/
theorem progress_leave (t : Transfer) (p : Progress σ) : (leave I b t p).progress = p := by
  unfold leave
  split
  next => rfl
  next => rfl
  next => split <;> rfl

/-- A step performs after what was performed before. -/
theorem performed_step (point : Point σ) :
    point.progress.performed <+: (f.step b I point).progress.performed := by
  cases point with
  | here id p =>
    rw [step]
    split
    next => exact List.prefix_rfl
    next label _ =>
      have hperformed := Progress.performed_performAll I p (label.texts b)
      dsimp only
      split
      next => exact hperformed ▸ List.prefix_append _ _
      next t _ =>
        rw [progress_leave, hperformed]
        exact List.prefix_append _ _
  | _ => exact List.prefix_rfl

/-- What a walk performs it performs on the longer walk as well. -/
theorem performed_walk_mono (hmn : m ≤ n) :
    (f.walk b I m start).progress.performed <+: (f.walk b I n start).progress.performed := by
  obtain ⟨d, rfl⟩ := Nat.exists_eq_add_of_le hmn
  induction d with
  | zero => exact List.prefix_rfl
  | succ d ih =>
    rw [← Nat.add_assoc, walk_add _ 1]
    exact (ih (Nat.le_add_right _ _)).trans (performed_step _)

end Function

/-! ### Runs that do what a walk does -/

/-- A run does what a walk does, the former up to each limit, the latter through any
number of labels: they perform the same statements, finitely or infinitely many, and
return the same. -/
structure Agrees (walk : Nat → Point σ) (run : Nat → CodeRun σ) : Prop where
  /-- What the walk performs is performed by a run that is long enough. -/
  performs : ∀ n limit, n ≤ limit →
    (walk n).progress.performed <+: (run limit).2.progress.performed
  /-- Where the walk returns a run that is long enough returns the same, having done the
  same. -/
  returns : ∀ n value p, walk n = .returned value p → ∀ limit, n ≤ limit →
    (run limit).1 = .returns value ∧ (run limit).2.progress = p
  /-- Unless the walk comes to an unreachable point, a run does what some part of the walk
  does, and no more: a part through as many labels as the limit, or the whole walk. -/
  exact : (∀ n p, walk n ≠ .stranded p) → ∀ limit, ∃ n,
    (walk n).progress = (run limit).2.progress ∧
      ((run limit).1 = .stops ∧ limit ≤ n ∨
        ∃ value, (run limit).1 = .returns value ∧ walk n = .returned value (run limit).2.progress)

end StructuredFlow
