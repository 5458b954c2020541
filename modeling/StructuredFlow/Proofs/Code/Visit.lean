/-
# Visiting a label

The statements of a label perform its texts and then take the jump of the target that
its control transfer chooses (`execAll_label`).  A walk performs the same texts and takes
the target of the transfer as it was before structuring; the target chosen now means that
one (`visit_cases`).
-/

import StructuredFlow.Proofs.BlockTree.Realises
import StructuredFlow.Proofs.Code.Walk
import StructuredFlow.Proofs.Code.Writable

namespace StructuredFlow

universe u

variable {σ : Type u} {I : Interpretation σ}

/-! ### Choices -/

/-- A negated test holds where the test does not. -/
theorem Test.holds_not (test : Test) (m : Machine σ) :
    test.not.holds I m = !test.holds I m := by
  rw [holds, holds, not]
  cases I.holds test.expression m.progress.state <;> cases test.negated <;> rfl

namespace Transfer

variable {flag : String} {state : σ}

/-- Exchanging targets exchanges the one that is chosen. -/
theorem choose_mapTargets (g : Target → Target) (t : Transfer) :
    (t.mapTargets g).choose I flag state = (t.choose I flag state).map g := by
  cases t with
  | switch scrutinee default cases =>
    rw [mapTargets, choose, choose, List.find?_map]
    cases h : cases.find? fun c => I.holds s!"{scrutinee.expression} == {c.1}" state with
    | none =>
      simp only [Function.comp_def, h, Option.map_none]
      rfl
    | some c =>
      simp only [Function.comp_def, h, Option.map_some]
  | condBranch condition ifTrue ifFalse => rw [mapTargets, choose, choose]; split <;> rfl
  | invoke callee args normal unwind => rw [mapTargets, choose, choose]; split <;> rfl
  | _ => rfl

/-- A control transfer that has targets chooses one. -/
theorem exists_choose {t : Transfer} (h : t.targets ≠ []) :
    ∃ target, t.choose I flag state = some target := by
  cases t with
  | switch scrutinee default cases =>
    dsimp only [choose]
    split
    next c _ => exact ⟨c.2, rfl⟩
    next => exact ⟨default, rfl⟩
  | ret value => exact absurd rfl h
  | unreachable => exact absurd rfl h
  | _ => exact ⟨_, rfl⟩

/-- The target that a control transfer chooses is one of its targets. -/
theorem choose_mem {t : Transfer} {target : Target} (h : t.choose I flag state = some target) :
    target ∈ t.targets := by
  cases t with
  | branch => simp_all [choose, targets]
  | condBranch => rw [choose, Option.some.injEq] at h; split at h <;> simp [targets, h]
  | switch scrutinee default cases =>
    rw [choose] at h
    split at h
    next c hc =>
      rw [targets, ← Option.some.inj h]
      exact List.mem_cons_of_mem _ (List.mem_map_of_mem (List.mem_of_find?_eq_some hc))
    next => simp [targets, Option.some.inj h]
  | invoke => rw [choose, Option.some.injEq] at h; split at h <;> simp [targets, h]
  | ret => simp [choose] at h
  | unreachable => simp [choose] at h

end Transfer

namespace Emission

/-- To run texts of instructions is to perform them. -/
theorem execAll_actions (texts : List String) (m : Machine σ) :
    execAll I (texts.map Statement.action) m = (.falls, m.performAll I texts) := by
  induction texts generalizing m with
  | nil => rfl
  | cons text texts ih =>
    rw [List.map_cons, execAll, Statement.exec, CodeRun.andThen_falls, ih]
    rfl

/-- A single statement is run alone. -/
theorem execAll_singleton (statement : Statement) (m : Machine σ) :
    execAll I [statement] m = statement.exec I m := CodeRun.andThen_self _

/-- **Of two targets the jump of one is taken**, whichever of them have jumps. -/
theorem execAll_twoWay (test : Test) (first second : Option Jump) (m : Machine σ) :
    execAll I (twoWay test first second) m =
      takeJump m (if test.holds I m then first else second) := by
  cases first with
  | none =>
    cases second with
    | none => rw [twoWay, ite_self]; rfl
    | some second =>
      rw [twoWay, execAll_singleton, Statement.exec, chosenJump, List.find?_singleton,
        Test.holds_not]
      cases test.holds I m <;> rfl
  | some first =>
    rw [twoWay, execAll_singleton, Statement.exec, chosenJump, List.find?_singleton]
    cases test.holds I m <;> rfl

/-- **Of many targets the jump of the first whose test holds is taken, or else the last**,
whichever of them have jumps. -/
theorem execAll_manyWay (arms : List (Test × Option Jump)) (fallback : Option Jump)
    (m : Machine σ) :
    execAll I (manyWay arms fallback) m = takeJump m (chosenJump I m arms fallback) := by
  rw [manyWay]
  split
  next hnone =>
    rw [Bool.and_eq_true, Option.isNone_iff_eq_none, List.all_eq_true] at hnone
    obtain ⟨rfl, harms⟩ := hnone
    have hchosen : chosenJump I m arms none = none := by
      rw [chosenJump]
      split
      next arm harm =>
        exact Option.isNone_iff_eq_none.mp (harms arm (List.mem_of_find?_eq_some harm))
      next => rfl
    rw [hchosen]
    rfl
  next =>
    split
    next hempty =>
      obtain rfl := List.isEmpty_iff.mp hempty
      cases fallback with
      | none => rfl
      | some way => exact execAll_singleton _ m
    next => exact execAll_singleton _ m

section Labels

variable {s : Source} {index : Nat → Nat} {around : Option Dispatch} {inst : Instruction}
  {t : Transfer} {m : Machine σ}

/-- How control leaves a label through a control transfer. -/
def Written.leave (s : Source) (index : Nat → Nat) (around : Option Dispatch)
    (I : Interpretation σ) (t : Transfer) (m : Machine σ) : CodeRun σ :=
  match t with
  | .ret value => (.returns (value.map Operand.expression), m)
  | t =>
    match t.choose I s.config.exceptionFlag m.progress.state with
    | some target => takeJump m (Written.jump s index around target)
    | none => (.falls, m)

/-- What a control transfer performs before it leaves: the call of an invoke. -/
def Written.callTexts (s : Source) (inst : Instruction) : Transfer → List String
  | .invoke .. => [s.statement inst]
  | _ => []

/-- The statements of a control transfer perform its call, if it has one, and leave. -/
theorem execAll_transfer (t : Transfer) (m : Machine σ) :
    execAll I (Written.transfer s index around inst t) m =
      Written.leave s index around I t (m.performAll I (Written.callTexts s inst t)) := by
  cases t with
  | branch target =>
    change execAll I ((Written.jump s index around target).map Statement.jump).toList m =
      takeJump m (Written.jump s index around target)
    cases Written.jump s index around target with
    | none => rfl
    | some way => exact execAll_singleton _ m
  | condBranch condition ifTrue ifFalse =>
    have htest : Test.holds I ⟨condition.expression, false⟩ m =
        I.holds condition.expression m.progress.state := Bool.bne_false _
    change execAll I (twoWay _ _ _) m =
      takeJump m (Written.jump s index around (if _ then _ else _))
    rw [execAll_twoWay, htest]
    exact congrArg _ (apply_ite _ _ _ _).symm
  | switch scrutinee default cases =>
    have htest : ∀ c : String × Target,
        Test.holds I ⟨s!"{scrutinee.expression} == {c.1}", false⟩ m =
          I.holds s!"{scrutinee.expression} == {c.1}" m.progress.state := fun _ => Bool.bne_false _
    change execAll I (manyWay _ _) m = _
    rw [execAll_manyWay, chosenJump, List.find?_map]
    simp only [Function.comp_def, htest]
    change _ = Written.leave s index around I (.switch scrutinee default cases) m
    unfold Written.leave
    dsimp only [Transfer.choose]
    cases cases.find? fun c => I.holds s!"{scrutinee.expression} == {c.1}" m.progress.state <;> rfl
  | invoke callee args normal unwind =>
    have htest : ∀ m : Machine σ, Test.holds I ⟨"!" ++ s.config.exceptionFlag, false⟩ m =
        I.holds ("!" ++ s.config.exceptionFlag) m.progress.state := fun _ => Bool.bne_false _
    change execAll I (twoWay _ _ _) (m.perform I (s.statement inst)) =
      takeJump (m.perform I (s.statement inst)) (Written.jump s index around (if _ then _ else _))
    rw [execAll_twoWay, htest]
    exact congrArg _ (apply_ite _ _ _ _).symm
  | ret value => rfl
  | unreachable => rfl

/-- The call of a control transfer is the statement that it has, if it has one. -/
theorem callTexts_eq (ht : inst.action = .transfer t) :
    Written.callTexts s inst t = (inst.statement s.bindings).toOption.toList := by
  cases t with
  | invoke callee args normal unwind =>
    simp [Written.callTexts, Source.statement, Instruction.statement, ht, Except.toOption]
  | _ => simp [Written.callTexts, Instruction.statement, ht, Except.toOption]

/-- Operations that are not refused are performed. -/
theorem flatMap_instruction_eq {body : List Instruction}
    (hop : ∀ inst ∈ body, ∃ op, inst.action = .operation op)
    (hok : ∀ inst ∈ body, inst.refusal? = none) :
    body.flatMap (Written.instruction s index around) =
      (body.filterMap fun inst => (inst.statement s.bindings).toOption).map Statement.action := by
  induction body with
  | nil => rfl
  | cons inst rest ih =>
    obtain ⟨op, hinst⟩ := hop inst List.mem_cons_self
    have hnone := hok inst List.mem_cons_self
    obtain ⟨text, htext⟩ : ∃ text, inst.statement s.bindings = .ok text := by
      rw [Instruction.refusal?, hinst] at hnone
      rw [Instruction.statement, hinst]
      exact Operation.exists_statement_eq_ok hnone
    have hfirst : Written.instruction s index around inst = [.action text] := by
      rw [Written.instruction, hinst, Source.statement, htext]
    rw [List.flatMap_cons, hfirst, ih (fun inst h => hop inst (List.mem_cons_of_mem _ h))
      fun inst h => hok inst (List.mem_cons_of_mem _ h), List.filterMap_cons, htext]
    rfl

/-- **The statements of a label perform its texts and leave through its transfer.** -/
theorem execAll_label {a : Nat} {body : List Instruction} {last : Instruction}
    (hinst : (s.label a).instructions = body ++ [last])
    (hop : ∀ inst ∈ body, ∃ op, inst.action = .operation op) (hlast : last.action = .transfer t)
    (hok : (s.label a).refusal? = none) (m : Machine σ) :
    execAll I (Written.label s index around a) m =
      Written.leave s index around I t (m.performAll I ((s.label a).texts s.bindings)) := by
  have hnote : ∀ list : List Statement, ∀ note : Bool, ∀ text : String,
      execAll I (if note then .comment text :: list else list) m = execAll I list m := by
    intro list note text
    cases note <;> rfl
  have hbody : ∀ inst ∈ body, inst.refusal? = none := fun inst h =>
    Label.refusal?_eq_none_iff.mp hok inst (by rw [hinst]; exact List.mem_append_left _ h)
  have htexts : (s.label a).texts s.bindings =
      (body.filterMap fun inst => (inst.statement s.bindings).toOption) ++
        Written.callTexts s last t := by
    rw [Label.texts, hinst, List.filterMap_append, callTexts_eq hlast]
    cases h : (last.statement s.bindings).toOption <;> simp [h]
  have htransfer : Written.instruction s index around last =
      Written.transfer s index around last t := by rw [Written.instruction, hlast]
  rw [Written.label, hnote, hinst, List.flatMap_append, flatMap_instruction_eq hop hbody,
    List.flatMap_singleton, htransfer, execAll_append, execAll_actions, CodeRun.andThen_falls,
    execAll_transfer, htexts, Machine.performAll_append]

end Labels

end Emission

/-! ### A visit and a step of a walk -/

section Visits

variable {f : Function} {s : Emission.Source} {ts : Transfers} {a : Nat} {label : Label}
  {body : List Instruction} {last : Instruction} {t : Transfer} {g : Target → Target}

/-- Exchanging targets does not matter to the statement of an instruction. -/
theorem toOption_statement_retarget (b : Bindings) (h : last.action = .transfer t) :
    (Instruction.statement b { last with action := .transfer (t.mapTargets g) }).toOption =
      (last.statement b).toOption := by
  rw [Instruction.statement, Instruction.statement, h]
  cases t <;> rfl

namespace Function.Retargets

/-- Nor does it to the statements of a label. -/
theorem texts_eq (h : f.Retargets ts a label body last t g) (b : Bindings) :
    ({ label with instructions := body ++
      [{ last with action := .transfer (t.mapTargets g) }] } : Label).texts b = label.texts b := by
  rw [Label.texts, Label.texts, h.instructions_eq, List.filterMap_append, List.filterMap_append,
    List.filterMap_cons, List.filterMap_cons, toOption_statement_retarget b h.action_eq]

/-- A step of a walk performs the texts of a label and leaves through its transfer. -/
theorem step_eq (h : f.Retargets ts a label body last t g) (b : Bindings) (p : Progress σ) :
    f.step b I (.here a p) = leave I b t (p.performAll I (label.texts b)) := by
  rw [step, label?, h.label_eq]
  dsimp only
  rw [h.transfer?_eq]

/-- **The statements of a label as structuring left it** perform what a walk performs. -/
theorem execAll_eq (h : f.Retargets ts a label body last t g) (hs : s.labels = f.withTransfers ts)
    (hok : (s.label a).refusal? = none) {index : Nat → Nat} {around : Option Dispatch}
    (m : Machine σ) : execAll I (Emission.Written.label s index around a) m =
      Emission.Written.leave s index around I (t.mapTargets g)
        (m.performAll I (label.texts s.bindings)) := by
  have hlabel := Emission.Source.label_eq (hs ▸ h.getElem?_eq)
  have htexts : (s.label a).texts s.bindings = label.texts s.bindings := hlabel ▸ h.texts_eq _
  rw [← htexts]
  exact Emission.execAll_label (by rw [hlabel]) h.operations rfl hok m

/-- The target chosen means the label that the walk goes on with. -/
theorem means_choose (h : f.Retargets ts a label body last t g) {mean : Meaning}
    (hmeans : Means f.transfers ts mean a) {target : Target} (ht : target ∈ t.targets) :
    ∃ id, target = .label id ∧ mean (g target) = some id := by
  obtain ⟨ids, h₀, hm⟩ := hmeans
  have htargets : t.targets = ids.map Target.label := by
    rw [← h₀, targets_transfers, h.label_eq, Option.bind_some, h.transfer?_eq]
    rfl
  rw [h.targets_eq, Transfer.targets_mapTargets, htargets, List.map_map, List.map_map] at hm
  rw [htargets] at ht
  obtain ⟨id, hid, rfl⟩ := List.mem_map.mp ht
  exact ⟨id, rfl, List.map_inj_left.mp hm id hid⟩

end Function.Retargets

/-- The function goes on at the label that its control transfer chooses. -/
theorem Function.leave_of_choose {b : Bindings} {p : Progress σ} {id : Nat}
    (h : t.choose I b.exceptionFlag p.state = some (.label id)) : leave I b t p = .here id p := by
  cases t with
  | ret => simp [Transfer.choose] at h
  | unreachable => simp [Transfer.choose] at h
  | _ => simp only [leave, h]

/-- The code takes the jump of the target that the control transfer chooses. -/
theorem Emission.Written.leave_of_choose {index : Nat → Nat} {around : Option Dispatch}
    {m : Machine σ} {target : Target}
    (h : t.choose I s.config.exceptionFlag m.progress.state = some target) :
    leave s index around I t m = takeJump m (jump s index around target) := by
  cases t with
  | ret => simp [Transfer.choose] at h
  | _ => simp only [leave, h]

/-- A control transfer that has no targets ends a walk. -/
theorem Transfer.choose_cases (t : Transfer) (flag : String) (state : σ) :
    (∃ value, t = .ret value) ∨ t = .unreachable ∨
      ∃ target, t.choose I flag state = some target := by
  cases t with
  | ret value => exact Or.inl ⟨value, rfl⟩
  | unreachable => exact Or.inr (Or.inl rfl)
  | switch scrutinee default cases =>
    refine Or.inr (Or.inr ?_)
    rw [choose]
    split <;> exact ⟨_, rfl⟩
  | _ => exact Or.inr (Or.inr ⟨_, rfl⟩)

/-- **Visiting a label takes a step of the walk**: it leaves through a target that means
the label that the walk goes on with, or the walk ends here. -/
theorem visit_cases (h : f.Retargets ts a label body last t g)
    (hs : s.labels = f.withTransfers ts)
    (hflag : s.bindings.exceptionFlag = s.config.exceptionFlag)
    (hok : (s.label a).refusal? = none) {mean : Meaning} (hmeans : Means f.transfers ts mean a)
    (index : Nat → Nat) (around : Option Dispatch) (m : Machine σ) :
    let m' := m.performAll I (label.texts s.bindings)
    let r := execAll I (Emission.Written.label s index around a) m
    let point := f.step s.bindings I (.here a m.progress)
    (∃ target ∈ ts.targets a, ∃ id, mean target = some id ∧
        r = takeJump m' (Emission.Written.jump s index around target) ∧
        point = .here id m'.progress) ∨
      (∃ value, r = (.returns value, m') ∧ point = .returned value m'.progress) ∨
      r = (.falls, m') ∧ point = .stranded m'.progress := by
  intro m' r point
  have hr : r = Emission.Written.leave s index around I (t.mapTargets g) m' := h.execAll_eq hs hok m
  have hpoint : point = Function.leave I s.bindings t m'.progress := h.step_eq s.bindings m.progress
  rcases t.choose_cases (I := I) s.config.exceptionFlag m'.progress.state with
    ⟨value, rfl⟩ | rfl | ⟨target, hchosen⟩
  · exact Or.inr (Or.inl ⟨_, hr, hpoint⟩)
  · exact Or.inr (Or.inr ⟨hr, hpoint⟩)
  · obtain ⟨id, rfl, hid⟩ := h.means_choose hmeans (Transfer.choose_mem hchosen)
    refine Or.inl ⟨g (.label id), ?_, id, hid, ?_, ?_⟩
    · rw [h.targets_eq, Transfer.targets_mapTargets]
      exact List.mem_map_of_mem (Transfer.choose_mem hchosen)
    · rw [hr, Emission.Written.leave_of_choose]
      rw [Transfer.choose_mapTargets, hchosen]
      rfl
    · rw [hpoint, Function.leave_of_choose]
      rw [hflag, hchosen]

end Visits

end StructuredFlow
