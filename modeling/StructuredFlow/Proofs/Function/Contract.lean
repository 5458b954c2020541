/-
# Validation decides the contract

A fold that gathers definitions goes on as long as each step defines nothing seen before
(`Fresh`).  Both folds of `Function.validate` are of that kind: the one over the
instructions of a label, whose steps also check the owner, and the one over the labels,
whose steps also check shape and targets.  So one lemma (`foldlM_eq_ok_iff`) says of either
that it succeeds exactly if every element passes its checks and the definitions of all are
different, and `validate` succeeds exactly if the function meets its contract
(`validate_eq_ok_iff`).
-/

import Mathlib.Data.List.Basic
import Mathlib.Data.List.Nodup
import StructuredFlow.Function.Validation

namespace StructuredFlow

/-- A result of two steps comes from a result of the first. -/
theorem bind_eq_ok_iff {α β ε : Type} {x : Except ε α} {f : α → Except ε β} {r : β} :
    x >>= f = .ok r ↔ ∃ a, x = .ok a ∧ f a = .ok r := by
  cases x <;> simp [bind, Except.bind]

/-! ### Gathering definitions -/

/-- New definitions whose names differ from each other and from those seen. -/
def Fresh (new seen : List (String × Nat)) : Prop :=
  (new.map Prod.fst).Nodup ∧ ∀ name ∈ new.map Prod.fst, name ∉ seen.map Prod.fst

/-- Nothing is always new. -/
theorem fresh_nil (seen : List (String × Nat)) : Fresh [] seen := by
  simp [Fresh]

/-- Names in two parts are new if those of each part are, the second after the first. -/
theorem fresh_append {a b seen : List (String × Nat)} :
    Fresh (a ++ b) seen ↔ Fresh a seen ∧ Fresh b (a.reverse ++ seen) := by
  simp only [Fresh, List.map_append, List.map_reverse, List.nodup_append, List.mem_append,
    List.mem_reverse, or_imp, forall_and, not_or]
  constructor
  · rintro ⟨⟨ha, hb, hab⟩, haseen, hbseen⟩
    exact ⟨⟨ha, haseen⟩, hb, fun name hb ha => hab name ha name hb rfl, hbseen⟩
  · rintro ⟨⟨ha, haseen⟩, hb, hba, hbseen⟩
    refine ⟨⟨ha, hb, fun name ha other hb heq => ?_⟩, haseen, hbseen⟩
    exact hba other hb (heq ▸ ha)

/-- **A fold that gathers fresh definitions** succeeds if every element is good and the
definitions of all of them are fresh, and then has gathered them, the latest first. -/
theorem foldlM_eq_ok_iff {α ε : Type} {good : α → Prop} {defs : α → List (String × Nat)}
    {step : List (String × Nat) → α → Except ε (List (String × Nat))}
    (hstep : ∀ seen a seen', step seen a = .ok seen' ↔
      good a ∧ Fresh (defs a) seen ∧ seen' = (defs a).reverse ++ seen)
    {l : List α} {seen seen' : List (String × Nat)} :
    l.foldlM step seen = .ok seen' ↔ (∀ a ∈ l, good a) ∧ Fresh (l.flatMap defs) seen ∧
      seen' = (l.flatMap defs).reverse ++ seen := by
  induction l generalizing seen with
  | nil => simp [fresh_nil, pure, Except.pure, eq_comm]
  | cons a l ih =>
    simp only [List.foldlM_cons, bind_eq_ok_iff, hstep, ih, List.forall_mem_cons,
      List.flatMap_cons, fresh_append, List.reverse_append, List.append_assoc]
    constructor
    · rintro ⟨_, ⟨ha, hfresh, rfl⟩, hl, hfresh', rfl⟩
      exact ⟨⟨ha, hl⟩, ⟨hfresh, hfresh'⟩, rfl⟩
    · rintro ⟨⟨ha, hl⟩, ⟨hfresh, hfresh'⟩, rfl⟩
      exact ⟨_, ⟨ha, hfresh, rfl⟩, hl, hfresh', rfl⟩

namespace Function

variable {f : Function} {label : Label} {inst : Instruction} {position : Nat}
  {seen seen' : List (String × Nat)}

/-! ### The checks of one label -/

/-- The name that an instruction of a label defines, with the label. -/
def definition (label : Label) (inst : Instruction) : List (String × Nat) :=
  inst.definedName?.toList.map fun name => (name, label.id)

/-- The names that a label defines, with the label. -/
def definitions (label : Label) : List (String × Nat) :=
  label.instructions.flatMap (definition label)

/-- The names that a label defines are those that its instructions define. -/
theorem map_fst_definitions (label : Label) :
    (definitions label).map Prod.fst = label.instructions.filterMap Instruction.definedName? := by
  simp only [definitions, definition, List.map_flatMap, List.map_map, Function.comp_def,
    List.map_id', List.filterMap_eq_flatMap_toList]

/-- One name is new exactly if it has not been seen. -/
theorem fresh_singleton {name : String} {id : Nat} :
    Fresh [(name, id)] seen ↔ seen.lookup name = none := by
  simp only [Fresh, List.map_cons, List.map_nil, List.nodup_singleton, List.mem_singleton,
    forall_eq, true_and, List.lookup_eq_none_iff, List.mem_map, not_exists, not_and, bne_iff_ne]
  exact forall₂_congr fun _ _ => ne_comm

/-- An instruction passes exactly if it belongs to its label and its function and defines a new
name. -/
theorem checkInstruction_eq_ok_iff (f : Function) (label : Label) (seen : List (String × Nat))
    (inst : Instruction) (seen' : List (String × Nat)) :
    f.checkInstruction label seen inst = .ok seen' ↔
      (inst.label = label.id ∧ inst.function = f.id) ∧ Fresh (definition label inst) seen ∧
        seen' = (definition label inst).reverse ++ seen := by
  rw [checkInstruction]
  split
  next h =>
    rw [← not_and_or] at h
    simp [h]
  next h =>
    rw [not_or, not_not, not_not] at h
    rw [and_iff_right h, definition]
    cases inst.definedName? with
    | none => simp [fresh_nil, eq_comm]
    | some name =>
      rw [Option.toList_some, List.map_singleton, fresh_singleton]
      dsimp only
      split
      next first hfirst => simp [hfirst]
      next hnone => simp [hnone, eq_comm]

/-- Instructions pass exactly if each of them belongs to the label and the function and all their
names are new. -/
theorem foldlM_checkInstruction_eq_ok_iff :
    label.instructions.foldlM (checkInstruction f label) seen = .ok seen' ↔
      (∀ inst ∈ label.instructions, inst.label = label.id ∧ inst.function = f.id) ∧
        Fresh (definitions label) seen ∧ seen' = (definitions label).reverse ++ seen := by
  rw [definitions]
  exact foldlM_eq_ok_iff (checkInstruction_eq_ok_iff f label)

/-- The last instruction can be taken off in one way. -/
theorem exists_append_singleton_iff {body : List Instruction} {last : Instruction}
    {p : List Instruction → Instruction → Prop} :
    (∃ body' last', body ++ [last] = body' ++ [last'] ∧ p body' last') ↔ p body last := by
  constructor
  · rintro ⟨body', last', heq, h⟩
    obtain ⟨rfl, hlast⟩ := List.append_inj' heq rfl
    cases hlast
    exact h
  · exact fun h => ⟨body, last, rfl, h⟩

/-- The shape of a label passes exactly if its id is its position and its last instruction alone
transfers control. -/
theorem checkShape_eq_ok_iff : f.checkShape position label = .ok () ↔ label.id = position ∧
    ∃ body last, label.instructions = body ++ [last] ∧ last.isTransfer = true ∧
      ∀ inst ∈ body, inst.isTransfer = false := by
  rw [checkShape]
  split
  next h => simp [h]
  next h =>
    rw [not_not] at h
    rw [and_iff_right h]
    rcases label.instructions.eq_nil_or_concat with hnil | ⟨body, last, hconcat⟩
    · simp [hnil]
    · rw [hconcat, List.concat_eq_append, List.getLast?_concat, List.dropLast_concat,
        exists_append_singleton_iff]
      dsimp only
      cases last.isTransfer with
      | false => simp
      | true =>
        rw [and_iff_right rfl, if_neg (by decide)]
        split
        next inner hinner =>
          simp only [reduceCtorEq, false_iff, not_forall]
          exact ⟨inner, List.mem_of_find?_eq_some hinner, by simpa using List.find?_some hinner⟩
        next hnone => simpa using hnone

/-- The targets of a label pass exactly if each is a label of the function. -/
theorem checkTargets_eq_ok_iff : f.checkTargets label = .ok () ↔
    ∀ target ∈ label.realTargets, target < f.labels.length := by
  rw [checkTargets]
  split
  next target h =>
    simp only [reduceCtorEq, false_iff, not_forall, Nat.not_lt]
    exact ⟨target, List.mem_of_find?_eq_some h, by simpa using List.find?_some h⟩
  next h => simpa using h

/-! ### The checks of a function -/

/-- What a label has to meet by itself. -/
structure Meets (f : Function) (label : Label × Nat) : Prop where
  /-- Its id is its position. -/
  id_eq : label.1.id = label.2
  /-- Its last instruction is its only control transfer. -/
  terminated : ∃ body last, label.1.instructions = body ++ [last] ∧ last.isTransfer = true ∧
    ∀ inst ∈ body, inst.isTransfer = false
  /-- Its instructions name it and the function. -/
  owned : ∀ inst ∈ label.1.instructions, inst.label = label.1.id ∧ inst.function = f.id
  /-- Its jumps lead to labels. -/
  target_lt : ∀ target ∈ label.1.realTargets, target < f.labels.length

/-- A label passes exactly if it meets the conditions on it and its names are new. -/
theorem checkLabel_eq_ok_iff (f : Function) (seen : List (String × Nat)) (label : Label × Nat)
    (seen' : List (String × Nat)) : f.checkLabel seen label = .ok seen' ↔
    f.Meets label ∧ Fresh (definitions label.1) seen ∧
      seen' = (definitions label.1).reverse ++ seen := by
  simp only [checkLabel, bind_eq_ok_iff, pure, Except.pure, Except.ok.injEq]
  constructor
  · rintro ⟨⟨⟩, hshape, _, hfold, ⟨⟩, htargets, rfl⟩
    obtain ⟨hid, hterminated⟩ := checkShape_eq_ok_iff.mp hshape
    obtain ⟨howned, hfresh, rfl⟩ := foldlM_checkInstruction_eq_ok_iff.mp hfold
    exact ⟨⟨hid, hterminated, howned, checkTargets_eq_ok_iff.mp htargets⟩, hfresh, rfl⟩
  · rintro ⟨h, hfresh, rfl⟩
    exact ⟨(), checkShape_eq_ok_iff.mpr ⟨h.id_eq, h.terminated⟩, _,
      foldlM_checkInstruction_eq_ok_iff.mpr ⟨h.owned, hfresh, rfl⟩, (),
      checkTargets_eq_ok_iff.mpr h.target_lt, rfl⟩

/-- Labels pass exactly if each meets its conditions and all their names are new. -/
theorem foldlM_checkLabel_eq_ok_iff : f.labels.zipIdx.foldlM (checkLabel f) seen = .ok seen' ↔
    (∀ label ∈ f.labels.zipIdx, f.Meets label) ∧
      Fresh (f.labels.zipIdx.flatMap fun label => definitions label.1) seen ∧
        seen' = (f.labels.zipIdx.flatMap fun label => definitions label.1).reverse ++ seen :=
  foldlM_eq_ok_iff (checkLabel_eq_ok_iff f)

/-- **A function is valid exactly if its entry is a label and its labels pass one after the
other.** -/
theorem validate_eq_ok_iff_foldlM : f.validate = .ok () ↔
    f.entry < f.labels.length ∧ ∃ seen, f.labels.zipIdx.foldlM (checkLabel f) [] = .ok seen := by
  rw [validate]
  split
  next hempty =>
    rw [List.isEmpty_iff.mp hempty]
    simp [throw, throwThe, MonadExceptOf.throw, bind, Except.bind]
  next =>
    split
    next hentry =>
      simp [throw, throwThe, MonadExceptOf.throw, bind, Except.bind, Nat.not_lt.mpr hentry]
    next hentry =>
      rw [and_iff_right (Nat.lt_of_not_le hentry), bind_eq_ok_iff]
      exact exists_congr fun _ => and_iff_left rfl

/-- The names that the labels define are those that the instructions of the function define. -/
theorem map_fst_flatMap_definitions (f : Function) :
    (f.labels.zipIdx.flatMap fun label => definitions label.1).map Prod.fst =
      f.instructions.filterMap Instruction.definedName? := by
  have hlabels : f.labels.zipIdx.flatMap (fun label => definitions label.1) =
      f.labels.flatMap definitions := by
    rw [← List.flatMap_map, List.zipIdx_map_fst]
  rw [hlabels, instructions, List.map_flatMap, List.filterMap_flatMap]
  simp only [map_fst_definitions]

/-- **The contract of a function** is about its entry, each label by itself, and the names of
all. -/
theorem contract_iff : f.Contract ↔ f.entry < f.labels.length ∧
    (∀ label ∈ f.labels.zipIdx, f.Meets label) ∧
      (f.instructions.filterMap Instruction.definedName?).Nodup := by
  constructor
  · intro h
    refine ⟨h.entry_lt, fun ⟨label, i⟩ hlabel => ?_, h.nodup_defined⟩
    have hat : f.labels[i]? = some label := List.mem_zipIdx_iff_getElem?.mp hlabel
    have hmem := List.mem_of_getElem? hat
    exact ⟨h.id_eq i label hat, h.terminated label hmem, h.owned label hmem, h.target_lt label hmem⟩
  · rintro ⟨hentry, hlabels, hnodup⟩
    have hmeets : ∀ label ∈ f.labels, ∃ i, f.Meets (label, i) := by
      intro label hlabel
      obtain ⟨i, hi⟩ := List.mem_iff_getElem?.mp hlabel
      exact ⟨i, hlabels (label, i) (List.mem_zipIdx_iff_getElem?.mpr hi)⟩
    refine ⟨hentry, fun i label hi => ?_, fun label hlabel => ?_, fun label hlabel => ?_, hnodup,
      fun label hlabel => ?_⟩
    · exact (hlabels (label, i) (List.mem_zipIdx_iff_getElem?.mpr hi)).id_eq
    all_goals obtain ⟨i, hi⟩ := hmeets label hlabel
    · exact hi.terminated
    · exact hi.owned
    · exact hi.target_lt

/-- **Validation accepts exactly the functions that meet their contract.** -/
theorem validate_eq_ok_iff : f.validate = .ok () ↔ f.Contract := by
  rw [validate_eq_ok_iff_foldlM, contract_iff, ← map_fst_flatMap_definitions]
  refine and_congr_right fun _ => ?_
  constructor
  · rintro ⟨seen, hseen⟩
    obtain ⟨hlabels, hfresh, -⟩ := foldlM_checkLabel_eq_ok_iff.mp hseen
    exact ⟨hlabels, hfresh.1⟩
  · rintro ⟨hlabels, hnodup⟩
    exact ⟨_, foldlM_checkLabel_eq_ok_iff.mpr ⟨hlabels, ⟨hnodup, by simp⟩, rfl⟩⟩

end Function
end StructuredFlow
