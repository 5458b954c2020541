/-
# The dispatches of written code

The dispatches of the code of a tree are those of its leaves that are printed as one, in
order (`dispatches_tree`).  Each is sound (`soundFor_printed`):

| part | value |
| --- | --- |
| the variable, to begin with | the index of the entry |
| a case | the index of the label in its place |
| an assignment in a case | the index of the label that the target there jumps to |

The targets of a label are written in order, and a jump goes to a label of the same
dispatch.  So each value that the variable takes is that of a case, and a label is asked
for exactly if a printed dispatch holds it (`mem_requests_iff`).
-/

import StructuredFlow.Proofs.Code.Script
import StructuredFlow.Proofs.Code.Writable

namespace StructuredFlow

/-- The jumps in a statement, in order. -/
def Statement.jumps : Statement → List Jump
  | .jump way => [way]
  | .choice arms fallback => arms.filterMap Prod.snd ++ fallback.toList
  | _ => []

/-- The jumps in statements, in order. -/
def jumpsOf (list : List Statement) : List Jump := list.flatMap Statement.jumps

/-- What a jump assigns, if it does: the variable, the value and the dispatch that it starts
again. -/
def Jump.assigns? : Jump → Option (String × Nat × Option String)
  | .redirect selector index dispatch => some (selector, index, some dispatch)
  | _ => none

/-- What is assigned in statements, in order. -/
def assignsOf (list : List Statement) : List (String × Nat × Option String) :=
  (jumpsOf list).filterMap Jump.assigns?

/-- A case as it is printed. -/
def Case.printed (c : Case) : PrintedCase := ⟨c.index, assignsOf c.body⟩

/-- Statements behind others assign what they do behind what those do. -/
theorem assignsOf_append (list list' : List Statement) :
    assignsOf (list ++ list') = assignsOf list ++ assignsOf list' := by
  rw [assignsOf, jumpsOf, List.flatMap_append, List.filterMap_append]
  rfl

namespace Code

/-- The dispatches in code, in order. -/
def dispatches : Code → List PrintedDispatch
  | .done => []
  | .statements _ next => next.dispatches
  | .loop _ body next => body.dispatches ++ next.dispatches
  | .once _ body next => body.dispatches ++ next.dispatches
  | .ifThen _ body next => body.dispatches ++ next.dispatches
  | .ifThenElse _ first second next =>
    first.dispatches ++ second.dispatches ++ next.dispatches
  | .dispatch name selector start cases next =>
    ⟨name, selector, some start, cases.map Case.printed⟩ :: next.dispatches

/-- Code behind other code adds its dispatches at the end. -/
@[simp] theorem dispatches_append (a b : Code) :
    (a ++ b).dispatches = a.dispatches ++ b.dispatches := by
  change (a.append b).dispatches = _
  induction a <;> simp_all [append, dispatches]

end Code

namespace Emission

/-! ### What a label assigns -/

section Labels

variable {s : Source} {index : Nat → Nat} {around : Option Dispatch} {d : Dispatch}

/-- The jumps of a choice between two targets are those of both. -/
theorem jumpsOf_twoWay (test : Test) (first second : Option Jump) :
    jumpsOf (twoWay test first second) = first.toList ++ second.toList := by
  cases first <;> cases second <;> rfl

/-- The jumps of a choice between many targets are those of its arms and then the last. -/
theorem jumpsOf_manyWay (arms : List (Test × Option Jump)) (fallback : Option Jump) :
    jumpsOf (manyWay arms fallback) = arms.filterMap Prod.snd ++ fallback.toList := by
  rw [manyWay]
  split
  next hnone =>
    rw [Bool.and_eq_true, Option.isNone_iff_eq_none, List.all_eq_true] at hnone
    obtain ⟨rfl, harms⟩ := hnone
    have hempty : arms.filterMap Prod.snd = [] :=
      List.filterMap_eq_nil_iff.mpr fun arm harm => Option.isNone_iff_eq_none.mp (harms arm harm)
    rw [hempty]
    rfl
  next =>
    split
    next hempty =>
      obtain rfl := List.isEmpty_iff.mp hempty
      cases fallback <;> rfl
    next => exact List.flatMap_singleton _ _

/-- The jumps of a control transfer are those of its targets. -/
theorem jumpsOf_transfer (inst : Instruction) (t : Transfer) :
    jumpsOf (Written.transfer s index around inst t) =
      t.writtenTargets.filterMap (Written.jump s index around) := by
  have htwo : ∀ first second : Target,
      [first, second].filterMap (Written.jump s index around) =
        (Written.jump s index around first).toList ++
          (Written.jump s index around second).toList := by
    intro first second
    cases h : Written.jump s index around first <;>
      cases h' : Written.jump s index around second <;> simp [h, h']
  cases t with
  | branch target =>
    change jumpsOf ((Written.jump s index around target).map Statement.jump).toList =
      [target].filterMap _
    cases h : Written.jump s index around target <;> simp [h, jumpsOf, Statement.jumps]
  | condBranch condition ifTrue ifFalse =>
    exact (jumpsOf_twoWay _ _ _).trans (htwo ifTrue ifFalse).symm
  | switch scrutinee default cases =>
    change jumpsOf (manyWay _ _) = (cases.map Prod.snd ++ [default]).filterMap _
    rw [jumpsOf_manyWay, List.filterMap_append, List.filterMap_map, List.filterMap_map]
    cases h : Written.jump s index around default <;> simp [h]
  | invoke callee args normal unwind =>
    exact (jumpsOf_twoWay _ _ _).trans (htwo normal unwind).symm
  | ret value => rfl
  | unreachable => rfl

/-- What a jump to a target assigns, if it goes to a label. -/
theorem bind_assigns?_jump (target : Target) :
    (Written.jump s index (some d) target).bind Jump.assigns? =
      target.label?.map fun b => (s.config.dispatchVariable, index b, some d.name) := by
  cases target <;> rfl

/-- An instruction in a dispatch assigns the indices of the labels that it jumps to. -/
theorem assigns_instruction (inst : Instruction) :
    assignsOf (Written.instruction s index (some d) inst) =
      inst.requests.map fun b => (s.config.dispatchVariable, index b, some d.name) := by
  rw [assignsOf, Written.instruction, Instruction.requests]
  cases inst.action with
  | operation op => rfl
  | transfer t =>
    have hrequests : t.writtenTargets.flatMap Target.requests =
        t.writtenTargets.filterMap Target.label? := by
      rw [List.filterMap_eq_flatMap_toList]
      rfl
    dsimp only
    rw [jumpsOf_transfer, List.filterMap_filterMap, hrequests, List.map_filterMap]
    exact List.filterMap_congr fun target _ => bind_assigns?_jump target

/-- **A member of a dispatch assigns the indices of the labels that it jumps to.** -/
theorem assigns_dispatchCase (id : Nat) : assignsOf (Written.dispatchCase s index d id).body =
    (s.label id).requests.map fun b => (s.config.dispatchVariable, index b, some d.name) := by
  have hbody : (Written.dispatchCase s index d id).body =
      (s.label id).instructions.flatMap (Written.instruction s index (some d)) := by
    rw [Written.dispatchCase, Written.label]
    simp
  rw [hbody, Label.requests]
  induction (s.label id).instructions with
  | nil => rfl
  | cons inst rest ih =>
    rw [List.flatMap_cons, List.flatMap_cons, List.map_append, ← ih, ← assigns_instruction,
      assignsOf_append]

/-- A member of a dispatch jumps to its members. -/
theorem WritableLabel.mem_of_mem_requests {id : Nat} (h : WritableLabel s (some d) id) {b : Nat}
    (hb : b ∈ (s.label id).requests) : b ∈ d.members := by
  obtain ⟨inst, hinst, hb⟩ := List.mem_flatMap.mp hb
  rw [Instruction.requests] at hb
  have htargets := h.targets inst hinst
  cases ha : inst.action with
  | operation op =>
    rw [ha] at hb
    exact absurd hb List.not_mem_nil
  | transfer t =>
    rw [ha] at hb htargets
    obtain ⟨target, ht, hb⟩ := List.mem_flatMap.mp hb
    have hwritable := htargets target (Transfer.mem_writtenTargets.mp ht)
    cases target with
    | label c =>
      obtain rfl := List.mem_singleton.mp hb
      obtain ⟨d', hd', hmem⟩ := hwritable
      exact Option.some.inj hd' ▸ hmem
    | _ => exact absurd hb List.not_mem_nil

end Labels

/-! ### What a tree prints -/

/-- Tests whether the first block is printed as a dispatch. -/
def Source.printsDispatch (s : Source) : BlockTree → Bool
  | .leaf kind entry labels _ => s.dispatches kind entry labels
  | _ => false

/-- The blocks of a tree that are printed as dispatches, in order. -/
def Source.dispatchBlocks (s : Source) (t : BlockTree) : List BlockTree :=
  t.descendants.filter s.printsDispatch

/-- A block is printed as a dispatch exactly if it is in the tree and tested to be. -/
theorem mem_dispatchBlocks {s : Source} {t b : BlockTree} :
    b ∈ s.dispatchBlocks t ↔ b ∈ t.preorder ∧ s.printsDispatch b = true := by
  rw [Source.dispatchBlocks, BlockTree.descendants_eq_preorder, List.mem_filter]

/-- The dispatch that a block is printed as. -/
def Written.printed (s : Source) (index : Nat → Nat) : BlockTree → PrintedDispatch
  | .leaf _ entry labels _ =>
    let d := s.dispatch entry labels
    ⟨d.name, s.config.dispatchVariable, some (index entry),
      (labels.map (Written.dispatchCase s index d)).map Case.printed⟩
  | _ => default

section Blocks

variable {s : Source} {index : Nat → Nat}

/-- The dispatches of a conditional are those of its first arm and then those of the other, which
is left out if it is empty. -/
theorem dispatches_conditional (test : Condition) (ifTrue ifFalse : BlockTree) :
    (conditional test ifFalse (Written.tree s index ifTrue)
      (Written.tree s index ifFalse)).dispatches =
      (Written.tree s index ifTrue).dispatches ++ (Written.tree s index ifFalse).dispatches := by
  rw [conditional]
  split
  next hnil =>
    cases ifFalse with
    | nil => rfl
    | _ => exact absurd hnil Bool.false_ne_true
  next => exact List.append_nil _

/-- A leaf has the dispatch that it is printed as, if it is. -/
theorem dispatches_leaf (kind : LeafKind) (entry : Nat) (labels : List Nat) (next : BlockTree) :
    (Written.leaf s index kind entry labels).dispatches =
      ([BlockTree.leaf kind entry labels next].filter s.printsDispatch).map
        (Written.printed s index) := by
  rw [Written.leaf, Source.around, List.filter_singleton, Source.printsDispatch]
  cases s.dispatches kind entry labels <;> rfl

/-- **The dispatches in the code of a tree** are those of its leaves. -/
theorem dispatches_tree (t : BlockTree) : (Written.tree s index t).dispatches =
    (s.dispatchBlocks t).map (Written.printed s index) := by
  rw [Source.dispatchBlocks, BlockTree.descendants_eq_preorder]
  induction t with
  | nil => rfl
  | leaf kind entry labels next ih =>
    rw [Written.tree, Code.dispatches_append, dispatches_leaf kind entry labels next, ih,
      ← List.map_append, ← List.filter_append]
    rfl
  | loop entry labels inc rest next ihInc ihRest ihNext =>
    rw [Written.tree, Code.dispatches, Code.dispatches_append, ihInc, ihRest, ihNext,
      ← List.map_append, ← List.map_append, ← List.filter_append, ← List.filter_append]
    rfl
  | cond entry labels breaking test check ifTrue ifFalse next ihCheck ihTrue ihFalse ihNext =>
    have hparts : (Written.tree s index (.cond entry labels breaking test check ifTrue ifFalse
        next)).dispatches = (Written.tree s index check).dispatches ++
          ((Written.tree s index ifTrue).dispatches ++ (Written.tree s index ifFalse).dispatches) ++
          (Written.tree s index next).dispatches := by
      rw [← dispatches_conditional test]
      cases breaking with
      | false => rw [Written.tree, Code.dispatches_append, Code.dispatches_append]
      | true =>
        rw [Written.tree, Code.dispatches_append, Code.dispatches_append, Code.dispatches,
          Code.dispatches, List.append_nil]
    rw [hparts, ihCheck, ihTrue, ihFalse, ihNext, ← List.map_append, ← List.map_append,
      ← List.map_append, ← List.filter_append, ← List.filter_append, ← List.filter_append,
      ← List.append_assoc]
    rfl

/-- **A label is asked for exactly if a printed dispatch holds it.** -/
theorem mem_requests_iff {t : BlockTree} (h : ∀ b ∈ t.preorder, WritableBlock s b) {a : Nat} :
    a ∈ s.requests t ↔ ∃ b ∈ s.dispatchBlocks t, a ∈ b.labels := by
  rw [Source.requests, Source.dispatchBlocks, BlockTree.descendants_eq_preorder, List.mem_flatMap]
  refine exists_congr fun b => ?_
  rw [List.mem_filter, and_assoc]
  refine and_congr_right fun hb => ?_
  cases b with
  | leaf kind entry labels next =>
    obtain ⟨hentry, -, -, hlabels⟩ := h _ hb
    rw [Source.blockRequests, Source.printsDispatch, BlockTree.labels]
    rw [Source.around] at hlabels
    cases hdispatch : s.dispatches kind entry labels with
    | false => simp
    | true =>
      rw [if_pos hdispatch] at hlabels
      simp only [if_true, true_and]
      constructor
      · intro ha
        rcases List.mem_cons.mp ha with rfl | ha
        · exact hentry
        · obtain ⟨id, hid, ha⟩ := List.mem_flatMap.mp ha
          rcases List.mem_cons.mp ha with rfl | ha
          · exact hid
          · exact (hlabels id hid).mem_of_mem_requests ha
      · intro ha
        exact List.mem_cons_of_mem _ (List.mem_flatMap.mpr ⟨a, ha, List.mem_cons_self⟩)
  | _ => simp [Source.blockRequests, Source.printsDispatch]

/-- A registry in which all that is asked for has an index tells the labels of each dispatch
apart. -/
theorem index_inj_of_requests {t b : BlockTree} {r : Registry}
    (h : ∀ b ∈ t.preorder, WritableBlock s b)
    (hkeys : ∀ a ∈ s.requests t, (s.function, a) ∈ r.keys) (hb : b ∈ s.dispatchBlocks t) :
    ∀ a ∈ b.labels, ∀ c ∈ b.labels, r.index s.function a = r.index s.function c → a = c := by
  intro a ha c _ heq
  have hkey := hkeys a ((mem_requests_iff h).mpr ⟨b, hb, ha⟩)
  exact (Prod.mk.inj (Registry.eq_of_index_eq hkey heq)).2

end Blocks

/-! ### Printed dispatches are sound -/

/-- A dispatch is printed for a block in such a way that the indices of its labels stand
for them. -/
structure SoundFor (s : Source) (index : Nat → Nat) (b : BlockTree) (d : PrintedDispatch) :
    Prop where
  /-- The variable starts with the index of the entry, which is one of the labels. -/
  start_eq : ∃ entry ∈ b.labels, b.entry? = some entry ∧ d.start = some (index entry)
  /-- Each label has a case under its index.  What is assigned in it are the indices of the
  labels that it jumps to, in order, and each time the dispatch is run again. -/
  cases_eq : List.Forall₂ (fun a c => c.index = index a ∧
    c.assigns = (s.label a).requests.map fun b =>
      (d.selector, index b, some d.name)) b.labels d.cases
  /-- The labels that are jumped to are among the labels, and so have cases. -/
  closed : ∀ a ∈ b.labels, ∀ c ∈ (s.label a).requests, c ∈ b.labels
  /-- No two cases have the same value. -/
  nodup_index : (d.cases.map PrintedCase.index).Nodup

/-- **A printed dispatch is sound** under indices that tell its labels apart. -/
theorem soundFor_printed {s : Source} {index : Nat → Nat} {b : BlockTree} (h : WritableBlock s b)
    (hprints : s.printsDispatch b = true)
    (hinj : ∀ a ∈ b.labels, ∀ c ∈ b.labels, index a = index c → a = c) :
    SoundFor s index b (Written.printed s index b) := by
  cases b with
  | leaf kind entry labels next =>
    obtain ⟨hentry, hup, -, hlabels⟩ := h
    have hdispatch : s.dispatches kind entry labels = true := hprints
    rw [Source.around, if_pos hdispatch] at hlabels
    constructor
    · exact ⟨entry, hentry, rfl, rfl⟩
    · change List.Forall₂ _ labels ((labels.map _).map Case.printed)
      rw [List.forall₂_map_right_iff, List.forall₂_map_right_iff, List.forall₂_same]
      exact fun a _ => ⟨rfl, assigns_dispatchCase a⟩
    · exact fun a ha b hb => (hlabels a ha).mem_of_mem_requests hb
    · change (((labels.map _).map Case.printed).map PrintedCase.index).Nodup
      rw [List.map_map, List.map_map]
      exact List.Nodup.map_on hinj (hup.imp fun hlt => Nat.ne_of_lt hlt)
  | _ => exact absurd hprints Bool.false_ne_true

end Emission
end StructuredFlow
