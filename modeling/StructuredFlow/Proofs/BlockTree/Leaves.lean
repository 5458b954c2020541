/-
# Leaves and ends of a tree of blocks

`descendants` and `trailingLabels` walk through a tree with a stack.  What they
list is what a recursion on the tree lists: `descendants` is `preorder`
(`descendants_eq_preorder`), and `trailingLabels` is `fallThroughLabels` in another
order (`perm_trailingLabels`).  Everything else about trees is proved
by recursion on them.

A label after which control leaves a tree is one of its leaf labels, provided that
each block of labels holds its entry (`EntriesHeld`).  A test that selects only such
labels of a tree (`SelectsEnd`) selects none in a loop body, and selects some in an arm
only if nothing follows the conditional.
-/

import Mathlib.Data.List.Nodup
import StructuredFlow.BlockTree.Traversal

namespace StructuredFlow
namespace BlockTree

/-- The empty chain is the only one without a block. -/
theorem isNil_iff {t : BlockTree} : t.isNil = true ↔ t = .nil := by cases t <;> simp [isNil]

/-! ### All blocks -/

/-- Leaving out empty chains leaves out no block. -/
theorem flatMap_filter_isNil (ts : List BlockTree) :
    (ts.filter fun t => !t.isNil).flatMap preorder = ts.flatMap preorder := by
  induction ts with
  | nil => rfl
  | cons t ts ih =>
    rw [List.filter_cons, List.flatMap_cons, ← ih]
    split
    · rw [List.flatMap_cons]
    · cases t with
      | nil => rfl
      | _ => simp [isNil] at *

/-- A block, its parts and what follows it make up the preorder. -/
theorem preorder_of_not_isNil {t : BlockTree} (h : ¬t.isNil) :
    t.preorder = t :: (t.children.flatMap preorder ++ t.next.preorder) := by
  cases t with
  | nil => exact absurd rfl h
  | leaf => rfl
  | loop => simp [preorder, children, flatMap_filter_isNil, BlockTree.next]
  | cond => simp [preorder, children, flatMap_filter_isNil, BlockTree.next]

/-- The traversal with a stack lists the blocks of the chains on it one chain after the other,
each in preorder. -/
theorem visit_eq_flatMap (stack : List BlockTree) : visit stack = stack.flatMap preorder := by
  fun_induction visit stack with
  | case1 => rfl
  | case2 t rest h ih =>
    cases t with
    | nil => exact ih
    | _ => simp [isNil] at h
  | case3 t rest h ih =>
    rw [ih, List.flatMap_append, List.flatMap_cons, List.flatMap_cons, preorder_of_not_isNil h,
      List.cons_append, List.append_assoc]

/-- **The blocks of a tree are listed in preorder.** -/
theorem descendants_eq_preorder (t : BlockTree) : t.descendants = t.preorder := by
  rw [descendants, visit_eq_flatMap, List.flatMap_cons, List.flatMap_nil, List.append_nil]

/-! ### The labels of the leaves -/

section LeafLabels

variable (kind : LeafKind) (entry : Nat) (labels : List Nat) (breaking : Bool) (test : Condition)
  (inc rest check ifTrue ifFalse next : BlockTree)

/-- The empty chain has no leaf labels. -/
@[simp] theorem leafLabels_nil : leafLabels .nil = [] := by
  simp [leafLabels, descendants_eq_preorder, preorder]

/-- The labels of a leaf come before those of what follows it. -/
@[simp] theorem leafLabels_leaf :
    (leaf kind entry labels next).leafLabels = labels ++ next.leafLabels := by
  simp [leafLabels, descendants_eq_preorder, preorder, ownLabels]

/-- The leaf labels of a loop are those of its two parts and of what follows it, in this order. -/
@[simp] theorem leafLabels_loop : (loop entry labels inc rest next).leafLabels =
    inc.leafLabels ++ rest.leafLabels ++ next.leafLabels := by
  simp [leafLabels, descendants_eq_preorder, preorder, ownLabels]

/-- The leaf labels of a conditional are those of its check, its arms and what follows it, in this
order. -/
@[simp] theorem leafLabels_cond :
    (cond entry labels breaking test check ifTrue ifFalse next).leafLabels =
      check.leafLabels ++ ifTrue.leafLabels ++ ifFalse.leafLabels ++ next.leafLabels := by
  simp [leafLabels, descendants_eq_preorder, preorder, ownLabels]

end LeafLabels

/-! ### The labels at the end -/

/-- The labels at the ends of the arms of a conditional. -/
def armLabels : BlockTree → List Nat
  | .cond _ _ _ _ _ ifTrue ifFalse _ => ifTrue.fallThroughLabels ++ ifFalse.fallThroughLabels
  | _ => []

/-- The recursion finds the labels at the end of the last block of a chain. -/
theorem fallThroughLabels_eq_last (t : BlockTree) :
    t.fallThroughLabels = t.last.lastLabels ++ t.last.armLabels := by
  induction t with
  | nil => rfl
  | leaf kind entry labels next ih =>
    rw [fallThroughLabels, last]
    split
    · cases kind <;> simp [lastLabels, armLabels]
    · exact ih
  | loop entry labels inc rest next _ _ ih =>
    rw [fallThroughLabels, last]
    split
    · rfl
    · exact ih
  | cond entry labels breaking test check ifTrue ifFalse next _ _ _ ih =>
    rw [fallThroughLabels, last]
    split
    · rfl
    · exact ih

/-- The arms from the last to the first have the same labels at their ends. -/
theorem perm_armLabels (t : BlockTree) :
    (t.armsReversed.flatMap fallThroughLabels).Perm t.armLabels := by
  cases t with
  | cond _ _ _ _ _ ifTrue ifFalse _ =>
    cases ifFalse with
    | nil => simp [armsReversed, armLabels, isNil, fallThroughLabels]
    | _ => simpa [armsReversed, armLabels, isNil] using List.perm_append_comm
  | _ => exact List.Perm.refl _

/-- A stack of chains yields what each of them has at its end. -/
theorem perm_visitTrailing (stack : List BlockTree) :
    (visitTrailing stack).Perm (stack.flatMap fallThroughLabels) := by
  fun_induction visitTrailing stack with
  | case1 => exact List.Perm.refl _
  | case2 t rest ih =>
    rw [List.flatMap_append] at ih
    rw [List.flatMap_cons, fallThroughLabels_eq_last, List.append_assoc]
    exact (ih.trans ((perm_armLabels t.last).append_right _)).append_left _

/-- **The trailing labels are those that a recursion on the tree finds**, each as often. -/
theorem perm_trailingLabels (t : BlockTree) : t.trailingLabels.Perm t.fallThroughLabels := by
  simpa [trailingLabels] using perm_visitTrailing [t]

/-- A label is trailing exactly if the recursion finds it. -/
theorem mem_trailingLabels {t : BlockTree} {id : Nat} :
    id ∈ t.trailingLabels ↔ id ∈ t.fallThroughLabels := (perm_trailingLabels t).mem_iff

/-- Each block of labels holds its entry, a simple one nothing else. -/
def EntriesHeld : BlockTree → Prop
  | .nil => True
  | .leaf .simple entry labels next => labels = [entry] ∧ next.EntriesHeld
  | .leaf .dispatch entry labels next => entry ∈ labels ∧ next.EntriesHeld
  | .loop _ _ inc rest next => inc.EntriesHeld ∧ rest.EntriesHeld ∧ next.EntriesHeld
  | .cond _ _ _ _ check ifTrue ifFalse next =>
    check.EntriesHeld ∧ ifTrue.EntriesHeld ∧ ifFalse.EntriesHeld ∧ next.EntriesHeld

/-- A label that the recursion finds at the end is a leaf label. -/
theorem mem_leafLabels_of_mem_fallThroughLabels {t : BlockTree} (ht : t.EntriesHeld) {id : Nat}
    (h : id ∈ t.fallThroughLabels) : id ∈ t.leafLabels := by
  induction t with
  | nil => exact absurd h List.not_mem_nil
  | leaf kind entry labels next ih =>
    rw [leafLabels_leaf, List.mem_append]
    rw [fallThroughLabels] at h
    cases kind with
    | simple =>
      obtain ⟨rfl, hnext⟩ := ht
      split at h
      · exact Or.inl h
      · exact Or.inr (ih hnext h)
    | dispatch =>
      obtain ⟨hentry, hnext⟩ := ht
      split at h
      · rw [lastLabels] at h
        split at h
        · exact Or.inl (List.mem_singleton.mp h ▸ hentry)
        · exact absurd h List.not_mem_nil
      · exact Or.inr (ih hnext h)
  | loop entry labels inc rest next _ _ ih =>
    rw [leafLabels_loop, List.mem_append]
    rw [fallThroughLabels] at h
    split at h
    · exact absurd h List.not_mem_nil
    · exact Or.inr (ih ht.2.2 h)
  | cond entry labels breaking test check ifTrue ifFalse next _ ihTrue ihFalse ih =>
    rw [leafLabels_cond, List.mem_append, List.mem_append, List.mem_append]
    rw [fallThroughLabels] at h
    split at h
    · rcases List.mem_append.mp h with h | h
      · exact Or.inl (Or.inl (Or.inr (ihTrue ht.2.1 h)))
      · exact Or.inl (Or.inr (ihFalse ht.2.2.1 h))
    · exact Or.inr (ih ht.2.2.2 h)

/-- The trailing labels of a tree are leaf labels of it. -/
theorem mem_leafLabels_of_mem_trailingLabels {t : BlockTree} (ht : t.EntriesHeld) {id : Nat}
    (h : id ∈ t.trailingLabels) : id ∈ t.leafLabels :=
  mem_leafLabels_of_mem_fallThroughLabels ht (mem_trailingLabels.mp h)

/-! ### Leaves without a label in common -/

/-- No two leaves of the tree hold a label in common. -/
def LeavesApart (t : BlockTree) : Prop :=
  t.descendants.Pairwise fun a b => a.ownLabels.Disjoint b.ownLabels

/-- Two lists of blocks have no label in common exactly if no two of their blocks have. -/
theorem disjoint_flatMap_iff {a b : List BlockTree} :
    (a.flatMap ownLabels).Disjoint (b.flatMap ownLabels) ↔
      ∀ t ∈ a, ∀ u ∈ b, t.ownLabels.Disjoint u.ownLabels := by
  constructor
  · intro h t ht u hu l hlt hlu
    exact h (List.mem_flatMap_of_mem ht hlt) (List.mem_flatMap_of_mem hu hlu)
  · intro h l ha hb
    obtain ⟨t, ht, hlt⟩ := List.mem_flatMap.mp ha
    obtain ⟨u, hu, hlu⟩ := List.mem_flatMap.mp hb
    exact h t ht u hu hlt hlu

/-- The blocks of two lists are apart exactly if those of each list are and the lists have no
label in common. -/
theorem pairwise_disjoint_append {a b : List BlockTree} :
    (a ++ b).Pairwise (fun t u => t.ownLabels.Disjoint u.ownLabels) ↔
      a.Pairwise (fun t u => t.ownLabels.Disjoint u.ownLabels) ∧
        b.Pairwise (fun t u => t.ownLabels.Disjoint u.ownLabels) ∧
        (a.flatMap ownLabels).Disjoint (b.flatMap ownLabels) := by
  rw [List.pairwise_append, disjoint_flatMap_iff]

/-- A block without labels of its own shares none with any other. -/
theorem pairwise_disjoint_cons {t : BlockTree} (ht : t.ownLabels = []) {a : List BlockTree} :
    (t :: a).Pairwise (fun t u => t.ownLabels.Disjoint u.ownLabels) ↔
      a.Pairwise (fun t u => t.ownLabels.Disjoint u.ownLabels) := by
  rw [List.pairwise_cons, ht]
  exact and_iff_right fun u _ => List.disjoint_nil_left _

section LeavesApart

variable {kind : LeafKind} {entry : Nat} {labels : List Nat} {breaking : Bool} {test : Condition}
  {inc rest check ifTrue ifFalse next : BlockTree}

/-- The leaves behind a leaf are apart from it and from each other. -/
theorem leavesApart_leaf : (leaf kind entry labels next).LeavesApart ↔
    labels.Disjoint next.leafLabels ∧ next.LeavesApart := by
  have hown := disjoint_flatMap_iff (a := [leaf kind entry labels next]) (b := next.preorder)
  rw [List.flatMap_singleton, List.forall_mem_singleton] at hown
  simp only [LeavesApart, leafLabels, descendants_eq_preorder, preorder, List.pairwise_cons]
  exact and_congr_left' hown.symm

/-- The leaves of a loop are apart exactly if those of its parts and of what follows it are, each
from the others. -/
theorem leavesApart_loop : (loop entry labels inc rest next).LeavesApart ↔
    inc.LeavesApart ∧ rest.LeavesApart ∧ next.LeavesApart ∧
      inc.leafLabels.Disjoint rest.leafLabels ∧
      (inc.leafLabels ++ rest.leafLabels).Disjoint next.leafLabels := by
  simp only [LeavesApart, leafLabels, descendants_eq_preorder, preorder,
    pairwise_disjoint_cons (t := loop entry labels inc rest next) rfl, pairwise_disjoint_append,
    List.flatMap_append]
  tauto

/-- The leaves of a conditional are apart exactly if those of its check, its arms and what follows
it are, each from the others. -/
theorem leavesApart_cond :
    (cond entry labels breaking test check ifTrue ifFalse next).LeavesApart ↔
      check.LeavesApart ∧ ifTrue.LeavesApart ∧ ifFalse.LeavesApart ∧ next.LeavesApart ∧
        check.leafLabels.Disjoint (ifTrue.leafLabels ++ ifFalse.leafLabels) ∧
        ifTrue.leafLabels.Disjoint ifFalse.leafLabels ∧
        (check.leafLabels ++ ifTrue.leafLabels ++ ifFalse.leafLabels).Disjoint next.leafLabels := by
  simp only [LeavesApart, leafLabels, descendants_eq_preorder, preorder,
    pairwise_disjoint_cons (t := cond entry labels breaking test check ifTrue ifFalse next) rfl,
    pairwise_disjoint_append, List.flatMap_append, List.disjoint_append_left,
    List.disjoint_append_right]
  tauto

end LeavesApart

/-- Where no label is listed twice the leaves are apart. -/
theorem leavesApart_of_nodup {t : BlockTree} (h : t.leafLabels.Nodup) : t.LeavesApart :=
  (List.nodup_flatMap.mp h).2

/-! ### Selecting labels at the end -/

/-- Of the labels of the tree only those at its end are selected. -/
def SelectsEnd (q : Nat → Bool) (t : BlockTree) : Prop :=
  ∀ a ∈ t.leafLabels, q a = true → a ∈ t.fallThroughLabels

namespace SelectsEnd

variable {q : Nat → Bool} {kind : LeafKind} {entry : Nat} {labels : List Nat} {breaking : Bool}
  {test : Condition} {inc rest check ifTrue ifFalse next : BlockTree}

/-- The labels of a leaf are selected only if nothing follows it. -/
theorem of_leaf (h : (leaf kind entry labels next).SelectsEnd q) (hnext : next.EntriesHeld)
    (hapart : (leaf kind entry labels next).LeavesApart) :
    (next.isNil = false → ∀ a ∈ labels, q a = false) ∧ next.SelectsEnd q := by
  have hfall : ∀ a ∈ labels ++ next.leafLabels, q a = true → next.isNil = false →
      a ∈ next.fallThroughLabels := by
    intro a ha hqa hne
    have hfall := h a (by simpa using ha) hqa
    rwa [fallThroughLabels, if_neg (by simp [hne])] at hfall
  constructor
  · intro hne a ha
    by_contra hqa
    refine (leavesApart_leaf.mp hapart).1 ha (mem_leafLabels_of_mem_fallThroughLabels hnext ?_)
    exact hfall a (List.mem_append_left _ ha) (by simpa using hqa) hne
  · intro a ha hqa
    refine hfall a (List.mem_append_right _ ha) hqa ?_
    cases next with
    | nil => simp at ha
    | _ => rfl

/-- No label of a loop body is selected. -/
theorem of_loop (h : (loop entry labels inc rest next).SelectsEnd q) (hnext : next.EntriesHeld)
    (hapart : (loop entry labels inc rest next).LeavesApart) :
    (∀ a ∈ inc.leafLabels ++ rest.leafLabels, q a = false) ∧ next.SelectsEnd q := by
  obtain ⟨-, -, -, -, hdNext⟩ := leavesApart_loop.mp hapart
  have hfall : ∀ a ∈ inc.leafLabels ++ rest.leafLabels ++ next.leafLabels, q a = true →
      a ∈ next.fallThroughLabels := by
    intro a ha hqa
    have hfall := h a (by simpa using ha) hqa
    rw [fallThroughLabels] at hfall
    split at hfall
    · exact absurd hfall List.not_mem_nil
    · exact hfall
  constructor
  · intro a ha
    by_contra hqa
    refine hdNext ha (mem_leafLabels_of_mem_fallThroughLabels hnext ?_)
    exact hfall a (List.mem_append_left _ ha) (by simpa using hqa)
  · exact fun a ha hqa => hfall a (List.mem_append_right _ ha) hqa

/-- The labels of an arm are selected only at its end and if nothing follows the
conditional; those of the check are not. -/
theorem of_cond
    (h : (cond entry labels breaking test check ifTrue ifFalse next).SelectsEnd q)
    (htrue : ifTrue.EntriesHeld) (hfalse : ifFalse.EntriesHeld) (hnext : next.EntriesHeld)
    (hapart : (cond entry labels breaking test check ifTrue ifFalse next).LeavesApart) :
    (∀ a ∈ check.leafLabels, q a = false) ∧
      (∀ a ∈ ifTrue.leafLabels ++ ifFalse.leafLabels, q a = true → next.isNil = true) ∧
      ifTrue.SelectsEnd q ∧ ifFalse.SelectsEnd q ∧ next.SelectsEnd q := by
  obtain ⟨-, -, -, -, hdArms, hdFalse, hdNext⟩ := leavesApart_cond.mp hapart
  -- a selected label ends an arm, and nothing follows, or it ends what follows
  have hends : ∀ a ∈ check.leafLabels ++ ifTrue.leafLabels ++ ifFalse.leafLabels ++ next.leafLabels,
      q a = true → next.isNil = true ∧ (a ∈ ifTrue.fallThroughLabels ∨
        a ∈ ifFalse.fallThroughLabels) ∨ a ∈ next.fallThroughLabels := by
    intro a ha hqa
    have hfall := h a (by simpa using ha) hqa
    rw [fallThroughLabels] at hfall
    split at hfall
    next hnil => exact Or.inl ⟨hnil, List.mem_append.mp hfall⟩
    next => exact Or.inr hfall
  have harms : ∀ a ∈ check.leafLabels ++ ifTrue.leafLabels ++ ifFalse.leafLabels, q a = true →
      next.isNil = true ∧ (a ∈ ifTrue.fallThroughLabels ∨ a ∈ ifFalse.fallThroughLabels) :=
    fun a ha hqa => (hends a (List.mem_append_left _ ha) hqa).resolve_right fun h =>
      hdNext ha (mem_leafLabels_of_mem_fallThroughLabels hnext h)
  refine ⟨fun a ha => ?_, fun a ha hqa => ?_, fun a ha hqa => ?_, fun a ha hqa => ?_,
    fun a ha hqa => ?_⟩
  · by_contra hqa
    refine hdArms ha (List.mem_append.mpr ?_)
    exact (harms a (by simp [ha]) (by simpa using hqa)).2.imp
      (mem_leafLabels_of_mem_fallThroughLabels htrue)
      (mem_leafLabels_of_mem_fallThroughLabels hfalse)
  · rw [List.append_assoc] at harms
    exact (harms a (List.mem_append_right _ ha) hqa).1
  · exact (harms a (by simp [ha]) hqa).2.resolve_right fun h =>
      hdFalse ha (mem_leafLabels_of_mem_fallThroughLabels hfalse h)
  · exact (harms a (by simp [ha]) hqa).2.resolve_left fun h =>
      hdFalse (mem_leafLabels_of_mem_fallThroughLabels htrue h) ha
  · refine (hends a (by simp [ha]) hqa).resolve_left fun h => ?_
    cases next with
    | nil => simp at ha
    | _ => exact absurd h.1 (by simp [isNil])

end SelectsEnd

end BlockTree
end StructuredFlow
