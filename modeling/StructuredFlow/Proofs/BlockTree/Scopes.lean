/-
# Where markers stand

In a tree that realises a branch graph every target has a meaning at its place.  A
break or a continue gets its meaning from a block around it that catches it, or from
outside the tree (`Realises.exists_catches`); a jump gets it from the dispatch it
stands in, or from outside (`Realises.leafClosed`).  Where nothing is around
the tree the former is all there is.
-/

import StructuredFlow.Proofs.BlockTree.Realises

namespace StructuredFlow
namespace BlockTree

/-- The first block catches a marker that stands at a label of its parts: a loop the
breaks and continues in its body, a breaking conditional the breaks in its arms. -/
def Catches (marker : Target) (a : Nat) : BlockTree → Prop
  | .loop entry _ inc rest _ =>
    (marker = .breakOf entry ∨ marker = .continueOf entry) ∧ a ∈ inc.leafLabels ++ rest.leafLabels
  | .cond entry _ breaking _ _ ifTrue ifFalse _ =>
    breaking = true ∧ marker = .breakOf entry ∧ a ∈ ifTrue.leafLabels ++ ifFalse.leafLabels
  | _ => False

/-- The entry of a loop or conditional. -/
def constructEntry? : BlockTree → Option Nat
  | .loop entry _ _ _ _ => some entry
  | .cond entry _ _ _ _ _ _ _ => some entry
  | _ => none

/-- The entries of the loops and conditionals of a tree. -/
def constructEntries (t : BlockTree) : List Nat := t.descendants.filterMap constructEntry?

/-- Jumps from the labels of the first block, if it is a leaf, lead to labels of the same
dispatch. -/
def LeafClosed (ts : Transfers) : BlockTree → Prop
  | .leaf kind _ labels _ => ∀ a ∈ labels, ∀ b ∈ ts.realTargets a, kind = .dispatch ∧ b ∈ labels
  | _ => True

/-- The first block, if it is a conditional, is a breaking one exactly if a label in its
arms breaks out of it. -/
def BreaksTagged (ts : Transfers) : BlockTree → Prop
  | .cond entry _ breaking _ _ ifTrue ifFalse _ => breaking = true ↔
      ∃ a ∈ ifTrue.leafLabels ++ ifFalse.leafLabels, .breakOf entry ∈ ts.targets a
  | _ => True

section ConstructEntries

variable (kind : LeafKind) (entry : Nat) (labels : List Nat) (breaking : Bool) (test : Condition)
  (inc rest check ifTrue ifFalse next : BlockTree)

/-- The empty chain has no constructs. -/
@[simp] theorem constructEntries_nil : constructEntries .nil = [] := by
  simp [constructEntries, descendants_eq_preorder, preorder]

/-- A leaf is no construct. -/
@[simp] theorem constructEntries_leaf :
    (leaf kind entry labels next).constructEntries = next.constructEntries := by
  simp only [constructEntries, descendants_eq_preorder, preorder]
  exact List.filterMap_cons_none rfl

/-- A loop is a construct, and those in its parts and behind it follow. -/
@[simp] theorem constructEntries_loop : (loop entry labels inc rest next).constructEntries =
    entry :: (inc.constructEntries ++ rest.constructEntries ++ next.constructEntries) := by
  simp [constructEntries, descendants_eq_preorder, preorder, constructEntry?]

/-- A conditional is a construct, and those in its check, its arms and behind it follow. -/
@[simp] theorem constructEntries_cond :
    (cond entry labels breaking test check ifTrue ifFalse next).constructEntries =
      entry :: (check.constructEntries ++ ifTrue.constructEntries ++ ifFalse.constructEntries ++
        next.constructEntries) := by
  simp [constructEntries, descendants_eq_preorder, preorder, constructEntry?]

end ConstructEntries

/-- What some block of a part does, some block of the whole does. -/
theorem exists_mem_of_subset {p : BlockTree → Prop} {l l' : List BlockTree} (h : ∃ b ∈ l, p b)
    (hsub : l ⊆ l') : ∃ b ∈ l', p b :=
  h.imp fun _ hb => ⟨hsub hb.1, hb.2⟩

end BlockTree

namespace Meaning

variable {m : Meaning} {entry e id : Nat} {after : Option Nat} {marker : Target}

/-- The meaning of a marker in a loop body is that of the loop or comes from around it. -/
theorem of_inLoop (hmarker : marker = .breakOf e ∨ marker = .continueOf e)
    (h : m.inLoop entry after marker = some id) :
    (marker = .breakOf entry ∨ marker = .continueOf entry) ∨ m marker = some id := by
  rcases hmarker with rfl | rfl
  · rw [inLoop_breakOf] at h
    split at h
    next he => exact Or.inl (Or.inl (congrArg _ he))
    next => exact Or.inr h
  · rw [inLoop_continueOf] at h
    split at h
    next he => exact Or.inl (Or.inr (congrArg _ he))
    next => exact Or.inr h

/-- The same in an arm of a conditional. -/
theorem of_inArm {breaking : Bool} (hmarker : marker = .breakOf e ∨ marker = .continueOf e)
    (h : m.inArm entry breaking after marker = some id) :
    breaking = true ∧ marker = .breakOf entry ∨ m marker = some id := by
  rcases hmarker with rfl | rfl
  · rw [inArm_breakOf] at h
    split at h
    next he => exact Or.inl ⟨he.1, congrArg _ he.2⟩
    next => exact Or.inr h
  · exact Or.inr h

end Meaning

namespace BlockTree
namespace Realises

variable {ts₀ ts : Transfers} {m : Meaning} {start : Option Nat} {t : BlockTree}

/-- **A break or a continue is caught by a block around it**, or from outside the tree. -/
theorem exists_catches (h : t.Realises ts₀ ts m start) {marker : Target} {e : Nat}
    (hmarker : marker = .breakOf e ∨ marker = .continueOf e) {a : Nat} (ha : a ∈ t.leafLabels)
    (hts : marker ∈ ts.targets a) :
    (∃ id, m marker = some id) ∨ ∃ b ∈ t.preorder, b.Catches marker a := by
  have hbefore : ∀ (m : Meaning) mid, m.before mid marker = m marker := fun m mid => by
    rcases hmarker with rfl | rfl <;> rfl
  have hamong : ∀ (m : Meaning) labels, m.among labels marker = m marker := fun m labels => by
    rcases hmarker with rfl | rfl <;> rfl
  induction t generalizing m start with
  | nil => exact absurd ha (by simp)
  | leaf kind entry labels next ih =>
    rw [leafLabels_leaf, List.mem_append] at ha
    cases kind with
    | simple =>
      obtain ⟨_, rfl, mid, hmeans, hnext⟩ := h
      rcases ha with ha | ha
      · obtain rfl := List.mem_singleton.mp ha
        exact Or.inl (by simpa only [hbefore] using hmeans.exists_of_mem hts)
      · exact (ih hnext ha).imp_right fun h => exists_mem_of_subset h (List.subset_cons_self _ _)
    | dispatch =>
      obtain ⟨_, _, mid, hmeans, hnext⟩ := h
      rcases ha with ha | ha
      · exact Or.inl (by simpa only [hbefore, hamong] using (hmeans a ha).exists_of_mem hts)
      · exact (ih hnext ha).imp_right fun h => exists_mem_of_subset h (List.subset_cons_self _ _)
  | loop entry labels inc rest next ihInc ihRest ihNext =>
    rw [leafLabels_loop, List.mem_append] at ha
    obtain ⟨_, _, mid, after, hinc, hrest, hnext⟩ := h
    rcases ha with hbody | ha
    · have hpart : (∃ id, m.inLoop entry after marker = some id) ∨
          ∃ b ∈ inc.preorder ++ rest.preorder, b.Catches marker a := by
        rcases List.mem_append.mp hbody with ha | ha
        · refine (ihInc hinc ha).imp (fun h => by simpa only [hbefore] using h) fun h => ?_
          exact exists_mem_of_subset h (List.subset_append_left _ _)
        · exact (ihRest hrest ha).imp_right fun h =>
            exists_mem_of_subset h (List.subset_append_right _ _)
      rcases hpart with ⟨id, hid⟩ | h
      · rcases Meaning.of_inLoop hmarker hid with hown | hid
        · exact Or.inr ⟨_, List.mem_cons_self, hown, hbody⟩
        · exact Or.inl ⟨id, hid⟩
      · exact Or.inr (exists_mem_of_subset h fun b hb =>
          List.mem_cons_of_mem _ (List.mem_append_left _ hb))
    · exact (ihNext hnext ha).imp_right fun h => exists_mem_of_subset h fun b hb =>
        List.mem_cons_of_mem _ (List.mem_append_right _ hb)
  | cond entry labels breaking test check ifTrue ifFalse next _ ihTrue ihFalse ihNext =>
    rw [leafLabels_cond, List.mem_append, List.append_assoc, List.mem_append] at ha
    obtain ⟨_, ⟨kind, rfl⟩, hentry, _, _, after, _, htrue, hfalse, hnext⟩ := h
    rcases ha with (ha | harms) | ha
    · rw [leafLabels_leaf, leafLabels_nil, List.append_nil, List.mem_singleton] at ha
      rw [ha, hentry] at hts
      rcases hmarker with rfl | rfl <;> exact absurd hts (by simp)
    · have hpart : (∃ id, m.inArm entry breaking after marker = some id) ∨
          ∃ b ∈ ifTrue.preorder ++ ifFalse.preorder, b.Catches marker a := by
        rcases List.mem_append.mp harms with ha | ha
        · exact (ihTrue htrue ha).imp_right fun h =>
            exists_mem_of_subset h (List.subset_append_left _ _)
        · exact (ihFalse hfalse ha).imp_right fun h =>
            exists_mem_of_subset h (List.subset_append_right _ _)
      rcases hpart with ⟨id, hid⟩ | h
      · rcases Meaning.of_inArm hmarker hid with ⟨hb, hown⟩ | hid
        · exact Or.inr ⟨_, List.mem_cons_self, hb, hown, harms⟩
        · exact Or.inl ⟨id, hid⟩
      · refine Or.inr (exists_mem_of_subset h fun b hb => ?_)
        rw [preorder, List.append_assoc (leaf kind entry [entry] nil).preorder]
        exact List.mem_cons_of_mem _ (List.mem_append_left _ (List.mem_append_right _ hb))
    · exact (ihNext hnext ha).imp_right fun h => exists_mem_of_subset h fun b hb =>
        List.mem_cons_of_mem _ (List.mem_append_right _ hb)

/-- **A jump stays in its dispatch**, if nothing outside the tree is jumped to. -/
theorem leafClosed (h : t.Realises ts₀ ts m start) (hm : ∀ id, m (.label id) = none) :
    ∀ b ∈ t.preorder, b.LeafClosed ts := by
  induction t generalizing m start with
  | nil => exact fun b hb => absurd hb List.not_mem_nil
  | leaf kind entry labels next ih =>
    intro b hb
    cases kind with
    | simple =>
      obtain ⟨_, rfl, mid, hmeans, hnext⟩ := h
      rcases List.mem_cons.mp hb with rfl | hb
      · intro a ha c hc
        obtain rfl := List.mem_singleton.mp ha
        obtain ⟨id, hid⟩ := hmeans.exists_of_mem (Transfers.mem_realTargets.mp hc)
        exact absurd ((hm c).symm.trans hid) (by simp)
      · exact ih hnext hm b hb
    | dispatch =>
      obtain ⟨_, _, mid, hmeans, hnext⟩ := h
      rcases List.mem_cons.mp hb with rfl | hb
      · intro a ha c hc
        obtain ⟨id, hid⟩ := (hmeans a ha).exists_of_mem (Transfers.mem_realTargets.mp hc)
        rw [Meaning.among_label] at hid
        split at hid
        next hmem => exact ⟨rfl, hmem⟩
        next => exact absurd hid (by simp)
      · exact ih hnext hm b hb
  | loop entry labels inc rest next ihInc ihRest ihNext =>
    intro b hb
    obtain ⟨_, _, mid, after, hinc, hrest, hnext⟩ := h
    rcases List.mem_cons.mp hb with rfl | hb
    · trivial
    · rcases List.mem_append.mp hb with hb | hb
      · exact (List.mem_append.mp hb).elim (ihInc hinc hm b) (ihRest hrest hm b)
      · exact ihNext hnext hm b hb
  | cond entry labels breaking test check ifTrue ifFalse next _ ihTrue ihFalse ihNext =>
    intro b hb
    obtain ⟨_, ⟨kind, rfl⟩, hentry, _, _, after, _, htrue, hfalse, hnext⟩ := h
    rcases List.mem_cons.mp hb with rfl | hb
    · trivial
    · rcases List.mem_append.mp hb with hb | hb
      · rcases List.mem_append.mp hb with hb | hb
        · rcases List.mem_append.mp hb with hb | hb
          · obtain rfl := List.mem_singleton.mp hb
            intro a ha c hc
            rw [List.mem_singleton.mp ha, Transfers.mem_realTargets, Transfers.Jumps, hentry] at hc
            exact absurd hc (by simp)
          · exact ihTrue htrue hm b hb
        · exact ihFalse hfalse hm b hb
      · exact ihNext hnext hm b hb

end Realises
end BlockTree
end StructuredFlow
