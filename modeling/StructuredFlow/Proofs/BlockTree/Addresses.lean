/-
# Each block of a tree is listed once

A block of a tree is found at an address: the sides to turn to on the way to it, where the
sides of a block are its parts and what follows it (`sides`).  Equal blocks at different
places have different addresses, so a list that has one entry for each address has each
block of the tree once.

`addresses` lists those of a tree; an address is in it exactly if it leads to a block
(`mem_addresses`), none twice (`nodup_addresses`), and the blocks that they lead to make up
the preorder (`preorder_eq_map_follow`).
-/

import StructuredFlow.Proofs.BlockTree.Leaves

namespace StructuredFlow
namespace BlockTree

/-! ### Sides -/

/-- A part of a block, or what follows it. -/
inductive Side
  /-- The chain for the entry of a loop. -/
  | inc
  /-- The chain for the rest of a loop. -/
  | rest
  /-- The chain for the entry of a conditional. -/
  | check
  /-- The first arm. -/
  | ifTrue
  /-- The second arm. -/
  | ifFalse
  /-- What follows. -/
  | next
deriving DecidableEq, Repr

/-- The sides of the first block with what stands there, in the order in which they are listed. -/
def sides : BlockTree → List (Side × BlockTree)
  | .nil => []
  | .leaf _ _ _ next => [(.next, next)]
  | .loop _ _ inc rest next => [(.inc, inc), (.rest, rest), (.next, next)]
  | .cond _ _ _ _ check ifTrue ifFalse next =>
    [(.check, check), (.ifTrue, ifTrue), (.ifFalse, ifFalse), (.next, next)]

/-- What stands at a side of the first block, the empty chain at one that it does not have. -/
def beside (t : BlockTree) (side : Side) : BlockTree := (t.sides.lookup side).getD .nil

/-- No two parts of a block lie on the same side of it. -/
theorem nodup_sides (t : BlockTree) : (t.sides.map Prod.fst).Nodup := by
  cases t <;> simp [sides]

/-- A part of a block is what lies beside it on its side. -/
theorem beside_eq_of_mem {t u : BlockTree} {side : Side} (h : (side, u) ∈ t.sides) :
    t.beside side = u := by
  cases t with
  | nil => exact absurd h List.not_mem_nil
  | leaf => simp_all [beside, sides]
  | loop =>
    simp only [sides, List.mem_cons, Prod.mk.injEq, List.not_mem_nil, or_false] at h
    rcases h with ⟨rfl, rfl⟩ | ⟨rfl, rfl⟩ | ⟨rfl, rfl⟩ <;> rfl
  | cond =>
    simp only [sides, List.mem_cons, Prod.mk.injEq, List.not_mem_nil, or_false] at h
    rcases h with ⟨rfl, rfl⟩ | ⟨rfl, rfl⟩ | ⟨rfl, rfl⟩ | ⟨rfl, rfl⟩ <;> rfl

/-- Something stands only at the sides that a block has. -/
theorem mem_sides_of_beside {t : BlockTree} {side : Side} (h : ¬(t.beside side).isNil) :
    (side, t.beside side) ∈ t.sides := by
  unfold beside at h ⊢
  cases hu : t.sides.lookup side with
  | none => exact absurd rfl (hu ▸ h)
  | some u =>
    obtain ⟨before, behind, hsides, -⟩ := List.lookup_eq_some_iff.mp hu
    exact hsides ▸ List.mem_append_right before List.mem_cons_self

/-- A property of a tree that it has if what stands at its sides does. -/
theorem sides_induction {p : BlockTree → Prop} (h : ∀ t, (∀ s ∈ t.sides, p s.2) → p t)
    (t : BlockTree) : p t := by
  induction t with
  | nil => exact h _ (by simp [sides])
  | leaf _ _ _ _ ihNext => exact h _ (by simp [sides, ihNext])
  | loop _ _ _ _ _ ihInc ihRest ihNext => exact h _ (by simp [sides, ihInc, ihRest, ihNext])
  | cond _ _ _ _ _ _ _ _ ihCheck ihTrue ihFalse ihNext =>
    exact h _ (by simp [sides, ihCheck, ihTrue, ihFalse, ihNext])

/-- The blocks of a tree are its first block and those of the parts beside it, side by side. -/
theorem preorder_eq_sides {t : BlockTree} (h : ¬t.isNil) :
    t.preorder = t :: t.sides.flatMap fun s => s.2.preorder := by
  cases t with
  | nil => exact absurd rfl h
  | _ => simp [preorder, sides]

/-! ### Addresses -/

/-- The chain that an address leads to. -/
def follow (t : BlockTree) (address : List Side) : BlockTree := address.foldl beside t

/-- The addresses of the blocks of a tree, in the order in which the blocks are listed. -/
def addresses : BlockTree → List (List Side)
  | .nil => []
  | .leaf _ _ _ next => [] :: next.addresses.map (.next :: ·)
  | .loop _ _ inc rest next =>
    [] :: (inc.addresses.map (.inc :: ·) ++ rest.addresses.map (.rest :: ·) ++
      next.addresses.map (.next :: ·))
  | .cond _ _ _ _ check ifTrue ifFalse next =>
    [] :: (check.addresses.map (.check :: ·) ++ ifTrue.addresses.map (.ifTrue :: ·) ++
      ifFalse.addresses.map (.ifFalse :: ·) ++ next.addresses.map (.next :: ·))

/-- The addresses of a tree are that of its first block and those in the parts beside it, each
behind the side that leads there. -/
theorem addresses_eq_sides {t : BlockTree} (h : ¬t.isNil) :
    t.addresses = [] :: t.sides.flatMap fun s => s.2.addresses.map (s.1 :: ·) := by
  cases t with
  | nil => exact absurd rfl h
  | _ => simp [addresses, sides]

/-- From the empty chain no turn leads anywhere. -/
theorem follow_nil (address : List Side) : follow .nil address = .nil := by
  induction address with
  | nil => rfl
  | cons side address ih => exact ih

/-- **An address is listed exactly if it leads to a block.** -/
theorem mem_addresses {t : BlockTree} {address : List Side} :
    address ∈ t.addresses ↔ ¬(t.follow address).isNil := by
  induction address generalizing t with
  | nil =>
    cases t with
    | nil => simp [addresses, follow, isNil]
    | _ => simp [addresses, follow, isNil]
  | cons side address ih =>
    by_cases ht : t.isNil = true
    · obtain rfl := isNil_iff.mp ht
      simp [addresses, follow_nil, isNil]
    · have hbeside : t.follow (side :: address) = (t.beside side).follow address := rfl
      rw [addresses_eq_sides ht, hbeside, ← ih]
      simp only [List.mem_cons, reduceCtorEq, List.mem_flatMap, List.mem_map, List.cons.injEq,
        false_or]
      constructor
      · rintro ⟨⟨side', u⟩, hu, address', haddress, rfl, rfl⟩
        exact (beside_eq_of_mem hu).symm ▸ haddress
      · intro haddress
        refine ⟨_, mem_sides_of_beside fun hnil => ?_, address, haddress, rfl, rfl⟩
        rw [ih, isNil_iff.mp hnil, follow_nil] at haddress
        exact haddress rfl

/-- No address is listed twice. -/
theorem nodup_addresses (t : BlockTree) : t.addresses.Nodup := by
  induction t using sides_induction with
  | h t ih =>
    by_cases ht : t.isNil = true
    · obtain rfl := isNil_iff.mp ht
      exact List.nodup_nil
    · rw [addresses_eq_sides ht, List.nodup_cons]
      refine ⟨by simp, List.nodup_flatMap.mpr ⟨fun s hs => ?_, ?_⟩⟩
      · exact (ih s hs).map fun a b h => (List.cons.inj h).2
      · -- addresses that turn to different sides differ in the first place
        refine (List.pairwise_map.mp (nodup_sides t)).imp fun {s s'} hne => ?_
        intro address h h'
        obtain ⟨a, -, rfl⟩ := List.mem_map.mp h
        obtain ⟨b, -, hb⟩ := List.mem_map.mp h'
        exact hne (List.cons.inj hb).1.symm

/-- **The blocks that the addresses lead to make up the preorder.** -/
theorem preorder_eq_map_follow (t : BlockTree) : t.preorder = t.addresses.map t.follow := by
  induction t using sides_induction with
  | h t ih =>
    by_cases ht : t.isNil = true
    · obtain rfl := isNil_iff.mp ht
      rfl
    · rw [preorder_eq_sides ht, addresses_eq_sides ht, List.map_cons, List.map_flatMap]
      refine congrArg (t :: ·) (List.flatMap_congr fun s hs => ?_)
      rw [ih s hs, List.map_map]
      refine List.map_congr_left fun address _ => ?_
      exact congrArg (follow · address) (beside_eq_of_mem hs).symm

/-! ### Both traversals -/

/-- The labels after which control has left a chain through its last block: the label of a
block that holds one, and those that `armEnds` gives for the arms of a conditional. -/
def endLabels (armEnds : BlockTree → List Nat) : BlockTree → List Nat
  | .leaf .simple entry _ _ => [entry]
  | .leaf .dispatch entry labels _ => if labels.length = 1 then [entry] else []
  | .cond _ _ _ _ _ ifTrue ifFalse _ => armEnds ifTrue ++ armEnds ifFalse
  | _ => []

/-- The trailing labels of a tree are those at the end of its last block. -/
theorem perm_endLabels (t : BlockTree) :
    t.trailingLabels.Perm (t.last.endLabels trailingLabels) := by
  refine (perm_trailingLabels t).trans ?_
  rw [fallThroughLabels_eq_last]
  cases t.last with
  | leaf kind => cases kind <;> simp [lastLabels, armLabels, endLabels]
  | cond _ _ _ _ _ ifTrue ifFalse _ =>
    exact ((perm_trailingLabels ifTrue).append (perm_trailingLabels ifFalse)).symm
  | _ => exact List.Perm.refl _

/-- The blocks of a tree are its first one, those of its parts, and those of the chain behind
it. -/
theorem descendants_eq (t : BlockTree) : t.descendants =
    if t.isNil then [] else t :: (t.children.flatMap descendants ++ t.next.descendants) := by
  have hdescendants : descendants = preorder := funext descendants_eq_preorder
  rw [hdescendants]
  split
  next h => rw [isNil_iff.mp h, preorder]
  next h => exact preorder_of_not_isNil h

/-- **What the two traversals list is what a recursion on the tree lists.**  The blocks of a
tree are its first block, the blocks of each part of it in order, and the blocks of what
follows, with one entry for each address that leads to a block.  The trailing labels, each as
often, are the label of the last block if that holds just one, and those of both arms if it is
a conditional. -/
theorem traversals_recursive (t : BlockTree) :
    (t.descendants =
      if t.isNil then [] else t :: (t.children.flatMap descendants ++ t.next.descendants)) ∧
    (∃ addresses : List (List Side), addresses.Nodup ∧
      (∀ address, address ∈ addresses ↔ ¬(t.follow address).isNil) ∧
      t.descendants = addresses.map t.follow) ∧
    t.trailingLabels.Perm (t.last.endLabels trailingLabels) :=
  ⟨descendants_eq t,
    ⟨t.addresses, nodup_addresses t, fun _ => mem_addresses,
      (descendants_eq_preorder t).trans (preorder_eq_map_follow t)⟩,
    perm_endLabels t⟩

end BlockTree
end StructuredFlow
