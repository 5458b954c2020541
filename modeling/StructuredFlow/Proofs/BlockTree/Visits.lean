/-
# What the parts of a tree visit

A run only adds to the labels visited, and what a tree adds are labels of its leaves
(`visits_runWithin`).  A chain that is not empty adds one unless the run ends, provided that
loops and conditionals begin with a block (`Headed`): so a loop that starts again has
come closer to the limit, and fuel for the labels still to be visited lasts
(`HasFuel.again`).  Two runs for which the labels of a tree are alike do the same in it
(`runWithin_congr`).

The block at the front of a chain is run by itself and what follows it afterwards.  Each kind
of block has an equation that says so: `runWithin_leaf`, `runWithin_loop` and `runWithin_cond`.
-/

import StructuredFlow.Proofs.BlockTree.Simulation

namespace StructuredFlow

variable {run run' : RunInput} {labels labels' : List Nat} {n : Nat} {s s' : RunState}
  {r r' : Exit × RunState}

/-! ### What is added to the labels visited -/

/-- A run from a state on visits only some labels, at least `n` of them unless it has ended, and
keeps the limit. -/
structure Visits (run : RunInput) (labels : List Nat) (n : Nat) (s : RunState)
    (r : Exit × RunState) : Prop where
  /-- What it visits comes behind what has been visited. -/
  exists_append : ∃ ids, r.2.visited = s.visited ++ ids ∧ ids ⊆ labels
  /-- So many labels are visited. -/
  stops_or : r.1 = .stops ∨ s.visited.length + n ≤ r.2.visited.length
  /-- The limit is kept. -/
  le_limit : s.visited.length ≤ run.limit → r.2.visited.length ≤ run.limit

namespace Visits

/-- A run that ends where it is visits nothing. -/
theorem refl (exit : Exit) : Visits run labels 0 s (exit, s) where
  exists_append := ⟨[], (List.append_nil _).symm, List.nil_subset _⟩
  stops_or := Or.inr le_rfl
  le_limit := id

/-- A run that stops at once need not visit anything. -/
theorem stops : Visits run labels n s (.stops, s) where
  exists_append := ⟨[], (List.append_nil _).symm, List.nil_subset _⟩
  stops_or := Or.inl rfl
  le_limit := id

/-- The list of labels visited only grows. -/
theorem length_le (h : Visits run labels n s r) : s.visited.length ≤ r.2.visited.length := by
  obtain ⟨ids, hids, _⟩ := h.exists_append
  rw [hids, List.length_append]
  exact Nat.le_add_right _ _

/-- What is visited from the state on is one of the labels. -/
theorem mem_of_getElem? (h : Visits run labels n s r) {i a : Nat} (hi : s.visited.length ≤ i)
    (ha : r.2.visited[i]? = some a) : a ∈ labels := by
  obtain ⟨ids, hids, hsub⟩ := h.exists_append
  rw [hids, List.getElem?_append_right hi] at ha
  exact hsub (List.mem_of_getElem? ha)

/-- The labels may be more and the visits fewer. -/
theorem mono (h : Visits run labels n s r) (hl : labels ⊆ labels') {n' : Nat} (hn : n' ≤ n) :
    Visits run labels' n' s r where
  exists_append := h.exists_append.imp fun _ hids => ⟨hids.1, List.Subset.trans hids.2 hl⟩
  stops_or := h.stops_or.imp_right fun hle => (Nat.add_le_add_left hn _).trans hle
  le_limit := h.le_limit

/-- A run that goes on has visited what came before, too. -/
theorem trans (h : Visits run labels n s r) (hne : r.1 ≠ .stops)
    (h' : Visits run labels 0 r.2 r') : Visits run labels n s r' where
  exists_append := by
    obtain ⟨ids, hids, hsub⟩ := h.exists_append
    obtain ⟨ids', hids', hsub'⟩ := h'.exists_append
    exact ⟨ids ++ ids', by rw [hids', hids, List.append_assoc],
      List.append_subset.mpr ⟨hsub, hsub'⟩⟩
  stops_or := Or.inr ((h.stops_or.resolve_left hne).trans h'.length_le)
  le_limit := fun hle => h'.le_limit (h.le_limit hle)

/-- A run and what follows it visit the labels of both. -/
theorem andThen {next : RunState → Exit × RunState} (h : Visits run labels n s r)
    (hnext : ∀ s', Visits run labels' 0 s' (next s')) :
    Visits run (labels ++ labels') n s (StructuredFlow.andThen r next) := by
  have hleft := h.mono (List.subset_append_left labels labels') le_rfl
  rw [StructuredFlow.andThen]
  split
  next hfalls =>
    exact hleft.trans (by simp [hfalls]) ((hnext r.2).mono (List.subset_append_right _ _) le_rfl)
  next => exact hleft

/-- Catching a break takes no visit back. -/
theorem catchIf (h : Visits run labels n s r) (breaking : Bool) (entry : Nat) :
    Visits run labels n s (if breaking then catchExit (.breaks entry) r else r) := by
  split
  next =>
    rw [catchExit]
    split
    next hbreaks =>
      exact ⟨h.exists_append, Or.inr (h.stops_or.resolve_left (by simp [hbreaks])), h.le_limit⟩
    next => exact h
  next => exact h

/-- A visit adds its label, unless the limit is reached. -/
theorem visit {id : Nat} (hid : id ∈ labels) : Visits run labels 1 s (run.visit id s) := by
  rw [RunInput.visit]
  dsimp only
  split
  next => exact stops
  next hne =>
    have hadds : ∀ exit slot, Visits run labels 1 s (exit, ⟨s.visited ++ [id], slot⟩) :=
      fun exit slot =>
        { exists_append := ⟨[id], rfl, by simpa using hid⟩
          stops_or := Or.inr (by simp)
          le_limit := fun hle => by
            rw [List.length_append]
            exact Nat.lt_of_le_of_ne hle hne }
    split
    next => exact hadds _ _
    next => exact hadds _ _

end Visits

namespace BlockTree

variable {fuel : Nat} {kind : LeafKind} {entry : Nat} {breaking : Bool}
  {test : Condition} {inc rest check ifTrue ifFalse next piece t : BlockTree}

/-! ### The front of a chain -/

/-- Runs a leaf by itself. -/
def runLeaf (run : RunInput) (fuel : Nat) (kind : LeafKind) (entry : Nat) (labels : List Nat)
    (s : RunState) : Exit × RunState :=
  match kind with
  | .simple => run.visit entry s
  | .dispatch => runDispatch run labels fuel entry s

/-- Runs the body of a loop once. -/
def runBody (run : RunInput) (fuel : Nat) (inc rest : BlockTree) (s : RunState) :
    Exit × RunState :=
  andThen (runWithin run fuel inc s) (runWithin run fuel rest)

/-- The arm that a conditional goes on with. -/
def chosenArm (test : Condition) (ifTrue ifFalse : BlockTree) (s : RunState) : BlockTree :=
  if s.slot = test.negated.toNat then ifTrue else ifFalse

/-- Runs a conditional by itself. -/
def runCond (run : RunInput) (fuel entry : Nat) (breaking : Bool) (test : Condition)
    (check ifTrue ifFalse : BlockTree) (s : RunState) : Exit × RunState :=
  andThen (runWithin run fuel check s) fun s =>
    let arm := runWithin run fuel (chosenArm test ifTrue ifFalse s) s
    if breaking then catchExit (.breaks entry) arm else arm

/-- A leaf runs in front of what follows it. -/
theorem runWithin_leaf : runWithin run (fuel + 1) (.leaf kind entry labels next) s =
    andThen (runLeaf run fuel kind entry labels s) (runWithin run fuel next) := by
  cases kind <;> rfl

/-- A conditional runs in front of what follows it. -/
theorem runWithin_cond :
    runWithin run (fuel + 1) (.cond entry labels breaking test check ifTrue ifFalse next) s =
      andThen (runCond run fuel entry breaking test check ifTrue ifFalse s)
        (runWithin run fuel next) := rfl

/-- A loop starts again after its body has fallen through or continued, and what follows it is
run after a break. -/
theorem runWithin_loop : runWithin run (fuel + 1) (.loop entry labels inc rest next) s =
    let body := runBody run fuel inc rest s
    if body.1 = .falls ∨ body.1 = .continues entry then
      runWithin run fuel (.loop entry labels inc rest next) body.2
    else if body.1 = .breaks entry then runWithin run fuel next body.2
    else body := by
  rw [runWithin, ← runBody]
  obtain ⟨exit, s'⟩ := runBody run fuel inc rest s
  cases exit with
  | continues e => by_cases he : e = entry <;> simp [catchExit, he]
  | breaks e => simp [catchExit]
  | _ => simp [catchExit]

/-! ### The labels of the leaves are visited -/

/-- The chains that loops and conditionals begin with are never empty; the others may be, which
means that a part is absent. -/
def Headed : BlockTree → Prop
  | .nil => True
  | .leaf _ _ _ next => next.Headed
  | .loop _ _ inc rest next => inc.isNil = false ∧ inc.Headed ∧ rest.Headed ∧ next.Headed
  | .cond _ _ _ _ check ifTrue ifFalse next =>
    check.isNil = false ∧ check.Headed ∧ ifTrue.Headed ∧ ifFalse.Headed ∧ next.Headed

/-- A tree in which each label has its place: loops and conditionals begin with a block, leaves
hold their entries, and no label is held by two of them. -/
structure WellFormed (t : BlockTree) : Prop where
  /-- Loops and conditionals begin with a block. -/
  headed : t.Headed
  /-- A leaf holds its entry, a simple one nothing else. -/
  entriesHeld : t.EntriesHeld
  /-- No two leaves hold a label in common. -/
  leavesApart : t.LeavesApart

namespace WellFormed

/-- A leaf that is well formed holds its entry. -/
theorem of_leaf (h : (leaf kind entry labels next).WellFormed) :
    entry ∈ labels ∧ next.WellFormed := by
  have hapart := (leavesApart_leaf.mp h.leavesApart).2
  obtain ⟨hheaded, hheld, _⟩ := h
  cases kind with
  | simple =>
    obtain ⟨rfl, hnext⟩ := hheld
    exact ⟨List.mem_singleton_self entry, hheaded, hnext, hapart⟩
  | dispatch => exact ⟨hheld.1, hheaded, hheld.2, hapart⟩

/-- The parts of a loop that is well formed are, and the first is not empty. -/
theorem of_loop (h : (loop entry labels inc rest next).WellFormed) :
    inc.isNil = false ∧ inc.WellFormed ∧ rest.WellFormed ∧ next.WellFormed := by
  obtain ⟨hincApart, hrestApart, hnextApart, _⟩ := leavesApart_loop.mp h.leavesApart
  obtain ⟨⟨hnil, hinc, hrest, hnext⟩, ⟨hincHeld, hrestHeld, hnextHeld⟩, _⟩ := h
  exact ⟨hnil, ⟨hinc, hincHeld, hincApart⟩, ⟨hrest, hrestHeld, hrestApart⟩,
    ⟨hnext, hnextHeld, hnextApart⟩⟩

/-- The parts of a conditional that is well formed are, and the check is not empty. -/
theorem of_cond (h : (cond entry labels breaking test check ifTrue ifFalse next).WellFormed) :
    check.isNil = false ∧ check.WellFormed ∧ ifTrue.WellFormed ∧ ifFalse.WellFormed ∧
      next.WellFormed := by
  obtain ⟨hcheckApart, htrueApart, hfalseApart, hnextApart, _⟩ := leavesApart_cond.mp h.leavesApart
  obtain ⟨⟨hnil, hcheck, htrue, hfalse, hnext⟩,
    ⟨hcheckHeld, htrueHeld, hfalseHeld, hnextHeld⟩, _⟩ :=
    h
  exact ⟨hnil, ⟨hcheck, hcheckHeld, hcheckApart⟩, ⟨htrue, htrueHeld, htrueApart⟩,
    ⟨hfalse, hfalseHeld, hfalseApart⟩, ⟨hnext, hnextHeld, hnextApart⟩⟩

end WellFormed

/-- A dispatch that is entered at a label of it visits one at least, and only its own. -/
theorem visits_runDispatch (fuel : Nat) {id : Nat} (hid : id ∈ labels) :
    Visits run labels 1 s (runDispatch run labels fuel id s) := by
  induction fuel generalizing id s with
  | zero => exact Visits.stops
  | succ fuel ih =>
    have hvisit : Visits run labels 1 s (run.visit id s) := Visits.visit hid
    rw [runDispatch]
    split
    next target s' hjumps =>
      rw [hjumps] at hvisit
      split
      next hmem =>
        exact hvisit.trans (by simp)
          ((ih (List.contains_iff_mem.mp hmem)).mono (List.Subset.refl _) (Nat.zero_le _))
      next => exact hvisit
    next => exact hvisit

/-- A leaf visits one of its labels at least. -/
theorem visits_runLeaf (fuel : Nat) (hentry : entry ∈ labels) :
    Visits run labels 1 s (runLeaf run fuel kind entry labels s) := by
  cases kind with
  | simple => exact Visits.visit hentry
  | dispatch => exact visits_runDispatch fuel hentry

/-- A turn of a loop visits the labels of its parts, and one at least. -/
theorem visits_runBody (hinc : ∀ s, Visits run inc.leafLabels 1 s (runWithin run fuel inc s))
    (hrest : ∀ s, Visits run rest.leafLabels 0 s (runWithin run fuel rest s)) (s : RunState) :
    Visits run (inc.leafLabels ++ rest.leafLabels) 1 s (runBody run fuel inc rest s) :=
  (hinc s).andThen hrest

/-- A conditional visits the labels of its check and its arms, and one at least. -/
theorem visits_runCond (hcheck : ∀ s, Visits run check.leafLabels 1 s (runWithin run fuel check s))
    (htrue : ∀ s, Visits run ifTrue.leafLabels 0 s (runWithin run fuel ifTrue s))
    (hfalse : ∀ s, Visits run ifFalse.leafLabels 0 s (runWithin run fuel ifFalse s))
    (s : RunState) :
    Visits run (check.leafLabels ++ (ifTrue.leafLabels ++ ifFalse.leafLabels)) 1 s
      (runCond run fuel entry breaking test check ifTrue ifFalse s) := by
  have harm : ∀ s, Visits run (ifTrue.leafLabels ++ ifFalse.leafLabels) 0 s
      (runWithin run fuel (chosenArm test ifTrue ifFalse s) s) := fun s => by
    rw [chosenArm]
    split
    · exact (htrue s).mono (List.subset_append_left _ _) le_rfl
    · exact (hfalse s).mono (List.subset_append_right _ _) le_rfl
  exact (hcheck s).andThen fun s => (harm s).catchIf breaking entry

/-- **A run of a tree visits labels of its leaves**, at least one of them unless the tree is
empty or the run ends. -/
theorem visits_runWithin (run : RunInput) (fuel : Nat) (t : BlockTree) (ht : t.WellFormed)
    (s : RunState) :
    Visits run t.leafLabels (if t.isNil then 0 else 1) s (runWithin run fuel t s) := by
  induction fuel generalizing t s with
  | zero => exact Visits.stops
  | succ fuel ih =>
    have hpart : ∀ (t : BlockTree), t.WellFormed → ∀ s,
        Visits run t.leafLabels 0 s (runWithin run fuel t s) :=
      fun t ht s => (ih t ht s).mono (List.Subset.refl _) (Nat.zero_le _)
    have hhead : ∀ (t : BlockTree), t.isNil = false → t.WellFormed → ∀ s,
        Visits run t.leafLabels 1 s (runWithin run fuel t s) := fun t hne ht s => by
      simpa [hne] using ih t ht s
    cases t with
    | nil => exact Visits.refl .falls
    | leaf kind entry labels next =>
      obtain ⟨hentry, hnext⟩ := ht.of_leaf
      rw [runWithin_leaf, leafLabels_leaf]
      exact (visits_runLeaf fuel hentry).andThen (hpart next hnext)
    | loop entry labels inc rest next =>
      have hagain := hpart _ ht
      obtain ⟨hnil, hinc, hrest, hnext⟩ := ht.of_loop
      have hbody := (visits_runBody (hhead inc hnil hinc) (hpart rest hrest) s).mono
        (List.subset_append_left _ next.leafLabels) le_rfl
      rw [leafLabels_loop] at hagain ⊢
      change Visits run _ 1 s _
      rw [runWithin_loop]
      dsimp only
      split
      next hturn =>
        exact hbody.trans (by rcases hturn with h | h <;> simp [h]) (hagain _)
      next =>
        split
        next hbreaks =>
          exact hbody.trans (by simp [hbreaks])
            ((hpart next hnext _).mono (List.subset_append_right _ _) le_rfl)
        next => exact hbody
    | cond entry labels breaking test check ifTrue ifFalse next =>
      obtain ⟨hnil, hcheck, htrue, hfalse, hnext⟩ := ht.of_cond
      rw [leafLabels_cond, List.append_assoc check.leafLabels]
      change Visits run _ 1 s _
      rw [runWithin_cond]
      exact (visits_runCond (hhead check hnil hcheck) (hpart ifTrue htrue)
        (hpart ifFalse hfalse) s).andThen (hpart next hnext)

namespace WellFormed

/-- **A run of a tree visits leaf labels of it only.** -/
theorem visits (ht : t.WellFormed) (run : RunInput) (fuel : Nat) (s : RunState) :
    Visits run t.leafLabels 0 s (runWithin run fuel t s) :=
  (visits_runWithin run fuel t ht s).mono (List.Subset.refl _) (Nat.zero_le _)

/-- A run of a tree that is not empty visits a leaf label of it at least. -/
theorem visits_of_not_isNil (ht : t.WellFormed) (hne : t.isNil = false) (run : RunInput)
    (fuel : Nat) (s : RunState) : Visits run t.leafLabels 1 s (runWithin run fuel t s) := by
  simpa [hne] using visits_runWithin run fuel t ht s

/-- A turn of a well-formed loop visits a label of it at least. -/
theorem visits_body (ht : (loop entry labels inc rest next).WellFormed) (run : RunInput)
    (fuel : Nat) (s : RunState) :
    Visits run (inc.leafLabels ++ rest.leafLabels) 1 s (runBody run fuel inc rest s) := by
  obtain ⟨hnil, hinc, hrest, -⟩ := ht.of_loop
  exact visits_runBody (hinc.visits_of_not_isNil hnil run fuel) (hrest.visits run fuel) s

/-- A well-formed conditional visits a label of it at least. -/
theorem visits_cond (ht : (cond entry labels breaking test check ifTrue ifFalse next).WellFormed)
    (run : RunInput) (fuel : Nat) (s : RunState) :
    Visits run (check.leafLabels ++ (ifTrue.leafLabels ++ ifFalse.leafLabels)) 1 s
      (runCond run fuel entry breaking test check ifTrue ifFalse s) := by
  obtain ⟨hnil, hcheck, htrue, hfalse, -⟩ := ht.of_cond
  exact visits_runCond (hcheck.visits_of_not_isNil hnil run fuel) (htrue.visits run fuel)
    (hfalse.visits run fuel) s

end WellFormed

/-! ### Fuel for the labels still to be visited -/

/-- There is fuel for a tree: its size for each label that may still be visited, and once more. -/
structure HasFuel (run : RunInput) (t : BlockTree) (fuel : Nat) (s : RunState) : Prop where
  /-- No more labels have been visited than may be. -/
  le_limit : s.visited.length ≤ run.limit
  /-- The fuel is enough. -/
  size_le : t.size * (run.limit - s.visited.length + 1) ≤ fuel

/-- A run has enough fuel to begin with. -/
theorem hasFuel_run (t : BlockTree) (ts : Transfers) (choices : Nat → Nat) (limit : Nat) :
    HasFuel ⟨ts, choices, limit⟩ t ((limit + 1) * (t.size + 1)) {} :=
  ⟨Nat.zero_le _, fuel_run t limit⟩

namespace HasFuel

/-- Enough fuel is never none. -/
theorem pos (h : HasFuel run t fuel s) : 0 < fuel :=
  (Nat.mul_pos (size_pos t) (Nat.succ_pos _)).trans_le h.size_le

/-- A part of a tree is run with the fuel left. -/
theorem part (h : HasFuel run t (fuel + 1) s) (hsize : piece.size < t.size)
    (hv : Visits run labels n s r) : HasFuel run piece fuel r.2 :=
  have hle := hv.length_le
  ⟨hv.le_limit h.le_limit, fuel_part h.size_le hsize (by omega)⟩

/-- The first part of a tree is run where the tree is. -/
theorem first (h : HasFuel run t (fuel + 1) s) (hsize : piece.size < t.size) :
    HasFuel run piece fuel s :=
  ⟨h.le_limit, fuel_part h.size_le hsize le_rfl⟩

/-- After a label was visited a tree may start again. -/
theorem again (h : HasFuel run t (fuel + 1) s) (hv : Visits run labels 1 s r) (hne : r.1 ≠ .stops) :
    HasFuel run t fuel r.2 :=
  have hvisited := hv.stops_or.resolve_left hne
  have hlimit := hv.le_limit h.le_limit
  ⟨hlimit, fuel_again h.size_le (size_pos t) (by omega)⟩

end HasFuel

/-! ### Runs that treat labels alike -/

section Congr

variable (h : ∀ a ∈ labels, run'.visit a = run.visit a)
include h

/-- A dispatch runs alike where its labels are visited alike. -/
theorem runDispatch_congr (fuel : Nat) {id : Nat} (hid : id ∈ labels) :
    runDispatch run' labels fuel id = runDispatch run labels fuel id := by
  induction fuel generalizing id with
  | zero => rfl
  | succ fuel ih =>
    funext s
    rw [runDispatch, runDispatch, h id hid]
    split
    next target _ _ =>
      split
      next hmem => rw [ih (List.contains_iff_mem.mp hmem)]
      next => rfl
    next => rfl

/-- A leaf runs alike where its labels are visited alike. -/
theorem runLeaf_congr (fuel : Nat) (hentry : entry ∈ labels) :
    runLeaf run' fuel kind entry labels = runLeaf run fuel kind entry labels := by
  cases kind with
  | simple => exact h entry hentry
  | dispatch => exact runDispatch_congr h fuel hentry

end Congr

/-- A turn of a loop runs alike where its parts do. -/
theorem runBody_congr (hinc : runWithin run' fuel inc = runWithin run fuel inc)
    (hrest : runWithin run' fuel rest = runWithin run fuel rest) :
    runBody run' fuel inc rest = runBody run fuel inc rest := by
  funext s
  rw [runBody, runBody, hinc, hrest]

/-- A conditional runs alike where its check and its arms do. -/
theorem runCond_congr (hcheck : runWithin run' fuel check = runWithin run fuel check)
    (htrue : runWithin run' fuel ifTrue = runWithin run fuel ifTrue)
    (hfalse : runWithin run' fuel ifFalse = runWithin run fuel ifFalse) :
    runCond run' fuel entry breaking test check ifTrue ifFalse =
      runCond run fuel entry breaking test check ifTrue ifFalse := by
  have harm : ∀ s, runWithin run' fuel (chosenArm test ifTrue ifFalse s) =
      runWithin run fuel (chosenArm test ifTrue ifFalse s) := fun s => by
    rw [chosenArm]
    split
    · exact htrue
    · exact hfalse
  funext s
  simp only [runCond, hcheck, harm]

/-- **Runs that treat the labels of a tree alike are the same run of it.** -/
theorem runWithin_congr (fuel : Nat) (t : BlockTree) (ht : t.WellFormed)
    (h : ∀ a ∈ t.leafLabels, run'.visit a = run.visit a) :
    runWithin run' fuel t = runWithin run fuel t := by
  induction fuel generalizing t with
  | zero => rfl
  | succ fuel ih =>
    funext s
    cases t with
    | nil => rfl
    | leaf kind entry labels next =>
      obtain ⟨hentry, hnext⟩ := ht.of_leaf
      rw [leafLabels_leaf, List.forall_mem_append] at h
      rw [runWithin_leaf, runWithin_leaf, runLeaf_congr h.1 fuel hentry, ih next hnext h.2]
    | loop entry labels inc rest next =>
      have hagain := ih _ ht h
      obtain ⟨_, hinc, hrest, hnext⟩ := ht.of_loop
      rw [leafLabels_loop, List.forall_mem_append, List.forall_mem_append] at h
      rw [runWithin_loop, runWithin_loop, runBody_congr (ih inc hinc h.1.1) (ih rest hrest h.1.2),
        hagain, ih next hnext h.2]
    | cond entry labels breaking test check ifTrue ifFalse next =>
      obtain ⟨_, hcheck, htrue, hfalse, hnext⟩ := ht.of_cond
      simp only [leafLabels_cond, List.forall_mem_append] at h
      rw [runWithin_cond, runWithin_cond, ih next hnext h.2,
        runCond_congr (ih check hcheck h.1.1.1) (ih ifTrue htrue h.1.1.2) (ih ifFalse hfalse h.1.2)]

end BlockTree
end StructuredFlow
