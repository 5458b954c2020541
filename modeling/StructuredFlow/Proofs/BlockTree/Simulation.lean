/-
# Running a tree that realises a branch graph

A run of a tree that realises a branch graph visits what a walk through the graph
visits (`followsWithin`).  The invariant is that the labels visited so far and
those that a walk visits from the label next in turn are together the visits sought
(`RunInput.visits`).  A run that leaves a tree leaves it through a target, and the
label next in turn is what that target means there (`Follows`).

Each construct has a lemma that takes what is known of its parts.  Fuel bounds how
deep blocks are entered, and a loop visits a label each time around; so the size of
the tree for each label still to be visited is enough.
-/

import StructuredFlow.BlockTree.Run
import StructuredFlow.Proofs.BlockTree.Realises

namespace StructuredFlow

variable {ts₀ : Transfers} {run : RunInput} {m : Meaning} {n : Nat} {sought : List Nat}

/-- The labels visited so far, and those that a walk visits from a label on. -/
def RunInput.visits (run : RunInput) (ts₀ : Transfers) (s : RunState) (id : Nat) : List Nat :=
  s.visited ++ ts₀.walkFrom run.choices (run.limit - s.visited.length) s.visited.length id

/-- How a run goes on in line with the visits sought, having visited at least `n` labels
unless it has ended. -/
inductive Follows (ts₀ : Transfers) (run : RunInput) (m : Meaning) (n : Nat) (sought : List Nat) :
    Exit × RunState → Prop
  /-- It leaves through a target, which means the label that the walk goes on with. -/
  | leaves {target : Target} {id : Nat} {s : RunState} (hm : m target = some id)
      (hvisits : run.visits ts₀ s id = sought) (hn : n ≤ s.visited.length)
      (hlimit : s.visited.length ≤ run.limit) : Follows ts₀ run m n sought (target.exit, s)
  /-- It has left the function, as the walk has. -/
  | returns {s : RunState} (hvisits : s.visited = sought) : Follows ts₀ run m n sought (.returns, s)
  /-- It has reached the limit. -/
  | stops {s : RunState} (hvisits : s.visited = sought) (hlimit : s.visited.length = run.limit) :
      Follows ts₀ run m n sought (.stops, s)

/-- What comes next is run where control falls through. -/
theorem andThen_falls (s : RunState) (next : RunState → Exit × RunState) :
    andThen (.falls, s) next = next s := rfl

namespace Follows

/-- It falls through. -/
theorem falls {id : Nat} {s : RunState} (hid : m .nop = some id)
    (hvisits : run.visits ts₀ s id = sought) (hn : n ≤ s.visited.length)
    (hlimit : s.visited.length ≤ run.limit) : Follows ts₀ run m n sought (.falls, s) :=
  @leaves ts₀ run m n sought .nop id s hid hvisits hn hlimit

/-- A run that follows the visits beyond a bound follows them beyond a lower one, for any meaning
that agrees. -/
theorem mono {m' : Meaning} {n' : Nat} {r : Exit × RunState} (h : Follows ts₀ run m n sought r)
    (hn : n' ≤ n) (hm : ∀ target, m' target = m target) : Follows ts₀ run m' n' sought r := by
  cases h with
  | @leaves target id s hid hvisits hn' hlimit =>
    exact leaves ((hm target).trans hid) hvisits (hn.trans hn') hlimit
  | returns hvisits => exact returns hvisits
  | stops hvisits hlimit => exact stops hvisits hlimit

/-- What comes next takes over where a run falls through. -/
theorem andThen {mid : Option Nat} {r : Exit × RunState} {next : RunState → Exit × RunState}
    (h : Follows ts₀ run (m.before mid) n sought r)
    (hnext : ∀ s id, mid = some id → run.visits ts₀ s id = sought → n ≤ s.visited.length →
      s.visited.length ≤ run.limit → Follows ts₀ run m n sought (next s)) :
    Follows ts₀ run m n sought (StructuredFlow.andThen r next) := by
  cases h with
  | @leaves target id s hid hvisits hn hlimit =>
    cases target with
    | nop => exact hnext s id hid hvisits hn hlimit
    | _ => exact leaves hid hvisits hn hlimit
  | returns hvisits => exact returns hvisits
  | stops hvisits hlimit => exact stops hvisits hlimit

/-- A conditional catches the breaks out of its arms if it is a breaking one. -/
theorem catchBreaks {entry : Nat} {breaking : Bool} {after : Option Nat} {r : Exit × RunState}
    (h : Follows ts₀ run (m.inArm entry breaking after) n sought r) :
    Follows ts₀ run (m.before after) n sought
      (if breaking then catchExit (.breaks entry) r else r) := by
  cases h with
  | @leaves target id s hid hvisits hn hlimit =>
    cases target with
    | breakOf e =>
      rw [Meaning.inArm_breakOf] at hid
      by_cases hcaught : breaking = true ∧ e = entry
      · rw [if_pos hcaught] at hid
        obtain ⟨rfl, rfl⟩ := hcaught
        simp only [catchExit, Target.exit, if_true]
        exact falls hid hvisits hn hlimit
      · rw [if_neg hcaught] at hid
        have hr : (if breaking then catchExit (.breaks entry) ((Target.breakOf e).exit, s)
            else ((Target.breakOf e).exit, s)) = ((Target.breakOf e).exit, s) := by
          cases breaking <;> simp_all [catchExit, Target.exit]
        rw [hr]
        exact leaves hid hvisits hn hlimit
    | label _ => cases breaking <;> exact leaves hid hvisits hn hlimit
    | continueOf _ => cases breaking <;> exact leaves hid hvisits hn hlimit
    | nop => cases breaking <;> exact leaves hid hvisits hn hlimit
  | returns hvisits => cases breaking <;> exact returns hvisits
  | stops hvisits hlimit => cases breaking <;> exact stops hvisits hlimit

end Follows

/-! ### Visiting a label -/

/-- The target that is picked means the jump that a walk takes. -/
theorem Means.pick? {ts : Transfers} {a : Nat} (h : Means ts₀ ts m a) (choice : Nat) :
    (ts.pick? choice a = none ∧ ts₀.pick? choice a = none) ∨
      ∃ target id, ts.pick? choice a = some target ∧ m target = some id ∧
        ts₀.pick? choice a = some (.label id) := by
  obtain ⟨ids, h₀, hm⟩ := h
  have hlen : (ts.targets a).length = ids.length := by simpa using congrArg List.length hm
  have hlen₀ : (ts₀.targets a).length = ids.length := by rw [h₀, List.length_map]
  rw [Transfers.pick?, Transfers.pick?, hlen, hlen₀, h₀, List.getElem?_map]
  have hget := congrArg (fun l : List (Option Nat) => l[choice % ids.length]?) hm
  simp only [List.getElem?_map] at hget
  cases hid : ids[choice % ids.length]? with
  | none =>
    rw [hid, Option.map_none, Option.map_eq_none_iff] at hget
    exact Or.inl ⟨hget, rfl⟩
  | some id =>
    rw [hid, Option.map_some] at hget
    obtain ⟨target, ht, hid'⟩ := Option.map_eq_some_iff.mp hget
    exact Or.inr ⟨target, id, ht, hid', rfl⟩

/-- A walk from a label at which something is picked goes on there. -/
theorem visits_of_pick? {s : RunState} {a id slot : Nat} (hlt : s.visited.length < run.limit)
    (hpick : ts₀.pick? (run.choices s.visited.length) a = some (.label id)) :
    run.visits ts₀ ⟨s.visited ++ [a], slot⟩ id = run.visits ts₀ s a := by
  obtain ⟨k, hk⟩ : ∃ k, run.limit - s.visited.length = k + 1 :=
    ⟨run.limit - s.visited.length - 1, by omega⟩
  have hk' : run.limit - (s.visited ++ [a]).length = k := by simp; omega
  rw [RunInput.visits, RunInput.visits, hk, hk', Transfers.walkFrom, hpick]
  simp

/-- Nothing is visited any more at the limit. -/
theorem visits_of_limit {s : RunState} (h : s.visited.length = run.limit) (a : Nat) :
    run.visits ts₀ s a = s.visited := by
  rw [RunInput.visits, h, Nat.sub_self, Transfers.walkFrom, List.append_nil]

/-- **Visiting a label takes the jump that a walk takes.** -/
theorem visit_follows {a : Nat} {s : RunState} (h : Means ts₀ run.transfers m a)
    (hlimit : s.visited.length ≤ run.limit) :
    Follows ts₀ run m (s.visited.length + 1) (run.visits ts₀ s a) (run.visit a s) := by
  unfold RunInput.visit
  dsimp only
  split
  next heq => exact Follows.stops (visits_of_limit heq a).symm heq
  next hne =>
    have hlt : s.visited.length < run.limit := Nat.lt_of_le_of_ne hlimit hne
    rcases h.pick? (run.choices s.visited.length) with ⟨hnone, hnone₀⟩ | ⟨target, id, ht, hid, ht₀⟩
    · rw [hnone]
      refine Follows.returns ?_
      obtain ⟨k, hk⟩ : ∃ k, run.limit - s.visited.length = k + 1 :=
        ⟨run.limit - s.visited.length - 1, by omega⟩
      rw [RunInput.visits, hk, Transfers.walkFrom, hnone₀]
    · rw [ht]
      exact Follows.leaves hid (visits_of_pick? hlt ht₀) (by simp) (by simp; omega)

/-- At the check of a conditional a walk goes on with the label whose place the slot holds. -/
theorem visits_check {a onTrue onFalse : Nat} {s : RunState} (hlt : s.visited.length < run.limit)
    (h₀ : ts₀.targets a = [.label onTrue, .label onFalse]) :
    let slot := run.choices s.visited.length % 2
    run.visits ts₀ ⟨s.visited ++ [a], slot⟩ (if slot = 0 then onTrue else onFalse) =
      run.visits ts₀ s a := by
  refine visits_of_pick? hlt ?_
  rw [Transfers.pick?, h₀]
  dsimp only [List.length_cons, List.length_nil]
  rcases Nat.mod_two_eq_zero_or_one (run.choices s.visited.length) with h | h <;> simp [h]

/-- Visiting the entry of a conditional ends the run, or falls through and leaves the
slot at the arm that the walk goes on in. -/
theorem visit_check {a onTrue onFalse : Nat} {s : RunState}
    (h : run.transfers.targets a = [.nop, .nop])
    (h₀ : ts₀.targets a = [.label onTrue, .label onFalse]) (hlimit : s.visited.length ≤ run.limit) :
    (run.visit a s = (.stops, s) ∧ s.visited.length = run.limit) ∨
      ∃ s', run.visit a s = (.falls, s') ∧ s'.slot < 2 ∧
        run.visits ts₀ s' (if s'.slot = 0 then onTrue else onFalse) = run.visits ts₀ s a ∧
        s'.visited.length = s.visited.length + 1 ∧ s'.visited.length ≤ run.limit := by
  by_cases heq : s.visited.length = run.limit
  · exact Or.inl ⟨by rw [RunInput.visit, if_pos heq], heq⟩
  · have hlt : s.visited.length < run.limit := Nat.lt_of_le_of_ne hlimit heq
    have hpick : run.transfers.pick? (run.choices s.visited.length) a = some .nop := by
      rw [Transfers.pick?, h]
      rcases Nat.mod_two_eq_zero_or_one (run.choices s.visited.length) with h | h <;> simp [h]
    refine Or.inr ⟨⟨s.visited ++ [a], run.choices s.visited.length % 2⟩, ?_,
      Nat.mod_lt _ Nat.zero_lt_two, visits_check hlt h₀, by simp, by simp; omega⟩
    rw [RunInput.visit, if_neg heq, hpick, h]
    rfl

namespace BlockTree

/-- A dispatch goes on while jumps lead to its own labels, and each of them is visited
on the way. -/
theorem runDispatch_follows {labels : List Nat}
    (h : ∀ a ∈ labels, Means ts₀ run.transfers (m.among labels) a) {fuel a : Nat} {s : RunState}
    (ha : a ∈ labels) (hlimit : s.visited.length ≤ run.limit)
    (hfuel : run.limit - s.visited.length + 1 ≤ fuel) :
    Follows ts₀ run m (s.visited.length + 1) (run.visits ts₀ s a)
      (runDispatch run labels fuel a s) := by
  induction fuel generalizing a s with
  | zero => omega
  | succ fuel ih =>
    have hvisit := visit_follows (h a ha) hlimit
    rw [runDispatch]
    generalize run.visit a s = r at hvisit
    cases hvisit with
    | @leaves target id s' hm hvisits hn hlimit' =>
      cases target with
      | label t =>
        rw [Meaning.among_label] at hm
        split at hm
        next ht =>
          obtain rfl := Option.some.inj hm
          simp only [Target.exit, List.contains_iff_mem, if_pos ht]
          rw [← hvisits]
          exact (ih ht hlimit' (by omega)).mono (by omega) fun _ => rfl
        next => exact absurd hm (by simp)
      | nop => exact Follows.leaves hm hvisits hn hlimit'
      | breakOf e => exact Follows.leaves hm hvisits hn hlimit'
      | continueOf e => exact Follows.leaves hm hvisits hn hlimit'
    | returns hvisits => exact Follows.returns hvisits
    | stops hvisits hlimit' => exact Follows.stops hvisits hlimit'

/-- Nothing follows at the end of a chain. -/
theorem andThen_runWithin_nil (fuel : Nat) (r : Exit × RunState) :
    StructuredFlow.andThen r (runWithin run (fuel + 1) .nil) = r := by
  obtain ⟨exit, s⟩ := r
  rw [StructuredFlow.andThen]
  split
  next h => rw [runWithin]; exact Prod.ext h.symm rfl
  next => rfl

/-- The entry of a conditional is just visited. -/
theorem runWithin_check {kind : LeafKind} {a fuel : Nat} {labels : List Nat} {s : RunState}
    (hexit : ∀ t, (run.visit a s).1 ≠ .jumps t) :
    runWithin run (fuel + 2) (.leaf kind a labels .nil) s = run.visit a s := by
  cases kind with
  | simple => rw [runWithin, andThen_runWithin_nil]
  | dispatch =>
    rw [runWithin, andThen_runWithin_nil, runDispatch]
    split
    next t _ h => exact absurd (by rw [h]) (hexit t)
    next => rfl

/-! ### Running a tree -/

/-- With this much fuel every tree that realises the branch graph is run in line with
the visits sought, and a run that leaves a block has visited a label in it. -/
def FollowsWithin (ts₀ : Transfers) (run : RunInput) (fuel : Nat) : Prop :=
  ∀ (t : BlockTree) (m : Meaning) (id : Nat) (s : RunState),
    t.Realises ts₀ run.transfers m (some id) → s.visited.length ≤ run.limit →
    t.size * (run.limit - s.visited.length + 1) ≤ fuel →
    Follows ts₀ run m (s.visited.length + if t.isNil then 0 else 1) (run.visits ts₀ s id)
      (runWithin run fuel t s)

section Constructs

variable {fuel size left : Nat}

/-- The fuel left for a part of a block. -/
theorem fuel_part {part left' : Nat} (hfuel : size * (left + 1) ≤ fuel + 1) (hpart : part < size)
    (hleft : left' ≤ left) : part * (left' + 1) ≤ fuel := by
  have hmul : (part + 1) * (left' + 1) ≤ size * (left + 1) :=
    Nat.mul_le_mul hpart (Nat.succ_le_succ hleft)
  rw [Nat.succ_mul] at hmul
  omega

/-- The fuel left for a block that starts again after a label was visited. -/
theorem fuel_again {left' : Nat} (hfuel : size * (left + 1) ≤ fuel + 1) (hsize : 0 < size)
    (hleft : left' + 1 ≤ left) : size * (left' + 1) ≤ fuel := by
  have hmul : size * (left' + 1) ≤ size * left := Nat.mul_le_mul_left size hleft
  rw [Nat.mul_succ] at hfuel
  omega

/-- The fuel of a whole run. -/
theorem fuel_run (t : BlockTree) (limit : Nat) :
    t.size * (limit - 0 + 1) ≤ (limit + 1) * (t.size + 1) := by
  rw [Nat.sub_zero, Nat.mul_comm]
  exact Nat.mul_le_mul_left _ (Nat.le_succ _)

/-- A tree that is run where the visits sought are in line. -/
theorem FollowsWithin.of_visits (ih : FollowsWithin ts₀ run fuel) {t : BlockTree} {id : Nat}
    {s : RunState} (h : t.Realises ts₀ run.transfers m (some id))
    (hvisits : run.visits ts₀ s id = sought) (hn : n ≤ s.visited.length)
    (hlimit : s.visited.length ≤ run.limit)
    (hfuel : t.size * (run.limit - s.visited.length + 1) ≤ fuel) :
    Follows ts₀ run m n sought (runWithin run fuel t s) := by
  rw [← hvisits]
  exact (ih t m id s h hlimit hfuel).mono (hn.trans (Nat.le_add_right _ _)) fun _ => rfl

variable (ih : FollowsWithin ts₀ run fuel) {next : BlockTree}
include ih

/-- What follows a block takes over where its run falls through. -/
theorem FollowsWithin.andThen {mid : Option Nat} {r : Exit × RunState}
    (h : Follows ts₀ run (m.before mid) n sought r) (hnext : next.Realises ts₀ run.transfers m mid)
    (hfuel : next.size * (run.limit - n + 1) ≤ fuel) :
    Follows ts₀ run m n sought (StructuredFlow.andThen r (runWithin run fuel next)) := by
  refine h.andThen fun s id hmid hvisits hn hlimit => ?_
  refine ih.of_visits (hmid ▸ hnext) hvisits hn hlimit (le_trans ?_ hfuel)
  exact Nat.mul_le_mul_left _ (by omega)

variable {id : Nat} {s : RunState} (hlimit : s.visited.length ≤ run.limit)
include hlimit

/-- **A leaf follows the visits**: it visits its entry, or runs as a dispatch does, and what
follows it goes on from there. -/
theorem FollowsWithin.leaf {kind : LeafKind} {entry : Nat} {labels : List Nat}
    (h : (leaf kind entry labels next).Realises ts₀ run.transfers m (some id))
    (hfuel : (leaf kind entry labels next).size * (run.limit - s.visited.length + 1) ≤ fuel + 1) :
    Follows ts₀ run m (s.visited.length + 1) (run.visits ts₀ s id)
      (runWithin run (fuel + 1) (leaf kind entry labels next) s) := by
  have hnextFuel : next.size * (run.limit - (s.visited.length + 1) + 1) ≤ fuel :=
    fuel_part hfuel (by rw [size]; omega) (by omega)
  cases kind with
  | simple =>
    obtain ⟨hstart, _, mid, hmeans, hnext⟩ := h
    obtain rfl := Option.some.inj hstart
    rw [runWithin]
    exact ih.andThen (visit_follows hmeans hlimit) hnext hnextFuel
  | dispatch =>
    obtain ⟨hstart, hmem, mid, hmeans, hnext⟩ := h
    obtain rfl := Option.some.inj hstart
    have hdispatch : run.limit - s.visited.length + 1 ≤ fuel := by
      have hpos := size_pos next
      have hone : 1 * (run.limit - s.visited.length + 1) ≤ fuel :=
        fuel_part hfuel (by rw [size]; omega) le_rfl
      omega
    rw [runWithin]
    exact ih.andThen (runDispatch_follows hmeans hmem hlimit hdispatch) hnext hnextFuel

/-- **A loop follows the visits.** It runs its parts again as long as control comes back to its
entry; each turn visits a label more, so the fuel suffices for those left. -/
theorem FollowsWithin.loop {entry : Nat} {labels : List Nat} {inc rest : BlockTree}
    (h : (loop entry labels inc rest next).Realises ts₀ run.transfers m (some id))
    (hfuel : (loop entry labels inc rest next).size * (run.limit - s.visited.length + 1) ≤
      fuel + 1) :
    Follows ts₀ run m (s.visited.length + 1) (run.visits ts₀ s id)
      (runWithin run (fuel + 1) (loop entry labels inc rest next) s) := by
  have hloop := h
  obtain ⟨hstart, ⟨kind, head, hinc⟩, mid, after, hinc', hrest, hnext⟩ := h
  obtain rfl := Option.some.inj hstart
  have hbody : Follows ts₀ run (m.inLoop id after) (s.visited.length + 1) (run.visits ts₀ s id)
      (StructuredFlow.andThen (runWithin run fuel inc s) (runWithin run fuel rest)) := by
    have hhead := ih inc _ id s hinc' hlimit (fuel_part hfuel (by rw [size]; omega) le_rfl)
    rw [if_neg (by simp [hinc, isNil])] at hhead
    exact ih.andThen hhead hrest (fuel_part hfuel (by rw [size]; omega) (by omega))
  -- the body has visited a label, so there is fuel for another turn
  have hagain : ∀ s', run.visits ts₀ s' id = run.visits ts₀ s id →
      s.visited.length + 1 ≤ s'.visited.length → s'.visited.length ≤ run.limit →
      Follows ts₀ run m (s.visited.length + 1) (run.visits ts₀ s id)
        (runWithin run fuel (.loop id labels inc rest next) s') :=
    fun s' hvisits hn hlimit' => ih.of_visits hloop hvisits hn hlimit'
      (fuel_again hfuel (size_pos _) (by omega))
  rw [runWithin]
  generalize StructuredFlow.andThen (runWithin run fuel inc s) (runWithin run fuel rest) = body
    at hbody
  cases hbody with
  | @leaves target goal s' hm hvisits hn hlimit' =>
    cases target with
    | label t => exact Follows.leaves hm hvisits hn hlimit'
    | nop =>
      obtain rfl := Option.some.inj hm
      exact hagain s' hvisits hn hlimit'
    | continueOf e =>
      rw [Meaning.inLoop_continueOf] at hm
      by_cases he : e = id
      · subst he
        rw [if_pos rfl] at hm
        obtain rfl := Option.some.inj hm
        simp only [catchExit, Target.exit, if_true]
        exact hagain s' hvisits hn hlimit'
      · rw [if_neg he] at hm
        simp only [catchExit, Target.exit, Exit.continues.injEq, if_neg he]
        exact Follows.leaves hm hvisits hn hlimit'
    | breakOf e =>
      rw [Meaning.inLoop_breakOf] at hm
      simp only [catchExit, Target.exit, reduceCtorEq, if_false]
      by_cases he : e = id
      · rw [if_pos he] at hm ⊢
        exact ih.of_visits (hm ▸ hnext) hvisits hn hlimit'
          (fuel_part hfuel (by rw [size]; omega) (by omega))
      · rw [if_neg he] at hm ⊢
        exact Follows.leaves hm hvisits hn hlimit'
  | returns hvisits => exact Follows.returns hvisits
  | stops hvisits hlimit' => exact Follows.stops hvisits hlimit'

/-- **A conditional follows the visits.** Its check tells which arm runs; a break out of a
breaking one goes on behind it. -/
theorem FollowsWithin.cond {entry : Nat} {labels : List Nat} {breaking : Bool} {test : Condition}
    {check ifTrue ifFalse : BlockTree}
    (h : (cond entry labels breaking test check ifTrue ifFalse next).Realises ts₀ run.transfers m
      (some id))
    (hfuel : (cond entry labels breaking test check ifTrue ifFalse next).size *
      (run.limit - s.visited.length + 1) ≤ fuel + 1) :
    Follows ts₀ run m (s.visited.length + 1) (run.visits ts₀ s id)
      (runWithin run (fuel + 1)
        (cond entry labels breaking test check ifTrue ifFalse next) s) := by
  obtain ⟨hstart, ⟨kind, rfl⟩, hentry, onTrue, onFalse, after, h₀, htrue, hfalse, hnext⟩ := h
  obtain rfl := Option.some.inj hstart
  rw [runWithin]
  refine ih.andThen ?_ hnext (fuel_part hfuel (by rw [size]; omega) (by omega))
  obtain ⟨rest, rfl⟩ : ∃ rest, fuel = rest + 2 := by
    have hposTrue := size_pos ifTrue
    have hposFalse := size_pos ifFalse
    have hfour : 4 * (run.limit - s.visited.length + 1) ≤ fuel :=
      fuel_part hfuel (by rw [size, size, size]; omega) le_rfl
    exact ⟨fuel - 2, by omega⟩
  rcases visit_check hentry h₀ hlimit with ⟨hvisit, heq⟩ | ⟨s', hvisit, hslot, hvisits, hn, hlimit'⟩
  · rw [runWithin_check (by simp [hvisit]), hvisit]
    exact Follows.stops (visits_of_limit heq id).symm heq
  · rw [runWithin_check (by simp [hvisit]), hvisit, andThen_falls]
    -- the arm that is run starts where the walk goes on
    have harm : (if s'.slot = test.negated.toNat then ifTrue else ifFalse).Realises ts₀
        run.transfers (m.inArm id breaking after)
        (some (if s'.slot = 0 then onTrue else onFalse)) := by
      cases hneg : test.negated with
      | false =>
        rw [hneg] at htrue hfalse
        rw [Bool.toNat_false]
        split
        next => exact htrue
        next => exact hfalse
      | true =>
        rw [hneg] at htrue hfalse
        rw [Bool.toNat_true]
        rcases Nat.lt_succ_iff_lt_or_eq.mp hslot with h | h
        · rw [if_neg (by omega), if_pos (by omega)]
          exact hfalse
        · rw [if_pos h, if_neg (by omega)]
          exact htrue
    refine Follows.catchBreaks (ih.of_visits harm hvisits (by omega) hlimit' ?_)
    refine fuel_part hfuel ?_ (by omega)
    split <;> rw [size] <;> omega

end Constructs

/-- **A run of a tree that realises a branch graph is in line with the walk**, with fuel
for each label still to be visited. -/
theorem followsWithin (ts₀ : Transfers) (run : RunInput) (fuel : Nat) :
    FollowsWithin ts₀ run fuel := by
  induction fuel with
  | zero =>
    intro t m id s _ _ hfuel
    have hpos : 0 < t.size * (run.limit - s.visited.length + 1) :=
      Nat.mul_pos (size_pos t) (Nat.succ_pos _)
    omega
  | succ fuel ih =>
    intro t m id s h hlimit hfuel
    cases t with
    | nil => exact Follows.falls h.symm rfl le_rfl hlimit
    | leaf => exact ih.leaf hlimit h hfuel
    | loop => exact ih.loop hlimit h hfuel
    | cond => exact ih.cond hlimit h hfuel

/-- **A tree that realises a branch graph runs like a walk through it**: it leaves the
function where the walk ends, or is stopped at the limit. -/
theorem Realises.run_eq {t : BlockTree} {ts : Transfers} {entry : Nat}
    (h : t.Realises ts₀ ts .outermost (some entry)) (choices : Nat → Nat) (limit : Nat) :
    (t.run ts choices limit).2 = ts₀.walk choices limit entry ∧
      ((t.run ts choices limit).1 = .returns ∨
        (t.run ts choices limit).1 = .stops ∧ (t.run ts choices limit).2.length = limit) := by
  have hfollows := followsWithin ts₀ ⟨ts, choices, limit⟩ _ t _ entry {} h (Nat.zero_le _)
    (fuel_run t limit)
  have hwalk : RunInput.visits ⟨ts, choices, limit⟩ ts₀ {} entry = ts₀.walk choices limit entry :=
    rfl
  rw [hwalk] at hfollows
  rw [BlockTree.run]
  dsimp only
  generalize runWithin ⟨ts, choices, limit⟩ ((limit + 1) * (t.size + 1)) t {} = r at hfollows
  cases hfollows with
  | leaves hid => exact absurd hid (by simp)
  | returns hvisits => exact ⟨hvisits, Or.inl rfl⟩
  | stops hvisits hlimit => exact ⟨hvisits, Or.inr ⟨rfl, hlimit⟩⟩

end BlockTree
end StructuredFlow
