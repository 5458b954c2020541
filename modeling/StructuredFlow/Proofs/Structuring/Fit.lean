/-
# When a pattern fits

`choosePattern` finds the pattern that a region has:

| region | pattern |
| --- | --- |
| the entry, to which nothing jumps, jumps to one label | `simple` |
| the core of a loop jumps to itself alone | `loop` without a pivot |
| and, from the entry, to one other label | `loop` with this label as its pivot |
| the entry, to which nothing jumps, chooses between two labels and the arms are apart | `cond` |
| the same, but the arms overlap | `dispatch` |

The pivot is found because every candidate that must be got to comes behind the one label
for which the core is left (`loopPlan?_left`).
-/

import StructuredFlow.Proofs.Flow.MustOrder
import StructuredFlow.Proofs.Structuring.Builds

namespace StructuredFlow
namespace Structuring

open Relation StructuredFlow.Flow

variable {ts : Transfers} {set : LabelSet} {entry : Nat}

/-! ### The entry as a block of its own -/

/-- An entry that no label jumps to has no sources. -/
theorem inLabels_eq_nil (hr : Region ts set entry) (hno : ∀ a ∈ set, ¬ts.Jumps a entry) :
    (flowAt (analyze ts set) entry).inLabels = [] := by
  refine List.eq_nil_iff_forall_not_mem.mpr fun a ha => ?_
  have hjump := (mem_inLabels hr.lt_length hr.entry_mem).mp ha
  exact hno a hjump.1 hjump.2.2

/-- The labels that the entry jumps to are those of its jumps within the region. -/
theorem mem_outLabels_entry (hr : Region ts set entry) {b : Nat} :
    b ∈ (flowAt (analyze ts set) entry).outLabels ↔ b ∈ set ∧ ts.Jumps entry b := by
  rw [mem_outLabels hr.lt_length hr.entry_mem]
  exact ⟨fun h => h.2, fun h => ⟨hr.entry_mem, h⟩⟩

/-- An entry to which nothing jumps and that jumps to one member is a block of its own. -/
theorem choosePattern_of_next (hr : Region ts set entry) (hno : ∀ a ∈ set, ¬ts.Jumps a entry)
    {next : Nat} (hmem : next ∈ set) (hjumps : ∀ b ∈ set, ts.Jumps entry b ↔ b = next) :
    choosePattern ts set entry = (.simple (some next), []) := by
  have hout : (flowAt (analyze ts set) entry).outLabels = [next] := by
    have hperm : (flowAt (analyze ts set) entry).outLabels.Perm [next] := by
      refine (List.perm_ext_iff_of_nodup (nodup_outLabels hr.lt_length hr.entry_mem)
        (List.nodup_singleton next)).mpr fun b => ?_
      rw [mem_outLabels_entry hr, List.mem_singleton]
      exact ⟨fun h => (hjumps b h.1).mp h.2, fun h => h ▸ ⟨hmem, (hjumps next hmem).mpr rfl⟩⟩
    exact List.perm_singleton.mp hperm
  simp [choosePattern, simpleNext?, inLabels_eq_nil hr hno, hout]

/-! ### Loops -/

/-- An entry that leads back to itself is the entry of a loop if there is a plan for one. -/
theorem choosePattern_of_cycle (hr : Region ts set entry)
    (hcycle : TransGen (ts.JumpsWithin set) entry entry) {plan : LoopPlan} {events : List Event}
    (h : loopPlan? (analyze ts set) set entry = (some plan, events)) :
    choosePattern ts set entry = (.loop plan, events) := by
  have hin : (flowAt (analyze ts set) entry).inLabels ≠ [] := by
    obtain ⟨a, _, ha⟩ := TransGen.tail'_iff.mp hcycle
    exact List.ne_nil_of_mem ((mem_inLabels hr.lt_length hr.entry_mem).mpr ha)
  have hsimple : simpleNext? (analyze ts set) set entry = none := by
    simp [simpleNext?, hin]
  simp [choosePattern, hsimple, h]

/-- An entry that leads back to itself is recorded as leading to itself. -/
theorem mem_allIn_of_cycle (hr : Region ts set entry)
    (hcycle : TransGen (ts.JumpsWithin set) entry entry) :
    (flowAt (analyze ts set) entry).allIn.contains entry = true :=
  LabelSet.contains_iff_mem.mpr ((mem_allIn hr.lt_length hr.entry_mem).mpr hcycle)

/-- The core of a loop has the capacity of the table. -/
theorem capacity_loopCore (hr : Region ts set entry) :
    (loopCore (analyze ts set) set entry).capacity = ts.length := by
  rw [loopCore, LabelSet.capacity_ofIds, hr.capacity_eq]

/-- A loop that no label leaves has no pivot. -/
theorem loopPlan?_closed (hr : Region ts set entry)
    (hcycle : TransGen (ts.JumpsWithin set) entry entry)
    (hclosed : ∀ a ∈ loopCore (analyze ts set) set entry, ∀ b ∈ set, ts.Jumps a b →
      b ∈ loopCore (analyze ts set) set entry) :
    loopPlan? (analyze ts set) set entry =
      (some ⟨loopCore (analyze ts set) set entry, none,
        set.diff (loopCore (analyze ts set) set entry)⟩, []) := by
  have hexits : (loopExits (analyze ts set) (loopCore (analyze ts set) set entry)
      (set.diff (loopCore (analyze ts set) set entry))).isEmpty = true := by
    refine LabelSet.isEmpty_iff.mpr fun b hb => ?_
    obtain ⟨hout, hbs, a, ha, hab⟩ :=
      (mem_loopExits hr (fun x hx => ((mem_loopCore hr).mp hx).1) (capacity_loopCore hr)).mp hb
    exact (LabelSet.mem_diff.mp hout).2 (hclosed a ha b hbs hab)
  simp [loopPlan?, mem_allIn_of_cycle hr hcycle, hexits]

section Left

variable {core : LabelSet} {pivot : Nat}

/-- A walk that leaves the core of a loop goes on from the pivot. -/
theorem exists_walk_of_leaves
    (hleft : ∀ a ∈ core, ∀ b ∈ set, ts.Jumps a b → b ∈ core ∨ b = pivot) {a b : Nat}
    {walk : List Nat} (hwalk : EndingWalk (ts.JumpsWithin set) (ts.EndsPaths set) a walk)
    (ha : a ∈ core) (hb : b ∈ walk) (hout : b ∉ core) :
    ∃ rest, EndingWalk (ts.JumpsWithin set) (ts.EndsPaths set) pivot rest ∧ rest ⊆ walk :=
  hwalk.exists_of_leaves (fun x y hx hxy => hleft x hx y hxy.2.1 hxy.2.2) ha ⟨b, hb, hout⟩

/-- If some label outside must be got to from all over the core, then the pivot comes before
all such labels. -/
theorem leads_of_left (hr : Region ts set entry) (hcore : ∀ a ∈ core, a ∈ set)
    (hentry : entry ∈ core) (hp : pivot ∈ set) (hout : pivot ∉ core)
    (hjump : ts.Jumps entry pivot)
    (hleft : ∀ a ∈ core, ∀ b ∈ set, ts.Jumps a b → b ∈ core ∨ b = pivot) {forced : List Nat}
    (hforced : ∀ b, b ∈ forced ↔ (b ∈ set ∧ b ∉ core) ∧
      ∀ a ∈ core, b ∈ (flowAt (analyze ts set) a).mustGetTo)
    (hne : forced ≠ []) : Leads (analyze ts set) pivot forced := by
  have hset := hr.lt_length
  have hmust : ∀ b ∈ forced, ∀ a ∈ core,
      MustPass (ts.JumpsWithin set) (ts.EndsPaths set) a b := fun b hb a ha =>
    (mem_mustGetTo_iff_mustPass hset (hcore a ha)).mp (((hforced b).mp hb).2 a ha)
  constructor
  · obtain ⟨b, hb⟩ := List.exists_mem_of_ne_nil _ hne
    refine (hforced pivot).mpr ⟨⟨hp, hout⟩, fun a ha => ?_⟩
    refine (mem_mustGetTo_iff_mustPass hset (hcore a ha)).mpr
      ⟨fun h => hout (h ▸ ha), (hmust b hb a ha).2.1, fun walk hwalk => ?_⟩
    obtain ⟨rest, hrest, hsub⟩ := exists_walk_of_leaves hleft hwalk ha
      ((hmust b hb a ha).2.2 walk hwalk) ((hforced b).mp hb).1.2
    exact hsub hrest.head_mem
  · intro b hb
    by_cases hbp : b = pivot
    · exact Or.inl hbp
    · obtain ⟨⟨hbs, hbc⟩, -⟩ := (hforced b).mp hb
      obtain ⟨-, ⟨walk, hwalk⟩, hpass⟩ := hmust b hb entry hentry
      obtain ⟨rest, hrest, -⟩ := exists_walk_of_leaves hleft hwalk hentry (hpass walk hwalk) hbc
      refine Or.inr (mustCount_lt hset hp hbs ⟨hbp, ⟨rest, hrest⟩, fun walk hwalk => ?_⟩)
      have hstep : ts.JumpsWithin set entry pivot := ⟨hr.entry_mem, hp, hjump⟩
      exact (List.mem_cons.mp (hpass _ (.step hstep hwalk))).resolve_left fun h => hbc (h ▸ hentry)

/-- **A loop that is left for one label alone has this label as its pivot**, and takes no
other label in. -/
theorem loopPlan?_left (hr : Region ts set entry)
    (hcycle : TransGen (ts.JumpsWithin set) entry entry) (hp : pivot ∈ set)
    (hout : pivot ∉ loopCore (analyze ts set) set entry) (hjump : ts.Jumps entry pivot)
    (hleft : ∀ a ∈ loopCore (analyze ts set) set entry, ∀ b ∈ set, ts.Jumps a b →
      b ∈ loopCore (analyze ts set) set entry ∨ b = pivot) :
    ∃ plan, loopPlan? (analyze ts set) set entry = (some plan, []) ∧ plan.pivot = some pivot ∧
      ∀ a, a ∈ plan.body ↔ a ∈ loopCore (analyze ts set) set entry := by
  have hcap := capacity_loopCore hr
  have hcore : ∀ a ∈ loopCore (analyze ts set) set entry, a ∈ set := fun a ha =>
    ((mem_loopCore hr).mp ha).1
  have hentry : entry ∈ loopCore (analyze ts set) set entry :=
    (mem_loopCore hr).mpr ⟨hr.entry_mem, Or.inl rfl⟩
  have hcontains := mem_allIn_of_cycle hr hcycle
  unfold loopPlan?
  generalize loopCore (analyze ts set) set entry = core at *
  have hexit : ∀ b, b ∈ loopExits (analyze ts set) core (set.diff core) ↔ b = pivot := by
    intro b
    rw [mem_loopExits hr hcore hcap, LabelSet.mem_diff]
    constructor
    · rintro ⟨⟨_, hbc⟩, hbs, a, ha, hab⟩
      exact (hleft a ha b hbs hab).resolve_left hbc
    · rintro rfl
      exact ⟨⟨hp, hout⟩, hp, entry, hentry, hjump⟩
  have hexits : (loopExits (analyze ts set) core (set.diff core)).toList = [pivot] :=
    toList_eq_singleton ((hexit pivot).mpr rfl) fun a ha => (hexit a).mp ha
  have hnonempty : (loopExits (analyze ts set) core (set.diff core)).isEmpty = false := by
    rw [Bool.eq_false_iff]
    exact fun h => LabelSet.isEmpty_iff.mp h pivot ((hexit pivot).mpr rfl)
  obtain ⟨others, hcandidates⟩ : ∃ others, pivotCandidates (analyze ts set) core (set.diff core)
      (loopExits (analyze ts set) core (set.diff core)) = pivot :: others := by
    unfold pivotCandidates
    generalize hforced : ((set.diff core).toList.filter fun outsider =>
      core.toList.all fun id => (flowAt (analyze ts set) id).mustGetTo.contains outsider) = forced
    have hmem : ∀ b, b ∈ forced ↔ (b ∈ set ∧ b ∉ core) ∧
        ∀ a ∈ core, b ∈ (flowAt (analyze ts set) a).mustGetTo := by
      intro b
      rw [← hforced]
      simp
    by_cases hne : forced = []
    · rw [hne, hexits]
      exact ⟨[], by simp⟩
    · obtain ⟨rest, hrest⟩ :=
        head?_mergeSort (leads_of_left hr hcore hentry hp hout hjump hleft hmem hne)
      exact ⟨_, by dsimp only; rw [hrest]; rfl⟩
  generalize hextension : reachAvoiding (analyze ts set) set.capacity [pivot]
    (set.diff core) pivot = extension
  have hnone : ∀ a, a ∉ extension := by
    intro a ha
    rw [← hextension, mem_reachAvoiding hr.lt_length (fun id h => (LabelSet.mem_diff.mp h).1)
      hr.capacity_eq.ge] at ha
    obtain ⟨b, hb, hne, -⟩ := ha
    exact hne (List.mem_singleton.mp hb)
  have hdisjoint : (flowAt (analyze ts set) pivot).allOut.disjoint extension = true :=
    LabelSet.disjoint_iff.mpr fun a _ => hnone a
  refine ⟨⟨core.union extension, some pivot, (set.diff core).diff extension⟩, ?_, rfl, fun a => ?_⟩
  · simp [hcontains, hnonempty, hcandidates, choosePivot, hexits, hextension, hdisjoint]
  · rw [LabelSet.mem_union, hcap]
    exact ⟨fun h => h.2.resolve_right (hnone a), fun h => ⟨hr.lt_length a (hcore a h), Or.inl h⟩⟩

end Left

/-! ### Conditionals -/

/-- The entry, to which nothing jumps, chooses between two members. -/
structure Forks (ts : Transfers) (set : LabelSet) (entry onTrue onFalse : Nat) : Prop where
  /-- The choice is by a truth value. -/
  at?_entry : ∃ condition,
    ts.at? entry = some (.condBranch condition (.label onTrue) (.label onFalse))
  /-- The targets differ. -/
  ne : onTrue ≠ onFalse
  /-- The one is a member. -/
  onTrue_mem : onTrue ∈ set
  /-- So is the other. -/
  onFalse_mem : onFalse ∈ set
  /-- No member jumps to the entry. -/
  no_jump : ∀ a ∈ set, ¬ts.Jumps a entry

/-- What the start of an arm reaches without passing the join. -/
def armLabels (ts : Transfers) (set : LabelSet) (entry : Nat) (join : Option Nat) (arm : Nat) :
    LabelSet :=
  reachAvoiding (analyze ts set) ts.length [arm] set (join.getD entry)

/-- The labels of an arm have the capacity of the table. -/
@[simp] theorem capacity_armLabels (join : Option Nat) (arm : Nat) :
    (armLabels ts set entry join arm).capacity = ts.length := capacity_reachAvoiding _ _ _ _ _

/-- The labels of an arm are labels of the table. -/
theorem lt_length_of_mem_armLabels {join : Option Nat} {arm a : Nat}
    (h : a ∈ armLabels ts set entry join arm) : a < ts.length := by
  have hlt := LabelSet.lt_capacity_of_mem h
  rwa [capacity_armLabels] at hlt

/-- What lies beyond a join is the join and what it reaches. -/
theorem mem_beyondJoin (hr : Region ts set entry) {join : Option Nat}
    (hjoin : ∀ j, join = some j → j ∈ set) {a : Nat} :
    a ∈ beyondJoin (analyze ts set) ts.length join ↔
      ∃ j, join = some j ∧ (a = j ∨ TransGen (ts.JumpsWithin set) j a) := by
  cases join with
  | none => simp [beyondJoin]
  | some j =>
    have hj := hjoin j rfl
    constructor
    · intro h
      have hlt : a < ts.length := LabelSet.lt_capacity_of_mem h
      exact ⟨j, rfl, ((mem_beyondJoin_some hlt).mp h).symm.imp_right
        (mem_allOut hr.lt_length hj).mp⟩
    · rintro ⟨_, hj', h⟩
      obtain rfl := Option.some.inj hj'
      have hlt : a < ts.length := h.elim (fun h => h ▸ hr.lt_length j hj) fun h =>
        hr.lt_length a (mem_of_transGen h).2
      exact (mem_beyondJoin_some hlt).mpr (h.symm.imp_left (mem_allOut hr.lt_length hj).mpr)

section Forks

variable {onTrue onFalse firstArm : Nat} {second join : Option Nat} {negated : Bool}

/-- The record lists what all walks from a label must pass. -/
theorem contains_mustGetTo (hset : ∀ id ∈ set, id < ts.length) {a b : Nat} (ha : a ∈ set) :
    (flowAt (analyze ts set) a).mustGetTo.contains b = true ↔
      MustPass (ts.JumpsWithin set) (ts.EndsPaths set) a b :=
  LabelSet.contains_iff_mem.trans (mem_mustGetTo_iff_mustPass hset ha)

/-- A target that the other one must get to is the join, behind a single arm. -/
theorem chooseArms_of_mustPass (hset : ∀ id ∈ set, id < ts.length) {arm j : Nat} (harm : arm ∈ set)
    (hj : j ∈ set) (h : MustPass (ts.JumpsWithin set) (ts.EndsPaths set) arm j)
    (htargets : onTrue = arm ∧ onFalse = j ∨ onTrue = j ∧ onFalse = arm) :
    ∃ negated, chooseArms (analyze ts set) onTrue onFalse = (arm, none, some j, negated) := by
  have harmJoin := (contains_mustGetTo hset harm).mpr h
  have hjoinArm := (contains_mustGetTo hset hj).not.mpr h.asymm
  rcases htargets with ⟨rfl, rfl⟩ | ⟨rfl, rfl⟩
  · exact ⟨false, by rw [chooseArms, if_neg hjoinArm, if_pos harmJoin]⟩
  · exact ⟨true, by rw [chooseArms, if_pos harmJoin]⟩

section Apart

variable (hset : ∀ id ∈ set, id < ts.length) (ht : onTrue ∈ set) (hf : onFalse ∈ set)
  (htrue : ¬MustPass (ts.JumpsWithin set) (ts.EndsPaths set) onTrue onFalse)
  (hfalse : ¬MustPass (ts.JumpsWithin set) (ts.EndsPaths set) onFalse onTrue)
include hset ht hf htrue hfalse

/-- Where neither target must be gotten to from the other there are two arms. -/
theorem chooseArms_eq : chooseArms (analyze ts set) onTrue onFalse = (onTrue, some onFalse,
    firstCandidate? (analyze ts set) ((flowAt (analyze ts set) onTrue).mustGetTo.inter
      (flowAt (analyze ts set) onFalse).mustGetTo).toList, false) := by
  rw [chooseArms, if_neg ((contains_mustGetTo hset hf).not.mpr hfalse),
    if_neg ((contains_mustGetTo hset ht).not.mpr htrue)]

/-- The label that both targets must get to, before any other such label, is the join. -/
theorem chooseArms_of_leads {j : Nat} (hj : j ∈ set)
    (htrueJoin : MustPass (ts.JumpsWithin set) (ts.EndsPaths set) onTrue j)
    (hfalseJoin : MustPass (ts.JumpsWithin set) (ts.EndsPaths set) onFalse j)
    (hleads : ∀ b, MustPass (ts.JumpsWithin set) (ts.EndsPaths set) onTrue b →
      MustPass (ts.JumpsWithin set) (ts.EndsPaths set) onFalse b →
      b = j ∨ MustPass (ts.JumpsWithin set) (ts.EndsPaths set) j b) :
    chooseArms (analyze ts set) onTrue onFalse = (onTrue, some onFalse, some j, false) := by
  rw [chooseArms_eq hset ht hf htrue hfalse, firstCandidate?_eq]
  simp only [Leads, LabelSet.mem_toList, LabelSet.mem_inter, mem_mustGetTo_iff_mustPass hset ht,
    mem_mustGetTo_iff_mustPass hset hf]
  refine ⟨⟨htrueJoin, hfalseJoin⟩, fun b hb => (hleads b hb.1 hb.2).imp_right fun h => ?_⟩
  have hw := transGen_of_mem_mustGetTo hset hj ((mem_mustGetTo_iff_mustPass hset hj).mpr h)
  exact mustCount_lt hset hj (mem_of_transGen hw.1).2 h

/-- Without a label that both targets must get to there is no join. -/
theorem chooseArms_of_none (hnone : ∀ b, MustPass (ts.JumpsWithin set) (ts.EndsPaths set) onTrue b →
      ¬MustPass (ts.JumpsWithin set) (ts.EndsPaths set) onFalse b) :
    chooseArms (analyze ts set) onTrue onFalse = (onTrue, some onFalse, none, false) := by
  have hempty : ((flowAt (analyze ts set) onTrue).mustGetTo.inter
      (flowAt (analyze ts set) onFalse).mustGetTo).toList = [] := by
    refine List.eq_nil_iff_forall_not_mem.mpr fun b hb => ?_
    rw [LabelSet.mem_toList, LabelSet.mem_inter, mem_mustGetTo_iff_mustPass hset ht,
      mem_mustGetTo_iff_mustPass hset hf] at hb
    exact hnone b hb.1 hb.2
  rw [chooseArms_eq hset ht hf htrue hfalse, hempty, firstCandidate?]

end Apart

namespace Forks

/-- The entry jumps to its two targets. -/
theorem jumps_iff (hf : Forks ts set entry onTrue onFalse) {b : Nat} :
    ts.Jumps entry b ↔ b = onTrue ∨ b = onFalse := by
  obtain ⟨condition, hat⟩ := hf.at?_entry
  rw [Transfers.Jumps, Transfers.targets, hat]
  simp [Transfer.targets]

/-- The entry has two jumps. -/
theorem length_outLabels (hr : Region ts set entry) (hf : Forks ts set entry onTrue onFalse) :
    (flowAt (analyze ts set) entry).outLabels.length = 2 := by
  have hperm : (flowAt (analyze ts set) entry).outLabels.Perm [onTrue, onFalse] := by
    refine (List.perm_ext_iff_of_nodup (nodup_outLabels hr.lt_length hr.entry_mem)
      (by simpa using hf.ne)).mpr fun b => ?_
    rw [mem_outLabels_entry hr, hf.jumps_iff, List.mem_pair]
    exact and_iff_right_of_imp fun h => h.elim (· ▸ hf.onTrue_mem) (· ▸ hf.onFalse_mem)
  exact hperm.length_eq

/-- The entry does not lead back to itself. -/
theorem not_mem_allIn (hr : Region ts set entry) (hf : Forks ts set entry onTrue onFalse) :
    (flowAt (analyze ts set) entry).allIn.contains entry = false :=
  LabelSet.contains_eq_false_iff.mpr fun h => by
    obtain ⟨a, _, ha⟩ := TransGen.tail'_iff.mp ((mem_allIn hr.lt_length hr.entry_mem).mp h)
    exact hf.no_jump a ha.1 ha.2.2

/-- Such an entry is neither a block of its own nor the entry of a loop. -/
theorem choosePattern_eq (hr : Region ts set entry) (hf : Forks ts set entry onTrue onFalse) :
    (choosePattern ts set entry).1 =
      (condPlan? (analyze ts set) ts set entry).1.elim .dispatch .cond := by
  have hloop : loopPlan? (analyze ts set) set entry = (none, []) := by
    rw [loopPlan?, hf.not_mem_allIn hr]
    rfl
  have hsimple : simpleNext? (analyze ts set) set entry = none := by
    obtain ⟨x, y, hxy⟩ := List.length_eq_two.mp (hf.length_outLabels hr)
    simp [simpleNext?, hxy]
  rw [choosePattern, hsimple, hloop]
  dsimp only
  rcases condPlan? (analyze ts set) ts set entry with ⟨_ | plan, events⟩ <;> rfl

/-- No arm starts at the entry. -/
theorem arm_ne_entry (hr : Region ts set entry) (hf : Forks ts set entry onTrue onFalse)
    (harms : chooseArms (analyze ts set) onTrue onFalse = (firstArm, second, join, negated))
    {arm : Nat} (harm : arm = firstArm ∨ second = some arm) : arm ≠ entry := by
  have hchoice := armChoice_of_chooseArms hr.lt_length hf.onTrue_mem hf.onFalse_mem harms
  have htarget : arm = onTrue ∨ arm = onFalse := by
    rcases harm with rfl | hsec
    · rw [hchoice.firstArm_eq]
      split
      · exact Or.inr rfl
      · exact Or.inl rfl
    · have hother := hchoice.other_eq
      rw [hsec] at hother
      obtain rfl := Option.some.inj hother
      split
      · exact Or.inl rfl
      · exact Or.inr rfl
  rintro rfl
  exact hf.no_jump arm hr.entry_mem (hf.jumps_iff.mpr htarget)

/-- The entry is in no arm. -/
theorem entry_not_mem_armLabels (hr : Region ts set entry)
    (hf : Forks ts set entry onTrue onFalse) {arm : Nat} (harm : arm ≠ entry) :
    entry ∉ armLabels ts set entry join arm := by
  intro h
  obtain ⟨s, hs, -, -, hw⟩ := (mem_reachAvoiding hr.lt_length (fun _ h => h) le_rfl).mp h
  obtain rfl := List.mem_singleton.mp hs
  rcases hw.cases_tail with heq | ⟨a, -, ha⟩
  · exact harm heq.symm
  · exact hf.no_jump a ha.1.1 ha.1.2.2

/-- **Arms that are apart make a conditional.**  The join leads into none of them, and
without a join they are all that is left. -/
theorem exists_condPlan (hr : Region ts set entry) (hf : Forks ts set entry onTrue onFalse)
    (harms : chooseArms (analyze ts set) onTrue onFalse = (firstArm, second, join, negated))
    (hapart : ∀ arm, second = some arm → ∀ a ∈ armLabels ts set entry join firstArm,
      a ∉ armLabels ts set entry join arm)
    (hbeyond : ∀ j, join = some j → ∀ a, a = j ∨ TransGen (ts.JumpsWithin set) j a →
      ∀ arm, arm = firstArm ∨ second = some arm → a ∉ armLabels ts set entry join arm)
    (hall : join = none → ∀ a ∈ set, a ≠ entry →
      ∃ arm, (arm = firstArm ∨ second = some arm) ∧ a ∈ armLabels ts set entry join arm) :
    ∃ plan, (choosePattern ts set entry).1 = .cond plan ∧ CondPlanned ts set entry plan ∧
      plan.firstArm = firstArm ∧ plan.second.map Prod.fst = second ∧ plan.join = join := by
  obtain ⟨plan, hplan, hfields⟩ : ∃ plan,
      condPlan? (analyze ts set) ts set entry = (some plan, []) ∧
      plan.firstArm = firstArm ∧ plan.second.map Prod.fst = second ∧ plan.join = join := by
    obtain ⟨condition, hat⟩ := hf.at?_entry
    have hchoice : choice? (ts.at? entry) = some (condition, onTrue, onFalse) := by
      rw [hat]
      rfl
    have hentry : ∀ arm, arm = firstArm ∨ second = some arm →
        entry ∉ armLabels ts set entry join arm := fun arm h =>
      hf.entry_not_mem_armLabels hr (hf.arm_ne_entry hr harms h)
    have hlabels : ∀ arm, reachAvoiding (analyze ts set) ts.length [arm] set (join.getD entry) =
        armLabels ts set entry join arm := fun _ => rfl
    have hsecond : ∀ a, a ∈ ((second.map fun arm => (arm, armLabels ts set entry join arm)).map
        Prod.snd).getD (.empty ts.length) ↔
        ∃ arm, second = some arm ∧ a ∈ armLabels ts set entry join arm := by
      cases second <;> simp
    have hregions : ∀ a, a ∈ (armLabels ts set entry join firstArm).union (((second.map fun arm =>
        (arm, armLabels ts set entry join arm)).map Prod.snd).getD (.empty ts.length)) ↔
        ∃ arm, (arm = firstArm ∨ second = some arm) ∧ a ∈ armLabels ts set entry join arm := by
      intro a
      rw [LabelSet.mem_union, hsecond, capacity_armLabels]
      constructor
      · rintro ⟨-, h | ⟨arm, hsec, h⟩⟩
        · exact ⟨firstArm, Or.inl rfl, h⟩
        · exact ⟨arm, Or.inr hsec, h⟩
      · rintro ⟨arm, rfl | hsec, h⟩
        · exact ⟨lt_length_of_mem_armLabels h, Or.inl h⟩
        · exact ⟨lt_length_of_mem_armLabels h, Or.inr ⟨arm, hsec, h⟩⟩
    have hjoin : ∀ j, join = some j → j ∈ set := fun j hj =>
      (mem_of_transGen ((armChoice_of_chooseArms hr.lt_length hf.onTrue_mem hf.onFalse_mem
        harms).first_join j hj).1).2
    simp only [condPlan?, hf.length_outLabels hr, hf.not_mem_allIn hr, hchoice, harms, hlabels]
    rw [if_neg (by simp)]
    rw [if_neg, if_neg]
    · exact ⟨_, rfl, rfl, by cases second <;> rfl, rfl⟩
    · intro h
      rw [Bool.and_eq_true, Option.isNone_iff_eq_none, Bool.not_eq_true', Bool.eq_false_iff] at h
      refine h.2 (LabelSet.isEmpty_iff.mpr fun a ha => ?_)
      obtain ⟨ha, hnot⟩ := LabelSet.mem_diff.mp ha
      obtain ⟨ha, hne⟩ := LabelSet.mem_erase.mp ha
      exact hnot ((hregions a).mpr (hall h.1 a ha hne))
    · simp only [Bool.or_eq_true, Bool.not_eq_true', Bool.eq_false_iff, not_or, ne_eq, not_not,
        LabelSet.disjoint_iff, hsecond, hregions, LabelSet.contains_iff_mem]
      refine ⟨⟨?_, ?_⟩, ?_⟩
      · rintro a ⟨arm, hsec, ha⟩ hfirst
        exact hapart arm hsec a hfirst ha
      · rintro ⟨arm, harm, h⟩
        exact hentry arm harm h
      · rintro a ⟨arm, harm, ha⟩ hbeyondJoin
        obtain ⟨j, hj, h⟩ := (mem_beyondJoin hr hjoin).mp hbeyondJoin
        exact hbeyond j hj a h arm harm ha
  refine ⟨plan, ?_, condPlanned_of_condPlan? hplan, hfields⟩
  rw [hf.choosePattern_eq hr, hplan]
  rfl

/-- **Arms that overlap are left to a dispatch.** -/
theorem choosePattern_of_overlap (hr : Region ts set entry) (hf : Forks ts set entry onTrue onFalse)
    {arm a : Nat}
    (harms : chooseArms (analyze ts set) onTrue onFalse = (firstArm, some arm, join, negated))
    (hfirst : a ∈ armLabels ts set entry join firstArm)
    (hsecond : a ∈ armLabels ts set entry join arm) :
    (choosePattern ts set entry).1 = .dispatch := by
  rw [hf.choosePattern_eq hr]
  rcases hplan : condPlan? (analyze ts set) ts set entry with ⟨_ | plan, events⟩
  · rfl
  · have hp := condPlanned_of_condPlan? hplan
    obtain ⟨condition, hat⟩ := hf.at?_entry
    have htargets := hp.at?_entry.symm.trans hat
    simp only [Option.some.injEq, Transfer.condBranch.injEq, Target.label.injEq] at htargets
    have hfields := hp.arms_eq.symm.trans (htargets.2.1 ▸ htargets.2.2 ▸ harms)
    simp only [Prod.mk.injEq, Option.map_eq_some_iff] at hfields
    obtain ⟨hfirstArm, ⟨⟨_, region⟩, hsec, rfl⟩, hjoin, -⟩ := hfields
    refine absurd ?_ ((hp.condSplit hr).disjoint _ _ hsec a ?_)
    · rw [hp.second_eq _ _ hsec, hjoin]
      exact hsecond
    · rw [hp.firstRegion_eq, hfirstArm, hjoin]
      exact hfirst

end Forks

end Forks

end Structuring
end StructuredFlow
