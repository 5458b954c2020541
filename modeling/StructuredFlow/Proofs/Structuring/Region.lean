/-
# Regions and how a pattern splits them

A region is a set of labels cut off from the others: its entry reaches all of it
within the set, no jump to a label leaves it, and no jump from outside leads into
it.  A pattern splits a region, and what makes this work is the same each time: a
jump between members leads from a part into the part itself or to the one label
where the next part begins.

| split | parts | jumps between parts lead to |
| --- | --- | --- |
| `SimpleSplit` | the entry, what it leads to | the next label |
| `LoopSplit` | the body, what is behind the pivot | the pivot, the entry |
| `CondSplit` | the entry, the arms, what is behind the join | the arms, the join |

Just these jumps are made markers, and so the parts are regions of the marked
table (`SimpleSplit.region_next`, `LoopSplit.region_body`, `CondSplit.region_arm`
and so on).  They remain regions while other labels lose jumps (`Region.marks`).
-/

import StructuredFlow.Proofs.Flow.Relations
import StructuredFlow.Proofs.Structuring.Marks

namespace StructuredFlow
namespace Structuring

open Relation

/-- A set of labels that is cut off from the others and that the entry reaches. -/
structure Region (ts : Transfers) (set : LabelSet) (entry : Nat) : Prop where
  /-- The set is one of labels. -/
  capacity_eq : set.capacity = ts.length
  /-- The entry is a member. -/
  entry_mem : entry ∈ set
  /-- A walk within the set leads from the entry to each member. -/
  reached : ∀ a ∈ set, ReflTransGen (ts.JumpsWithin set) entry a
  /-- A member jumps to members alone, as far as it jumps to labels. -/
  closed : ∀ a ∈ set, ∀ b < ts.length, ts.Jumps a b → b ∈ set
  /-- No other label jumps to a member. -/
  isolated : ∀ a, a ∉ set → ∀ b ∈ set, ¬ts.Jumps a b

namespace Region

variable {ts ts' : Transfers} {set : LabelSet} {entry : Nat}

/-- The members of a region are labels of the table. -/
theorem lt_length (h : Region ts set entry) : ∀ a ∈ set, a < ts.length := fun _ ha =>
  h.capacity_eq ▸ LabelSet.lt_capacity_of_mem ha

/-- A region has no more members than the table has labels. -/
theorem card_le_length (h : Region ts set entry) : set.toFinset.card ≤ ts.length :=
  h.capacity_eq ▸ LabelSet.card_le_capacity set

/-- What holds of the entry and goes along with jumps holds of all members. -/
theorem induct (h : Region ts set entry) {P : Nat → Prop} (base : P entry)
    (step : ∀ a ∈ set, ∀ b ∈ set, ts.Jumps a b → P a → P b) : ∀ a ∈ set, P a := by
  intro a ha
  have hw := h.reached a ha
  clear ha
  induction hw with
  | refl => exact base
  | tail _ hstep ih => exact step _ hstep.1 _ hstep.2.1 hstep.2.2 ih

/-- A region remains one while other labels lose jumps. -/
theorem marks (h : Region ts set entry) {p : Nat → Prop} (hm : Transfers.MarksWithin p ts ts')
    (hp : ∀ a ∈ set, ¬p a) : Region ts' set entry where
  capacity_eq := h.capacity_eq.trans hm.length_eq.symm
  entry_mem := h.entry_mem
  reached a ha := by
    refine ReflTransGen.mono (fun x y hxy => ?_) _ _ (h.reached a ha)
    refine ⟨hxy.1, hxy.2.1, ?_⟩
    rw [Transfers.Jumps, hm.targets_eq (hp x hxy.1)]
    exact hxy.2.2
  closed a ha b hb hab := h.closed a ha b (hm.length_eq ▸ hb) (hm.jumps hab)
  isolated a ha b hb hab := h.isolated a ha b hb (hm.jumps hab)

/-- A label without jumps from it or to it is a region on its own. -/
theorem single (h : entry < ts.length) (hout : ∀ b < ts.length, ¬ts.Jumps entry b)
    (hin : ∀ a, ¬ts.Jumps a entry) : Region ts (.single ts.length entry) entry where
  capacity_eq := LabelSet.capacity_single _ _
  entry_mem := LabelSet.mem_single.mpr ⟨rfl, h⟩
  reached a ha := by
    obtain ⟨rfl, _⟩ := LabelSet.mem_single.mp ha
    exact ReflTransGen.refl
  closed a ha b hb hab := by
    obtain ⟨rfl, _⟩ := LabelSet.mem_single.mp ha
    exact absurd hab (hout b hb)
  isolated a _ b hb hab := by
    obtain ⟨rfl, _⟩ := LabelSet.mem_single.mp hb
    exact hin a hab

end Region

/-! ### The entry as a block of its own -/

/-- Nothing leads to the entry, and it leads to `next` alone. -/
structure SimpleSplit (ts : Transfers) (set : LabelSet) (entry : Nat) (next : Option Nat) :
    Prop where
  /-- No member jumps to the entry. -/
  no_jump : ∀ a ∈ set, ¬ts.Jumps a entry
  /-- The entry jumps to the next label, of all members. -/
  jumps_iff : ∀ b ∈ set, ts.Jumps entry b ↔ next = some b
  /-- The next label is another member. -/
  next_mem : ∀ b, next = some b → b ∈ set.erase entry
  /-- Without a next label the entry is all. -/
  eq_entry : next = none → ∀ a ∈ set, a = entry

namespace SimpleSplit

variable {ts : Transfers} {set : LabelSet} {entry : Nat}

/-- What the entry leads to is a region once the entry falls through. -/
theorem region_next {next : Nat} (hr : Region ts set entry)
    (hs : SimpleSplit ts set entry (some next)) :
    Region (fallInto ts entry (some next)) (set.erase entry) next where
  capacity_eq := by
    rw [LabelSet.capacity_erase, (marks_fallInto ts entry (some next)).length_eq]
    exact hr.capacity_eq
  entry_mem := hs.next_mem next rfl
  reached a ha := by
    have hwalk : ∀ a ∈ set, a ≠ entry →
        ReflTransGen ((fallInto ts entry (some next)).JumpsWithin (set.erase entry)) next a := by
      refine hr.induct (fun hne => absurd rfl hne) fun a ha b hb hab ih hne => ?_
      by_cases hae : a = entry
      · subst hae
        obtain rfl : next = b := Option.some.inj ((hs.jumps_iff b hb).mp hab)
        exact ReflTransGen.refl
      · exact (ih hae).tail ⟨LabelSet.mem_erase.mpr ⟨ha, hae⟩, LabelSet.mem_erase.mpr ⟨hb, hne⟩,
          jumps_fallInto.mpr ⟨hab, fun h => absurd h hae⟩⟩
    obtain ⟨ha, hne⟩ := LabelSet.mem_erase.mp ha
    exact hwalk a ha hne
  closed a ha b hb hab := by
    obtain ⟨ha, _⟩ := LabelSet.mem_erase.mp ha
    have hab := (jumps_fallInto.mp hab).1
    rw [(marks_fallInto ts entry (some next)).length_eq] at hb
    exact LabelSet.mem_erase.mpr ⟨hr.closed a ha b hb hab, fun h => hs.no_jump a ha (h ▸ hab)⟩
  isolated a ha b hb hab := by
    have hbs := (LabelSet.mem_erase.mp hb).1
    obtain ⟨hab, hkept⟩ := jumps_fallInto.mp hab
    by_cases has : a ∈ set
    · have hae : a = entry := by
        by_contra hne
        exact ha (LabelSet.mem_erase.mpr ⟨has, hne⟩)
      exact hkept hae ((hs.jumps_iff b hbs).mp (hae ▸ hab))
    · exact hr.isolated a has b hbs hab

/-- The entry that falls through to the next label, if there is one, is a region on
its own. -/
theorem region_entry {next target : Option Nat} (hr : Region ts set entry)
    (hs : SimpleSplit ts set entry next) (htarget : ∀ b, next = some b → target = some b) :
    Region (fallInto ts entry target) (.single ts.length entry) entry := by
  have hlen := (marks_fallInto ts entry target).length_eq
  have he := hr.lt_length entry hr.entry_mem
  rw [← hlen]
  refine Region.single (by rwa [hlen]) (fun b hb hab => ?_) fun a hab => ?_
  · rw [hlen] at hb
    obtain ⟨hab, hkept⟩ := jumps_fallInto.mp hab
    have hbs := hr.closed entry hr.entry_mem b hb hab
    exact hkept rfl (htarget b ((hs.jumps_iff b hbs).mp hab))
  · have hab := (jumps_fallInto.mp hab).1
    by_cases has : a ∈ set
    · exact hs.no_jump a has hab
    · exact hr.isolated a has entry hr.entry_mem hab

end SimpleSplit

/-! ### Loops -/

/-- The body of a loop and what is behind it. -/
structure LoopSplit (ts : Transfers) (set : LabelSet) (entry : Nat) (plan : LoopPlan) : Prop where
  /-- The body is a set of labels. -/
  capacity_body : plan.body.capacity = ts.length
  /-- So is what follows. -/
  capacity_after : plan.after.capacity = ts.length
  /-- The entry belongs to the body. -/
  entry_mem : entry ∈ plan.body
  /-- The members are those of the body and those behind it. -/
  mem_iff : ∀ a, a ∈ set ↔ a ∈ plan.body ∨ a ∈ plan.after
  /-- No label is both. -/
  not_mem_after : ∀ a ∈ plan.body, a ∉ plan.after
  /-- The pivot is behind the body. -/
  pivot_mem : ∀ pivot, plan.pivot = some pivot → pivot ∈ plan.after
  /-- Without a pivot nothing is. -/
  after_empty : plan.pivot = none → ∀ a, a ∉ plan.after
  /-- The body is left for the pivot alone. -/
  body_jumps : ∀ a ∈ plan.body, ∀ b ∈ set, ts.Jumps a b → b ∈ plan.body ∨ plan.pivot = some b
  /-- No jump leads back into the body. -/
  after_jumps : ∀ a ∈ plan.after, ∀ b ∈ set, ts.Jumps a b → b ∈ plan.after

namespace LoopSplit

variable {ts ts' : Transfers} {set : LabelSet} {entry : Nat} {plan : LoopPlan}

/-- The body of a loop lies in its region. -/
theorem mem_of_mem_body (hs : LoopSplit ts set entry plan) {a : Nat} (ha : a ∈ plan.body) :
    a ∈ set := (hs.mem_iff a).mpr (Or.inl ha)

/-- What follows a loop lies in its region. -/
theorem mem_of_mem_after (hs : LoopSplit ts set entry plan) {a : Nat} (ha : a ∈ plan.after) :
    a ∈ set := (hs.mem_iff a).mpr (Or.inr ha)

/-- The pivot is not in the body. -/
theorem pivot_ne (hs : LoopSplit ts set entry plan) {a : Nat} (ha : a ∈ plan.body) :
    plan.pivot ≠ some a := fun h => hs.not_mem_after a ha (hs.pivot_mem a h)

/-- The body is a region once the jumps to the pivot and to the entry are marked. -/
theorem region_body (hr : Region ts set entry) (hs : LoopSplit ts set entry plan) :
    Region (markLoop ts entry plan) plan.body entry where
  capacity_eq := hs.capacity_body.trans (marks_markLoop ts entry plan).length_eq.symm
  entry_mem := hs.entry_mem
  reached a ha := by
    have hwalk : ∀ a ∈ set, a ∈ plan.body →
        ReflTransGen ((markLoop ts entry plan).JumpsWithin plan.body) entry a := by
      refine hr.induct (fun _ => ReflTransGen.refl) fun a ha b hb hab ih hbb => ?_
      have hba : a ∈ plan.body := ((hs.mem_iff a).mp ha).resolve_right fun h =>
        hs.not_mem_after b hbb (hs.after_jumps a h b hb hab)
      by_cases hbe : b = entry
      · exact hbe ▸ ReflTransGen.refl
      · exact (ih hba).tail ⟨hba, hbb, jumps_markLoop.mpr ⟨hab, fun _ => ⟨hs.pivot_ne hbb, hbe⟩⟩⟩
    exact hwalk a (hs.mem_of_mem_body ha) ha
  closed a ha b hb hab := by
    obtain ⟨hab, hkept⟩ := jumps_markLoop.mp hab
    rw [(marks_markLoop ts entry plan).length_eq] at hb
    have hbs := hr.closed a (hs.mem_of_mem_body ha) b hb hab
    exact (hs.body_jumps a ha b hbs hab).resolve_right (hkept ha).1
  isolated a ha b hb hab := by
    have hab := (jumps_markLoop.mp hab).1
    by_cases has : a ∈ set
    · have hafter := ((hs.mem_iff a).mp has).resolve_left ha
      exact hs.not_mem_after b hb (hs.after_jumps a hafter b (hs.mem_of_mem_body hb) hab)
    · exact hr.isolated a has b (hs.mem_of_mem_body hb) hab

/-- Nothing in the marked body jumps to the entry. -/
theorem not_jumps_entry {a : Nat} (ha : a ∈ plan.body) :
    ¬(markLoop ts entry plan).Jumps a entry := fun h => ((jumps_markLoop.mp h).2 ha).2 rfl

/-- What is behind the pivot is a region once the jumps to the pivot are marked. -/
theorem region_after (hr : Region ts set entry) (hs : LoopSplit ts set entry plan) {pivot : Nat}
    (hp : plan.pivot = some pivot) : Region (markLoop ts entry plan) plan.after pivot where
  capacity_eq := hs.capacity_after.trans (marks_markLoop ts entry plan).length_eq.symm
  entry_mem := hs.pivot_mem pivot hp
  reached a ha := by
    have hwalk : ∀ a ∈ set, a ∈ plan.after →
        ReflTransGen ((markLoop ts entry plan).JumpsWithin plan.after) pivot a := by
      refine hr.induct (fun h => absurd h (hs.not_mem_after entry hs.entry_mem))
        fun a ha b hb hab ih hba => ?_
      rcases (hs.mem_iff a).mp ha with hbody | hafter
      · have hpb := (hs.body_jumps a hbody b hb hab).resolve_left fun h => hs.not_mem_after b h hba
        obtain rfl : pivot = b := Option.some.inj (hp.symm.trans hpb)
        exact ReflTransGen.refl
      · exact (ih hafter).tail ⟨hafter, hba, jumps_markLoop.mpr
          ⟨hab, fun h => absurd hafter (hs.not_mem_after a h)⟩⟩
    exact hwalk a (hs.mem_of_mem_after ha) ha
  closed a ha b hb hab := by
    have hab := (jumps_markLoop.mp hab).1
    rw [(marks_markLoop ts entry plan).length_eq] at hb
    exact hs.after_jumps a ha b (hr.closed a (hs.mem_of_mem_after ha) b hb hab) hab
  isolated a ha b hb hab := by
    obtain ⟨hab, hkept⟩ := jumps_markLoop.mp hab
    by_cases has : a ∈ set
    · have hbody := ((hs.mem_iff a).mp has).resolve_right ha
      rcases hs.body_jumps a hbody b (hs.mem_of_mem_after hb) hab with h | h
      · exact hs.not_mem_after b h hb
      · exact (hkept hbody).1 h
    · exact hr.isolated a has b (hs.mem_of_mem_after hb) hab

end LoopSplit

/-! ### Conditionals -/

/-- An arm of a conditional in `set` with the join `join`. -/
structure ArmRegion (ts : Transfers) (set : LabelSet) (join : Option Nat) (part : LabelSet)
    (arm : Nat) : Prop where
  /-- The arm is a set of labels. -/
  capacity_eq : part.capacity = ts.length
  /-- Its start is a member. -/
  start_mem : arm ∈ part
  /-- A walk within the arm leads from its start to each member. -/
  reached : ∀ a ∈ part, ReflTransGen (ts.JumpsWithin part) arm a
  /-- Its labels are members of the set. -/
  subset : ∀ a ∈ part, a ∈ set
  /-- It is left for the join alone. -/
  jumps : ∀ a ∈ part, ∀ b ∈ set, ts.Jumps a b → b ∈ part ∨ join = some b

/-- The entry, the arms and the rest of a conditional. -/
structure CondSplit (ts : Transfers) (set : LabelSet) (entry : Nat) (plan : CondPlan) : Prop where
  /-- The entry chooses between the two targets. -/
  at?_entry : ts.at? entry =
    some (.condBranch plan.test.value (.label plan.onTrue) (.label plan.onFalse))
  /-- The targets differ. -/
  onTrue_ne : plan.onTrue ≠ plan.onFalse
  /-- The first arm starts at the one target. -/
  firstArm_eq : plan.firstArm = if plan.test.negated then plan.onFalse else plan.onTrue
  /-- The second arm, or else the join, is the other target. -/
  other_eq : plan.second.elim plan.join (fun arm => some arm.1) =
    some (if plan.test.negated then plan.onTrue else plan.onFalse)
  /-- No member jumps to the entry. -/
  no_jump : ∀ a ∈ set, ¬ts.Jumps a entry
  /-- The first arm. -/
  first : ArmRegion ts set plan.join plan.firstRegion plan.firstArm
  /-- The second arm. -/
  second : ∀ arm region, plan.second = some (arm, region) → ArmRegion ts set plan.join region arm
  /-- The arms are apart. -/
  disjoint : ∀ arm region, plan.second = some (arm, region) → ∀ a ∈ plan.firstRegion, a ∉ region
  /-- The regions are those of the arms. -/
  mem_regions : ∀ a, a ∈ plan.regions ↔
    a ∈ plan.firstRegion ∨ ∃ arm region, plan.second = some (arm, region) ∧ a ∈ region
  /-- The regions are a set of labels. -/
  capacity_regions : plan.regions.capacity = ts.length
  /-- The entry is in no arm. -/
  entry_not_mem : entry ∉ plan.regions
  /-- The rest is a set of labels. -/
  capacity_rest : plan.rest.capacity = ts.length
  /-- The rest is what the entry and the arms leave of the set. -/
  mem_rest : ∀ a, a ∈ plan.rest ↔ a ∈ set ∧ a ≠ entry ∧ a ∉ plan.regions
  /-- The join is left for what follows. -/
  join_mem : ∀ join, plan.join = some join → join ∈ plan.rest
  /-- Without a join nothing is. -/
  rest_empty : plan.join = none → ∀ a, a ∉ plan.rest
  /-- No jump leads from the rest into an arm. -/
  rest_jumps : ∀ a ∈ plan.rest, ∀ b ∈ set, ts.Jumps a b → b ∈ plan.rest
  /-- A crowded conditional has a jump out of its arm to its join. -/
  crowded_jump : plan.crowded = true →
    ∃ a ∈ plan.regions, ∃ join, plan.join = some join ∧ ts.Jumps a join

/-- A label that chooses between two targets jumps to the first arm, which one of
them is, and to the other one. -/
theorem eq_of_jumps_choice {ts : Transfers} {entry : Nat} {plan : CondPlan}
    (hat : ts.at? entry =
      some (.condBranch plan.test.value (.label plan.onTrue) (.label plan.onFalse)))
    (hfirst : plan.firstArm = if plan.test.negated then plan.onFalse else plan.onTrue)
    (hother : plan.second.elim plan.join (fun arm => some arm.1) =
      some (if plan.test.negated then plan.onTrue else plan.onFalse))
    {b : Nat} (h : ts.Jumps entry b) :
    b = plan.firstArm ∨ plan.second.elim plan.join (fun arm => some arm.1) = some b := by
  rw [Transfers.Jumps, Transfers.targets, hat] at h
  rw [hfirst, hother]
  have hb : b = plan.onTrue ∨ b = plan.onFalse := by simpa [Transfer.targets] using h
  cases plan.test.negated with
  | false => exact hb.imp_right fun h => congrArg some h.symm
  | true => exact hb.symm.imp_right fun h => congrArg some h.symm

namespace CondSplit

variable {ts ts' : Transfers} {set : LabelSet} {entry : Nat} {plan : CondPlan}

/-- The arms lie in the region of their conditional. -/
theorem mem_of_mem_regions (hs : CondSplit ts set entry plan) {a : Nat} (ha : a ∈ plan.regions) :
    a ∈ set := by
  rcases (hs.mem_regions a).mp ha with h | ⟨arm, region, hsec, h⟩
  · exact hs.first.subset a h
  · exact (hs.second arm region hsec).subset a h

/-- A region with a conditional is its entry, its arms and what follows them. -/
theorem mem_iff (hr : Region ts set entry) (hs : CondSplit ts set entry plan) (a : Nat) :
    a ∈ set ↔ a = entry ∨ a ∈ plan.regions ∨ a ∈ plan.rest := by
  constructor
  · intro ha
    by_cases he : a = entry
    · exact Or.inl he
    · by_cases hreg : a ∈ plan.regions
      · exact Or.inr (Or.inl hreg)
      · exact Or.inr (Or.inr ((hs.mem_rest a).mpr ⟨ha, he, hreg⟩))
  · rintro (rfl | h | h)
    · exact hr.entry_mem
    · exact hs.mem_of_mem_regions h
    · exact ((hs.mem_rest a).mp h).1

/-- The targets of the entry are the two that it chooses between. -/
theorem targets_entry (hs : CondSplit ts set entry plan) :
    ts.targets entry = [.label plan.onTrue, .label plan.onFalse] := by
  unfold Transfers.targets
  rw [hs.at?_entry]
  rfl

/-- The entry jumps to the first arm and to the other target. -/
theorem eq_of_jumps_entry (hs : CondSplit ts set entry plan) {b : Nat} (h : ts.Jumps entry b) :
    b = plan.firstArm ∨ plan.second.elim plan.join (fun arm => some arm.1) = some b :=
  eq_of_jumps_choice hs.at?_entry hs.firstArm_eq hs.other_eq h

/-- From the arms jumps lead into the arms or to the join. -/
theorem regions_jumps (hs : CondSplit ts set entry plan) {a : Nat} (ha : a ∈ plan.regions) {b : Nat}
    (hb : b ∈ set) (hab : ts.Jumps a b) : b ∈ plan.regions ∨ plan.join = some b := by
  rcases (hs.mem_regions a).mp ha with h | ⟨arm, region, hsec, h⟩
  · exact (hs.first.jumps a h b hb hab).imp_left fun h => (hs.mem_regions b).mpr (Or.inl h)
  · exact ((hs.second arm region hsec).jumps a h b hb hab).imp_left fun h =>
      (hs.mem_regions b).mpr (Or.inr ⟨arm, region, hsec, h⟩)

/-- The labels of the second arm are labels of the arms. -/
theorem mem_regions_second (hs : CondSplit ts set entry plan) {arm : Nat} {region : LabelSet}
    (hsec : plan.second = some (arm, region)) {a : Nat} (ha : a ∈ region) : a ∈ plan.regions :=
  (hs.mem_regions a).mpr (Or.inr ⟨arm, region, hsec, ha⟩)

/-- No jump of the marked table leads from the entry to a label. -/
theorem not_jumps_of_entry (hs : CondSplit ts set entry plan) {b : Nat} :
    ¬(markCond ts entry plan).Jumps entry b := by
  intro h
  obtain ⟨hab, _, hkept⟩ := jumps_markCond.mp h
  rw [Transfers.Jumps, hs.targets_entry] at hab
  have hb : b = plan.onTrue ∨ b = plan.onFalse := by simpa using hab
  exact hb.elim (hkept rfl).1 (hkept rfl).2

/-- The entry is a region on its own once its jumps are marked. -/
theorem region_entry (hr : Region ts set entry) (hs : CondSplit ts set entry plan) :
    Region (markCond ts entry plan) (.single ts.length entry) entry := by
  have hlen := (marks_markCond ts entry plan).length_eq
  rw [← hlen]
  refine Region.single ?_ (fun b _ => hs.not_jumps_of_entry) fun a hab => ?_
  · rw [hlen]
    exact hr.lt_length entry hr.entry_mem
  · have hab := (jumps_markCond.mp hab).1
    by_cases has : a ∈ set
    · exact hs.no_jump a has hab
    · exact hr.isolated a has entry hr.entry_mem hab

/-- An arm is a region once the jumps to the join and those of the entry are marked,
provided that no jump leads into it from the other arm. -/
theorem region_arm (hr : Region ts set entry) (hs : CondSplit ts set entry plan)
    {part : LabelSet} {arm : Nat} (ha : ArmRegion ts set plan.join part arm)
    (hsub : ∀ a ∈ part, a ∈ plan.regions)
    (hother : ∀ a ∈ plan.regions, a ∉ part → ∀ b ∈ part, ¬ts.Jumps a b) :
    Region (markCond ts entry plan) part arm where
  capacity_eq := ha.capacity_eq.trans (marks_markCond ts entry plan).length_eq.symm
  entry_mem := ha.start_mem
  reached a hap := by
    refine ReflTransGen.mono (fun x y hxy => ⟨hxy.1, hxy.2.1, ?_⟩) _ _ (ha.reached a hap)
    refine jumps_markCond.mpr ⟨hxy.2.2, fun _ h => ?_, fun h => ?_⟩
    · exact ((hs.mem_rest y).mp (hs.join_mem y h)).2.2 (hsub y hxy.2.1)
    · exact absurd (hsub x hxy.1) (h ▸ hs.entry_not_mem)
  closed a hap b hb hab := by
    obtain ⟨hab, hkept, _⟩ := jumps_markCond.mp hab
    rw [(marks_markCond ts entry plan).length_eq] at hb
    have hbs := hr.closed a (ha.subset a hap) b hb hab
    exact (ha.jumps a hap b hbs hab).resolve_right (hkept (hsub a hap))
  isolated a hap b hb hab := by
    have hjump := (jumps_markCond.mp hab).1
    by_cases has : a ∈ set
    · rcases (hs.mem_iff hr a).mp has with rfl | hreg | hrest
      · exact hs.not_jumps_of_entry hab
      · exact hother a hreg hap b hb hjump
      · exact ((hs.mem_rest b).mp (hs.rest_jumps a hrest b (ha.subset b hb) hjump)).2.2 (hsub b hb)
    · exact hr.isolated a has b (ha.subset b hb) hjump

/-- **The first arm is a region** once the conditional is marked. -/
theorem region_first (hr : Region ts set entry) (hs : CondSplit ts set entry plan) :
    Region (markCond ts entry plan) plan.firstRegion plan.firstArm := by
  refine hs.region_arm hr hs.first (fun a ha => (hs.mem_regions a).mpr (Or.inl ha))
    fun a ha hna b hb hab => ?_
  obtain ⟨arm, region, hsec, har⟩ := ((hs.mem_regions a).mp ha).resolve_left hna
  rcases (hs.second arm region hsec).jumps a har b (hs.first.subset b hb) hab with h | h
  · exact hs.disjoint arm region hsec b hb h
  · exact ((hs.mem_rest b).mp (hs.join_mem b h)).2.2 ((hs.mem_regions b).mpr (Or.inl hb))

/-- **The second arm is a region** once the conditional is marked. -/
theorem region_second (hr : Region ts set entry) (hs : CondSplit ts set entry plan) {arm : Nat}
    {region : LabelSet} (hsec : plan.second = some (arm, region)) :
    Region (markCond ts entry plan) region arm := by
  have hsecond := hs.second arm region hsec
  refine hs.region_arm hr hsecond (fun a ha => hs.mem_regions_second hsec ha)
    fun a ha hna b hb hab => ?_
  have hfirst : a ∈ plan.firstRegion := by
    rcases (hs.mem_regions a).mp ha with h | ⟨arm', region', hsec', h⟩
    · exact h
    · obtain ⟨rfl, rfl⟩ := Prod.mk.inj (Option.some.inj (hsec.symm.trans hsec'))
      exact absurd h hna
  rcases hs.first.jumps a hfirst b (hsecond.subset b hb) hab with h | h
  · exact hs.disjoint arm region hsec b h hb
  · exact ((hs.mem_rest b).mp (hs.join_mem b h)).2.2 (hs.mem_regions_second hsec hb)

/-- What is behind the join is a region once the jumps to the join and those of the
entry are marked. -/
theorem region_rest (hr : Region ts set entry) (hs : CondSplit ts set entry plan) {join : Nat}
    (hj : plan.join = some join) : Region (markCond ts entry plan) plan.rest join where
  capacity_eq := hs.capacity_rest.trans (marks_markCond ts entry plan).length_eq.symm
  entry_mem := hs.join_mem join hj
  reached a ha := by
    have hwalk : ∀ a ∈ set, a ∈ plan.rest →
        ReflTransGen ((markCond ts entry plan).JumpsWithin plan.rest) join a := by
      refine hr.induct (fun h => absurd rfl ((hs.mem_rest entry).mp h).2.1)
        fun a ha b hb hab ih hba => ?_
      have hnot := ((hs.mem_rest b).mp hba).2.2
      have hjoin : plan.join = some b →
          ReflTransGen ((markCond ts entry plan).JumpsWithin plan.rest) join b := by
        intro h
        obtain rfl : join = b := Option.some.inj (hj.symm.trans h)
        exact ReflTransGen.refl
      rcases (hs.mem_iff hr a).mp ha with rfl | hreg | hrest
      · rcases hs.eq_of_jumps_entry hab with rfl | hother
        · exact absurd ((hs.mem_regions _).mpr (Or.inl hs.first.start_mem)) hnot
        · cases hsec : plan.second with
          | none =>
            rw [hsec] at hother
            exact hjoin hother
          | some second =>
            rw [hsec] at hother
            obtain rfl : second.1 = b := Option.some.inj hother
            exact absurd (hs.mem_regions_second hsec (hs.second _ _ hsec).start_mem) hnot
      · exact hjoin ((hs.regions_jumps hreg hb hab).resolve_left hnot)
      · obtain ⟨_, hne, hnreg⟩ := (hs.mem_rest a).mp hrest
        exact (ih hrest).tail ⟨hrest, hba, jumps_markCond.mpr
          ⟨hab, fun h => absurd h hnreg, fun h => absurd h hne⟩⟩
    exact hwalk a ((hs.mem_rest a).mp ha).1 ha
  closed a ha b hb hab := by
    have hab := (jumps_markCond.mp hab).1
    rw [(marks_markCond ts entry plan).length_eq] at hb
    exact hs.rest_jumps a ha b (hr.closed a ((hs.mem_rest a).mp ha).1 b hb hab) hab
  isolated a ha b hb hab := by
    obtain ⟨hjump, hkept, _⟩ := jumps_markCond.mp hab
    obtain ⟨hbs, _, hnreg⟩ := (hs.mem_rest b).mp hb
    by_cases has : a ∈ set
    · rcases (hs.mem_iff hr a).mp has with rfl | hreg | hrest
      · exact hs.not_jumps_of_entry hab
      · exact (hs.regions_jumps hreg hbs hjump).elim hnreg (hkept hreg)
      · exact ha hrest
    · exact hr.isolated a has b hbs hjump

end CondSplit

end Structuring
end StructuredFlow
