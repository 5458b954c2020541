/-
# The depth does not limit structuring

`structureRegion` makes one dispatch of a region where its depth is used up.  It never
is: the parts of a region have fewer labels than it, except that the body of a loop may
be its entry alone, which then has no jumps left and is a leaf.  So two functions that
agree on smaller regions and on such leaves (`Agree`) make the same of a region by the
same pattern (`structureBy_congr`), any depth above the number of labels of a region
gives the same outcome (`structureRegion_eq`), and so does any above the number of
labels of a function (`run_eq_of_length_lt`).
-/

import StructuredFlow.Proofs.Structuring.Builds

namespace StructuredFlow
namespace Structuring

open Transfers

/-- Two functions make the same of regions with fewer than `n` labels, and of an entry
on its own that does not jump to itself. -/
structure Agree (n : Nat) (build build' : Transfers → LabelSet → Nat → Outcome) : Prop where
  /-- On small regions. -/
  region : ∀ ts set entry, Region ts set entry → set.toFinset.card < n →
    build ts set entry = build' ts set entry
  /-- On leaves. -/
  leaf : ∀ ts set entry, Region ts set entry → (∀ a ∈ set, a = entry) → ¬ts.Jumps entry entry →
    build ts set entry = build' ts set entry

section Congr

variable {n : Nat} {build build' : Transfers → LabelSet → Nat → Outcome}
  (hab : Agree n build build') {ts : Transfers} {set : LabelSet} {entry : Nat}
include hab

/-- To go on with a request of fewer labels does not depend on the limit. -/
theorem follow_congr {request : Option (LabelSet × Nat)}
    (h : ∀ set entry, request = some (set, entry) → Region ts set entry ∧ set.toFinset.card < n) :
    follow build ts request = follow build' ts request := by
  cases request with
  | none => rfl
  | some request =>
    obtain ⟨set, entry⟩ := request
    obtain ⟨hr, hcard⟩ := h set entry rfl
    rw [follow, follow, hab.region ts set entry hr hcard]

variable (hb : Builder build) (hr : Region ts set entry) (hcard : set.toFinset.card ≤ n)
include hr hcard

omit hab in
/-- A set of members that misses one is small. -/
theorem card_lt_of_missing {part : LabelSet} (hsub : ∀ a ∈ part, a ∈ set) (hentry : entry ∉ part) :
    part.toFinset.card < n :=
  (LabelSet.card_lt_of_subset hsub hr.entry_mem hentry).trans_le hcard

omit hab in
/-- What follows the entry has fewer labels. -/
theorem card_tail_lt {next : Option Nat} {rest : LabelSet} {start : Nat}
    (h : next.map (fun next => (set.erase entry, next)) = some (rest, start)) :
    rest.toFinset.card < n := by
  obtain ⟨next, rfl, hrest⟩ := Option.map_eq_some_iff.mp h
  obtain ⟨rfl, rfl⟩ := Prod.mk.inj hrest
  exact card_lt_of_missing hr hcard (fun a ha => (LabelSet.mem_erase.mp ha).1)
    fun h => (LabelSet.mem_erase.mp h).2 rfl

/-- A simple entry does not depend on the limit. -/
theorem structureSimple_congr {next : Option Nat} (hs : SimpleSplit ts set entry next) :
    structureSimple build ts set entry next = structureSimple build' ts set entry next := by
  unfold structureSimple
  dsimp only
  rw [follow_congr hab fun rest start h => ⟨hs.region_tail hr (Or.inl rfl) h,
    card_tail_lt hr hcard h⟩]

include hb

/-- The parts of a body do not depend on the limit. -/
theorem loopParts_congr (hno : ∀ a ∈ set, ¬ts.Jumps a entry) :
    loopParts build ts set entry = loopParts build' ts set entry := by
  rcases loopParts_cases hr hno with ⟨next, target, hs, -, htarget, heq⟩ | ⟨count, heq⟩
  · have hinc := makesLeaf_fallInto hb hr hs htarget
    have hleaf := hab.leaf _ _ _ hinc.region (fun a ha => (LabelSet.mem_single.mp ha).1)
      fun h => hs.no_jump entry hr.entry_mem (jumps_fallInto.mp h).1
    rw [heq build ts set rfl fun _ => Iff.rfl, heq build' ts set rfl fun _ => Iff.rfl, ← hleaf,
      hinc.transfers_eq]
    rw [follow_congr hab fun rest start h => ⟨hs.region_tail hr htarget h, card_tail_lt hr hcard h⟩]
  · rw [heq build ts set rfl, heq build' ts set rfl]

/-- A loop does not depend on the limit. -/
theorem structureLoop_congr {plan : LoopPlan} (hs : LoopSplit ts set entry plan) :
    structureLoop build ts entry plan = structureLoop build' ts entry plan := by
  have hbody : plan.body.toFinset.card ≤ n :=
    (LabelSet.card_le_of_subset fun _ ha => hs.mem_of_mem_body ha).trans hcard
  have hparts := loopParts_congr hab hb (hs.region_body hr) hbody
    fun a ha => LoopSplit.not_jumps_entry ha
  unfold structureLoop
  rw [← hparts]
  dsimp only
  rw [follow_congr hab fun after start h => ⟨region_behind_loop hb hr hs h, ?_⟩]
  obtain ⟨pivot, hp, h⟩ := Option.map_eq_some_iff.mp h
  obtain ⟨rfl, rfl⟩ := Prod.mk.inj h
  exact card_lt_of_missing hr hcard (fun a ha => hs.mem_of_mem_after ha)
    (hs.not_mem_after entry hs.entry_mem)

/-- A conditional does not depend on the limit. -/
theorem structureCond_congr {plan : CondPlan} (hs : CondSplit ts set entry plan) :
    structureCond build ts entry plan = structureCond build' ts entry plan := by
  have hcheck := makesLeaf_check hb hr hs
  have hcheckEq := hab.leaf _ _ _ hcheck.region (fun a ha => (LabelSet.mem_single.mp ha).1)
    hs.not_jumps_of_entry
  have hsmall : ∀ part : LabelSet, (∀ a ∈ part, a ∈ plan.regions) → part.toFinset.card < n :=
    fun part hsub => card_lt_of_missing hr hcard (fun a ha => hs.mem_of_mem_regions (hsub a ha))
      fun h => hs.entry_not_mem (hsub entry h)
  have hfirst := hab.region _ _ _ (hs.region_first hr)
    (hsmall _ fun a ha => (hs.mem_regions a).mpr (Or.inl ha))
  have hsecond : ∀ ts', ts' = (build (markCond ts entry plan) plan.firstRegion
      plan.firstArm).transfers →
      secondArm build ts' plan.second = secondArm build' ts' plan.second := by
    rintro ts' rfl
    cases h : plan.second with
    | none => rfl
    | some second =>
      exact hab.region _ _ _ (region_second_arm hb hr hs h)
        (hsmall _ fun a ha => hs.mem_regions_second h ha)
  unfold structureCond
  dsimp only
  rw [← hcheckEq, hcheck.transfers_eq, ← hfirst, ← hsecond _ rfl]
  rw [follow_congr hab fun rest start h => ⟨region_behind_cond hb hr hs h, ?_⟩]
  obtain ⟨join, hj, h⟩ := Option.map_eq_some_iff.mp h
  obtain ⟨rfl, rfl⟩ := Prod.mk.inj h
  exact card_lt_of_missing hr hcard (fun a ha => ((hs.mem_rest a).mp ha).1)
    fun h => ((hs.mem_rest entry).mp h).2.1 rfl

/-- The same pattern makes the same first block and the same blocks behind it. -/
theorem structureBy_congr {pattern : Pattern} (hs : pattern.Splits ts set entry) :
    structureBy build ts set entry pattern = structureBy build' ts set entry pattern := by
  cases pattern with
  | simple next => exact structureSimple_congr hab hr hcard hs
  | loop plan => exact structureLoop_congr hab hb hr hcard hs
  | cond plan => exact structureCond_congr hab hb hr hcard hs
  | dispatch => rfl

end Congr

/-- An entry on its own is a leaf at any depth but none. -/
theorem structureRegion_alone {ts : Transfers} {set : LabelSet} {entry : Nat}
    (hr : Region ts set entry) (hall : ∀ a ∈ set, a = entry) (hself : ¬ts.Jumps entry entry)
    (depth depth' : Nat) :
    structureRegion (depth + 1) ts set entry = structureRegion (depth' + 1) ts set entry := by
  rw [structureRegion, structureRegion, choosePattern_alone hr hall hself]
  rfl

/-- **Any depth above the number of labels of a region gives the same outcome.** -/
theorem structureRegion_eq {ts : Transfers} {set : LabelSet} {entry depth depth' : Nat}
    (hr : Region ts set entry) (h : set.toFinset.card < depth) (h' : set.toFinset.card < depth') :
    structureRegion depth ts set entry = structureRegion depth' ts set entry := by
  induction depth generalizing depth' ts set entry with
  | zero => exact absurd h (Nat.not_lt_zero _)
  | succ k ih =>
    obtain ⟨k', rfl⟩ := Nat.exists_eq_add_of_lt (Nat.zero_lt_of_lt h')
    rw [Nat.zero_add] at h' ⊢
    have hpos : 0 < set.toFinset.card :=
      Finset.card_pos.mpr ⟨entry, LabelSet.mem_toFinset.mpr hr.entry_mem⟩
    have hab : Agree set.toFinset.card (structureRegion k) (structureRegion k') :=
      { region := fun ts set entry hr hcard => ih hr (by omega) (by omega)
        leaf := fun ts set entry hr hall hself => by
          obtain ⟨j, rfl⟩ := Nat.exists_eq_succ_of_ne_zero (n := k) (by omega)
          obtain ⟨j', rfl⟩ := Nat.exists_eq_succ_of_ne_zero (n := k') (by omega)
          exact structureRegion_alone hr hall hself j j' }
    rw [structureRegion, structureRegion]
    dsimp only
    rw [structureBy_congr hab (builder_structureRegion _) hr le_rfl (splits_choosePattern hr)]

/-- **The depth does not limit what is made of a function.** -/
theorem run_eq_of_length_lt (ts : Transfers) (entry : Nat) {depth : Nat} (h : ts.length < depth) :
    structureLive (structureRegion depth) ts entry = run ts entry := by
  by_cases hentry : entry < ts.length
  · have hr := region_live hentry
    have hcard : (ts.live entry).toFinset.card ≤ ts.length :=
      capacity_live ts entry ▸ LabelSet.card_le_capacity _
    have heq := structureRegion_eq hr (hcard.trans_lt h) (hcard.trans_lt (Nat.lt_add_of_pos_right
      Nat.zero_lt_two))
    unfold run structureLive
    dsimp only
    rw [← liveTable, heq]
  · rw [run, structureLive_of_le (Nat.not_lt.mp hentry), structureLive_of_le (Nat.not_lt.mp hentry)]

end Structuring
end StructuredFlow
