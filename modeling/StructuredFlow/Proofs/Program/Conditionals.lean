/-
# Conditionals of a program

The label of a conditional chooses between two programs that continue at the same place, the
second of which has no statements if there is just one arm (`Forked`).  What is made of it
depends on that place:

| behind the arms | pattern |
| --- | --- |
| nothing, and there is one arm | `simple` |
| nothing, and there are two | `cond` without a join |
| a label behind which paths end | `cond`, with this label as its join |
| a label behind which no path ends | `dispatch` |

Each part of a `cond` holds a program again, and markers follow the arms (`CondParts`).
-/

import StructuredFlow.Proofs.Program.Region

namespace StructuredFlow

open Relation Structuring Transfers

variable {ts ts' : Transfers} {set : LabelSet} {p : Program} {after start : Target}
  {ids : List Nat} {a b c s : Nat}

/-! ### Arms -/

/-- An entry that chooses between two programs with the same continuation; the second
one may have no statements, and is then entered at the continuation. -/
structure Forked (ts : Transfers) (set : LabelSet) (a b c : Nat) (first second next : Program)
    (after start : Target) (oneIds otherIds ids : List Nat) : Prop where
  /-- The labels are a region. -/
  region : Region ts set a
  /-- The entry chooses between the starts of the two. -/
  chooses : ts.Chooses a (.label b) (.label c)
  /-- The first program has a statement. -/
  first_ne : first ≠ .done
  /-- The first program. -/
  one : Lowered ts first start (.label b) oneIds
  /-- The second one. -/
  other : Lowered ts second start (.label c) otherIds
  /-- What follows both. -/
  next : Concludes ts next after start ids
  /-- The labels of the first program differ. -/
  nodup_one : oneIds.Nodup
  /-- So do those of the second. -/
  nodup_other : otherIds.Nodup
  /-- The members are the entry and the labels of the three. -/
  mem_iff : ∀ x, x ∈ set ↔ x = a ∨ x ∈ oneIds ∨ x ∈ otherIds ∨ Onward ids after x
  /-- The entry is none of the latter. -/
  entry_apart : a ∉ oneIds ∧ a ∉ otherIds ∧ ¬Onward ids after a
  /-- No label is in the first program and another. -/
  one_apart : ∀ x ∈ oneIds, x ∉ otherIds ∧ ¬Onward ids after x
  /-- No label is in the second program and behind it. -/
  other_apart : ∀ x ∈ otherIds, ¬Onward ids after x

/-- The labels of an arm are the program that starts there, if the join is what follows it. -/
theorem Lowered.mem_armLabels (hr : Region ts set a) (h : Lowered ts p start (.label b) ids)
    (hb : b ∈ ids) (hids : ∀ x ∈ ids, x ∈ set) {join : Option Nat}
    (hjoin : ∀ s, start = .label s → join = some s) (havoid : join.getD a ∉ ids) {x : Nat} :
    x ∈ armLabels ts set a join b ↔ x ∈ ids := by
  rw [armLabels, mem_reachAvoiding hr.lt_length (fun _ h => h) le_rfl]
  constructor
  · rintro ⟨_, hs, -, -, hw⟩
    obtain rfl := List.mem_singleton.mp hs
    induction hw with
    | refl => exact hb
    | tail _ hstep ih =>
      refine (h.jumps_mem ih hstep.1.2.2).resolve_right fun hs => hstep.2 ?_
      rw [hjoin _ hs]
      rfl
  · intro hx
    have hne : ∀ y ∈ ids, y ≠ join.getD a := fun y hy heq => havoid (heq ▸ hy)
    refine ⟨b, List.mem_singleton_self b, hne b hb, hids b hb, ?_⟩
    exact h.reached (fun x hx y hy hxy => ⟨⟨hids x hx, hids y hy, hxy⟩, hne y hy⟩) b rfl x hx

namespace Forked

variable {first second next : Program} {oneIds otherIds : List Nat}

/-- The first arm starts at one of its labels. -/
theorem mem_one (h : Forked ts set a b c first second next after start oneIds otherIds ids) :
    b ∈ oneIds := by
  obtain ⟨x, hx, hbx⟩ := h.one.exists_start h.first_ne
  exact Target.label.inj hbx ▸ hx

/-- The labels of the first arm are in the region. -/
theorem mem_set_one (h : Forked ts set a b c first second next after start oneIds otherIds ids) :
    ∀ x ∈ oneIds, x ∈ set := fun x hx => (h.mem_iff x).mpr (Or.inr (Or.inl hx))

/-- The labels of the second arm are in the region. -/
theorem mem_set_other (h : Forked ts set a b c first second next after start oneIds otherIds ids) :
    ∀ x ∈ otherIds, x ∈ set := fun x hx => (h.mem_iff x).mpr (Or.inr (Or.inr (Or.inl hx)))

/-- What follows the arms is in the region. -/
theorem mem_set_onward (h : Forked ts set a b c first second next after start oneIds otherIds ids)
    {x : Nat} (hx : Onward ids after x) : x ∈ set :=
  (h.mem_iff x).mpr (Or.inr (Or.inr (Or.inr hx)))

/-- Where the arms continue is part of what follows. -/
theorem onward_start (h : Forked ts set a b c first second next after start oneIds otherIds ids)
    (hs : start = .label s) : Onward ids after s := h.next.lowered.start_mem hs

/-- Where the second program starts. -/
theorem mem_other (h : Forked ts set a b c first second next after start oneIds otherIds ids) :
    c ∈ otherIds ∨ Onward ids after c :=
  (h.other.start_mem rfl).imp_right h.onward_start

/-- The two programs may be exchanged, if the second has a statement. -/
theorem symm (h : Forked ts set a b c first second next after start oneIds otherIds ids)
    (hsecond : second ≠ .done) :
    Forked ts set a c b second first next after start otherIds oneIds ids where
  region := h.region
  chooses := h.chooses.symm
  first_ne := hsecond
  one := h.other
  other := h.one
  next := h.next
  nodup_one := h.nodup_other
  nodup_other := h.nodup_one
  mem_iff x := by
    rw [h.mem_iff]
    exact or_congr_right or_left_comm
  entry_apart := ⟨h.entry_apart.2.1, h.entry_apart.1, h.entry_apart.2.2⟩
  one_apart x hx := ⟨fun hone => (h.one_apart x hone).1 hx, h.other_apart x hx⟩
  other_apart x hx := (h.one_apart x hx).2

/-- No label of the region jumps to the entry. -/
theorem no_jump (h : Forked ts set a b c first second next after start oneIds otherIds ids) :
    ∀ x ∈ set, ¬ts.Jumps x a := by
  intro x hx hxa
  obtain ⟨hone, hother, hon⟩ := h.entry_apart
  rcases (h.mem_iff x).mp hx with rfl | hx | hx | hx
  · rcases h.chooses.mem_targets.mp hxa with heq | heq
    · exact hone (Target.label.inj heq ▸ h.mem_one)
    · exact (Target.label.inj heq ▸ h.mem_other).elim hother hon
  · rcases h.one.jumps_mem hx hxa with hx | hs
    · exact hone hx
    · exact hon (h.onward_start hs)
  · rcases h.other.jumps_mem hx hxa with hx | hs
    · exact hother hx
    · exact hon (h.onward_start hs)
  · exact hon (h.next.onward_jumps hx hxa)

/-- The arms start at different labels. -/
theorem start_ne (h : Forked ts set a b c first second next after start oneIds otherIds ids) :
    b ≠ c := by
  rintro rfl
  exact h.mem_other.elim (h.one_apart b h.mem_one).1 (h.one_apart b h.mem_one).2

/-- The targets of the choice, in one order or the other. -/
theorem exists_forks (h : Forked ts set a b c first second next after start oneIds otherIds ids) :
    ∃ x y, (x = b ∧ y = c ∨ x = c ∧ y = b) ∧ Forks ts set a x y := by
  have hb := h.mem_set_one b h.mem_one
  have hc := h.mem_other.elim (h.mem_set_other c) h.mem_set_onward
  obtain ⟨condition, hat | hat⟩ := h.chooses
  · exact ⟨b, c, Or.inl ⟨rfl, rfl⟩, ⟨condition, hat⟩, h.start_ne, hb, hc, h.no_jump⟩
  · exact ⟨c, b, Or.inr ⟨rfl, rfl⟩, ⟨condition, hat⟩, h.start_ne.symm, hc, hb, h.no_jump⟩

end Forked

/-! ### The choice of arms -/

namespace Forked

variable {first second next : Program} {oneIds otherIds : List Nat}

/-- The labels of the first arm are those of its program. -/
theorem mem_armLabels_one
    (h : Forked ts set a b c first second next after start oneIds otherIds ids) {x : Nat} :
    x ∈ armLabels ts set a start.label? b ↔ x ∈ oneIds := by
  refine h.one.mem_armLabels h.region h.mem_one h.mem_set_one (fun s hs => hs ▸ rfl) fun hin => ?_
  cases start with
  | label s => exact (h.one_apart s hin).2 (h.onward_start rfl)
  | _ => exact h.entry_apart.1 hin

/-- **A conditional with one arm fits** if paths end behind it. -/
theorem exists_condPlan_one
    (h : Forked ts set a b s first .done next after (.label s) oneIds otherIds ids)
    (hwalk : ∃ walk, EndingWalk (ts.JumpsWithin set) (ts.EndsPaths set) s walk) :
    ∃ plan, (choosePattern ts set a).1 = .cond plan ∧ CondPlanned ts set a plan ∧
      plan.firstArm = b ∧ plan.second.map Prod.fst = none ∧ plan.join = some s := by
  have honward := h.onward_start rfl
  have hs := h.mem_set_onward honward
  have hmust := h.one.mustPass_after h.mem_set_one hs h.mem_one
    (fun hin => (h.one_apart s hin).2 honward) hwalk
  obtain ⟨x, y, hxy, hforks⟩ := h.exists_forks
  obtain ⟨negated, harms⟩ :=
    chooseArms_of_mustPass h.region.lt_length (h.mem_set_one b h.mem_one) hs hmust hxy
  refine hforks.exists_condPlan h.region harms (by simp) ?_ (by simp)
  rintro _ ⟨⟩ x hx arm harm hmem
  obtain rfl := harm.resolve_right (by simp)
  exact (h.one_apart x (h.mem_armLabels_one.mp hmem)).2 (h.next.onward_of_reaches hx)

/-- Paths from an arm need not pass the other one. -/
theorem not_mustPass_other
    (h : Forked ts set a b c first second next after (.label s) oneIds otherIds ids)
    (hc : c ∈ otherIds)
    (hwalk : ∃ walk, EndingWalk (ts.JumpsWithin set) (ts.EndsPaths set) s walk) :
    ¬MustPass (ts.JumpsWithin set) (ts.EndsPaths set) b c := by
  rintro ⟨-, -, hall⟩
  obtain ⟨walk, hwalk⟩ := hwalk
  obtain ⟨longer, hlonger, hmem⟩ :=
    h.one.exists_walk_before h.mem_set_one (h.mem_set_onward (h.onward_start rfl)) hwalk
  rcases hmem c (hall longer hlonger) with hin | hin
  · exact (h.one_apart c hin).1 hc
  · exact h.other_apart c hc (h.next.onward_of_walk hwalk c hin)

/-- **A conditional with two arms fits** if paths end behind it: the label behind it comes
before all others that both arms must get to. -/
theorem exists_condPlan_two
    (h : Forked ts set a b c first second next after (.label s) oneIds otherIds ids)
    (hsecond : second ≠ .done) (hforks : Forks ts set a b c)
    (hwalk : ∃ walk, EndingWalk (ts.JumpsWithin set) (ts.EndsPaths set) s walk) :
    ∃ plan, (choosePattern ts set a).1 = .cond plan ∧ CondPlanned ts set a plan ∧
      plan.firstArm = b ∧ plan.second.map Prod.fst = some c ∧ plan.join = some s := by
  have h' := h.symm hsecond
  have honward := h.onward_start rfl
  have hs := h.mem_set_onward honward
  have hone := h.one.mustPass_after h.mem_set_one hs h.mem_one
    (fun hin => (h.one_apart s hin).2 honward) hwalk
  have hother := h.other.mustPass_after h.mem_set_other hs h'.mem_one
    (fun hin => h.other_apart s hin honward) hwalk
  have harms := chooseArms_of_leads h.region.lt_length hforks.onTrue_mem hforks.onFalse_mem
    (h.not_mustPass_other h'.mem_one hwalk) (h'.not_mustPass_other h.mem_one hwalk) hs hone hother
    fun x hx hx' => by
      by_cases hxs : x = s
      · exact Or.inl hxs
      · refine Or.inr ⟨hxs, hwalk, fun walk hwalk => ?_⟩
        -- the walk can be begun in either arm, and the label is not in both
        obtain ⟨longer, hlonger, hmem⟩ := h.one.exists_walk_before h.mem_set_one hs hwalk
        obtain ⟨longer', hlonger', hmem'⟩ := h'.one.exists_walk_before h'.mem_set_one hs hwalk
        rcases hmem x (hx.2.2 longer hlonger) with hin | hin
        · exact (hmem' x (hx'.2.2 longer' hlonger')).resolve_left (h.one_apart x hin).1
        · exact hin
  refine hforks.exists_condPlan h.region harms ?_ ?_ (by simp)
  · rintro _ ⟨⟩ x hx hx'
    exact (h.one_apart x (h.mem_armLabels_one.mp hx)).1 (h'.mem_armLabels_one.mp hx')
  · rintro _ ⟨⟩ x hx arm (rfl | ⟨⟨⟩⟩) hmem
    · exact (h.one_apart x (h.mem_armLabels_one.mp hmem)).2 (h.next.onward_of_reaches hx)
    · exact h.other_apart x (h'.mem_armLabels_one.mp hmem) (h.next.onward_of_reaches hx)

/-- A walk from an arm behind which nothing is expressed by labels stays in the arm. -/
theorem mem_one_of_mustPass
    (h : Forked ts set a b c first second next after start oneIds otherIds ids)
    (hmarker : start.isMarker = true) {x : Nat}
    (hx : MustPass (ts.JumpsWithin set) (ts.EndsPaths set) b x) : x ∈ oneIds := by
  obtain ⟨-, ⟨walk, hwalk⟩, hall⟩ := hx
  refine hwalk.subset (fun y z hy hyz => ?_) h.mem_one x (hall walk hwalk)
  exact (h.one.jumps_mem hy hyz.2.2).resolve_right (Target.ne_label hmarker z)

/-- **A conditional with two arms fits** if nothing is behind it. -/
theorem exists_condPlan_last
    (h : Forked ts set a b c first second next after start oneIds otherIds ids)
    (hsecond : second ≠ .done) (hforks : Forks ts set a b c) (hmarker : start.isMarker = true) :
    ∃ plan, (choosePattern ts set a).1 = .cond plan ∧ CondPlanned ts set a plan ∧
      plan.firstArm = b ∧ plan.second.map Prod.fst = some c ∧ plan.join = none := by
  have h' := h.symm hsecond
  have hlabel := Target.label?_eq_none_iff.mpr hmarker
  have harms := chooseArms_of_none h.region.lt_length hforks.onTrue_mem hforks.onFalse_mem
    (fun hc => (h.one_apart c (h.mem_one_of_mustPass hmarker hc)).1 h'.mem_one)
    (fun hb => (h'.one_apart b (h'.mem_one_of_mustPass hmarker hb)).1 h.mem_one)
    fun x hx hx' => (h.one_apart x (h.mem_one_of_mustPass hmarker hx)).1
      (h'.mem_one_of_mustPass hmarker hx')
  rw [← hlabel]
  rw [← hlabel] at harms
  refine hforks.exists_condPlan h.region harms ?_ ?_ fun _ x hx hxa => ?_
  · rintro _ ⟨⟩ x hx hx'
    exact (h.one_apart x (h.mem_armLabels_one.mp hx)).1 (h'.mem_armLabels_one.mp hx')
  · rw [hlabel]
    simp
  · rcases ((h.mem_iff x).mp hx).resolve_left hxa with hx | hx | hx
    · exact ⟨b, Or.inl rfl, h.mem_armLabels_one.mpr hx⟩
    · exact ⟨c, Or.inr rfl, h'.mem_armLabels_one.mpr hx⟩
    · obtain ⟨rfl, rfl⟩ := h.next.lowered.eq_done_of_isMarker hmarker
      have hl := h.next.lowered
      cases hl
      exact hx.elim (absurd · List.not_mem_nil) (absurd · (Target.ne_label hmarker x))

/-- A program leads behind it without passing the entry before it. -/
theorem start_mem_armLabels (hr : Region ts set a) (hl : Lowered ts p (.label s) (.label b) ids)
    (hids : ∀ x ∈ ids, x ∈ set ∧ x ≠ a) (hs : s ∈ set) (hsa : s ≠ a) :
    s ∈ armLabels ts set a none b := by
  refine (mem_reachAvoiding hr.lt_length (fun _ h => h) le_rfl).mpr
    ⟨b, List.mem_singleton_self b, ?_, ?_, ?_⟩
  · exact (hl.start_mem rfl).elim (fun hb => (hids b hb).2) fun hb => Target.label.inj hb ▸ hsa
  · exact (hl.start_mem rfl).elim (fun hb => (hids b hb).1) fun hb => Target.label.inj hb ▸ hs
  · refine hl.start_reaches rfl (hl.reaches rfl fun x hx y hxy => ?_) rfl
    rcases hl.jumps_mem hx hxy with hy | hy
    · exact ⟨⟨(hids x hx).1, (hids y hy).1, hxy⟩, (hids y hy).2⟩
    · obtain rfl := Target.label.inj hy
      exact ⟨⟨(hids x hx).1, hs, hxy⟩, hsa⟩

/-- No path from an arm ends if none does behind it. -/
theorem exists_walk_of_arm (hl : Lowered ts p (.label s) (.label b) ids) (hids : ∀ x ∈ ids, x ∈ set)
    (hs : s ∈ set) {walk : List Nat}
    (hwalk : EndingWalk (ts.JumpsWithin set) (ts.EndsPaths set) b walk) :
    ∃ walk, EndingWalk (ts.JumpsWithin set) (ts.EndsPaths set) s walk := by
  rcases hl.start_mem rfl with hb | hb
  · obtain ⟨rest, hrest, -⟩ := hl.mem_of_walk hids hs hb hwalk
    exact ⟨rest, hrest⟩
  · exact ⟨walk, Target.label.inj hb ▸ hwalk⟩

/-- **A conditional with something behind it, where no path ends, needs a dispatch**: both
arms get to the same label, but none of them must. -/
theorem choosePattern_eq_dispatch
    (h : Forked ts set a b c first second next after (.label s) oneIds otherIds ids)
    (hwalk : ¬∃ walk, EndingWalk (ts.JumpsWithin set) (ts.EndsPaths set) s walk) :
    (choosePattern ts set a).1 = .dispatch := by
  have honward := h.onward_start rfl
  have hs := h.mem_set_onward honward
  have hsa : s ≠ a := by
    rintro rfl
    exact h.entry_apart.2.2 honward
  have hb : ∀ x, ¬MustPass (ts.JumpsWithin set) (ts.EndsPaths set) b x := by
    rintro x ⟨-, ⟨walk, hw⟩, -⟩
    exact hwalk (exists_walk_of_arm h.one h.mem_set_one hs hw)
  have hc : ∀ x, ¬MustPass (ts.JumpsWithin set) (ts.EndsPaths set) c x := by
    rintro x ⟨-, ⟨walk, hw⟩, -⟩
    exact hwalk (exists_walk_of_arm h.other h.mem_set_other hs hw)
  have hbs := start_mem_armLabels h.region h.one
    (fun x hx => ⟨h.mem_set_one x hx, fun hxa => h.entry_apart.1 (hxa ▸ hx)⟩) hs hsa
  have hcs := start_mem_armLabels h.region h.other
    (fun x hx => ⟨h.mem_set_other x hx, fun hxa => h.entry_apart.2.1 (hxa ▸ hx)⟩) hs hsa
  obtain ⟨x, y, ⟨rfl, rfl⟩ | ⟨rfl, rfl⟩, hforks⟩ := h.exists_forks
  · exact hforks.choosePattern_of_overlap h.region (chooseArms_of_none h.region.lt_length
      hforks.onTrue_mem hforks.onFalse_mem (hb _) (hc _) fun x hx => absurd hx (hb x)) hbs hcs
  · exact hforks.choosePattern_of_overlap h.region (chooseArms_of_none h.region.lt_length
      hforks.onTrue_mem hforks.onFalse_mem (hc _) (hb _) fun x hx => absurd hx (hc x)) hcs hbs

end Forked

/-! ### The parts of a conditional -/

/-- The arms of a conditional and what is behind it are programs; what follows the arms is
expressed by nesting. -/
structure CondParts (ts : Transfers) (set : LabelSet) (entry : Nat) (plan : CondPlan)
    (first second next : Program) (after : Target) : Prop where
  /-- The pattern is the conditional. -/
  pattern_eq : (choosePattern ts set entry).1 = .cond plan
  /-- The conditional splits the region. -/
  split : CondSplit ts set entry plan
  /-- The first arm. -/
  onFirst : ∃ marker ids, marker.isMarker = true ∧
    ProgramRegion (markCond ts entry plan) plan.firstRegion plan.firstArm first marker ids
  /-- The second arm. -/
  onSecond : ∀ arm region, plan.second = some (arm, region) → ∃ marker ids, marker.isMarker = true ∧
    ProgramRegion (markCond ts entry plan) region arm second marker ids
  /-- Without a second arm there is no second program. -/
  second_eq : plan.second = none → second = .done
  /-- What is behind the join. -/
  onRest : ∀ join, plan.join = some join →
    ∃ ids, ProgramRegion (markCond ts entry plan) plan.rest join next after ids
  /-- Without a join there is nothing behind it. -/
  next_eq : plan.join = none → next = .done

/-- In the arms the jumps to the join are exchanged for markers, and nothing else. -/
theorem at?_markCond {plan : CondPlan} (hs : CondSplit ts set a plan) {x : Nat}
    (hx : x ∈ plan.regions) : (markCond ts a plan).at? x =
      (ts.at? x).map (Transfer.mapTargets (armTarget a plan.join)) := by
  have hne : (x == a) = false := beq_eq_false_iff_ne.mpr fun h => hs.entry_not_mem (h ▸ hx)
  rw [markCond, retargetAt, at?_retarget, hne, if_neg Bool.false_ne_true, at?_retarget,
    if_pos (LabelSet.contains_iff_mem.mpr hx)]

/-- An arm is a program that a marker follows. -/
theorem programRegion_arm {plan : CondPlan} (hs : CondSplit ts set a plan) {part : LabelSet}
    (hr : Region (markCond ts a plan) part b) (hl : Lowered ts p start (.label b) ids)
    (hnodup : ids.Nodup) (hmem : ∀ x, x ∈ part ↔ x ∈ ids) (hsub : ∀ x ∈ part, x ∈ plan.regions)
    (hjoin : plan.join = start.label?) : ∃ marker ids, marker.isMarker = true ∧
      ProgramRegion (markCond ts a plan) part b p marker ids := by
  have hkept : ∀ x ∈ ids, armTarget a plan.join (.label x) = .label x := by
    intro x hx
    rw [armTarget, if_neg]
    intro hxj
    have hrest := hs.join_mem x hxj.symm
    exact ((hs.mem_rest x).mp hrest).2.2 (hsub x ((hmem x).mpr hx))
  have hmarker : (armTarget a plan.join start).isMarker = true := by
    rw [hjoin]
    cases start with
    | label s =>
      rw [Target.label?, armTarget, if_pos rfl]
      rfl
    | _ => rfl
  have hnot := Target.ne_label hmarker
  have hlowered := hl.map (fun x hx => at?_markCond hs (hsub x ((hmem x).mpr hx))) hkept
  rw [hkept b ((hmem b).mp hr.entry_mem)] at hlowered
  exact ⟨_, ids, hmarker, hr, ⟨hlowered, hnodup, fun x _ => hnot x, fun k hk => absurd hk (hnot k)⟩,
    fun x => (hmem x).trans (or_iff_left (hnot x)).symm⟩

/-- The arms that a choice between two programs makes are these programs. -/
theorem Forked.condParts {first second next : Program} {oneIds otherIds : List Nat}
    (h : Forked ts set a b c first second next after start oneIds otherIds ids) {plan : CondPlan}
    (hpattern : (choosePattern ts set a).1 = .cond plan) (hp : CondPlanned ts set a plan)
    (hfirst : plan.firstArm = b) (hsecond : plan.second.map Prod.fst = none ∧ second = .done ∨
      plan.second.map Prod.fst = some c ∧ second ≠ .done)
    (hjoin : plan.join = start.label?) : CondParts ts set a plan first second next after := by
  have hr := h.region
  have hs := hp.condSplit hr
  have hone : ∀ x, x ∈ plan.firstRegion ↔ x ∈ oneIds := by
    intro x
    rw [hp.firstRegion_eq, hfirst, hjoin]
    exact h.mem_armLabels_one
  have hother : ∀ arm region, plan.second = some (arm, region) →
      arm = c ∧ ∀ x, x ∈ region ↔ x ∈ otherIds := by
    intro arm region hsec
    rw [hsec, Option.map_some] at hsecond
    obtain ⟨⟨⟩, hne⟩ := hsecond.resolve_left fun h => absurd h.1 (by simp)
    refine ⟨rfl, fun x => ?_⟩
    rw [hp.second_eq _ _ hsec, hjoin]
    exact (h.symm hne).mem_armLabels_one
  have hregions : ∀ x, x ∈ plan.regions ↔ x ∈ oneIds ∨ x ∈ otherIds := by
    intro x
    rw [hs.mem_regions, hone]
    refine or_congr_right ⟨fun ⟨arm, region, hsec, hx⟩ => ((hother _ _ hsec).2 x).mp hx,
      fun hx => ?_⟩
    rcases hsecond with ⟨-, rfl⟩ | ⟨hsome, -⟩
    · have hl := h.other
      cases hl
      exact absurd hx List.not_mem_nil
    · obtain ⟨⟨_, region⟩, hsec, rfl⟩ := Option.map_eq_some_iff.mp hsome
      exact ⟨_, region, hsec, ((hother _ _ hsec).2 x).mpr hx⟩
  have honward : ∀ x, Onward ids after x ↔ x ∈ set ∧ x ≠ a ∧ x ∉ plan.regions := by
    intro x
    rw [h.mem_iff, hregions]
    constructor
    · intro hx
      refine ⟨Or.inr (Or.inr (Or.inr hx)), ?_, fun hin => ?_⟩
      · rintro rfl
        exact h.entry_apart.2.2 hx
      · exact hin.elim (fun hin => (h.one_apart x hin).2 hx) fun hin => h.other_apart x hin hx
    · rintro ⟨hx, hne, hnot⟩
      exact ((hx.resolve_left hne).resolve_left fun h => hnot (Or.inl h)).resolve_left
        fun h => hnot (Or.inr h)
  refine
    { pattern_eq := hpattern
      split := hs
      onFirst := programRegion_arm hs (hs.region_first hr) (hfirst ▸ h.one) h.nodup_one hone
        (fun x hx => (hs.mem_regions x).mpr (Or.inl hx)) hjoin
      onSecond := fun arm region hsec => ?_
      second_eq := fun hnone => ?_
      onRest := fun join hj => ?_
      next_eq := fun hnone => ?_ }
  · obtain ⟨rfl, hmem⟩ := hother arm region hsec
    exact programRegion_arm hs (hs.region_second hr hsec) h.other h.nodup_other hmem
      (fun x hx => hs.mem_regions_second hsec hx) hjoin
  · rw [hnone] at hsecond
    exact (hsecond.resolve_right fun h => absurd h.1 (by simp)).2
  · obtain rfl := Target.label?_eq_some_iff.mp (hjoin.symm.trans hj)
    refine ⟨ids, hs.region_rest hr hj, h.next.congr fun x hx => ?_, fun x => ?_⟩
    · obtain ⟨-, hne, hnot⟩ := (honward x).mp hx
      exact (marks_markCond ts a plan).at?_eq x (not_or.mpr ⟨hne, hnot⟩)
    · rw [hs.mem_rest, honward]
  · have hmarker := Target.label?_eq_none_iff.mp (hjoin.symm.trans hnone)
    exact (h.next.lowered.eq_done_of_isMarker hmarker).1

/-- A choice between two arms makes a conditional if nothing follows or paths end behind it. -/
theorem Forked.exists_condParts {first second next : Program} {oneIds otherIds : List Nat}
    (h : Forked ts set a b c first second next after start oneIds otherIds ids)
    (hsecond : second ≠ .done) (hforks : Forks ts set a b c)
    (hjoins : next.canJoin (!after.isMarker) = true) :
    ∃ plan, CondParts ts set a plan first second next after := by
  by_cases hmarker : start.isMarker = true
  · obtain ⟨plan, hpattern, hp, hfirst, hsec, hjoin⟩ :=
      h.exists_condPlan_last hsecond hforks hmarker
    exact ⟨plan, h.condParts hpattern hp hfirst (Or.inr ⟨hsec, hsecond⟩)
      (hjoin.trans (Target.label?_eq_none_iff.mpr hmarker).symm)⟩
  · obtain ⟨s, rfl⟩ := Target.exists_eq_label hmarker
    have hwalk := (h.next.exists_walk_iff fun x => h.mem_set_onward).mpr hjoins
    obtain ⟨plan, hpattern, hp, hfirst, hsec, hjoin⟩ := h.exists_condPlan_two hsecond hforks hwalk
    exact ⟨plan, h.condParts hpattern hp hfirst (Or.inr ⟨hsec, hsecond⟩) hjoin⟩

/-- A conditional without a second arm: its body is behind its label if nothing follows, it
is a conditional if paths end behind it, and else a dispatch. -/
theorem ProgramRegion.ifThen {body next : Program}
    (h : ProgramRegion ts set a (.ifThen body next) after ids) :
    (next = .done ∧ after.isMarker = true ∧ ∃ b ids,
        choosePattern ts set a = (.simple (some b), []) ∧
        ProgramRegion (fallInto ts a (some b)) (set.erase a) b body after ids) ∨
      (next.canJoin (!after.isMarker) = true ∧
        ∃ plan, CondParts ts set a plan body .done next after) ∨
      (next.canJoin (!after.isMarker) = false ∧ (choosePattern ts set a).1 = .dispatch) := by
  obtain ⟨hr, ⟨hl, hnodup, hne, hreturns⟩, hmem⟩ := h
  cases hl with
  | @ifThen _ _ _ start arm ids armIds _ hnext hbody harm hchooses =>
    obtain ⟨b, hb, rfl⟩ := harm.exists_start hbody
    simp only [List.forall_mem_cons, List.forall_mem_append] at hne
    rw [List.nodup_cons, List.mem_append, not_or, List.nodup_append'] at hnodup
    obtain ⟨⟨haArm, haIds⟩, hnodupArm, hnodupIds, hdisjoint⟩ := hnodup
    by_cases hmarker : start.isMarker = true
    · obtain ⟨rfl, rfl⟩ := hnext.eq_done_of_isMarker hmarker
      have hnot := Target.ne_label hmarker
      have htail : Concludes ts body start (.label b) armIds :=
        ⟨harm, hnodupArm, hne.2.1, hreturns⟩
      cases hnext
      refine Or.inl ⟨rfl, hmarker, b, armIds, programRegion_next hr htail (fun x => ?_) ?_ ?_⟩
      · rw [hmem, List.append_nil, Onward, List.mem_cons, or_assoc, Onward]
      · exact fun h => h.elim haArm (hnot a)
      · intro x _
        rw [Jumps, hchooses.mem_targets, Target.label.injEq]
        exact or_iff_left fun h => hnot x h.symm
    · obtain ⟨s, rfl⟩ := Target.exists_eq_label hmarker
      have hfork : Forked ts set a b s body .done next after (.label s) armIds [] ids :=
        { region := hr
          chooses := hchooses
          first_ne := hbody
          one := harm
          other := .done _
          next := ⟨hnext, hnodupIds, hne.2.2, hreturns⟩
          nodup_one := hnodupArm
          nodup_other := List.nodup_nil
          mem_iff := fun x => by
            rw [hmem]
            simp [Onward, or_assoc]
          entry_apart := ⟨haArm, List.not_mem_nil, fun h => h.elim haIds hne.1⟩
          one_apart := fun x hx => ⟨List.not_mem_nil, fun h => h.elim (hdisjoint hx) (hne.2.1 x hx)⟩
          other_apart := fun x hx => absurd hx List.not_mem_nil }
      have hwalks : (∃ walk, EndingWalk (ts.JumpsWithin set) (ts.EndsPaths set) s walk) ↔ _ :=
        hfork.next.exists_walk_iff fun x => hfork.mem_set_onward
      by_cases hjoins : next.canJoin (!after.isMarker) = true
      · obtain ⟨plan, hpattern, hp, hfirst, hsecond, hjoin⟩ :=
          hfork.exists_condPlan_one (hwalks.mpr hjoins)
        exact Or.inr (Or.inl ⟨hjoins, plan,
          hfork.condParts hpattern hp hfirst (Or.inl ⟨hsecond, rfl⟩) hjoin⟩)
      · exact Or.inr (Or.inr ⟨Bool.eq_false_iff.mpr hjoins,
          hfork.choosePattern_eq_dispatch (hwalks.not.mpr hjoins)⟩)

/-- A conditional with two arms is one if nothing follows or paths end behind it, and else
a dispatch. -/
theorem ProgramRegion.ifThenElse {first second next : Program}
    (h : ProgramRegion ts set a (.ifThenElse first second next) after ids) :
    (next.canJoin (!after.isMarker) = true ∧
        ∃ plan, CondParts ts set a plan first second next after ∨
          CondParts ts set a plan second first next after) ∨
      (next.canJoin (!after.isMarker) = false ∧ (choosePattern ts set a).1 = .dispatch) := by
  obtain ⟨hr, ⟨hl, hnodup, hne, hreturns⟩, hmem⟩ := h
  cases hl with
  | @ifThenElse _ _ _ _ start one other ids oneIds otherIds _ hnext hfirst hone hsecond hother
      hchooses =>
    obtain ⟨b, hb, rfl⟩ := hone.exists_start hfirst
    obtain ⟨c, hc, rfl⟩ := hother.exists_start hsecond
    simp only [List.forall_mem_cons, List.forall_mem_append] at hne
    simp only [List.nodup_cons, List.mem_append, not_or, List.nodup_append',
      List.disjoint_append_left] at hnodup
    obtain ⟨⟨⟨haOne, haOther⟩, haIds⟩, ⟨hnodupOne, hnodupOther, hapart⟩, hnodupIds, hdisjointOne,
      hdisjointOther⟩ := hnodup
    have hfork : Forked ts set a b c first second next after start oneIds otherIds ids :=
      { region := hr
        chooses := hchooses
        first_ne := hfirst
        one := hone
        other := hother
        next := ⟨hnext, hnodupIds, hne.2.2, hreturns⟩
        nodup_one := hnodupOne
        nodup_other := hnodupOther
        mem_iff := fun x => by
          rw [hmem]
          simp [Onward, or_assoc]
        entry_apart := ⟨haOne, haOther, fun h => h.elim haIds hne.1⟩
        one_apart := fun x hx => ⟨hapart hx, fun h => h.elim (hdisjointOne hx) (hne.2.1.1 x hx)⟩
        other_apart := fun x hx h => h.elim (hdisjointOther hx) (hne.2.1.2 x hx) }
    by_cases hjoins : next.canJoin (!after.isMarker) = true
    · refine Or.inl ⟨hjoins, ?_⟩
      obtain ⟨x, y, ⟨rfl, rfl⟩ | ⟨rfl, rfl⟩, hforks⟩ := hfork.exists_forks
      · exact (hfork.exists_condParts hsecond hforks hjoins).imp fun _ => Or.inl
      · exact ((hfork.symm hsecond).exists_condParts hfirst hforks hjoins).imp fun _ => Or.inr
    · refine Or.inr ⟨Bool.eq_false_iff.mpr hjoins, ?_⟩
      obtain ⟨hdone, -⟩ := not_or.mp (Program.canJoin_iff.not.mp hjoins)
      obtain ⟨s, -, rfl⟩ := hnext.exists_start hdone
      exact hfork.choosePattern_eq_dispatch
        ((hfork.next.exists_walk_iff fun x => hfork.mem_set_onward).not.mpr hjoins)

end StructuredFlow
