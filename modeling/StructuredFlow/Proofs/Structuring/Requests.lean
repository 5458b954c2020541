/-
# The calls that structuring a region makes

To structure a region is to call structuring for its parts.  What a call asks for is found
by a run in which a further call is only noted down (`asked`); all calls of an outcome are
those asked for, with all that each of them causes (`traces_structureBy`).

| part | asked for with |
| --- | --- |
| what follows a block, the rest of a loop body, an arm | labels of the region without its entry |
| the entry of a loop or of a conditional | the entry alone, which has no edges left |

No two parts share a label, and each is a region (`asks_structureBy`).
-/

import StructuredFlow.Proofs.Structuring.Builds

namespace StructuredFlow
namespace Structuring

open Transfers

/-- A region that structuring is called for. -/
structure Call where
  /-- Its labels. -/
  set : LabelSet
  /-- Its entry. -/
  entry : Nat
  /-- The table at that moment. -/
  transfers : Transfers

/-- The call that is reported, if a region is taken up. -/
def Event.call? (event : Event) : Option Call :=
  event.region?.map fun region => ⟨region.1, region.2.1, region.2.2⟩

/-- The calls that are reported, in order. -/
def calls (events : List Event) : List Call := events.filterMap Event.call?

/-- What is made of a region, with nothing reported but the call for it. -/
def asked (build : Transfers → LabelSet → Nat → Outcome) (ts : Transfers) (set : LabelSet)
    (entry : Nat) : Outcome :=
  { build ts set entry with events := [.region set entry ts] }

section Asked

variable (build : Transfers → LabelSet → Nat → Outcome) (ts : Transfers) (set : LabelSet)
  (entry : Nat)

/-- Asking does not change the tree. -/
@[simp] theorem tree_asked : (asked build ts set entry).tree = (build ts set entry).tree := rfl

/-- Asking does not change the transfers. -/
@[simp] theorem transfers_asked :
    (asked build ts set entry).transfers = (build ts set entry).transfers := rfl

end Asked

namespace Call

/-- A call for labels of another without its entry. -/
def Without (c r : Call) : Prop := ∀ a ∈ r.set, a ∈ c.set ∧ a ≠ c.entry

/-- A call for the entry of another on its own, which has no edges left. -/
structure EntryAlone (c r : Call) : Prop where
  /-- It begins at the entry. -/
  entry_eq : r.entry = c.entry
  /-- It holds nothing else. -/
  mem_set : ∀ a, a ∈ r.set ↔ a = c.entry
  /-- The entry jumps to no label. -/
  realTargets_eq : r.transfers.realTargets c.entry = []

/-- Two calls that share no label. -/
def Apart (c c' : Call) : Prop := ∀ a ∈ c.set, a ∉ c'.set

/-- The call is for a region. -/
def IsRegion (c : Call) : Prop := Region c.transfers c.set c.entry

end Call

open Call

/-! ### The calls of an outcome -/

section Calls

variable {ts : Transfers} {entry : Nat} {events events' : List Event}

/-- Calls are listed in the order of the events. -/
@[simp] theorem calls_append : calls (events ++ events') = calls events ++ calls events' :=
  List.filterMap_append

/-- A region that is taken up is a call. -/
@[simp] theorem calls_region (set : LabelSet) (entry : Nat) (ts : Transfers)
    (events : List Event) :
    calls (.region set entry ts :: events) = ⟨set, entry, ts⟩ :: calls events := rfl

/-- Where no region is taken up nothing is called for. -/
theorem calls_eq_nil (h : ∀ event ∈ events, event.region? = none) : calls events = [] := by
  refine List.filterMap_eq_nil_iff.mpr fun event he => ?_
  rw [Event.call?, h event he, Option.map_none]

/-- A simple entry calls for what follows it. -/
@[simp] theorem calls_simpleOutcome (next : Option Nat) (rest : Outcome) :
    calls (simpleOutcome entry next rest).events = calls rest.events := rfl

/-- A loop calls for its parts and for what follows it. -/
@[simp] theorem calls_loopOutcome (plan : LoopPlan) (inc body rest : Outcome) :
    calls (loopOutcome entry plan inc body rest).events =
      calls inc.events ++ calls body.events ++ calls rest.events := by
  simp only [loopOutcome, ← calls_append]
  rfl

/-- A conditional calls for its check, its arms and what follows them. -/
@[simp] theorem calls_condOutcome (plan : CondPlan) (breaking : Bool)
    (check first second rest : Outcome) :
    calls (condOutcome entry plan breaking check first second rest).events =
      calls check.events ++ calls first.events ++ calls second.events ++ calls rest.events := by
  simp only [condOutcome, calls_append]
  exact congrArg (· ++ calls rest.events) (List.append_nil _)

end Calls

/-- An outcome beside one of which only the calls asked for are reported. -/
structure Traces (build : Transfers → LabelSet → Nat → Outcome) (outcome asking : Outcome) :
    Prop where
  /-- They are the same blocks. -/
  tree_eq : asking.tree = outcome.tree
  /-- They leave the same table. -/
  transfers_eq : asking.transfers = outcome.transfers
  /-- All calls are those asked for, with what each of them causes. -/
  calls_eq : calls outcome.events =
    (calls asking.events).flatMap fun c => calls (build c.transfers c.set c.entry).events

section Traces

variable {build : Transfers → LabelSet → Nat → Outcome}

/-- What is built traces the call for it. -/
theorem traces_asked (ts : Transfers) (set : LabelSet) (entry : Nat) :
    Traces build (build ts set entry) (asked build ts set entry) where
  tree_eq := rfl
  transfers_eq := rfl
  calls_eq := by
    rw [asked, calls_region, List.flatMap_cons]
    exact (List.append_nil _).symm

/-- What calls for nothing traces itself. -/
theorem traces_of_nil {outcome : Outcome} (h : calls outcome.events = []) :
    Traces build outcome outcome := ⟨rfl, rfl, by rw [h]; rfl⟩

/-- To go on with a request traces the call for it. -/
theorem traces_follow (ts : Transfers) (request : Option (LabelSet × Nat)) :
    Traces build (follow build ts request) (follow (asked build) ts request) := by
  cases request with
  | none => exact traces_of_nil rfl
  | some request =>
    rw [follow, follow]
    split
    · exact traces_asked _ _ _
    · exact traces_of_nil rfl

/-- A second arm traces the call for it. -/
theorem traces_secondArm (ts : Transfers) (second : Option (Nat × LabelSet)) :
    Traces build (secondArm build ts second) (secondArm (asked build) ts second) := by
  cases second with
  | none => exact traces_of_nil rfl
  | some second => exact traces_asked _ _ _

/-- The parts of a body trace the calls for them. -/
theorem traces_loopParts (ts : Transfers) (body : LabelSet) (entry : Nat) :
    Traces build (loopParts build ts body entry).1 (loopParts (asked build) ts body entry).1 ∧
      Traces build (loopParts build ts body entry).2 (loopParts (asked build) ts body entry).2 := by
  unfold loopParts
  cases ts.realTargets entry with
  | nil => exact ⟨traces_asked _ _ _, traces_of_nil rfl⟩
  | cons next others =>
    cases others with
    | nil =>
      refine ⟨traces_asked _ _ _, ?_⟩
      dsimp only
      split
      · exact traces_asked _ _ _
      · exact traces_of_nil rfl
    | cons next' others => exact ⟨traces_of_nil rfl, traces_of_nil rfl⟩

variable {inc inc' body body' check check' first first' second second' rest rest' : Outcome}

/-- A loop traces the calls of its parts. -/
theorem traces_loopOutcome (entry : Nat) (plan : LoopPlan) (hinc : Traces build inc inc')
    (hbody : Traces build body body') (hrest : Traces build rest rest') :
    Traces build (loopOutcome entry plan inc body rest)
      (loopOutcome entry plan inc' body' rest') where
  tree_eq := by
    rw [tree_loopOutcome, tree_loopOutcome, hinc.tree_eq, hbody.tree_eq, hrest.tree_eq]
  transfers_eq := hrest.transfers_eq
  calls_eq := by
    simp only [calls_loopOutcome, List.flatMap_append, hinc.calls_eq, hbody.calls_eq,
      hrest.calls_eq]

/-- Structuring a loop traces the calls that it makes. -/
theorem traces_structureLoop (ts : Transfers) (entry : Nat) (plan : LoopPlan) :
    Traces build (structureLoop build ts entry plan)
      (structureLoop (asked build) ts entry plan) := by
  obtain ⟨hinc, hbody⟩ : Traces build _ _ ∧ Traces build _ _ :=
    traces_loopParts (markLoop ts entry plan) plan.body entry
  unfold structureLoop
  dsimp only
  rw [hbody.transfers_eq, hinc.tree_eq, hbody.tree_eq]
  exact traces_loopOutcome entry plan hinc hbody (traces_follow _ _)

/-- A conditional traces the calls of its parts. -/
theorem traces_condOutcome (entry : Nat) (plan : CondPlan) (breaking : Bool)
    (hcheck : Traces build check check') (hfirst : Traces build first first')
    (hsecond : Traces build second second') (hrest : Traces build rest rest') :
    Traces build (condOutcome entry plan breaking check first second rest)
      (condOutcome entry plan breaking check' first' second' rest') where
  tree_eq := by
    rw [tree_condOutcome, tree_condOutcome, hcheck.tree_eq, hfirst.tree_eq, hsecond.tree_eq,
      hrest.tree_eq]
  transfers_eq := hrest.transfers_eq
  calls_eq := by
    simp only [calls_condOutcome, List.flatMap_append, hcheck.calls_eq, hfirst.calls_eq,
      hsecond.calls_eq, hrest.calls_eq]

/-- Structuring a conditional traces the calls that it makes. -/
theorem traces_structureCond (ts : Transfers) (entry : Nat) (plan : CondPlan) :
    Traces build (structureCond build ts entry plan)
      (structureCond (asked build) ts entry plan) := by
  have hsecond : Traces build _ _ := traces_secondArm (build (build (markCond ts entry plan)
    (.single ts.length entry) entry).transfers plan.firstRegion plan.firstArm).transfers plan.second
  unfold structureCond
  simp only [transfers_asked, tree_asked]
  rw [hsecond.transfers_eq, hsecond.tree_eq]
  exact traces_condOutcome entry plan _ (traces_asked _ _ _) (traces_asked _ _ _) hsecond
    (traces_follow _ _)

/-- **What is structured by a pattern causes the calls asked for**, and all that they cause. -/
theorem traces_structureBy (ts : Transfers) (set : LabelSet) (entry : Nat) (pattern : Pattern) :
    Traces build (structureBy build ts set entry pattern)
      (structureBy (asked build) ts set entry pattern) := by
  cases pattern with
  | simple next =>
    have hrest : Traces build _ _ := traces_follow (fallInto ts entry next)
      (next.map fun next => (set.erase entry, next))
    refine ⟨?_, hrest.transfers_eq, hrest.calls_eq⟩
    exact congrArg (BlockTree.leaf .simple entry [entry]) hrest.tree_eq
  | loop plan => exact traces_structureLoop ts entry plan
  | cond plan => exact traces_structureCond ts entry plan
  | dispatch => exact traces_of_nil rfl

end Traces

/-! ### What a call asks for -/

/-- The call for what follows, if anything does. -/
def callsFor (ts : Transfers) (request : Option (LabelSet × Nat)) : List Call :=
  request.toList.map fun region => ⟨region.1, region.2, ts⟩

/-- The call for a request is one for its labels. -/
theorem mem_callsFor {ts : Transfers} {request : Option (LabelSet × Nat)} {r : Call}
    (h : r ∈ callsFor ts request) : ∀ a, a ∈ r.set ↔ InRequest request a := by
  obtain ⟨region, hregion, rfl⟩ := List.mem_map.mp h
  rw [Option.mem_toList] at hregion
  obtain rfl := hregion
  exact fun a => Iff.rfl

/-- The calls that a call may ask for. -/
structure Asks (c : Call) (rs : List Call) : Prop where
  /-- They are for regions. -/
  region : ∀ r ∈ rs, r.IsRegion
  /-- Each is without the entry, or for the entry alone. -/
  parts : ∀ r ∈ rs, c.Without r ∨ c.EntryAlone r
  /-- No two of them share a label. -/
  apart : rs.Pairwise Apart

namespace Asks

variable {c : Call} {rs rs' : List Call}

/-- To ask for nothing is allowed. -/
theorem nil (c : Call) : Asks c [] :=
  ⟨fun _ h => absurd h List.not_mem_nil, fun _ h => absurd h List.not_mem_nil, .nil⟩

/-- One call may be made without the entry, or for the entry alone. -/
theorem singleton {r : Call} (hr : r.IsRegion) (h : c.Without r ∨ c.EntryAlone r) : Asks c [r] where
  region _ hmem := List.mem_singleton.mp hmem ▸ hr
  parts _ hmem := List.mem_singleton.mp hmem ▸ h
  apart := List.pairwise_singleton _ _

/-- Calls that are apart may be made together. -/
theorem append (h : Asks c rs) (h' : Asks c rs')
    (hapart : ∀ r ∈ rs, ∀ r' ∈ rs', Apart r r') : Asks c (rs ++ rs') where
  region r hr := (List.mem_append.mp hr).elim (h.region r) (h'.region r)
  parts r hr := (List.mem_append.mp hr).elim (h.parts r) (h'.parts r)
  apart := List.pairwise_append.mpr ⟨h.apart, h'.apart, hapart⟩

/-- The call for what does not hold the entry may be made. -/
theorem callsFor {ts : Transfers} {request : Option (LabelSet × Nat)}
    (hr : ∀ set entry, request = some (set, entry) → Region ts set entry)
    (hsub : ∀ a, InRequest request a → a ∈ c.set ∧ a ≠ c.entry) :
    Asks c (callsFor ts request) := by
  cases request with
  | none => exact nil c
  | some region => exact singleton (hr _ _ rfl) (Or.inl hsub)

end Asks

section Requests

variable {build : Transfers → LabelSet → Nat → Outcome} {ts : Transfers} {set : LabelSet}
  {entry : Nat}

/-- To go on with a request calls for it and nothing else. -/
theorem calls_follow_asked {request : Option (LabelSet × Nat)}
    (h : ∀ set entry, request = some (set, entry) → Region ts set entry) :
    calls (follow (asked build) ts request).events = callsFor ts request := by
  cases request with
  | none => rfl
  | some request =>
    have hmem := (h _ _ rfl).entry_mem
    rw [follow, if_pos (LabelSet.contains_iff_mem.mpr hmem)]
    rfl

/-- The second arm is called for, if there is one. -/
theorem calls_secondArm_asked (second : Option (Nat × LabelSet)) :
    calls (secondArm (asked build) ts second).events =
      callsFor ts (second.map fun arm => (arm.2, arm.1)) := by
  cases second <;> rfl

/-- The entry on its own, left without jumps to labels of the region. -/
theorem asks_entry {c : Call} {ts' : Transfers}
    (hr : Region ts' (.single ts.length c.entry) c.entry)
    (hno : ∀ b, ¬ts'.Jumps c.entry b) : Asks c [⟨.single ts.length c.entry, c.entry, ts'⟩] := by
  refine Asks.singleton hr (Or.inr ⟨rfl, fun a => ?_, ?_⟩)
  · exact LabelSet.mem_single.trans (and_iff_left (LabelSet.mem_single.mp hr.entry_mem).2)
  · exact List.eq_nil_iff_forall_not_mem.mpr fun b hb => hno b (mem_realTargets.mp hb)

/-- A simple entry asks for what follows it. -/
theorem asks_structureSimple (hr : Region ts set entry) {next : Option Nat}
    (hs : SimpleSplit ts set entry next) :
    Asks ⟨set, entry, ts⟩ (calls (structureSimple (asked build) ts set entry next).events) := by
  have hregion : ∀ rest start, next.map (fun next => (set.erase entry, next)) = some (rest, start) →
      Region (fallInto ts entry next) rest start := fun _ _ h => hs.region_tail hr (Or.inl rfl) h
  rw [structureSimple, calls_simpleOutcome, calls_follow_asked hregion]
  refine Asks.callsFor hregion fun a ha => ⟨(hs.mem_request hr a).mpr (Or.inr ha), ?_⟩
  rintro rfl
  exact not_inRequest_erase _ ha

/-- The entry of a loop body and the rest of it. -/
theorem asks_loopParts (hb : Builder build) {c : Call} (hentry : c.entry = entry)
    (hset : ∀ a ∈ set, a ∈ c.set) (hr : Region ts set entry) (hno : ∀ a ∈ set, ¬ts.Jumps a entry) :
    let parts := loopParts (asked build) ts set entry
    Asks c (calls parts.1.events ++ calls parts.2.events) ∧
      ∀ r ∈ calls parts.1.events ++ calls parts.2.events, ∀ a ∈ r.set, a ∈ set := by
  subst hentry
  rcases loopParts_cases hr hno with ⟨next, target, hs, hjumps, htarget, heq⟩ | ⟨count, heq⟩
  · have hinc := makesLeaf_fallInto hb hr hs htarget
    have hregion : ∀ rest start,
        next.map (fun next => (set.erase c.entry, next)) = some (rest, start) →
          Region (fallInto ts c.entry target) rest start := fun _ _ h => hs.region_tail hr htarget h
    have hrest : ∀ a, InRequest (next.map fun next => (set.erase c.entry, next)) a →
        a ∈ set ∧ a ≠ c.entry := fun a ha =>
      ⟨(hs.mem_request hr a).mpr (Or.inr ha), fun h => not_inRequest_erase next (h ▸ ha)⟩
    have hcalls : calls (loopParts (asked build) ts set c.entry).1.events ++
        calls (loopParts (asked build) ts set c.entry).2.events =
          [⟨.single ts.length c.entry, c.entry, fallInto ts c.entry target⟩] ++
            callsFor (fallInto ts c.entry target)
              (next.map fun next => (set.erase c.entry, next)) := by
      rw [heq _ ts set rfl fun _ => Iff.rfl]
      dsimp only
      rw [transfers_asked, hinc.transfers_eq, calls_follow_asked hregion]
      rfl
    dsimp only
    rw [hcalls]
    constructor
    · refine (asks_entry hinc.region fun b hb => ?_).append (Asks.callsFor hregion fun a ha =>
        (hrest a ha).imp_left (hset a)) fun r hmem r' hmem' a ha ha' => ?_
      · obtain ⟨hb, hkept⟩ := jumps_fallInto.mp hb
        exact hkept rfl ((hjumps b).mp hb)
      · obtain rfl := List.mem_singleton.mp hmem
        exact (hrest a ((mem_callsFor hmem' a).mp ha')).2 (LabelSet.mem_single.mp ha).1
    · intro r hmem a ha
      rcases List.mem_append.mp hmem with hmem | hmem
      · obtain rfl := List.mem_singleton.mp hmem
        exact (LabelSet.mem_single.mp ha).1 ▸ hr.entry_mem
      · exact (hrest a ((mem_callsFor hmem a).mp ha)).1
  · have hcalls : calls (loopParts (asked build) ts set c.entry).1.events ++
        calls (loopParts (asked build) ts set c.entry).2.events = [] := by
      rw [heq _ ts set rfl]
      rfl
    dsimp only
    rw [hcalls]
    exact ⟨Asks.nil c, fun r hmem => absurd hmem List.not_mem_nil⟩

/-- **A loop asks for its parts and for what follows it.** -/
theorem asks_structureLoop (hb : Builder build) (hr : Region ts set entry) {plan : LoopPlan}
    (hs : LoopSplit ts set entry plan) :
    Asks ⟨set, entry, ts⟩ (calls (structureLoop (asked build) ts entry plan).events) := by
  obtain ⟨hinc, hbody⟩ : Traces build _ _ ∧ Traces build _ _ :=
    traces_loopParts (markLoop ts entry plan) plan.body entry
  have hregion : ∀ after start, plan.pivot.map (fun pivot => (plan.after, pivot)) =
      some (after, start) → Region _ after start := fun _ _ h => region_behind_loop hb hr hs h
  obtain ⟨hparts, hmem⟩ := asks_loopParts (c := ⟨set, entry, ts⟩) hb rfl
    (fun a ha => hs.mem_of_mem_body ha) (hs.region_body hr) fun a ha => LoopSplit.not_jumps_entry ha
  unfold structureLoop
  dsimp only
  rw [hbody.transfers_eq, hinc.tree_eq, hbody.tree_eq, calls_loopOutcome,
    calls_follow_asked hregion]
  refine hparts.append (Asks.callsFor hregion fun a ha => ?_) fun r hr r' hr' a ha ha' => ?_
  · refine ⟨(hs.mem_request a).mpr (Or.inr ha), ?_⟩
    rintro rfl
    exact hs.not_inRequest hs.entry_mem ha
  · exact hs.not_inRequest (hmem r hr a ha) ((mem_callsFor hr' a).mp ha')

/-- The entry of a conditional, its arms and what is behind it, in tables in which they are
regions. -/
theorem asks_condParts (hr : Region ts set entry) {plan : CondPlan}
    (hs : CondSplit ts set entry plan) {ts₁ ts₂ ts₃ : Transfers}
    (hfirst : Region ts₁ plan.firstRegion plan.firstArm)
    (hsecond : ∀ region arm,
      plan.second.map (fun arm => (arm.2, arm.1)) = some (region, arm) → Region ts₂ region arm)
    (hrest : ∀ rest start,
      plan.join.map (fun join => (plan.rest, join)) = some (rest, start) → Region ts₃ rest start) :
    Asks ⟨set, entry, ts⟩ ([⟨.single ts.length entry, entry, markCond ts entry plan⟩] ++
      [⟨plan.firstRegion, plan.firstArm, ts₁⟩] ++
      callsFor ts₂ (plan.second.map fun arm => (arm.2, arm.1)) ++
      callsFor ts₃ (plan.join.map fun join => (plan.rest, join))) := by
  have hregions := hs.mem_request_regions
  have hmem : ∀ a ∈ plan.regions, a ∈ set ∧ a ≠ entry := fun a ha =>
    ⟨hs.mem_of_mem_regions ha, fun h => hs.entry_not_mem (h ▸ ha)⟩
  have hentry : ∀ a ∈ LabelSet.single ts.length entry, a = entry := fun a ha =>
    (LabelSet.mem_single.mp ha).1
  have hcheck : Asks ⟨set, entry, ts⟩ [⟨.single ts.length entry, entry, markCond ts entry plan⟩] :=
    asks_entry (c := ⟨set, entry, ts⟩) (hs.region_entry hr) fun _ => hs.not_jumps_of_entry
  have hone : Asks ⟨set, entry, ts⟩ [⟨plan.firstRegion, plan.firstArm, ts₁⟩] :=
    Asks.singleton hfirst (Or.inl fun a ha => hmem a ((hregions a).mpr (Or.inl ha)))
  have htwo : Asks ⟨set, entry, ts⟩ (callsFor ts₂ (plan.second.map fun arm => (arm.2, arm.1))) :=
    Asks.callsFor hsecond fun a ha => hmem a ((hregions a).mpr (Or.inr ha))
  have hbehind : Asks ⟨set, entry, ts⟩
      (callsFor ts₃ (plan.join.map fun join => (plan.rest, join))) :=
    Asks.callsFor hrest fun a ha => ⟨(hs.mem_request hr a).mpr (Or.inr (Or.inr ha)), by
      rintro rfl
      exact hs.not_inRequest_rest (Or.inl rfl) ha⟩
  refine ((hcheck.append hone ?_).append htwo ?_).append hbehind ?_
  · intro r hr r' hr' a ha ha'
    obtain rfl := List.mem_singleton.mp hr
    obtain rfl := List.mem_singleton.mp hr'
    exact (hmem a ((hregions a).mpr (Or.inl ha'))).2 (hentry a ha)
  · intro r hr r' hr' a ha ha'
    have ha' := (mem_callsFor hr' a).mp ha'
    rcases List.mem_append.mp hr with hr | hr
    · obtain rfl := List.mem_singleton.mp hr
      exact (hmem a ((hregions a).mpr (Or.inr ha'))).2 (hentry a ha)
    · obtain rfl := List.mem_singleton.mp hr
      exact hs.not_inRequest_second ha ha'
  · intro r hr r' hr' a ha ha'
    refine hs.not_inRequest_rest ?_ ((mem_callsFor hr' a).mp ha')
    rcases List.mem_append.mp hr with hr | hr
    · rcases List.mem_append.mp hr with hr | hr
      · obtain rfl := List.mem_singleton.mp hr
        exact Or.inl (hentry a ha)
      · obtain rfl := List.mem_singleton.mp hr
        exact Or.inr ((hregions a).mpr (Or.inl ha))
    · exact Or.inr ((hregions a).mpr (Or.inr ((mem_callsFor hr a).mp ha)))

/-- **A conditional asks for its arms and for what follows them.** -/
theorem asks_structureCond (hb : Builder build) (hr : Region ts set entry) {plan : CondPlan}
    (hs : CondSplit ts set entry plan) :
    Asks ⟨set, entry, ts⟩ (calls (structureCond (asked build) ts entry plan).events) := by
  have hcheck := makesLeaf_check hb hr hs
  have hsecond : Traces build _ _ := traces_secondArm
    (build (markCond ts entry plan) plan.firstRegion plan.firstArm).transfers plan.second
  have hsecondRegion : ∀ region arm, plan.second.map (fun arm => (arm.2, arm.1)) =
      some (region, arm) → Region _ region arm := fun _ _ h => by
    obtain ⟨second, hsec, h⟩ := Option.map_eq_some_iff.mp h
    obtain ⟨rfl, rfl⟩ := Prod.mk.inj h
    exact region_second_arm hb hr hs hsec
  have hrestRegion : ∀ rest start, plan.join.map (fun join => (plan.rest, join)) =
      some (rest, start) → Region _ rest start := fun _ _ h => region_behind_cond hb hr hs h
  unfold structureCond
  dsimp only
  simp only [transfers_asked, tree_asked, hcheck.transfers_eq]
  rw [hsecond.transfers_eq, hsecond.tree_eq, calls_condOutcome, calls_follow_asked hrestRegion,
    calls_secondArm_asked]
  exact asks_condParts hr hs (hs.region_first hr) hsecondRegion hrestRegion

/-- **A pattern that splits a region asks for its parts.** -/
theorem asks_structureBy (hb : Builder build) (hr : Region ts set entry) {pattern : Pattern}
    (hs : pattern.Splits ts set entry) :
    Asks ⟨set, entry, ts⟩ (calls (structureBy (asked build) ts set entry pattern).events) := by
  cases pattern with
  | simple next => exact asks_structureSimple hr hs
  | loop plan => exact asks_structureLoop hb hr hs
  | cond plan => exact asks_structureCond hb hr hs
  | dispatch => exact Asks.nil _

end Requests

end Structuring
end StructuredFlow
