/-
# Structuring ends after few calls

Structuring at a depth that is not used up (`structureFully`) satisfies the equation of its
recursion (`structureFully_eq`), and the calls that it makes come to an end: each is for
fewer labels, or for an entry on its own, which makes a leaf and calls nothing
(`acc_requests`).

A label is the entry of at most two calls (`count_allCalls_le`): of one when its region is
taken up, and of a second one when the block puts it into a part of its own.  All other
calls that a call causes are for labels without its entry, and no two parts share a label.
So there are at most two calls for each label that is reached (`linearCalls_run`).  No
contract is needed.
-/

import Mathlib.Algebra.BigOperators.Group.Finset.Basic
import Mathlib.Algebra.Order.BigOperators.Group.Finset
import StructuredFlow.Proofs.Structuring.Depth
import StructuredFlow.Proofs.Structuring.Isolation
import StructuredFlow.Proofs.Structuring.Partition
import StructuredFlow.Proofs.Structuring.Requests

namespace StructuredFlow

instance (ts : Transfers) (entry a : Nat) : Decidable (ts.Reaches entry a) :=
  decidable_of_iff (a ∈ ts.live entry) Transfers.mem_live_iff_reaches

namespace Structuring

open Transfers Call

/-- Structures a region at a depth that is not used up. -/
def structureFully (ts : Transfers) (set : LabelSet) (entry : Nat) : Outcome :=
  structureRegion (ts.length + 1) ts set entry

namespace Call

/-- What structuring makes of the region. -/
def outcome (c : Call) : Outcome := structureFully c.transfers c.set c.entry

/-- The pattern of the first block, and what is reported on the way to it. -/
def chosen (c : Call) : Pattern × List Event := choosePattern c.transfers c.set c.entry

/-- The calls that the call makes itself. -/
def requests (c : Call) : List Call :=
  calls (structureBy (asked structureFully) c.transfers c.set c.entry c.chosen.1).events

/-- The call and all that it causes. -/
def allCalls (c : Call) : List Call := calls c.outcome.events

end Call

/-- Structuring a function ends, and takes at most two calls for each label that the entry
reaches. -/
structure LinearCalls (ts : Transfers) (entry : Nat) : Prop where
  /-- No depth cuts a call off. -/
  run_eq : run ts entry = structureLive structureFully ts entry
  /-- A call makes the first block by its pattern, and calls structuring for the parts. -/
  outcome_eq : ∀ c ∈ calls (run ts entry).2, c.outcome =
    (structureBy structureFully c.transfers c.set c.entry c.chosen.1).after
      (.region c.set c.entry c.transfers :: c.chosen.2)
  /-- It causes the calls that it makes itself, and those that they cause. -/
  allCalls_eq : ∀ c ∈ calls (run ts entry).2, c.allCalls = c :: c.requests.flatMap allCalls
  /-- The calls that it makes are calls of the function. -/
  requests_subset : ∀ c ∈ calls (run ts entry).2, c.requests ⊆ calls (run ts entry).2
  /-- A call that a call makes is without the entry, or for the entry alone. -/
  parts : ∀ c ∈ calls (run ts entry).2, ∀ r ∈ c.requests, c.Without r ∨ c.EntryAlone r
  /-- The entry alone is a simple block at once. -/
  alone : ∀ c ∈ calls (run ts entry).2, ∀ r ∈ c.requests, c.EntryAlone r →
    r.outcome.tree = .leaf .simple c.entry [c.entry] .nil ∧ r.requests = []
  /-- Calls come to an end. -/
  ends : ∀ c ∈ calls (run ts entry).2, Acc (fun r c => r ∈ Call.requests c) c
  /-- A label that is reached is the entry of two calls at most, any other of none. -/
  count_le : ∀ a, ((calls (run ts entry).2).map Call.entry).count a ≤
    if ts.Reaches entry a then 2 else 0
  /-- There are at most two calls for each label that is reached. -/
  length_le : (calls (run ts entry).2).length ≤
    2 * ((Finset.range ts.length).filter (ts.Reaches entry)).card

/-! ### Structuring without a limit -/

section Fully

variable {ts : Transfers} {set : LabelSet} {entry : Nat}

/-- Structuring without a limit builds what it is asked for. -/
theorem builder_structureFully : Builder structureFully where
  builds _ _ _ hr := (builder_structureRegion _).builds _ _ _ hr
  leaf _ _ _ hr hall hself := (builder_structureRegion _).leaf _ _ _ hr hall hself

/-- A limit above the number of labels is none. -/
theorem structureRegion_eq_fully (hr : Region ts set entry) {depth : Nat}
    (h : set.toFinset.card < depth) :
    structureRegion depth ts set entry = structureFully ts set entry :=
  structureRegion_eq hr h (Nat.lt_succ_of_le hr.card_le_length)

/-- **Structuring without a limit satisfies the equation of its recursion.** -/
theorem structureFully_eq (hr : Region ts set entry) : structureFully ts set entry =
    (structureBy structureFully ts set entry (choosePattern ts set entry).1).after
      (.region set entry ts :: (choosePattern ts set entry).2) := by
  obtain ⟨n, hn⟩ := Nat.exists_eq_succ_of_ne_zero
    (Nat.ne_zero_of_lt (hr.lt_length entry hr.entry_mem))
  have hab : Agree set.toFinset.card (structureRegion ts.length) structureFully :=
    { region := fun _ _ _ hr' h => structureRegion_eq_fully hr' (h.trans_le hr.card_le_length)
      leaf := fun ts' set' entry' hr' hall hself => by
        rw [hn]
        exact structureRegion_alone hr' hall hself n ts'.length }
  rw [← structureBy_congr hab (builder_structureRegion _) hr le_rfl (splits_choosePattern hr)]
  rfl

end Fully

/-! ### The calls that a call causes -/

namespace Call

variable {c r : Call}

/-- The calls that a call makes are asked for by it. -/
theorem asks_requests (hc : c.IsRegion) : Asks c c.requests :=
  asks_structureBy builder_structureFully hc (splits_choosePattern hc)

/-- **A call causes the calls that it makes itself**, and those that they cause. -/
theorem allCalls_eq (hc : c.IsRegion) : c.allCalls = c :: c.requests.flatMap allCalls := by
  have hfound : calls c.chosen.2 = [] := calls_eq_nil fun _ he => region?_of_mem_choosePattern he
  have htraces : Traces structureFully _ _ :=
    traces_structureBy c.transfers c.set c.entry c.chosen.1
  have hevents : c.outcome.events = (.region c.set c.entry c.transfers :: c.chosen.2) ++
      (structureBy structureFully c.transfers c.set c.entry c.chosen.1).events :=
    congrArg Outcome.events (structureFully_eq hc)
  rw [allCalls, hevents, calls_append, calls_region, hfound, htraces.calls_eq]
  rfl

/-- A call is among those that it causes. -/
theorem mem_allCalls_self (hc : c.IsRegion) : c ∈ c.allCalls := by
  rw [allCalls_eq hc]
  exact List.mem_cons_self

/-- A call without the entry of another has fewer labels. -/
theorem card_lt_of_without (hc : c.IsRegion) (h : c.Without r) :
    r.set.toFinset.card < c.set.toFinset.card :=
  LabelSet.card_lt_of_subset (fun a ha => (h a ha).1) hc.entry_mem fun ha => (h _ ha).2 rfl

namespace EntryAlone

/-- Of the entry alone the simple pattern is chosen, with nothing behind it. -/
theorem choosePattern_eq (hr : r.IsRegion) (h : c.EntryAlone r) :
    r.chosen = (.simple none, []) := by
  refine choosePattern_alone hr (fun a ha => ?_) fun hself => ?_
  · rw [h.entry_eq]
    exact (h.mem_set a).mp ha
  · rw [h.entry_eq, ← mem_realTargets, h.realTargets_eq] at hself
    exact absurd hself List.not_mem_nil

/-- The entry alone makes no calls. -/
theorem requests_eq (hr : r.IsRegion) (h : c.EntryAlone r) : r.requests = [] := by
  rw [requests, h.choosePattern_eq hr]
  rfl

/-- The entry alone becomes a leaf. -/
theorem tree_eq (hr : r.IsRegion) (h : c.EntryAlone r) :
    r.outcome.tree = .leaf .simple c.entry [c.entry] .nil := by
  have heq : r.outcome = _ := structureFully_eq hr
  have hchosen : choosePattern r.transfers r.set r.entry = _ := h.choosePattern_eq hr
  rw [heq, hchosen, ← h.entry_eq]
  rfl

/-- The entry alone causes no call but its own. -/
theorem allCalls_eq (hr : r.IsRegion) (h : c.EntryAlone r) : r.allCalls = [r] := by
  rw [Call.allCalls_eq hr, h.requests_eq hr]
  rfl

end EntryAlone

/-- **Calls come to an end.** -/
theorem acc_requests (hc : c.IsRegion) : Acc (fun r c => r ∈ Call.requests c) c := by
  induction hn : c.set.toFinset.card using Nat.strong_induction_on generalizing c with
  | _ n ih =>
    refine Acc.intro _ fun r hr => ?_
    have hasks := asks_requests hc
    rcases hasks.parts r hr with hwithout | halone
    · exact ih _ (hn ▸ card_lt_of_without hc hwithout) (hasks.region r hr) rfl
    · refine Acc.intro _ fun r' hr' => ?_
      rw [halone.requests_eq (hasks.region r hr)] at hr'
      exact absurd hr' List.not_mem_nil

/-- What a call that is caused asks for is caused as well. -/
theorem requests_subset_allCalls (hc : c.IsRegion) :
    ∀ c' ∈ c.allCalls, c'.requests ⊆ c.allCalls := by
  have hacc := acc_requests hc
  induction hacc with
  | intro c _ ih =>
    intro c' hc' r hr
    have hregion := (asks_requests hc).region
    rw [allCalls_eq hc] at hc' ⊢
    rcases List.mem_cons.mp hc' with rfl | hc'
    · exact List.mem_cons_of_mem _ (List.mem_flatMap.mpr ⟨r, hr, mem_allCalls_self (hregion r hr)⟩)
    · obtain ⟨part, hpart, hc'⟩ := List.mem_flatMap.mp hc'
      exact List.mem_cons_of_mem _
        (List.mem_flatMap.mpr ⟨part, hpart, ih part hpart (hregion part hpart) c' hc' hr⟩)

end Call

/-! ### Counting calls -/

/-- Where at most one member of a list counts, the sum is no more than one of them. -/
theorem sum_map_le_of_pairwise {α : Type} {l : List α} {p : α → Prop} {f : α → Nat} {k : Nat}
    (hp : l.Pairwise fun x y => p x → ¬p y) (hzero : ∀ x ∈ l, ¬p x → f x = 0)
    (hle : ∀ x ∈ l, f x ≤ k) : (l.map f).sum ≤ k := by
  induction l with
  | nil => exact Nat.zero_le k
  | cons x l ih =>
    obtain ⟨hx, hl⟩ := List.pairwise_cons.mp hp
    rw [List.map_cons, List.sum_cons]
    by_cases hpx : p x
    · have hrest : (l.map f).sum = 0 := List.sum_eq_zero fun n hn => by
        obtain ⟨y, hy, rfl⟩ := List.mem_map.mp hn
        exact hzero y (List.mem_cons_of_mem _ hy) (hx y hy hpx)
      rw [hrest]
      exact hle x List.mem_cons_self
    · rw [hzero x List.mem_cons_self hpx, Nat.zero_add]
      exact ih hl (fun y hy => hzero y (List.mem_cons_of_mem _ hy))
        fun y hy => hle y (List.mem_cons_of_mem _ hy)

/-- A list that holds each member of a finite set at most `k` times, and nothing else. -/
theorem length_le_of_count_le {l : List Nat} {s : Finset Nat} {k : Nat}
    (h : ∀ a, l.count a ≤ if a ∈ s then k else 0) : l.length ≤ k * s.card := by
  have hsub : l.toFinset ⊆ s := fun a ha => by
    by_contra hs
    have hcount := h a
    rw [if_neg hs, Nat.le_zero, List.count_eq_zero] at hcount
    exact hcount (List.mem_toFinset.mp ha)
  calc l.length = ∑ a ∈ l.toFinset, l.count a := (List.sum_toFinset_count_eq_length l).symm
    _ ≤ ∑ a ∈ s, l.count a := Finset.sum_le_sum_of_subset hsub
    _ ≤ ∑ a ∈ s, k := Finset.sum_le_sum fun a ha => (h a).trans (if_pos ha).le
    _ = k * s.card := (Finset.sum_const_nat fun _ _ => rfl).trans (Nat.mul_comm _ _)

namespace Call

/-- **A label is the entry of at most two calls that a call causes**, and of none if the
region does not hold it. -/
theorem count_allCalls_le {c : Call} (hc : c.IsRegion) (a : Nat) :
    (c.allCalls.map Call.entry).count a ≤ if a ∈ c.set then 2 else 0 := by
  induction hn : c.set.toFinset.card using Nat.strong_induction_on generalizing c with
  | _ n ih =>
    have hasks := asks_requests hc
    have hpart : ∀ r ∈ c.requests, c.Without r →
        (r.allCalls.map Call.entry).count a ≤ if a ∈ r.set then 2 else 0 := fun r hr hwithout =>
      ih _ (hn ▸ card_lt_of_without hc hwithout) (hasks.region r hr) rfl
    have halone : ∀ r ∈ c.requests, c.EntryAlone r →
        (r.allCalls.map Call.entry).count a = if a = c.entry then 1 else 0 := fun r hr h => by
      rw [h.allCalls_eq (hasks.region r hr), List.map_singleton, h.entry_eq, List.count_singleton]
      exact if_congr (beq_iff_eq.trans eq_comm) rfl rfl
    have hsum : ((c.requests.flatMap allCalls).map Call.entry).count a ≤
        if a = c.entry then 1 else if a ∈ c.set then 2 else 0 := by
      rw [List.map_flatMap, List.count_flatMap]
      refine sum_map_le_of_pairwise (p := fun r => a ∈ r.set)
        (hasks.apart.imp fun h => h a) (fun r hr hmem => ?_) fun r hr => ?_
      · rcases hasks.parts r hr with h | h
        · exact Nat.le_zero.mp ((hpart r hr h).trans (if_neg hmem).le)
        · exact (halone r hr h).trans (if_neg fun ha => hmem ((h.mem_set a).mpr ha))
      · rcases hasks.parts r hr with h | h
        · refine (hpart r hr h).trans ?_
          by_cases hmem : a ∈ r.set
          · rw [if_pos hmem, if_neg (h a hmem).2, if_pos (h a hmem).1]
          · exact (if_neg hmem).trans_le (Nat.zero_le _)
        · refine (halone r hr h).trans_le ?_
          by_cases ha : a = c.entry
          · rw [if_pos ha, if_pos ha]
          · exact (if_neg ha).trans_le (Nat.zero_le _)
    rw [allCalls_eq hc, List.map_cons, List.count_cons]
    by_cases ha : a = c.entry
    · subst ha
      rw [if_pos rfl] at hsum
      rw [if_pos hc.entry_mem, if_pos (beq_self_eq_true _)]
      exact Nat.succ_le_succ hsum
    · rw [if_neg ha] at hsum
      rw [if_neg fun h => ha (beq_iff_eq.mp h).symm, Nat.add_zero]
      exact hsum

end Call

/-! ### The calls of a function -/

variable {ts : Transfers} {entry : Nat}

/-- Each call of a run is one for a region. -/
theorem isRegion_of_mem_run {c : Call} (h : c ∈ calls (run ts entry).2) : c.IsRegion := by
  obtain ⟨event, hevent, hcall⟩ := List.mem_filterMap.mp h
  cases event with
  | region set start ts' =>
    obtain rfl := Option.some.inj hcall
    exact (takenUp_of_mem_run hevent).1
  | _ => exact absurd hcall (by simp [Event.call?, Event.region?])

/-- A run structures without a limit. -/
theorem run_eq_fully (ts : Transfers) (entry : Nat) :
    run ts entry = structureLive structureFully ts entry := by
  by_cases hentry : entry < ts.length
  · have hlen := (marks_liveTable ts entry).length_eq
    rw [← run_eq_of_length_lt ts entry (Nat.lt_succ_self _)]
    unfold structureLive structureFully
    dsimp only
    rw [← liveTable, hlen]
  · rw [run, structureLive_of_le (Nat.not_lt.mp hentry), structureLive_of_le (Nat.not_lt.mp hentry)]

/-- The calls of a function are those that the call for all that the entry reaches causes. -/
theorem calls_run (hentry : entry < ts.length) :
    calls (run ts entry).2 = allCalls ⟨ts.live entry, entry, liveTable ts entry⟩ := by
  have hlive := (region_live hentry).entry_mem
  have hpruned : calls (pruneEvents (unreached (ts.live entry) ts.length)) = [] :=
    calls_eq_nil fun _ he => region?_of_mem_pruneEvents he
  rw [run_eq_fully]
  unfold structureLive
  dsimp only
  rw [if_pos (LabelSet.contains_iff_mem.mpr hlive), calls_append, hpruned]
  rfl

/-- What the entry reaches is a region to be structured. -/
theorem isRegion_live (hentry : entry < ts.length) :
    IsRegion ⟨ts.live entry, entry, liveTable ts entry⟩ := region_live hentry

/-- Without a label to enter nothing is called for. -/
theorem calls_run_of_le (hentry : ts.length ≤ entry) : calls (run ts entry).2 = [] := by
  rw [run, structureLive_of_le hentry]
  exact calls_eq_nil fun _ he => region?_of_mem_pruneEvents he

/-- With a call a run makes the calls that it makes. -/
theorem requests_subset_calls_run {c : Call} (h : c ∈ calls (run ts entry).2) :
    c.requests ⊆ calls (run ts entry).2 := by
  by_cases hentry : entry < ts.length
  · rw [calls_run hentry] at h ⊢
    exact requests_subset_allCalls (isRegion_live hentry) c h
  · rw [calls_run_of_le (Nat.not_lt.mp hentry)] at h
    exact absurd h List.not_mem_nil

/-- Each label is the entry of at most two calls, and none that is not reached. -/
theorem count_calls_run_le (ts : Transfers) (entry a : Nat) :
    ((calls (run ts entry).2).map Call.entry).count a ≤ if ts.Reaches entry a then 2 else 0 := by
  by_cases hentry : entry < ts.length
  · rw [calls_run hentry]
    exact (count_allCalls_le (isRegion_live hentry) a).trans
      (if_congr mem_live_iff_reaches rfl rfl).le
  · rw [calls_run_of_le (Nat.not_lt.mp hentry)]
    exact Nat.zero_le _

/-- **Structuring ends, and takes at most two calls for each label that the entry reaches.**
Every call is for labels of the calling region without its entry, or for that entry on its
own when it has no edges left, and then it makes a simple block at once. -/
theorem linearCalls_run (f : Function) (entry : Nat) : LinearCalls f.transfers entry where
  run_eq := run_eq_fully _ _
  outcome_eq _ hc := structureFully_eq (isRegion_of_mem_run hc)
  allCalls_eq _ hc := Call.allCalls_eq (isRegion_of_mem_run hc)
  requests_subset _ hc := requests_subset_calls_run hc
  parts _ hc := (asks_requests (isRegion_of_mem_run hc)).parts
  alone _ hc r hr halone :=
    have hregion := (asks_requests (isRegion_of_mem_run hc)).region r hr
    ⟨halone.tree_eq hregion, halone.requests_eq hregion⟩
  ends _ hc := acc_requests (isRegion_of_mem_run hc)
  count_le := count_calls_run_le _ _
  length_le := by
    rw [← List.length_map Call.entry]
    refine length_le_of_count_le fun a => (count_calls_run_le f.transfers entry a).trans ?_
    refine (if_congr ?_ rfl rfl).le
    rw [Finset.mem_filter, Finset.mem_range]
    exact (and_iff_right_of_imp And.left).symm

end Structuring
end StructuredFlow
