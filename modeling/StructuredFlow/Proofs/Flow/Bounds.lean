/-
# The look-ups of the analysis of a set

`Checked.refresh` analyzes a set of labels anew like `Flow.refresh`, and fails at the first
position that a table has no entry for.  The set may have ids that are no labels and the
transfers may lead to any id.  Still only one step can fail, the one that enters a label with
those that it jumps to; there it fails at the first target that is no label
(`reverseEdges_eq`).  Where that step succeeds, every id in the edges is a label
(`Edges.Within`), and so is every id that waits.  So no other look-up fails (`refresh_eq`).
-/

import StructuredFlow.Proofs.Flow.Lookups
import StructuredFlow.Proofs.Flow.Relations
import StructuredFlow.Proofs.LabelSet.SameMembers

namespace StructuredFlow

/-- Edges between `n` labels. -/
structure Edges.Within (edges : Edges) (n : Nat) : Prop where
  /-- Each label has a list of neighbours. -/
  length_eq : edges.length = n
  /-- Every neighbour is a label. -/
  target_lt : ∀ a, ∀ b ∈ edges.at a, b < n

/-- All edges together are those out of each label, one label after the other. -/
theorem Edges.flatten_eq_flatMap_at (out : Edges) :
    out.flatten = (List.range out.length).flatMap out.at := by
  have hout : out = (List.range out.length).map out.at := by
    refine List.ext_getElem (by simp) fun i h _ => ?_
    simp [Edges.at, List.getD_eq_getElem?_getD, h]
  rw [List.flatMap_def, ← hout]

namespace Flow

/-- The tables of an analysis. -/
structure Tables where
  /-- The edges by their starts. -/
  out : Edges
  /-- The edges by their ends. -/
  into : Edges
  /-- What each label reaches. -/
  allOut : SetTable
  /-- What reaches each label. -/
  allIn : SetTable
  /-- What each label must get to. -/
  mustGetTo : SetTable

/-- The tables of the analysis of a set. -/
def tables (ts : Transfers) (set : LabelSet) : Tables where
  out := outEdges ts set
  into := reverseEdges (outEdges ts set)
  allOut := reached ts set
  allIn := closure (members set ts.length).reverse (reverseEdges (outEdges ts set))
    (outEdges ts set)
  mustGetTo := mustGetToTable (outEdges ts set) (reverseEdges (outEdges ts set)) (canEnd ts set)
    (pathEnds ts set)

/-- The record of a label. -/
def Tables.record (ts : Transfers) (tables : Tables) (id : Nat) : Flow where
  outLabels := tables.out.at id
  inLabels := tables.into.at id
  allOut := tables.allOut.at id
  allIn := tables.allIn.at id
  mustGetTo := tables.mustGetTo.at id
  hasReturn := returns (ts.at? id)
  hasMarker := marks (ts.at? id)

/-- Tables with an entry for each of `n` labels. -/
structure Tables.Fits (tables : Tables) (n : Nat) : Prop where
  /-- Starts of edges. -/
  length_out : tables.out.length = n
  /-- Ends of edges. -/
  length_into : tables.into.length = n
  /-- Sets reached. -/
  length_allOut : tables.allOut.length = n
  /-- Sets that reach. -/
  length_allIn : tables.allIn.length = n
  /-- Sets to get to. -/
  length_mustGetTo : tables.mustGetTo.length = n

variable {ts : Transfers} {set : LabelSet} {a : Nat}

/-- The record of a member is taken from the tables. -/
theorem getElem?_analyze (ha : a < ts.length) (hmem : a ∈ set) :
    (analyze ts set)[a]? = some ((tables ts set).record ts a) := by
  simp only [analyze, List.getElem?_map, List.getElem?_zipIdx, List.getElem?_eq_getElem ha,
    Option.map_some, Nat.zero_add, LabelSet.contains_iff_mem, hmem, if_true, Tables.record,
    Transfers.at?, List.getD_eq_getElem?_getD, Option.getD_some]
  rfl

/-! ### Edges of any set -/

/-- The edges out of a label of the table are its jumps within the set. -/
theorem at_outEdges_of_lt (ha : a < ts.length) :
    (outEdges ts set).at a = if a ∈ set then successors set (ts.at? a) else [] := by
  simp [outEdges, Edges.at, Transfers.at?, List.getD_eq_getElem?_getD, ha,
    LabelSet.contains_iff_mem]

/-- No edge out of a label is listed twice. -/
theorem nodup_at_outEdges (ts : Transfers) (set : LabelSet) (a : Nat) :
    ((outEdges ts set).at a).Nodup := by
  by_cases ha : a < ts.length
  · rw [at_outEdges_of_lt ha]
    split
    · exact nodup_eraseDups _
    · exact List.nodup_nil
  · rw [Edges.at, List.getD_eq_getElem?_getD, List.getElem?_eq_none (by simpa using ha)]
    exact List.nodup_nil

/-- Only members start edges. -/
theorem mem_members_of_mem_outEdges {b : Nat} (h : b ∈ (outEdges ts set).at a) :
    a ∈ members set ts.length := by
  have ha : a < ts.length := length_outEdges ts set ▸ Edges.lt_length_of_mem h
  rw [at_outEdges_of_lt ha] at h
  split at h
  next hmem => exact mem_members.mpr ⟨hmem, ha⟩
  next => exact absurd h List.not_mem_nil

/-- Where no jump of the set leaves the table the edges stay within it. -/
theorem within_outEdges (h : danglingTarget? ts set = none) :
    (outEdges ts set).Within ts.length where
  length_eq := length_outEdges ts set
  target_lt a b hb := by
    have ha : a < (outEdges ts set).length := Edges.lt_length_of_mem hb
    rw [Edges.at, List.getD_eq_getElem?_getD, List.getElem?_eq_getElem ha, Option.getD_some] at hb
    have hflat := List.mem_flatten.mpr ⟨_, List.getElem_mem ha, hb⟩
    simpa using List.find?_eq_none.mp h b hflat

/-- Edges that stay within a table do so when they are turned around. -/
theorem within_reverseEdges {edges : Edges} {n : Nat} (h : edges.Within n) :
    (reverseEdges edges).Within n where
  length_eq := (length_reverseEdges edges).trans h.length_eq
  target_lt a b hb := by
    have ha : a < edges.length := length_reverseEdges edges ▸ Edges.lt_length_of_mem hb
    rw [at_reverseEdges ha] at hb
    exact h.length_eq ▸ List.mem_range.mp (List.mem_of_mem_filter hb)

/-- The members considered are labels of the table. -/
theorem lt_of_mem_members {id : Nat} (h : id ∈ members set ts.length) : id < ts.length :=
  (mem_members.mp h).2

end Flow

namespace Checked

/-! ### The steps of the analysis -/

/-- Enters a label with those that it jumps to. -/
def enter (out into : Edges) (source : Nat) : Except MissingEntry Edges := do
  update (fun _ sources => .ok (sources ++ [source])) (← entry out source) into

/-- Enters each member with the labels it jumps to. -/
def reverseEdges (members : List Nat) (out : Edges) : Except MissingEntry Edges :=
  members.foldlM (enter out) (List.replicate out.length [])

/-- The neighbours of a label and what the table knows of theirs. -/
def closureStep (direct : Edges) (table : SetTable) (id : Nat) : Except MissingEntry LabelSet := do
  (← entry direct id).foldlM (fun acc next => do
    if next = id then return acc else return acc.union (← entry table next)) (← entry table id)

/-- The labels that each label reaches by one edge or more. -/
def closure (queue : List Nat) (direct reverse : Edges) : Except MissingEntry SetTable := do
  return (← drain (closureStep direct) (entry reverse) (Worklist.stepBound direct.length)
    (Flow.closureStart queue direct)).table

/-- The set of the ids that a test selects. -/
def select (n : Nat) (test : Nat → Except MissingEntry Bool) (ids : List Nat) :
    Except MissingEntry LabelSet :=
  ids.foldlM (fun acc id => do return if ← test id then acc.insert id else acc) (.empty n)

/-- What the sets of some labels have in common; of no label, nothing. -/
def common (n : Nat) (table : SetTable) : List Nat → Except MissingEntry LabelSet
  | [] => .ok (.empty n)
  | next :: rest => do
    rest.foldlM (fun acc s => return acc.inter (← entry table s)) (← entry table next)

/-- What the successors that can end have in common, and the label itself. -/
def postDominatorStep (out : Edges) (exits : LabelSet) (table : SetTable) (id : Nat) :
    Except MissingEntry LabelSet := do
  return (← common out.length table ((← entry out id).filter exits.contains)).insert id

/-- The predecessors of a label that can end and do not end paths. -/
def postDominatorDependents (into : Edges) (exits ends : LabelSet) (id : Nat) :
    Except MissingEntry (List Nat) := do
  return (← entry into id).filter fun source => exits.contains source && !ends.contains source

/-- The start of the labels that can end. -/
def postDominatorStart (n : Nat) (exits ends : LabelSet) : Except MissingEntry Worklist := do
  let table ← update (fun id set => .ok (if ends.contains id then set.insert id else exits))
    exits.toList (List.replicate n (.empty n))
  return ⟨table, (exits.toList.filter fun id => !ends.contains id).reverse⟩

/-- The other labels on every path from each label to an end. -/
def mustGetToTable (out into : Edges) (exits ends : LabelSet) : Except MissingEntry SetTable := do
  let w ← drain (postDominatorStep out exits) (postDominatorDependents into exits ends)
    (Worklist.stepBound out.length) (← postDominatorStart out.length exits ends)
  update (fun id set => .ok (set.erase id)) exits.toList w.table

/-- The tables that the records of the members of a set are taken from. -/
def tables (ts : Transfers) (set : LabelSet) : Except MissingEntry Flow.Tables := do
  let members := Flow.members set ts.length
  let out ← update (fun id _ => return Flow.successors set (← entry ts id)) members
    (List.replicate ts.length [])
  let into ← reverseEdges members out
  let allOut ← closure members.reverse out into
  let allIn ← closure members.reverse into out
  let ends ← select ts.length (fun id => return Flow.endsPaths set (← entry ts id)) members
  let exits ← select ts.length
    (fun id => return ends.contains id || !(← entry allOut id).disjoint ends) members
  return { out, into, allOut, allIn, mustGetTo := ← mustGetToTable out into exits ends }

/-- What the tables hold of a label. -/
def record (ts : Transfers) (tables : Flow.Tables) (id : Nat) : Except MissingEntry Flow := do
  let t ← entry ts id
  return { outLabels := ← entry tables.out id
           inLabels := ← entry tables.into id
           allOut := ← entry tables.allOut id
           allIn := ← entry tables.allIn id
           mustGetTo := ← entry tables.mustGetTo id
           hasReturn := Flow.returns t
           hasMarker := Flow.marks t }

/-- The records of all labels after the members of a set are analyzed anew. -/
def refresh (ts : Transfers) (set : LabelSet) (flows : List Flow) :
    Except MissingEntry (List Flow) := do
  let tables ← tables ts set
  update (fun id _ => record ts tables id) (Flow.members set ts.length) flows

/-! ### Edges -/

section Edges

variable {out : Edges} {members : List Nat}

/-- Entering members fails at the first of their targets that is no label. -/
theorem foldlM_enter_eq (hout : ∀ a, (out.at a).Nodup) (hmembers : ∀ a ∈ members, a < out.length)
    (into : Edges) :
    members.foldlM (enter out) into =
      match (members.flatMap out.at).find? fun id => decide (into.length ≤ id) with
      | some id => .error ⟨into.length, id⟩
      | none => .ok (into.mapIdx fun b sources =>
          sources ++ members.filter fun source => (out.at source).contains b) := by
  induction members generalizing into with
  | nil =>
    refine congrArg Except.ok (List.ext_getElem? fun i => ?_)
    simp [List.getElem?_mapIdx]
  | cons source members ih =>
    have hsource := hmembers source List.mem_cons_self
    rw [List.foldlM_cons, enter, entry_edges hsource, ok_bind,
      update_eq (g := fun _ sources => sources ++ [source]) (hout source) fun _ _ _ => rfl,
      List.flatMap_cons, List.find?_append]
    cases (out.at source).find? fun id => decide (into.length ≤ id) with
    | some id => rfl
    | none =>
      rw [ok_bind, ih fun a ha => hmembers a (List.mem_cons_of_mem _ ha), length_updated,
        Option.none_or]
      cases (members.flatMap out.at).find? fun id => decide (into.length ≤ id) with
      | some id => rfl
      | none =>
        refine congrArg Except.ok (List.ext_getElem? fun b => ?_)
        rw [List.getElem?_mapIdx, List.getElem?_mapIdx, getElem?_updated, Option.map_map]
        refine Option.map_congr fun sources _ => ?_
        by_cases hb : b ∈ out.at source <;> simp [hb]

/-- Elements without neighbours can be left out. -/
theorem flatMap_filter_at {p : Nat → Bool} {ids : List Nat}
    (h : ∀ a ∈ ids, ∀ b ∈ out.at a, p a = true) :
    (ids.filter p).flatMap out.at = ids.flatMap out.at := by
  induction ids with
  | nil => rfl
  | cons a ids ih =>
    have hrest := ih fun a ha => h a (List.mem_cons_of_mem _ ha)
    rw [List.filter_cons, List.flatMap_cons]
    split
    next => rw [List.flatMap_cons, hrest]
    next hp =>
      have hnil : out.at a = [] := List.eq_nil_iff_forall_not_mem.mpr fun b hb =>
        hp (h a List.mem_cons_self b hb)
      rw [hrest, hnil, List.nil_append]

section Ascending

variable (hmembers : ∀ a ∈ members, a < out.length) (hascending : members.Pairwise (· < ·))
  (hstart : ∀ a, ∀ b ∈ out.at a, a ∈ members)
include hmembers hascending

/-- The members are the labels of the table that pass the test, in order. -/
theorem members_eq_filter : members = (List.range out.length).filter members.contains :=
  eq_of_pairwise_lt hascending (List.pairwise_lt_range.filter _) fun a => by
    simpa using hmembers a

include hstart

/-- Members that start all edges have all targets. -/
theorem flatMap_members_at : members.flatMap out.at = out.flatten := by
  rw [Edges.flatten_eq_flatMap_at, members_eq_filter hmembers hascending]
  exact flatMap_filter_at fun a _ b hb => by simpa using hstart a b hb

/-- They have all sources of a label, and in order. -/
theorem filter_members_at {b : Nat} (hb : b < out.length) :
    members.filter (fun a => (out.at a).contains b) = (Flow.reverseEdges out).at b := by
  rw [Flow.at_reverseEdges hb, members_eq_filter hmembers hascending, List.filter_filter]
  refine List.filter_congr fun a _ => ?_
  by_cases hab : b ∈ out.at a
  · simp [hab, hstart a b hab]
  · simp [hab]

/-- **Entering the members fails exactly if an edge leads to no label**, and at the first that
does.  Other labels start no edges. -/
theorem reverseEdges_eq (hout : ∀ a, (out.at a).Nodup) :
    reverseEdges members out =
      match out.flatten.find? fun id => decide (out.length ≤ id) with
      | some id => .error ⟨out.length, id⟩
      | none => .ok (Flow.reverseEdges out) := by
  rw [reverseEdges, foldlM_enter_eq hout hmembers, List.length_replicate,
    flatMap_members_at hmembers hascending hstart]
  split
  · rfl
  · refine congrArg Except.ok (List.ext_getElem? fun b => ?_)
    by_cases hb : b < out.length
    · have hlt : b < (Flow.reverseEdges out).length := by rwa [Flow.length_reverseEdges]
      have hsources := filter_members_at hmembers hascending hstart hb
      rw [Edges.at, List.getD_eq_getElem?_getD, List.getElem?_eq_getElem hlt] at hsources
      rw [List.getElem?_mapIdx, List.getElem?_replicate_of_lt hb, List.getElem?_eq_getElem hlt]
      exact congrArg some hsources
    · rw [List.getElem?_eq_none (by simpa using hb), List.getElem?_eq_none (by simpa using hb)]

end Ascending

end Edges

/-! ### Closures and post-dominators -/

section Tables

variable {n : Nat} {direct reverse out into : Edges} {exits ends : LabelSet}

/-- Where no edge leaves the table the checked step of a closure finds all it looks up. -/
theorem closureStep_eq (hd : direct.Within n) {table : SetTable} (htable : table.length = n)
    {id : Nat} (hid : id < n) :
    closureStep direct table id = .ok (Flow.closureStep direct table id) := by
  rw [closureStep, entry_edges (hd.length_eq ▸ hid), ok_bind, entry_table (htable ▸ hid), ok_bind]
  refine foldlM_eq_ok (fun next hnext acc => ?_) _
  split
  · rfl
  · rw [entry_table (htable ▸ hd.target_lt id next hnext), ok_bind]
    rfl

/-- Closures of edges between labels. -/
theorem closure_eq (hd : direct.Within n) (hr : reverse.Within n) {queue : List Nat}
    (hqueue : ∀ id ∈ queue, id < n) :
    closure queue direct reverse = .ok (Flow.closure queue direct reverse) ∧
      (Flow.closure queue direct reverse).length = n := by
  have hfinds : Finds (Flow.closureStep direct) reverse.at (closureStep direct) (entry reverse) n :=
    { recompute_eq := fun _ htable _ hid => closureStep_eq hd htable hid
      dependents_eq := fun _ hid => entry_edges (hr.length_eq ▸ hid)
      dependents_lt := fun id _ => hr.target_lt id }
  have hstart : (Flow.closureStart queue direct).InRange n :=
    ⟨(List.length_map _).trans hd.length_eq, hqueue⟩
  obtain ⟨hdrain, hafter⟩ := drain_eq hfinds hstart (Worklist.stepBound direct.length)
  exact ⟨by rw [closure, hdrain]; rfl, hafter.length_table⟩

/-- The selection with checks is the selection without, if every check succeeds. -/
theorem select_eq {test : Nat → Except MissingEntry Bool} {p : Nat → Bool} {ids : List Nat}
    (h : ∀ id ∈ ids, test id = .ok (p id)) :
    select n test ids = .ok (.ofIds n (ids.filter p)) := by
  rw [select, LabelSet.ofIds, List.foldl_filter]
  refine foldlM_eq_ok (fun id hid acc => ?_) _
  rw [h id hid, ok_bind]
  rfl

/-- Where no edge leaves the table the checked step of the post-dominators finds all it looks
up. -/
theorem postDominatorStep_eq (ho : out.Within n) {table : SetTable} (htable : table.length = n)
    {id : Nat} (hid : id < n) :
    postDominatorStep out exits table id = .ok (Flow.postDominatorStep out exits table id) := by
  rw [postDominatorStep, entry_edges (ho.length_eq ▸ hid), ok_bind, Flow.postDominatorStep]
  have hlt : ∀ next ∈ (out.at id).filter exits.contains, next < table.length := fun next hnext =>
    htable ▸ ho.target_lt id next (List.mem_of_mem_filter hnext)
  cases hnexts : (out.at id).filter exits.contains with
  | nil => rfl
  | cons next rest =>
    rw [hnexts] at hlt
    rw [common, entry_table (hlt next List.mem_cons_self), ok_bind,
      foldlM_eq_ok (g := fun acc s => acc.inter (table.at s)) (fun s hs acc => ?_)]
    · rfl
    · rw [entry_table (hlt s (List.mem_cons_of_mem _ hs)), ok_bind]
      rfl

/-- What a set lists is below its capacity. -/
theorem lt_capacity_of_mem_toList {s : LabelSet} {id : Nat} (h : id ∈ s.toList) :
    id < s.capacity := LabelSet.lt_capacity_of_mem (LabelSet.mem_toList.mp h)

/-- The checked start of the post-dominators finds all it looks up. -/
theorem postDominatorStart_eq (hexits : exits.capacity = out.length) :
    postDominatorStart out.length exits ends = .ok (Flow.postDominatorStart out exits ends) := by
  rw [postDominatorStart, update_eq_ok (LabelSet.nodup_toList exits) (fun id hid => by
      rw [List.length_replicate, ← hexits]
      exact lt_capacity_of_mem_toList hid) fun _ _ _ => rfl, ok_bind]
  refine congrArg (fun table => Except.ok (Worklist.mk table _)) (List.ext_getElem? fun id => ?_)
  rw [getElem?_updated, List.getElem?_map]
  by_cases hid : id < out.length
  · rw [List.getElem?_replicate_of_lt hid, List.getElem?_range hid]
    by_cases hexit : id ∈ exits <;> simp [hexit]
  · rw [List.getElem?_eq_none (by simpa using hid), List.getElem?_eq_none (by simpa using hid)]
    rfl

/-- The post-dominators over edges between labels. -/
theorem mustGetToTable_eq (ho : out.Within n) (hi : into.Within n) (exits ends : LabelSet)
    (hexits : exits.capacity = n) :
    mustGetToTable out into exits ends = .ok (Flow.mustGetToTable out into exits ends) ∧
      (Flow.mustGetToTable out into exits ends).length = n := by
  have hcapacity : exits.capacity = out.length := hexits.trans ho.length_eq.symm
  have hfinds : Finds (Flow.postDominatorStep out exits)
      (Flow.postDominatorDependents into exits ends) (postDominatorStep out exits)
      (postDominatorDependents into exits ends) n :=
    { recompute_eq := fun _ htable _ hid => postDominatorStep_eq ho htable hid
      dependents_eq := fun id hid => by
        rw [postDominatorDependents, entry_edges (hi.length_eq ▸ hid)]
        rfl
      dependents_lt := fun id _ a ha => hi.target_lt id a (List.mem_of_mem_filter ha) }
  have hstart : (Flow.postDominatorStart out exits ends).InRange n := by
    refine ⟨by simp [Flow.postDominatorStart, ho.length_eq], fun id hid => ?_⟩
    have hid := List.mem_of_mem_filter (List.mem_reverse.mp hid)
    exact hexits ▸ lt_capacity_of_mem_toList hid
  obtain ⟨hdrain, hafter⟩ := drain_eq hfinds hstart (Worklist.stepBound out.length)
  have hlength : (Flow.postDominators out into exits ends).length = n := hafter.length_table
  have hlt : ∀ id ∈ exits.toList, id < (Flow.postDominators out into exits ends).length :=
    fun id hid => by
      rw [hlength, ← hexits]
      exact lt_capacity_of_mem_toList hid
  constructor
  · rw [mustGetToTable, postDominatorStart_eq hcapacity, ok_bind, hdrain, ok_bind]
    refine (update_eq_ok (LabelSet.nodup_toList exits) hlt fun _ _ _ => rfl).trans ?_
    refine congrArg Except.ok (List.ext_getElem? fun id => ?_)
    rw [getElem?_updated, Flow.mustGetToTable, List.getElem?_map, List.getElem?_zipIdx]
    cases (Flow.postDominators out into exits ends)[id]? <;>
      simp [LabelSet.contains_iff_mem]
  · rw [Flow.mustGetToTable, List.length_map, List.length_zipIdx, hlength]

end Tables

/-! ### The analysis -/

section Refresh

variable {ts : Transfers} {set : LabelSet} {a : Nat}

/-- A label of the table has an entry. -/
theorem entry_transfers (ha : a < ts.length) : entry ts a = .ok (ts.at? a) := entry_eq_getD ha none

/-- The edges are found without a look-up that fails. -/
theorem update_successors (ts : Transfers) (set : LabelSet) :
    update (fun id _ => return Flow.successors set (← entry ts id)) (Flow.members set ts.length)
      (List.replicate ts.length []) = .ok (Flow.outEdges ts set) := by
  rw [update_eq_ok (g := fun id _ => Flow.successors set (ts.at? id))
    (Flow.nodup_members set _) (fun id hid => by simpa using Flow.lt_of_mem_members hid)
    fun id hid _ => by
      rw [entry_transfers (Flow.lt_of_mem_members hid)]
      rfl]
  refine congrArg Except.ok (List.ext_getElem? fun id => ?_)
  rw [getElem?_updated, Flow.outEdges, List.getElem?_map, List.getElem?_zipIdx]
  by_cases hid : id < ts.length
  · simp [hid, Flow.mem_members, Transfers.at?, List.getD_eq_getElem?_getD,
      LabelSet.contains_iff_mem]
  · rw [List.getElem?_eq_none (by simpa using hid), List.getElem?_eq_none (by simpa using hid)]
    rfl

/-- Entering the members fails at the first jump to an id that is no label. -/
theorem reverseEdges_members (ts : Transfers) (set : LabelSet) :
    reverseEdges (Flow.members set ts.length) (Flow.outEdges ts set) =
      match Flow.danglingTarget? ts set with
      | some id => .error ⟨ts.length, id⟩
      | none => .ok (Flow.reverseEdges (Flow.outEdges ts set)) := by
  have h := reverseEdges_eq
    (fun a ha => (Flow.length_outEdges ts set).symm ▸ Flow.lt_of_mem_members ha)
    ((LabelSet.pairwise_toList set).filter _) (fun a b => Flow.mem_members_of_mem_outEdges)
    (Flow.nodup_at_outEdges ts set)
  rwa [Flow.length_outEdges] at h

/-- With a jump to an id that is no label, the analysis fails. -/
theorem tables_eq_error {id : Nat} (h : Flow.danglingTarget? ts set = some id) :
    tables ts set = .error ⟨ts.length, id⟩ := by
  rw [tables, update_successors, ok_bind, reverseEdges_members, h]
  rfl

/-- Without one, no look-up for the tables fails. -/
theorem tables_eq_ok (h : Flow.danglingTarget? ts set = none) :
    tables ts set = .ok (Flow.tables ts set) ∧ (Flow.tables ts set).Fits ts.length := by
  have hout := Flow.within_outEdges h
  have hinto := Flow.within_reverseEdges hout
  have hqueue : ∀ id ∈ (Flow.members set ts.length).reverse, id < ts.length :=
    fun id hid => Flow.lt_of_mem_members (List.mem_reverse.mp hid)
  obtain ⟨hallOut, hlengthOut⟩ := closure_eq hout hinto hqueue
  obtain ⟨hallIn, hlengthIn⟩ := closure_eq hinto hout hqueue
  have hends : select ts.length (fun id => return Flow.endsPaths set (← entry ts id))
      (Flow.members set ts.length) = .ok (Flow.pathEnds ts set) := select_eq fun id hid => by
    rw [entry_transfers (Flow.lt_of_mem_members hid)]
    rfl
  have hexits : select ts.length (fun id => return (Flow.pathEnds ts set).contains id ||
      !(← entry (Flow.reached ts set) id).disjoint (Flow.pathEnds ts set))
      (Flow.members set ts.length) = .ok (Flow.canEnd ts set) := select_eq fun id hid => by
    rw [entry_table (hlengthOut.symm ▸ Flow.lt_of_mem_members hid)]
    rfl
  obtain ⟨hmust, hlengthMust⟩ := mustGetToTable_eq hout hinto (Flow.canEnd ts set)
    (Flow.pathEnds ts set) (LabelSet.capacity_ofIds _ _)
  refine ⟨?_, hout.length_eq, hinto.length_eq, hlengthOut, hlengthIn, hlengthMust⟩
  rw [tables, update_successors, ok_bind, reverseEdges_members, h]
  simp only [ok_bind]
  rw [hallOut, ok_bind, hallIn, ok_bind, hends, ok_bind]
  refine (congrArg (· >>= _) hexits).trans ?_
  rw [ok_bind, hmust]
  rfl

/-- The record of a label of the table is found in tables that fit it. -/
theorem record_eq {tables : Flow.Tables} (h : tables.Fits ts.length) (ha : a < ts.length) :
    record ts tables a = .ok (tables.record ts a) := by
  rw [record, entry_transfers ha, ok_bind, entry_edges (h.length_out ▸ ha), ok_bind,
    entry_edges (h.length_into ▸ ha), ok_bind, entry_table (h.length_allOut ▸ ha), ok_bind,
    entry_table (h.length_allIn ▸ ha), ok_bind, entry_table (h.length_mustGetTo ▸ ha), ok_bind]
  rfl

/-- **The only look-up that can fail is that of the end of a jump**: the analysis with look-ups
that fail does what the analysis with defaults does, for all transfers and sets. -/
theorem refresh_eq (ts : Transfers) (set : LabelSet) (flows : List Flow)
    (hlen : flows.length = ts.length) : refresh ts set flows =
      (Flow.refresh ts set flows).mapError fun e => ⟨e.count, e.target⟩ := by
  rw [refresh, Flow.refresh]
  cases hdangling : Flow.danglingTarget? ts set with
  | some id =>
    rw [tables_eq_error hdangling]
    rfl
  | none =>
    obtain ⟨htables, hfits⟩ := tables_eq_ok hdangling
    rw [htables, ok_bind, update_eq_ok (g := fun id _ => (Flow.tables ts set).record ts id)
      (Flow.nodup_members set _) (fun id hid => hlen.symm ▸ Flow.lt_of_mem_members hid)
      fun id hid _ => record_eq hfits (Flow.lt_of_mem_members hid)]
    refine congrArg Except.ok (List.ext_getElem? fun id => ?_)
    rw [getElem?_updated, List.getElem?_map, List.getElem?_zipIdx]
    by_cases hid : id < ts.length
    · rw [List.getElem?_eq_getElem (hlen.symm ▸ hid)]
      by_cases hmem : id ∈ set
      · simp [Flow.mem_members, LabelSet.contains_iff_mem, hid, hmem,
          Flow.getElem?_analyze hid hmem]
      · simp [Flow.mem_members, LabelSet.contains_iff_mem, hmem]
    · rw [List.getElem?_eq_none (by omega)]
      rfl

end Refresh
end Checked
end StructuredFlow
