/-
# Code that keeps in line with a walk

The code of a tree that realises the branch graph of a function does what a walk through
the function does (`InLine.tree`).  A run is in line with a walk if the walk, through some
number of labels, comes to where the run has come to (`InLine`):

| the run | the walk |
| --- | --- |
| leaves through a target | has come to the label that the target means there |
| returns | has returned the same |
| is stopped | has come through as many labels as a loop may make turns |
| does anything | has come to an unreachable point before |

Each construct has a lemma that takes what is known of its parts.  A jump names its
construct, and different constructs have different names; the cases of a dispatch are
told apart by their indices.  A loop visits a label in each turn, which is why a run that
is stopped has come through so many.
-/

import StructuredFlow.Proofs.Code.Visit
import StructuredFlow.Proofs.Structuring.Conditions

namespace StructuredFlow

universe u

variable {σ : Type u}

open Emission

/-! ### Names -/

namespace Emission.Source

variable {s : Source}

/-- Identifiers that differ tell their labels apart. -/
theorem getD_identifiers_inj (hnodup : s.identifiers.Nodup) {e e' : Nat}
    (he : e < s.identifiers.length) (he' : e' < s.identifiers.length)
    (h : s.identifiers.getD e "" = s.identifiers.getD e' "") : e = e' := by
  rw [List.getD_eq_getElem _ _ he, List.getD_eq_getElem _ _ he'] at h
  exact (hnodup.getElem_inj_iff).mp h

/-- **Constructs entered at different labels have different names.** -/
theorem construct_inj (hnodup : s.identifiers.Nodup) {e e' : Nat} (he : e < s.identifiers.length)
    (he' : e' < s.identifiers.length) : s.construct e = s.construct e' ↔ e = e' := by
  refine ⟨fun h => getD_identifiers_inj hnodup he he' ?_, fun h => h ▸ rfl⟩
  exact (String.append_right_inj _).mp h

/-- A dispatch is called differently from a loop or conditional. -/
theorem construct_ne_name (e entry : Nat) (labels : List Nat) :
    s.construct e ≠ (s.dispatch entry labels).name := by
  intro h
  have hlist := congrArg String.toList h
  simp [construct, dispatch] at hlist

/-- The exit through a target that stands in no dispatch. -/
def exit (s : Source) : Target → CodeExit
  | .breakOf entry => .leaves (s.construct entry)
  | .continueOf entry => .restarts (s.construct entry)
  | _ => .falls

/-- Outside a dispatch the jump to a target leaves as the target says, and where there is none
control falls through. -/
theorem takeJump_eq {target : Target} (h : Writable s none target) (index : Nat → Nat)
    (m : Machine σ) : takeJump m (Written.jump s index none target) = (s.exit target, m) := by
  cases target with
  | label id => exact absurd h not_writable_label
  | _ => rfl

end Emission.Source

/-- A run has come to where a walk from the start has come to through some labels, at least
`n` if it leaves. -/
inductive InLine (f : Function) (s : Source) (I : Interpretation σ) (mean : Meaning)
    (limit n : Nat) (start : Point σ) : CodeRun σ → Prop
  /-- It leaves through a target, which means the label that the walk has come to. -/
  | leaves {target : Target} {id k : Nat} {m : Machine σ} (hid : mean target = some id)
      (hw : Writable s none target) (hk : n ≤ k)
      (hwalk : f.walk s.bindings I k start = .here id m.progress) :
      InLine f s I mean limit n start (s.exit target, m)
  /-- It returns, as the walk does. -/
  | returns {value : Option String} {k : Nat} {m : Machine σ}
      (hwalk : f.walk s.bindings I k start = .returned value m.progress) :
      InLine f s I mean limit n start (.returns value, m)
  /-- It is stopped. -/
  | stops {id k : Nat} {m : Machine σ} (hk : limit ≤ k)
      (hwalk : f.walk s.bindings I k start = .here id m.progress) :
      InLine f s I mean limit n start (.stops, m)
  /-- The walk has come to an unreachable point. -/
  | strands {k : Nat} {p : Progress σ} {r : CodeRun σ}
      (hwalk : f.walk s.bindings I k start = .stranded p)
      (hp : r.Continues p) : InLine f s I mean limit n start r

namespace InLine

variable {f : Function} {s : Source} {I : Interpretation σ} {mean mean' : Meaning}
  {limit n : Nat} {start : Point σ} {r : CodeRun σ}

/-- It falls through. -/
theorem falls {id k : Nat} {m : Machine σ} (hid : mean .nop = some id) (hk : n ≤ k)
    (hwalk : f.walk s.bindings I k start = .here id m.progress) :
    InLine f s I mean limit n start (.falls, m) :=
  @leaves σ f s I mean limit n start .nop id k m hid trivial hk hwalk

/-- It breaks out of a construct. -/
theorem breaks {e id k : Nat} {m : Machine σ} (hid : mean (.breakOf e) = some id)
    (hw : e < s.identifiers.length) (hk : n ≤ k)
    (hwalk : f.walk s.bindings I k start = .here id m.progress) :
    InLine f s I mean limit n start (.leaves (s.construct e), m) :=
  @leaves σ f s I mean limit n start (.breakOf e) id k m hid hw hk hwalk

/-- It continues a loop. -/
theorem restarts {e id k : Nat} {m : Machine σ} (hid : mean (.continueOf e) = some id)
    (hw : e < s.identifiers.length) (hk : n ≤ k)
    (hwalk : f.walk s.bindings I k start = .here id m.progress) :
    InLine f s I mean limit n start (.restarts (s.construct e), m) :=
  @leaves σ f s I mean limit n start (.continueOf e) id k m hid hw hk hwalk

/-- What is in line with a walk is in line with one that comes to its start. -/
theorem shift {a k n' : Nat} {p : Progress σ} (hstart : f.walk s.bindings I k start = .here a p)
    (h : InLine f s I mean limit n (.here a p) r) (hn : n' ≤ k + n) :
    InLine f s I mean limit n' start r := by
  have hfrom := Function.walk_from hstart
  cases h with
  | leaves hid hw hk hwalk =>
    exact leaves hid hw (hn.trans (Nat.add_le_add_left hk k)) ((hfrom _).trans hwalk)
  | returns hwalk => exact returns ((hfrom _).trans hwalk)
  | stops hk hwalk => exact stops (hk.trans (Nat.le_add_left _ _)) ((hfrom _).trans hwalk)
  | strands hwalk hp => exact strands ((hfrom _).trans hwalk) hp

/-- What comes next takes over where a run falls through. -/
theorem andThen {mid : Option Nat} {code : Code} {n' : Nat}
    (h : InLine f s I (mean.before mid) limit n start r)
    (hnext : ∀ m id, mid = some id →
      InLine f s I mean limit n' (.here id m.progress) (code.exec I limit m)) :
    InLine f s I mean limit n start (r.andThen (code.exec I limit)) := by
  cases h with
  | @leaves target id k m hid hw hk hwalk =>
    cases target with
    | nop => exact (hnext m id hid).shift hwalk (hk.trans (Nat.le_add_right k n'))
    | label t => exact absurd hw not_writable_label
    | breakOf e => exact leaves hid hw hk hwalk
    | continueOf e => exact leaves hid hw hk hwalk
  | returns hwalk => exact returns hwalk
  | stops hk hwalk => exact stops hk hwalk
  | strands hwalk hp => exact strands hwalk (hp.andThen (CodeRun.Continues.exec I limit code))

end InLine

/-! ### Labels -/

/-- What the writing of a structured function starts from. -/
structure Emission.Source.WritesFrom (s : Source) (f : Function) (ts : Transfers) : Prop where
  /-- The function meets its contract. -/
  validate_eq : f.validate = .ok ()
  /-- Only targets were exchanged, for markers. -/
  marks : Transfers.MarksWithin (fun _ => True) f.transfers ts
  /-- The labels are those of the function with targets exchanged. -/
  labels_eq : s.labels = f.withTransfers ts
  /-- Each label has an identifier. -/
  length_identifiers : s.identifiers.length = s.labels.length
  /-- No two share one. -/
  nodup_identifiers : s.identifiers.Nodup
  /-- An invoke is tested by the flag that its call sets. -/
  flag_eq : s.bindings.exceptionFlag = s.config.exceptionFlag

section Labels

variable {f : Function} {s : Source} {ts : Transfers} (hs : s.WritesFrom f ts)
    {I : Interpretation σ}
  {mean : Meaning} {limit : Nat} {a : Nat}
include hs

/-- The targets in the table are those of the label. -/
theorem Emission.WritableLabel.of_mem_targets {around : Option Dispatch}
    (ha : WritableLabel s around a) {target : Target} (ht : target ∈ ts.targets a) :
    Writable s around target := by
  have hlt : a < f.labels.length := by
    simpa [hs.labels_eq] using ha.lt_length
  obtain ⟨label, body, last, t, g, hr⟩ := Function.exists_retargets hs.validate_eq hs.marks hlt
  have hlabel := Source.label_eq (hs.labels_eq ▸ hr.getElem?_eq)
  refine ha.targets _
    (by rw [hlabel]; exact List.mem_append_right _ (List.mem_singleton_self _)) _ ?_
  rwa [hr.targets_eq] at ht

/-- Visiting a label takes a step of the walk. -/
theorem visit_step {around : Option Dispatch} (ha : WritableLabel s around a)
    (hok : (s.label a).refusal? = none) (hmeans : Means f.transfers ts mean a) (index : Nat → Nat)
    (m : Machine σ) : ∃ m' : Machine σ, m'.selectors = m.selectors ∧
      let r := execAll I (Written.label s index around a) m
      let point := f.walk s.bindings I 1 (.here a m.progress)
      (∃ target id, mean target = some id ∧ Writable s around target ∧
          r = takeJump m' (Written.jump s index around target) ∧ point = .here id m'.progress) ∨
        (∃ value, r = (.returns value, m') ∧ point = .returned value m'.progress) ∨
        r = (.falls, m') ∧ point = .stranded m'.progress := by
  have hlt : a < f.labels.length := by
    simpa [hs.labels_eq] using ha.lt_length
  obtain ⟨label, body, last, t, g, hr⟩ := Function.exists_retargets hs.validate_eq hs.marks hlt
  refine ⟨m.performAll I (label.texts s.bindings), rfl, ?_⟩
  refine (visit_cases hr hs.labels_eq hs.flag_eq hok hmeans index around m).imp_left ?_
  rintro ⟨target, ht, id, hid, hleave, hpoint⟩
  exact ⟨target, id, hid, ha.of_mem_targets hs ht, hleave, hpoint⟩

/-- **A label that is in no dispatch** keeps in line. -/
theorem InLine.label (ha : WritableLabel s none a) (hok : (s.label a).refusal? = none)
    (hmeans : Means f.transfers ts mean a) (index : Nat → Nat) (m : Machine σ) :
    InLine f s I mean limit 1 (.here a m.progress)
      (execAll I (Written.label s index none a) m) := by
  obtain ⟨m', -, hcases⟩ := visit_step hs (I := I) ha hok hmeans index m
  rcases hcases with ⟨target, id, hid, hw, hr, hpoint⟩ | ⟨value, hr, hpoint⟩ | ⟨hr, hpoint⟩
  · rw [hr, Source.takeJump_eq hw]
    exact leaves hid hw le_rfl hpoint
  · rw [hr]
    exact returns hpoint
  · rw [hr]
    exact strands hpoint List.prefix_rfl

end Labels

/-! ### Dispatches -/

/-- From the index of a member on a dispatch runs the case of the member first. -/
theorem casesFrom_index {s : Source} {index : Nat → Nat} {d : Dispatch} {labels : List Nat}
    (hinj : ∀ a ∈ labels, ∀ c ∈ labels, index a = index c → a = c) {a : Nat} (ha : a ∈ labels) :
    ∃ rest, casesFrom (labels.map (Written.dispatchCase s index d)) (index a) =
      Written.label s index (some d) a ++ rest := by
  induction labels with
  | nil => exact absurd ha List.not_mem_nil
  | cons first labels ih =>
    rw [List.map_cons, casesFrom, List.dropWhile_cons]
    by_cases h : index first = index a
    · obtain rfl := hinj first List.mem_cons_self a ha h
      simp only [Written.dispatchCase, bne_self_eq_false, Bool.false_eq_true, if_false,
        List.flatMap_cons]
      exact ⟨_, rfl⟩
    · have hne : ((Written.dispatchCase s index d first).index != index a) = true := by
        simpa [Written.dispatchCase] using h
      rw [if_pos hne]
      exact ih (fun b hb c hc => hinj b (List.mem_cons_of_mem _ hb) c (List.mem_cons_of_mem _ hc))
        ((List.mem_cons.mp ha).resolve_left fun he => h (he ▸ rfl))

section Dispatches

variable {f : Function} {s : Source} {ts : Transfers} (hs : s.WritesFrom f ts)
    {I : Interpretation σ}
  {mean : Meaning} {limit : Nat} {index : Nat → Nat} {entry : Nat} {labels : List Nat}
  (hlabels : ∀ a ∈ labels, WritableLabel s (some (s.dispatch entry labels)) a)
  (hok : ∀ a ∈ labels, (s.label a).refusal? = none)
  (hmeans : ∀ a ∈ labels, Means f.transfers ts (mean.among labels) a)
  (hinj : ∀ a ∈ labels, ∀ c ∈ labels, index a = index c → a = c)
include hs hlabels hok hmeans hinj

/-- **A dispatch** keeps in line: each jump among its members sets the variable to the index
of the label that the walk goes on with. -/
theorem InLine.dispatch_turns {n left k a : Nat} {m : Machine σ} {start : Point σ} (ha : a ∈ labels)
    (hselected : m.selectors s.config.dispatchVariable = index a) (hn : n ≤ k + 1)
    (hleft : limit ≤ k + left) (hwalk : f.walk s.bindings I k start = .here a m.progress) :
    let d := s.dispatch entry labels
    let cases := labels.map (Written.dispatchCase s index d)
    InLine f s I mean limit n start
      (CodeRun.turns d.name
        (fun m => execAll I (casesFrom cases
          (m.selectors s.config.dispatchVariable)) m) left m) := by
  intro d cases
  -- `k` labels are behind and `left` turns ahead; every turn takes the walk one label on,
  -- so a dispatch without turns has spent the limit
  induction left generalizing k a m with
  | zero => exact stops hleft hwalk
  | succ left ih =>
    obtain ⟨rest, hrest⟩ := casesFrom_index (s := s) (d := d) hinj ha
    obtain ⟨m', hselectors, hcases⟩ := visit_step hs (I := I) (hlabels a ha) (hok a ha)
      (hmeans a ha) index m
    have hnext := Function.walk_from hwalk 1
    have hround : execAll I (casesFrom cases (m.selectors s.config.dispatchVariable)) m =
        (execAll I (Written.label s index (some d) a) m).andThen (execAll I rest) := by
      rw [hselected, hrest, execAll_append]
    rcases hcases with ⟨target, id, hid, hw, hr, hpoint⟩ | ⟨value, hr, hpoint⟩ | ⟨hr, hpoint⟩
    · rw [CodeRun.turns, hround, hr]
      have hcome := hnext.trans hpoint
      cases target with
      | label t =>
        rw [Meaning.among_label] at hid
        split at hid
        next ht =>
          obtain rfl := Option.some.inj hid
          change InLine f s I mean limit n start (if d.name = d.name then _ else _)
          rw [if_pos rfl]
          exact ih ht (Machine.selectors_select m' _ _) (hn.trans (Nat.le_succ _)) (by omega) hcome
        next => exact absurd hid (by simp)
      | breakOf e =>
        change InLine f s I mean limit n start (if s.construct e = d.name then _ else _)
        rw [if_neg (Source.construct_ne_name e entry labels)]
        exact breaks hid hw hn hcome
      | continueOf e =>
        change InLine f s I mean limit n start (if s.construct e = d.name then _ else _)
        rw [if_neg (Source.construct_ne_name e entry labels)]
        exact restarts hid hw hn hcome
      | nop =>
        change InLine f s I mean limit n start (if d.name = d.name then _ else _)
        rw [if_pos rfl]
        exact falls hid hn hcome
    · rw [CodeRun.turns, hround, hr]
      exact returns (hnext.trans hpoint)
    · refine strands (hnext.trans hpoint) (CodeRun.Continues.turns_succ ?_ ?_)
      · rw [hround, hr]
        exact CodeRun.Continues.execAll I rest m'
      · exact CodeRun.Continues.turns (fun m => CodeRun.Continues.execAll I _ m) d.name left

end Dispatches

/-! ### Loops and conditionals -/

section Constructs

variable {f : Function} {s : Source} {I : Interpretation σ} {mean : Meaning} {limit n entry : Nat}
  {after : Option Nat} {start : Point σ} (hnodup : s.identifiers.Nodup)
  (hentry : entry < s.identifiers.length)
include hnodup hentry

/-- A construct is left or started again only through its own markers. -/
theorem Emission.Source.construct_ne {e : Nat} (he : e < s.identifiers.length) (hne : e ≠ entry) :
    s.construct e ≠ s.construct entry := fun h =>
  hne ((Source.construct_inj hnodup he hentry).mp h)

/-- **A loop** keeps in line if its body does, each time from the entry on. -/
theorem InLine.loop_turns {body : Machine σ → CodeRun σ}
    (hbody : ∀ m, InLine f s I (mean.inLoop entry after) limit 1 (.here entry m.progress) (body m))
    (hcont : ∀ m, (body m).Continues m.progress) {left k : Nat} {m : Machine σ} (hn : n ≤ k + 1)
    (hleft : limit ≤ k + left) (hwalk : f.walk s.bindings I k start = .here entry m.progress) :
    InLine f s I (mean.before after) limit n start
      (CodeRun.turns (s.construct entry) body left m) := by
  -- as for a dispatch, but a turn takes the walk on by any positive number of labels
  induction left generalizing k m with
  | zero => exact stops hleft hwalk
  | succ left ih =>
    have hturns : ∀ p, (body m).Continues p →
        (CodeRun.turns (s.construct entry) body (left + 1) m).Continues p := fun p hp =>
      hp.turns_succ (CodeRun.Continues.turns hcont (s.construct entry) left)
    rw [CodeRun.turns] at hturns ⊢
    have hround := hbody m
    generalize body m = r at hround hturns ⊢
    have hfrom := Function.walk_from hwalk
    cases hround with
    | @leaves target id j m' hid hw hj hround =>
      have hcome := (hfrom j).trans hround
      have hn' : n ≤ k + j := hn.trans (Nat.add_le_add_left hj k)
      have hleft' : limit ≤ k + j + left := by omega
      cases target with
      | label t => exact absurd hw not_writable_label
      | nop =>
        obtain rfl := Option.some.inj hid
        exact ih (by omega) hleft' hcome
      | breakOf e =>
        change InLine f s I (mean.before after) limit n start
          (if s.construct e = s.construct entry then _ else _)
        rw [Meaning.inLoop_breakOf] at hid
        by_cases he : e = entry
        · rw [if_pos he] at hid
          rw [if_pos (congrArg _ he)]
          exact falls hid hn' hcome
        · rw [if_neg he] at hid
          rw [if_neg (Source.construct_ne hnodup hentry hw he)]
          exact breaks hid hw hn' hcome
      | continueOf e =>
        change InLine f s I (mean.before after) limit n start
          (if s.construct e = s.construct entry then _ else _)
        rw [Meaning.inLoop_continueOf] at hid
        by_cases he : e = entry
        · rw [if_pos he] at hid
          obtain rfl := Option.some.inj hid
          rw [if_pos (congrArg _ he)]
          exact ih (by omega) hleft' hcome
        · rw [if_neg he] at hid
          rw [if_neg (Source.construct_ne hnodup hentry hw he)]
          exact restarts hid hw hn' hcome
    | returns hround => exact returns ((hfrom _).trans hround)
    | stops hk hround => exact stops (hk.trans (Nat.le_add_left _ _)) ((hfrom _).trans hround)
    | strands hround hp => exact strands ((hfrom _).trans hround) (hturns _ hp)

/-- **The arms of a breaking conditional** keep in line as a whole: a break out of it goes
on behind it. -/
theorem InLine.endArm {r : CodeRun σ} (hfree : mean (.continueOf entry) = none)
    (h : InLine f s I (mean.inArm entry true after) limit n start r) :
    InLine f s I (mean.before after) limit n start (r.endOnce (s.construct entry)) := by
  cases h with
  | @leaves target id k m hid hw hk hwalk =>
    cases target with
    | label t => exact absurd hw not_writable_label
    | nop => exact falls hid hk hwalk
    | breakOf e =>
      change InLine f s I (mean.before after) limit n start
        (if s.construct e = s.construct entry then _ else _)
      rw [Meaning.inArm_breakOf] at hid
      by_cases he : e = entry
      · rw [if_pos ⟨rfl, he⟩] at hid
        rw [if_pos (congrArg _ he)]
        exact falls hid hk hwalk
      · rw [if_neg fun h => he h.2] at hid
        rw [if_neg (Source.construct_ne hnodup hentry hw he)]
        exact breaks hid hw hk hwalk
    | continueOf e =>
      change InLine f s I (mean.before after) limit n start
        (if s.construct e = s.construct entry then _ else _)
      have he : e ≠ entry := by
        rintro rfl
        exact absurd (hfree.symm.trans hid) (by simp)
      rw [if_neg (Source.construct_ne hnodup hentry hw he)]
      exact restarts hid hw hk hwalk
  | returns hwalk => exact returns hwalk
  | stops hk hwalk => exact stops hk hwalk
  | strands hwalk hp => exact strands hwalk (hp.endOnce (s.construct entry))

end Constructs

/-- **The arms of another conditional** keep in line as a whole if each does. -/
theorem InLine.of_inArm {f : Function} {s : Source} {I : Interpretation σ} {mean : Meaning}
    {limit n entry : Nat} {after : Option Nat} {start : Point σ} {r : CodeRun σ}
    (h : InLine f s I (mean.inArm entry false after) limit n start r) :
    InLine f s I (mean.before after) limit n start r := by
  cases h with
  | @leaves target id k m hid hw hk hwalk =>
    refine leaves ?_ hw hk hwalk
    cases target with
    | breakOf e => simpa using hid
    | _ => exact hid
  | returns hwalk => exact returns hwalk
  | stops hk hwalk => exact stops hk hwalk
  | strands hwalk hp => exact strands hwalk hp

/-- A conditional runs the arm that its test chooses; an arm that is left out for being empty does
nothing. -/
theorem exec_conditional {s : Source} {I : Interpretation σ} {limit : Nat} {index : Nat → Nat}
    (test : Condition) (ifTrue ifFalse : BlockTree) (m : Machine σ) :
    (conditional test ifFalse (Written.tree s index ifTrue) (Written.tree s index ifFalse)).exec I
        limit m =
      if Test.holds I ⟨test.value.expression, test.negated⟩ m
        then (Written.tree s index ifTrue).exec I limit m
        else (Written.tree s index ifFalse).exec I limit m := by
  rw [conditional]
  split
  next hnil =>
    obtain rfl := BlockTree.isNil_iff.mp hnil
    exact CodeRun.andThen_self _
  next => exact CodeRun.andThen_self _

/-! ### Trees -/

/-- What the code of a block needs to be run: it can be written, nothing in it is refused, a
conditional tests what its entry tests, and the cases of a dispatch are told apart. -/
structure RunnableBlock (f : Function) (s : Source) (index : Nat → Nat) (b : BlockTree) : Prop where
  /-- Every target has a jump. -/
  writable : WritableBlock s b
  /-- Every instruction is written. -/
  refusal?_eq : ∀ a ∈ b.ownLabels, (s.label a).refusal? = none
  /-- The test is that of the control transfer. -/
  testsEntry : b.TestsEntry f.transfers
  /-- No two labels share an index. -/
  index_inj : ∀ a ∈ b.ownLabels, ∀ c ∈ b.ownLabels, index a = index c → a = c

/-- What the code of a tree needs to be run at its place. -/
structure Runnable (f : Function) (s : Source) (index : Nat → Nat) (mean : Meaning)
    (t : BlockTree) : Prop where
  /-- Each block can be run. -/
  blocks : ∀ b ∈ t.preorder, RunnableBlock f s index b
  /-- No two constructs have the same entry. -/
  nodup : t.constructEntries.Nodup
  /-- No loop around has the entry of a construct in it. -/
  free : ∀ e ∈ t.constructEntries, mean (.continueOf e) = none

namespace Runnable

variable {f : Function} {s : Source} {index : Nat → Nat} {mean : Meaning} {kind : LeafKind}
  {entry : Nat} {labels : List Nat} {breaking : Bool} {test : Condition}
  {inc rest check ifTrue ifFalse next : BlockTree}

/-- The leaf and what follows it can be run if the chain can. -/
theorem of_leaf (h : Runnable f s index mean (.leaf kind entry labels next)) :
    RunnableBlock f s index (.leaf kind entry labels next) ∧ Runnable f s index mean next := by
  obtain ⟨hblocks, hnodup, hfree⟩ := h
  obtain ⟨hself, hblocksNext⟩ := List.forall_mem_cons.mp hblocks
  rw [BlockTree.constructEntries_leaf] at hnodup hfree
  exact ⟨hself, hblocksNext, hnodup, hfree⟩

/-- **The parts of a loop can be run** at their places, if the chain can: no construct in them has
the name of the loop. -/
theorem of_loop (h : Runnable f s index mean (.loop entry labels inc rest next))
    (mid after : Option Nat) :
    entry < s.identifiers.length ∧
      Runnable f s index ((mean.inLoop entry after).before mid) inc ∧
      Runnable f s index (mean.inLoop entry after) rest ∧ Runnable f s index mean next := by
  obtain ⟨hblocks, hnodup, hfree⟩ := h
  rw [BlockTree.preorder, List.forall_mem_cons, List.forall_mem_append,
    List.forall_mem_append] at hblocks
  obtain ⟨hself, ⟨hblocksInc, hblocksRest⟩, hblocksNext⟩ := hblocks
  rw [BlockTree.constructEntries_loop] at hnodup hfree
  obtain ⟨hfresh, hparts⟩ := List.nodup_cons.mp hnodup
  obtain ⟨-, hfreeParts⟩ := List.forall_mem_cons.mp hfree
  obtain ⟨hfreeBody, hfreeNext⟩ := List.forall_mem_append.mp hfreeParts
  have hfreeInner : ∀ e ∈ inc.constructEntries ++ rest.constructEntries,
      mean.inLoop entry after (.continueOf e) = none := by
    intro e he
    have hne : e ≠ entry := fun h => hfresh (List.mem_append_left _ (h ▸ he))
    rw [Meaning.inLoop_continueOf, if_neg hne]
    exact hfreeBody e he
  obtain ⟨hfreeInc, hfreeRest⟩ := List.forall_mem_append.mp hfreeInner
  exact ⟨hself.writable, ⟨hblocksInc, hparts.of_append_left.of_append_left, hfreeInc⟩,
    ⟨hblocksRest, hparts.of_append_left.of_append_right, hfreeRest⟩,
    hblocksNext, hparts.of_append_right, hfreeNext⟩

/-- **The parts of a conditional can be run** at their places, if the chain can: no construct in
them has its name, and none around is left through a continue of it. -/
theorem of_cond (h : Runnable f s index mean
      (.cond entry labels breaking test check ifTrue ifFalse next)) (after : Option Nat) :
    RunnableBlock f s index (.cond entry labels breaking test check ifTrue ifFalse next) ∧
      mean (.continueOf entry) = none ∧ (∀ b ∈ check.preorder, RunnableBlock f s index b) ∧
      Runnable f s index (mean.inArm entry breaking after) ifTrue ∧
      Runnable f s index (mean.inArm entry breaking after) ifFalse ∧
      Runnable f s index mean next := by
  obtain ⟨hblocks, hnodup, hfree⟩ := h
  rw [BlockTree.preorder, List.forall_mem_cons, List.forall_mem_append, List.forall_mem_append,
    List.forall_mem_append] at hblocks
  obtain ⟨hself, ⟨⟨hblocksCheck, hblocksTrue⟩, hblocksFalse⟩, hblocksNext⟩ := hblocks
  rw [BlockTree.constructEntries_cond] at hnodup hfree
  have hparts := (List.nodup_cons.mp hnodup).2
  obtain ⟨hfreeEntry, hfreeParts⟩ := List.forall_mem_cons.mp hfree
  obtain ⟨hfreeInner, hfreeNext⟩ := List.forall_mem_append.mp hfreeParts
  obtain ⟨hfreeFirst, hfreeFalse⟩ := List.forall_mem_append.mp hfreeInner
  obtain ⟨-, hfreeTrue⟩ := List.forall_mem_append.mp hfreeFirst
  exact ⟨hself, hfreeEntry, hblocksCheck,
    ⟨hblocksTrue, hparts.of_append_left.of_append_left.of_append_right, hfreeTrue⟩,
    ⟨hblocksFalse, hparts.of_append_left.of_append_right, hfreeFalse⟩,
    hblocksNext, hparts.of_append_right, hfreeNext⟩

end Runnable

section Trees

variable {f : Function} {s : Source} {ts : Transfers} (hs : s.WritesFrom f ts)
    {I : Interpretation σ}
  {limit : Nat} {index : Nat → Nat}
include hs

/-- **A leaf of one label** keeps in line. -/
theorem InLine.simple {entry : Nat} {labels : List Nat} {next : BlockTree} {mean : Meaning}
    (hblock : RunnableBlock f s index (.leaf .simple entry labels next))
    (hmeans : Means f.transfers ts mean entry) (m : Machine σ) :
    InLine f s I mean limit 1 (.here entry m.progress)
      ((Written.leaf s index .simple entry labels).exec I limit m) := by
  obtain ⟨⟨hentry, -, -, hlabels⟩, hok, -, -⟩ := hblock
  change InLine f s I mean limit 1 _ ((execAll I _ m).andThen fun m => (.falls, m))
  rw [CodeRun.andThen_self]
  exact InLine.label hs (hlabels entry hentry) (hok entry hentry) hmeans index m

/-- **A leaf of labels that jump among each other** keeps in line, printed as a dispatch or
not. -/
theorem InLine.dispatch {entry : Nat} {labels : List Nat} {next : BlockTree} {mean : Meaning}
    (hblock : RunnableBlock f s index (.leaf .dispatch entry labels next))
    (hmeans : ∀ a ∈ labels, Means f.transfers ts (mean.among labels) a) (m : Machine σ) :
    InLine f s I mean limit 1 (.here entry m.progress)
      ((Written.leaf s index .dispatch entry labels).exec I limit m) := by
  obtain ⟨⟨hentry, -, hflat, hlabels⟩, hok, -, hinj⟩ := hblock
  rw [Written.leaf]
  rw [Source.around] at hlabels ⊢
  split at hlabels
  next hdispatch =>
    rw [if_pos hdispatch]
    change InLine f s I mean limit 1 _ ((CodeRun.turns _ _ limit _).andThen fun m => (.falls, m))
    rw [CodeRun.andThen_self]
    exact InLine.dispatch_turns hs hlabels hok hmeans hinj hentry
      (Machine.selectors_select m _ _) le_rfl (Nat.le_add_left _ _) rfl
  next hdispatch =>
    rw [if_neg hdispatch]
    -- without jumps among them there is but one member, which is no target of its own
    obtain rfl := hflat (by simpa using hdispatch)
    have hlabel := hlabels entry hentry
    change InLine f s I mean limit 1 _ ((execAll I _ m).andThen fun m => (.falls, m))
    rw [CodeRun.andThen_self]
    refine InLine.label hs hlabel (hok entry hentry) ?_ index m
    refine (hmeans entry hentry).mono rfl fun target ht id hid => ?_
    cases target with
    | label t => exact absurd (hlabel.of_mem_targets hs ht) not_writable_label
    | _ => exact hid

/-- **The check of a conditional** performs its entry, and the test chooses the arm that the
walk goes on in. -/
theorem exec_check (limit : Nat) {kind : LeafKind} {test : Condition} {entry onTrue onFalse : Nat}
    (hblock : RunnableBlock f s index (.leaf kind entry [entry] .nil))
    (htargets : ts.targets entry = [.nop, .nop])
    (hjumps : Transfers.targets f.transfers entry = [.label onTrue, .label onFalse])
    (htest : ∃ a b, Transfers.at? f.transfers entry =
      some (.condBranch test.value (.label a) (.label b)))
    (m : Machine σ) :
    ∃ m' : Machine σ, (Written.tree s index (.leaf kind entry [entry] .nil)).exec I limit m =
        (.falls, m') ∧
      f.walk s.bindings I 1 (.here entry m.progress) =
        .here (if Test.holds I ⟨test.value.expression, test.negated⟩ m'
          then (if test.negated then onFalse else onTrue)
          else (if test.negated then onTrue else onFalse)) m'.progress := by
  have hmem : entry ∈ [entry] := List.mem_singleton_self entry
  have hlt : entry < f.labels.length := by
    have hwritable := hblock.writable.2.2.2 entry hmem
    simpa [hs.labels_eq] using hwritable.lt_length
  obtain ⟨label, body, last, t, g, hr⟩ := Function.exists_retargets hs.validate_eq hs.marks hlt
  have hlabel := Source.label_eq (hs.labels_eq ▸ hr.getElem?_eq)
  have hflat : s.around kind entry [entry] = none := by
    have hempty : (s.label entry).realTargets = [] := by
      rw [hlabel, hr.realTargets_eq, htargets]
      rfl
    cases kind <;> simp [Source.around, Source.dispatches, hempty]
  obtain ⟨a, b, hat⟩ := htest
  obtain ⟨rfl, rfl⟩ : a = onTrue ∧ b = onFalse := by
    rw [Transfers.targets, hat] at hjumps
    simpa [Transfer.targets] using hjumps
  obtain rfl : t = .condBranch test.value (.label a) (.label b) := by
    rw [Function.at?_transfers, hr.label_eq, Option.bind_some, hr.transfer?_eq] at hat
    exact Option.some.inj hat
  have hmapped : [g (.label a), g (.label b)] = [.nop, .nop] := by
    rw [← htargets, hr.targets_eq]
    rfl
  obtain ⟨htrue, hfalse, -⟩ := List.cons.inj hmapped |>.imp_right List.cons.inj
  -- both jumps of the entry fall through, so its code only performs the label, and the
  -- transfer as it was decides where the walk goes
  let m' := m.performAll I (label.texts s.bindings)
  refine ⟨m', ?_, ?_⟩
  · rw [Written.tree, Written.tree, Code.append_done, Written.leaf, hflat]
    change (execAll I (Written.label s index none entry) m).andThen (fun m => (.falls, m)) = _
    rw [CodeRun.andThen_self, hr.execAll_eq hs.labels_eq (hblock.refusal?_eq entry hmem)]
    change takeJump _ (Written.jump s index none
      (if _ then g (.label a) else g (.label b))) = _
    rw [htrue, hfalse, ite_self]
    rfl
  · change f.step s.bindings I (.here entry m.progress) = _
    rw [hr.step_eq]
    refine Function.leave_of_choose (congrArg some ?_)
    rw [Test.holds]
    change (if I.holds test.value.expression m'.progress.state = true then _ else _) = _
    cases I.holds test.value.expression m'.progress.state <;> cases test.negated <;> rfl

/-- **The code of a tree that realises the branch graph** keeps in line with the walk. -/
theorem InLine.tree (limit : Nat) {t : BlockTree} {mean : Meaning}
    (hrun : Runnable f s index mean t) {id : Nat} (h : t.Realises f.transfers ts mean (some id))
    (m : Machine σ) : InLine f s I mean limit (if t.isNil then 0 else 1) (.here id m.progress)
      ((Written.tree s index t).exec I limit m) := by
  induction t generalizing mean id m with
  | nil => exact falls h.symm le_rfl (Function.walk_zero _)
  | leaf kind entry labels next ih =>
    obtain ⟨hblock, hrunNext⟩ := hrun.of_leaf
    obtain ⟨mid, hstart, hleaf, hnext⟩ : ∃ mid, some id = some entry ∧
        InLine f s I (mean.before mid) limit 1 (.here entry m.progress)
          ((Written.leaf s index kind entry labels).exec I limit m) ∧
        next.Realises f.transfers ts mean mid := by
      cases kind with
      | simple =>
        obtain ⟨hstart, -, mid, hmeans, hnext⟩ := h
        exact ⟨mid, hstart, InLine.simple hs hblock hmeans m, hnext⟩
      | dispatch =>
        obtain ⟨hstart, -, mid, hmeans, hnext⟩ := h
        exact ⟨mid, hstart, InLine.dispatch hs hblock hmeans m, hnext⟩
    obtain rfl := Option.some.inj hstart
    rw [Written.tree, Code.exec_append]
    exact hleaf.andThen fun m id hid => ih hrunNext (hid ▸ hnext) m
  | loop entry labels inc rest next ihInc ihRest ihNext =>
    obtain ⟨hstart, ⟨kind, incLabels, rfl⟩, mid, after, hinc, hrest, hnext⟩ := h
    obtain rfl := Option.some.inj hstart
    obtain ⟨hentry, hrunInc, hrunRest, hrunNext⟩ := hrun.of_loop mid after
    have hbody : ∀ m : Machine σ, InLine f s I (mean.inLoop id after) limit 1 (.here id m.progress)
        ((Written.tree s index (.leaf kind id incLabels .nil) ++ Written.tree s index rest).exec I
          limit m) := by
      intro m
      rw [Code.exec_append]
      exact (ihInc hrunInc hinc m).andThen fun m id hid => ihRest hrunRest (hid ▸ hrest) m
    have hloop := InLine.loop_turns (n := 1) (k := 0) (m := m) hs.nodup_identifiers hentry hbody
      (CodeRun.Continues.exec I limit _) le_rfl (Nat.le_add_left _ _) rfl
    exact hloop.andThen fun m id hid => ihNext hrunNext (hid ▸ hnext) m
  | cond entry labels breaking test check ifTrue ifFalse next _ ihTrue ihFalse ihNext =>
    obtain ⟨hstart, ⟨kind, rfl⟩, htargets, onTrue, onFalse, after, hjumps, htrue, hfalse, hnext⟩ :=
      h
    obtain rfl := Option.some.inj hstart
    obtain ⟨hself, hfree, hrunCheck, hrunTrue, hrunFalse, hrunNext⟩ := hrun.of_cond after
    obtain ⟨m', hcheck, hcome⟩ := exec_check hs (I := I) limit
      (hrunCheck _ List.mem_cons_self) htargets hjumps hself.testsEntry m
    have harms : InLine f s I (mean.inArm id breaking after) limit 1 (.here id m.progress)
        ((conditional test ifFalse (Written.tree s index ifTrue)
          (Written.tree s index ifFalse)).exec
          I limit m') := by
      rw [exec_conditional]
      split
      next hholds =>
        rw [if_pos hholds] at hcome
        exact (ihTrue hrunTrue htrue m').shift hcome (Nat.le_add_right _ _)
      next hfails =>
        rw [if_neg hfails] at hcome
        exact (ihFalse hrunFalse hfalse m').shift hcome (Nat.le_add_right _ _)
    have hbehind : ∀ (m : Machine σ) id', after = some id' →
        InLine f s I mean limit _ (.here id' m.progress)
          ((Written.tree s index next).exec I limit m) :=
      fun m id' hid => ihNext hrunNext (hid ▸ hnext) m
    cases breaking with
    | false =>
      rw [Written.tree, Code.exec_append, Code.exec_append, hcheck, CodeRun.andThen_falls]
      exact harms.of_inArm.andThen hbehind
    | true =>
      rw [Written.tree, Code.exec_append, Code.exec_append, hcheck, CodeRun.andThen_falls]
      change InLine f s I mean limit 1 _
        (CodeRun.andThen (CodeRun.andThen (CodeRun.endOnce _ _) fun m => (.falls, m)) _)
      rw [CodeRun.andThen_self]
      exact (harms.endArm hs.nodup_identifiers hself.writable hfree).andThen hbehind

end Trees

end StructuredFlow
