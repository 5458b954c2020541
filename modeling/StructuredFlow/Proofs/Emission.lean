/-
# Emitted code does what the function does

The code of a function performs the statements that a walk through its branch graph
performs, and returns what the walk returns (`agrees_emit`).  Everything that the code of
its tree needs to be run (`Runnable`) is there when the code is written: the names of
constructs differ, every target has a jump, and no two labels share an index.

A tree at its place keeps in line with the walk (`InLine`); around the tree of a function
is nothing, so no run leaves it through a target, and what is left is that the run returns,
or is stopped, where the walk is (`Agrees.of_inLine`).
-/

import StructuredFlow.Proofs.Code.Printing
import StructuredFlow.Proofs.Code.Simulation
import StructuredFlow.Proofs.Compilation

namespace StructuredFlow

universe u

variable {σ : Type u}

open Structuring Emission

/-! ### Runs in line with a walk to the end -/

/-- A walk ends in one place. -/
theorem Function.walk_eq_of_isEnd {f : Function} {b : Bindings} {I : Interpretation σ} {m n : Nat}
    {start : Point σ} (hm : (f.walk b I m start).IsEnd) (hn : (f.walk b I n start).IsEnd) :
    f.walk b I m start = f.walk b I n start := by
  rcases le_total m n with h | h
  · exact (walk_of_le hm h).symm
  · exact walk_of_le hn h

/-- Where a walk has ended it has performed all it performs. -/
theorem Function.performed_walk_of_isEnd {f : Function} {b : Bindings} {I : Interpretation σ}
    {k : Nat} {start : Point σ} (hk : (f.walk b I k start).IsEnd) (n : Nat) :
    (f.walk b I n start).progress.performed <+: (f.walk b I k start).progress.performed := by
  rcases le_total n k with h | h
  · exact performed_walk_mono h
  · rw [walk_of_le hk h]

/-- **Runs that keep in line with a walk do what it does**, if nothing is around. -/
theorem Agrees.of_inLine {f : Function} {s : Source} {I : Interpretation σ} {n : Nat}
    {start : Point σ} {run : Nat → CodeRun σ}
    (h : ∀ limit, InLine f s I .outermost limit n start (run limit)) :
    Agrees (fun n => f.walk s.bindings I n start) run where
  performs n limit hn := by
    have hline := h limit
    generalize run limit = r at hline
    cases hline with
    | leaves hid => exact absurd hid (by simp)
    | @returns value k m hwalk =>
      have hend := Function.performed_walk_of_isEnd (k := k) (by rw [hwalk]; trivial) n
      rwa [hwalk] at hend
    | @stops id k m hk hwalk =>
      have hmono : (f.walk s.bindings I n start).progress.performed <+:
          (f.walk s.bindings I k start).progress.performed :=
        Function.performed_walk_mono (hn.trans hk)
      rwa [hwalk] at hmono
    | @strands k p r hwalk hp =>
      have hend := Function.performed_walk_of_isEnd (k := k) (by rw [hwalk]; trivial) n
      rw [hwalk] at hend
      exact hend.trans hp
  returns n value p hreturned limit hn := by
    have hended : (f.walk s.bindings I n start).IsEnd := by rw [hreturned]; trivial
    have hline := h limit
    generalize run limit = r at hline
    cases hline with
    | leaves hid => exact absurd hid (by simp)
    | @returns value' k m hwalk =>
      have heq := Function.walk_eq_of_isEnd hended (n := k) (by rw [hwalk]; trivial)
      rw [hreturned, hwalk] at heq
      obtain ⟨rfl, rfl⟩ := Point.returned.inj heq
      exact ⟨rfl, rfl⟩
    | @stops id k m hk hwalk =>
      have heq := Function.walk_of_le hended (hn.trans hk)
      rw [hreturned, hwalk] at heq
      exact absurd heq (by simp)
    | @strands k p' r hwalk hp =>
      have heq := Function.walk_eq_of_isEnd hended (n := k) (by rw [hwalk]; trivial)
      rw [hreturned, hwalk] at heq
      exact absurd heq (by simp)
  exact hreached limit := by
    have hline := h limit
    generalize run limit = r at hline
    cases hline with
    | leaves hid => exact absurd hid (by simp)
    | @returns value k m hwalk =>
      refine ⟨k, ?_, Or.inr ⟨value, rfl, hwalk⟩⟩
      rw [hwalk]
      rfl
    | @stops id k m hk hwalk =>
      refine ⟨k, ?_, Or.inl ⟨rfl, hk⟩⟩
      rw [hwalk]
      rfl
    | strands hwalk => exact absurd hwalk (hreached _ _)

/-! ### The code of a function -/

section Functions

variable {f : Function} (hf : f.validate = .ok ()) (hm : f.NoMarkers) (config : Config)
  (types : TypeTable)
include hf

/-- The code of a validated function is written from what structuring left of it. -/
theorem writesFrom_prepare : ((f.prepare config types).source config types).WritesFrom f
    (f.prepare config types).structured.transfers where
  validate_eq := hf
  marks := (f.structuresLive_prepare hf config types).marks
  labels_eq := rfl
  length_identifiers := Prepared.length_identifiers _ config types
  nodup_identifiers := Identifier.nodup_distinct _
  flag_eq := rfl

include hm

/-- **What is written can be run**, under the indices of a registry with all that is asked
for. -/
theorem runnable_prepare {r : Registry} (hrefusal : (f.prepare config types).refusal? = none)
    (hkeys : ∀ key ∈ (f.prepare config types).requests config types, key ∈ r.keys) :
    let p := f.prepare config types
    Runnable f (p.source config types) (r.index f.id) .outermost p.structured.tree := by
  intro p
  have h : StructuresLive f.transfers f.entry (p.structured, p.events) :=
    f.structuresLive_prepare hf config types
  have hwritable := writableBlock_prepare hf hm config types
  rw [← refusal?_source_eq hf config types, Source.refusal?, List.findSome?_eq_none_iff] at hrefusal
  refine ⟨fun b hb => ⟨hwritable b hb, fun a ha => ?_, h.testsEntry b hb, ?_⟩,
    (h.scoped hf hm).nodup_constructEntries, fun _ _ => rfl⟩
  · refine hrefusal a ?_
    rw [BlockTree.leafLabels, BlockTree.descendants_eq_preorder]
    exact List.mem_flatMap.mpr ⟨b, hb, ha⟩
  · intro a ha c hc heq
    -- a leaf that is not printed as a dispatch holds one label; in one that is the registry
    -- tells the labels apart
    cases b with
    | leaf kind entry labels next =>
      cases hdispatch : (p.source config types).dispatches kind entry labels with
      | false =>
        obtain rfl := (hwritable _ hb).2.2.1 hdispatch
        rw [List.mem_singleton.mp ha, List.mem_singleton.mp hc]
      | true =>
        have hprinted := mem_dispatchBlocks.mpr ⟨hb, hdispatch⟩
        exact index_inj_of_requests hwritable (fun a ha => hkeys _ (List.mem_map_of_mem ha))
          hprinted a ha c hc heq
    | _ => exact absurd ha List.not_mem_nil

/-- The code of a function does what the function does, and its lines are read as its script. -/
theorem Function.agrees_body_emit {r r' : Registry} {code : FunctionCode}
    (h : f.emit config types (f.prepare config types).table (f.prepare config types).labels
      (f.prepare config types).structured.tree r = (.ok code, r')) :
    Script.read? config.dispatchVariable code.lines = some (code.body.script .done) ∧
      ∀ (I : Interpretation σ) (m : Machine σ),
        Agrees (fun n => f.walk ((f.prepare config types).source config types).bindings I n
            (.here f.entry m.progress))
          (fun limit => code.body.exec I limit m) := by
  have hrefusal : (f.prepare config types).refusal? = none := by
    cases hsome : (f.prepare config types).refusal? with
    | none => rfl
    | some error =>
      obtain ⟨r'', hr''⟩ := emit_eq_error hf hm config types hsome r
      exact absurd (congrArg Prod.fst (hr''.symm.trans h)) (by simp)
  obtain ⟨code', hcode', hwritten⟩ := emit_eq_ok hf hm config types hrefusal r
  obtain ⟨hcode, rfl⟩ := Prod.mk.inj (hcode'.symm.trans h)
  obtain rfl := Except.ok.inj hcode
  have hrun := runnable_prepare hf hm config types hrefusal
    (r := r.assignAll ((f.prepare config types).requests config types))
    fun key hkey => Registry.mem_assignAll.mpr (Or.inr hkey)
  have hrealises := (f.structuresLive_prepare hf config types).realises hf hm
  rw [hwritten _ List.prefix_rfl]
  refine ⟨f.read?_written config types _ _ _ _ _ _, fun I m => ?_⟩
  refine Agrees.of_inLine (n := 0) fun limit => ?_
  have hline := InLine.tree (I := I) (writesFrom_prepare hf config types) limit hrun hrealises m
  exact hline.shift (k := 0) rfl (Nat.zero_le _)

/-- **Emitted lines do what the function does**, structured or not.  Read as labelled
structured statements they make a script, and under any interpretation of instructions and
tests that reads negations as they are written the script performs what a walk through the
branch graph performs, and returns what it returns. -/
theorem Function.agrees_emit {r r' : Registry} {code : FunctionCode}
    (h : f.emit config types (f.prepare config types).table (f.prepare config types).labels
      (f.prepare config types).structured.tree r = (.ok code, r')) :
    Shows config.indent code.lines (code.text config.indent) ∧
      ∃ script, Script.read? config.dispatchVariable code.lines = some script ∧
        ∀ {σ : Type u} (I : Interpretation σ) (m : Machine σ),
          Agrees (fun n => f.walk ((f.prepare config types).source config types).bindings
              I.negating n (.here f.entry m.progress))
            (fun limit => script.exec I.negating limit m) := by
  refine ⟨code.shows_text _, code.body.script .done,
    (f.agrees_body_emit (σ := Unit) hf hm config types h).1,
    fun {σ} I m => ?_⟩
  have hexec : (fun limit => (code.body.script .done).exec I.negating limit m) =
      fun limit => code.body.exec I.negating limit m := funext fun limit =>
    (exec_script I limit code.body .done m).trans (CodeRun.andThen_self _)
  rw [hexec]
  exact (agrees_body_emit hf hm config types h).2 I.negating m

end Functions

/-- A walk through the function that repeats itself ends behind its second label, if the one
test does not hold. -/
theorem Function.walk_repeating (b : Bindings) {I : Interpretation Unit}
    (h : I.holds "$n" () = false) : repeating.walk b I 2 (.here repeating.entry ⟨[], ()⟩) =
      .returned none ⟨[], ()⟩ := by
  have hfirst : repeating.step b I (.here repeating.entry ⟨[], ()⟩) =
      leave I b (.condBranch (.ssa "n") (.label 0) (.label 1)) ⟨[], ()⟩ := rfl
  have hchoose :
      (Transfer.condBranch (.ssa "n") (.label 0) (.label 1)).choose I b.exceptionFlag () =
      some (.label 1) := congrArg some (if_neg (by rw [Bool.not_eq_true]; exact h))
  rw [walk_succ, hfirst]
  dsimp only [leave]
  rw [hchoose]
  rfl

/-- The code over a label that repeats itself returns at once where no test holds, as a walk
through two labels does. -/
theorem Function.agrees_emit_repeating :
    repeating.validate = .ok () ∧ repeating.NoMarkers ∧
      ∃ code r, repeating.emit {} {} (repeating.prepare {} {}).table
        (repeating.prepare {} {}).labels
          (repeating.prepare {} {}).structured.tree .empty = (.ok code, r) ∧
        ∃ script, Script.read? "__label__" code.lines = some script ∧
          (script.exec (Interpretation.negating ⟨fun _ state => state, fun _ _ => false⟩) 2
            ⟨⟨[], ()⟩, fun _ => 0⟩).1 = .returns none := by
  have hrefusal : (repeating.prepare {} {}).refusal? = none :=
    (Module.refusal?_prepare_eq_none_iff validate_repeating {} {}).mpr fun _ _ label hlabel =>
      not_refused_repeating label (List.mem_of_getElem? hlabel)
  obtain ⟨code, hcode, -⟩ :=
    emit_eq_ok validate_repeating noMarkers_repeating {} {} hrefusal .empty
  obtain ⟨-, script, hread, hagrees⟩ :=
    agrees_emit validate_repeating noMarkers_repeating {} {} hcode
  have hholds : (Interpretation.negating ⟨fun _ (state : Unit) => state, fun _ _ => false⟩).holds
      "$n" () = false := readTest_of_eq_none (by decide_cbv) _
  refine ⟨validate_repeating, noMarkers_repeating, code, _, hcode, script, hread, ?_⟩
  exact ((hagrees ⟨fun _ state => state, fun _ _ => false⟩ ⟨⟨[], ()⟩, fun _ => 0⟩).returns 2 none
    ⟨[], ()⟩ (walk_repeating _ hholds) 2 le_rfl).1

end StructuredFlow
