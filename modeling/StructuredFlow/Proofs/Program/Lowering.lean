/-
# Structured programs as branch graphs

A structured program is a sequence of plain statements, conditionals and loops.  Lowered, a
statement is one label, whose control transfer leads to what comes next:

| statement | its label | its parts continue at |
| --- | --- | --- |
| plain | branches to the continuation | |
| `ifThen` | chooses between its body and the continuation | the continuation |
| `ifThenElse` | chooses between its arms | the continuation |
| `whileLoop` | chooses between its body and the continuation | its own label |

`Lowered ts p after start ids` says that the labels `ids` of a table are a program lowered
this way, entered at `start` and followed by `after`.  Both are targets, since what follows a
program may have been expressed by nesting: turning the jumps to a label outside into
markers leaves a lowered program (`Lowered.map`).

A lowered program is entered at its start alone, which leads to all its labels
(`Lowered.reached`), and left for what follows alone, where all its labels lead
(`Lowered.jumps_mem`, `Lowered.reaches`).
-/

import StructuredFlow.Proofs.Flow.MustGetTo
import StructuredFlow.Proofs.Structuring.Marks

namespace StructuredFlow

open Relation

namespace Target

variable {target : Target} {k : Nat}

/-- A marker is no label. -/
theorem ne_label (h : target.isMarker = true) (k : Nat) : target ≠ .label k := by
  rintro rfl
  exact absurd h Bool.false_ne_true

/-- What is no marker is a label. -/
theorem exists_eq_label (h : ¬target.isMarker = true) : ∃ k, target = .label k := by
  cases target with
  | label k => exact ⟨k, rfl⟩
  | _ => exact absurd rfl h

/-- A target has a label exactly if it is one. -/
theorem label?_eq_some_iff : target.label? = some k ↔ target = .label k := by
  cases target <;> simp [label?]

/-- A target has no label exactly if it is a marker. -/
theorem label?_eq_none_iff : target.label? = none ↔ target.isMarker = true := by
  cases target <;> simp [label?, isMarker]

end Target

/-- A structured program: statements one after the other. -/
inductive Program
  /-- No more statements. -/
  | done
  /-- A statement without control flow. -/
  | plain (next : Program)
  /-- A program that runs if a test holds. -/
  | ifThen (body next : Program)
  /-- Two programs, one of which runs. -/
  | ifThenElse (first second next : Program)
  /-- A program that runs again as long as a test holds. -/
  | whileLoop (body next : Program)
deriving DecidableEq, Repr

/-- A label chooses between two targets, in either order. -/
def Transfers.Chooses (ts : Transfers) (a : Nat) (one other : Target) : Prop :=
  ∃ condition, ts.at? a = some (.condBranch condition one other) ∨
    ts.at? a = some (.condBranch condition other one)

/-- The labels `ids` are a program, entered at `start` and followed by `after`. -/
inductive Lowered (ts : Transfers) : Program → Target → Target → List Nat → Prop
  /-- A program without statements is entered where it is left. -/
  | done (after : Target) : Lowered ts .done after after []
  /-- A plain statement goes on with the continuation. -/
  | plain {next : Program} {after start : Target} {ids : List Nat} {a : Nat} :
      Lowered ts next after start ids → ts.at? a = some (.branch start) →
      Lowered ts (.plain next) after (.label a) (a :: ids)
  /-- The body of a conditional goes on with the continuation, as does its label. -/
  | ifThen {body next : Program} {after start arm : Target} {ids armIds : List Nat} {a : Nat} :
      Lowered ts next after start ids → body ≠ .done → Lowered ts body start arm armIds →
      ts.Chooses a arm start →
      Lowered ts (.ifThen body next) after (.label a) (a :: (armIds ++ ids))
  /-- Both arms of a conditional go on with the continuation. -/
  | ifThenElse {first second next : Program} {after start one other : Target}
      {ids oneIds otherIds : List Nat} {a : Nat} :
      Lowered ts next after start ids → first ≠ .done → Lowered ts first start one oneIds →
      second ≠ .done → Lowered ts second start other otherIds → ts.Chooses a one other →
      Lowered ts (.ifThenElse first second next) after (.label a) (a :: (oneIds ++ otherIds ++ ids))
  /-- The body of a loop goes on with the label of the loop, which is left for the
  continuation. -/
  | whileLoop {body next : Program} {after start head : Target} {ids bodyIds : List Nat} {a : Nat} :
      Lowered ts next after start ids → body ≠ .done → Lowered ts body (.label a) head bodyIds →
      ts.Chooses a head start →
      Lowered ts (.whileLoop body next) after (.label a) (a :: (bodyIds ++ ids))

namespace Program

/-- Tests for the end of a sequence. -/
def isDone : Program → Bool
  | .done => true
  | _ => false

/-- A program is done exactly if it has no statements. -/
@[simp] theorem isDone_iff {p : Program} : p.isDone = true ↔ p = .done := by
  cases p <;> simp [isDone]

/-- Tests whether control can come to an end at the last statement when what follows is
expressed by nesting: at a plain statement, or in an arm of a conditional.  A loop goes
back to its label. -/
def ends : Program → Bool
  | .done => false
  | .plain next => next.isDone || next.ends
  | .ifThen body next => if next.isDone then body.ends else next.ends
  | .ifThenElse first second next =>
    if next.isDone then first.ends || second.ends else next.ends
  | .whileLoop _ next => next.ends

/-- A program that can come to an end has statements. -/
theorem isDone_of_ends {p : Program} (h : p.ends = true) : p.isDone = false := by
  cases p with
  | done => exact absurd h Bool.false_ne_true
  | _ => rfl

/-- Tests whether a conditional before the statements can join behind its arms: there are
none, control `returns` behind them, which it does behind the whole program, or it can come
to an end at the last of them. -/
def canJoin (returns : Bool) (next : Program) : Bool := next.isDone || returns || next.ends

/-- What a conditional needs to join, as a disjunction. -/
theorem canJoin_iff {after : Target} {next : Program} : next.canJoin (!after.isMarker) = true ↔
    next = .done ∨ after.isMarker = false ∨ next.ends = true := by
  simp [canJoin, or_assoc]

/-- Tests whether every conditional can join.  Nothing returns behind the parts of a
statement. -/
def joins (returns : Bool) : Program → Bool
  | .done => true
  | .plain next => next.joins returns
  | .ifThen body next => next.canJoin returns && body.joins false && next.joins returns
  | .ifThenElse first second next =>
    next.canJoin returns && first.joins false && second.joins false && next.joins returns
  | .whileLoop body next => body.joins false && next.joins returns

end Program

/-! ### Targets of a choice -/

namespace Transfers

variable {ts : Transfers} {a : Nat} {one other t : Target}

/-- Only labels of the table have control transfers. -/
theorem lt_length_of_at? {transfer : Transfer} (h : ts.at? a = some transfer) : a < ts.length := by
  by_contra hge
  rw [at?, List.getD_eq_getElem?_getD, List.getElem?_eq_none (Nat.not_lt.mp hge)] at h
  exact absurd h (by simp)

/-- A label that chooses between two targets has these two. -/
theorem Chooses.mem_targets (h : ts.Chooses a one other) :
    t ∈ ts.targets a ↔ t = one ∨ t = other := by
  obtain ⟨condition, h | h⟩ := h
  · rw [targets, h]
    simp [Transfer.targets]
  · rw [targets, h]
    simp [Transfer.targets, or_comm]

/-- The two targets may be named in either order. -/
theorem Chooses.symm (h : ts.Chooses a one other) : ts.Chooses a other one :=
  h.imp fun _ => Or.symm

/-- A label that branches has one target. -/
theorem mem_targets_branch (h : ts.at? a = some (.branch one)) :
    t ∈ ts.targets a ↔ t = one := by
  rw [targets, h]
  simp [Transfer.targets]

end Transfers

namespace Lowered

open Transfers

variable {ts ts' : Transfers} {p : Program} {after start : Target} {ids : List Nat}

/-! ### Entry and exit -/

/-- A program with statements is entered at one of its labels. -/
theorem exists_start (h : Lowered ts p after start ids) (hp : p ≠ .done) :
    ∃ a ∈ ids, start = .label a := by
  cases h with
  | done => exact absurd rfl hp
  | _ => exact ⟨_, List.mem_cons_self, rfl⟩

/-- A program that does not start with a label is empty. -/
theorem eq_done_of_isMarker (h : Lowered ts p after start ids) (hs : start.isMarker = true) :
    p = .done ∧ start = after := by
  cases h with
  | done => exact ⟨rfl, rfl⟩
  | _ => exact absurd hs Bool.false_ne_true

/-- A program starts at one of its labels, or where it continues. -/
theorem start_mem (h : Lowered ts p after start ids) {s : Nat} (hs : start = .label s) :
    s ∈ ids ∨ after = .label s := by
  by_cases hp : p = .done
  · subst hp
    cases h
    exact Or.inr hs
  · obtain ⟨a, ha, rfl⟩ := h.exists_start hp
    exact Or.inl (Target.label.inj hs ▸ ha)

/-- The labels of a program have control transfers. -/
theorem lt_length (h : Lowered ts p after start ids) : ∀ x ∈ ids, x < ts.length := by
  have hchoice : ∀ {x : Nat} {one other : Target}, ts.Chooses x one other → x < ts.length :=
    fun ⟨_, hat⟩ => hat.elim lt_length_of_at? lt_length_of_at?
  induction h with
  | done => exact fun x hx => absurd hx List.not_mem_nil
  | plain _ hat ih => exact List.forall_mem_cons.mpr ⟨lt_length_of_at? hat, ih⟩
  | ifThen _ _ _ hchooses ih ihArm =>
    exact List.forall_mem_cons.mpr ⟨hchoice hchooses, List.forall_mem_append.mpr ⟨ihArm, ih⟩⟩
  | ifThenElse _ _ _ _ _ hchooses ih ihOne ihOther =>
    exact List.forall_mem_cons.mpr ⟨hchoice hchooses,
      List.forall_mem_append.mpr ⟨List.forall_mem_append.mpr ⟨ihOne, ihOther⟩, ih⟩⟩
  | whileLoop _ _ _ hchooses ih ihBody =>
    exact List.forall_mem_cons.mpr ⟨hchoice hchooses, List.forall_mem_append.mpr ⟨ihBody, ih⟩⟩

/-- Control that leaves a program goes on with what follows. -/
theorem jumps_mem (h : Lowered ts p after start ids) {x y : Nat} (hx : x ∈ ids)
    (hxy : ts.Jumps x y) : y ∈ ids ∨ after = .label y := by
  induction h with
  | done => exact absurd hx List.not_mem_nil
  | plain hnext hat ih =>
    have hstart := hnext.start_mem (s := y)
    have htargets := mem_targets_branch (t := .label y) hat
    grind [Jumps]
  | ifThen hnext _ harm hchooses ih ihArm =>
    have hstart := hnext.start_mem (s := y)
    have harmStart := harm.start_mem (s := y)
    have htargets := hchooses.mem_targets (t := .label y)
    grind [Jumps]
  | ifThenElse hnext _ hone _ hother hchooses ih ihOne ihOther =>
    have hstart := hnext.start_mem (s := y)
    have honeStart := hone.start_mem (s := y)
    have hotherStart := hother.start_mem (s := y)
    have htargets := hchooses.mem_targets (t := .label y)
    grind [Jumps]
  | whileLoop hnext _ hbody hchooses ih ihBody =>
    have hstart := hnext.start_mem (s := y)
    have hbodyStart := hbody.start_mem (s := y)
    have htargets := hchooses.mem_targets (t := .label y)
    grind [Jumps]

/-- If a label follows a program, a label starts it. -/
theorem exists_start_of_after (h : Lowered ts p after start ids) {k : Nat}
    (hk : after = .label k) : ∃ s, start = .label s := by
  cases h with
  | done => exact ⟨k, hk⟩
  | _ => exact ⟨_, rfl⟩

section Walks

variable {R : Nat → Nat → Prop}

/-- Where all labels of a program lead its start leads too. -/
theorem start_reaches (h : Lowered ts p after start ids) {k : Nat} (hk : after = .label k)
    (hall : ∀ x ∈ ids, ReflTransGen R x k) {s : Nat} (hs : start = .label s) :
    ReflTransGen R s k := by
  rcases h.start_mem hs with h | h
  · exact hall s h
  · exact Target.label.inj (hk.symm.trans h) ▸ ReflTransGen.refl

/-- All labels of a program lead to what follows. -/
theorem reaches (h : Lowered ts p after start ids) {k : Nat} (hk : after = .label k)
    (hR : ∀ x ∈ ids, ∀ y, ts.Jumps x y → R x y) : ∀ x ∈ ids, ReflTransGen R x k := by
  induction h generalizing k with
  | done => exact fun x hx => absurd hx List.not_mem_nil
  | plain hnext hat ih =>
    have hlater := ih hk fun x hx => hR x (List.mem_cons_of_mem _ hx)
    obtain ⟨s, rfl⟩ := hnext.exists_start_of_after hk
    refine List.forall_mem_cons.mpr ⟨?_, hlater⟩
    exact (hnext.start_reaches hk hlater rfl).head
      (hR _ List.mem_cons_self s ((mem_targets_branch hat).mpr rfl))
  | ifThen hnext _ harm hchooses ih ihArm =>
    obtain ⟨s, rfl⟩ := hnext.exists_start_of_after hk
    simp only [List.forall_mem_cons, List.forall_mem_append] at hR ⊢
    have hlater := ih hk hR.2.2
    have hstart := hnext.start_reaches hk hlater rfl
    exact ⟨hstart.head (hR.1 s (hchooses.mem_targets.mpr (Or.inr rfl))),
      fun x hx => (ihArm rfl hR.2.1 x hx).trans hstart, hlater⟩
  | ifThenElse hnext hone' hone _ _ hchooses ih ihOne ihOther =>
    obtain ⟨s, rfl⟩ := hnext.exists_start_of_after hk
    obtain ⟨b, hb, rfl⟩ := hone.exists_start hone'
    simp only [List.forall_mem_cons, List.forall_mem_append] at hR ⊢
    have hlater := ih hk hR.2.2
    have hstart := hnext.start_reaches hk hlater rfl
    have harm := fun x hx => (ihOne rfl hR.2.1.1 x hx).trans hstart
    exact ⟨(harm b hb).head (hR.1 b (hchooses.mem_targets.mpr (Or.inl rfl))),
      ⟨harm, fun x hx => (ihOther rfl hR.2.1.2 x hx).trans hstart⟩, hlater⟩
  | whileLoop hnext _ _ hchooses ih ihBody =>
    obtain ⟨s, rfl⟩ := hnext.exists_start_of_after hk
    simp only [List.forall_mem_cons, List.forall_mem_append] at hR ⊢
    have hlater := ih hk hR.2.2
    have hhead := (hnext.start_reaches hk hlater rfl).head
      (hR.1 s (hchooses.mem_targets.mpr (Or.inr rfl)))
    exact ⟨hhead, fun x hx => (ihBody rfl hR.2.1 x hx).trans hhead, hlater⟩

/-- What leads to the start of a program leads to all its labels. -/
theorem reached_of_start (h : Lowered ts p after start ids) {a : Nat}
    (hstart : ∀ s ∈ ids, start = .label s → ReflTransGen R a s)
    (hall : ∀ s, start = .label s → ∀ x ∈ ids, ReflTransGen R s x) :
    ∀ x ∈ ids, ReflTransGen R a x := by
  intro x hx
  obtain ⟨s, hs, rfl⟩ := h.exists_start fun hp => by
    subst hp
    cases h
    exact absurd hx List.not_mem_nil
  exact (hstart s hs rfl).trans (hall s rfl x hx)

/-- The start of a program leads to all its labels. -/
theorem reached (h : Lowered ts p after start ids)
    (hR : ∀ x ∈ ids, ∀ y ∈ ids, ts.Jumps x y → R x y) :
    ∀ s, start = .label s → ∀ x ∈ ids, ReflTransGen R s x := by
  induction h with
  | done => exact fun s _ x hx => absurd hx List.not_mem_nil
  | plain hnext hat ih =>
    intro s hs
    obtain rfl := Target.label.inj hs
    simp only [List.forall_mem_cons] at hR ⊢
    refine ⟨ReflTransGen.refl, hnext.reached_of_start (fun s hs h => ?_)
      (ih fun x hx => (hR.2 x hx).2)⟩
    exact ReflTransGen.single (hR.1.2 s hs ((mem_targets_branch hat).mpr h.symm))
  | ifThen hnext _ harm hchooses ih ihArm =>
    intro s hs
    obtain rfl := Target.label.inj hs
    simp only [List.forall_mem_cons, List.forall_mem_append] at hR ⊢
    refine ⟨ReflTransGen.refl, harm.reached_of_start (fun s hs h => ?_)
      (ihArm fun x hx => (hR.2.1 x hx).2.1), hnext.reached_of_start (fun s hs h => ?_)
      (ih fun x hx => (hR.2.2 x hx).2.2)⟩
    · exact ReflTransGen.single (hR.1.2.1 s hs (hchooses.mem_targets.mpr (Or.inl h.symm)))
    · exact ReflTransGen.single (hR.1.2.2 s hs (hchooses.mem_targets.mpr (Or.inr h.symm)))
  | ifThenElse hnext hone' hone _ hother hchooses ih ihOne ihOther =>
    intro s hs
    obtain rfl := Target.label.inj hs
    simp only [List.forall_mem_cons, List.forall_mem_append] at hR ⊢
    have hfirst := hone.reached_of_start (fun s hs h => ReflTransGen.single
      (hR.1.2.1.1 s hs (hchooses.mem_targets.mpr (Or.inl h.symm))))
      (ihOne fun x hx => (hR.2.1.1 x hx).2.1.1)
    refine ⟨ReflTransGen.refl, ⟨hfirst, hother.reached_of_start (fun s hs h => ?_)
      (ihOther fun x hx => (hR.2.1.2 x hx).2.1.2)⟩, hnext.reached_of_start (fun s hs h => ?_)
      (ih fun x hx => (hR.2.2 x hx).2.2)⟩
    · exact ReflTransGen.single (hR.1.2.1.2 s hs (hchooses.mem_targets.mpr (Or.inr h.symm)))
    · -- the label itself does not lead to what follows, but its arms do
      obtain ⟨b, hb, rfl⟩ := hone.exists_start hone'
      refine (hfirst b hb).trans (hone.reaches h (fun x hx y hxy => ?_) b hb)
      rcases hone.jumps_mem hx hxy with hy | hy
      · exact (hR.2.1.1 x hx).2.1.1 y hy hxy
      · exact (hR.2.1.1 x hx).2.2 y (Target.label.inj (h.symm.trans hy) ▸ hs) hxy
  | whileLoop hnext _ hbody hchooses ih ihBody =>
    intro s hs
    obtain rfl := Target.label.inj hs
    simp only [List.forall_mem_cons, List.forall_mem_append] at hR ⊢
    refine ⟨ReflTransGen.refl, hbody.reached_of_start (fun s hs h => ?_)
      (ihBody fun x hx => (hR.2.1 x hx).2.1), hnext.reached_of_start (fun s hs h => ?_)
      (ih fun x hx => (hR.2.2 x hx).2.2)⟩
    · exact ReflTransGen.single (hR.1.2.1 s hs (hchooses.mem_targets.mpr (Or.inl h.symm)))
    · exact ReflTransGen.single (hR.1.2.2 s hs (hchooses.mem_targets.mpr (Or.inr h.symm)))

end Walks

/-! ### Where paths end -/

section Ends

variable {set : LabelSet}

/-- A label with a jump within the set ends no path, unless it returns. -/
theorem not_endsPaths_of_jumps {a : Nat} {one other : Target} (hchooses : ts.Chooses a one other)
    {b : Nat} (hb : ts.JumpsWithin set a b) : ¬ts.EndsPaths set a := by
  rintro (⟨value, hret⟩ | ⟨_, hnone⟩)
  · obtain ⟨condition, h | h⟩ := hchooses <;> exact absurd (hret.symm.trans h) (by simp)
  · exact hnone b hb

/-- **Paths end in a program only at its last statement**, and only if that can end and
what follows is expressed by nesting. -/
theorem ends_of_endsPaths (h : Lowered ts p after start ids) (hids : ∀ x ∈ ids, x ∈ set)
    (hafter : ∀ k, after = .label k → k ∈ set) {x : Nat} (hx : x ∈ ids)
    (hend : ts.EndsPaths set x) : after.isMarker = true ∧ p.ends = true := by
  induction h with
  | done => exact absurd hx List.not_mem_nil
  | plain hnext hat ih =>
    simp only [List.forall_mem_cons] at hids
    rcases List.mem_cons.mp hx with rfl | hx
    · rcases hend with ⟨value, hret⟩ | ⟨⟨target, ht, hmarker⟩, hnone⟩
      · exact absurd (hret.symm.trans hat) (by simp)
      · obtain rfl := (mem_targets_branch hat).mp ht
        obtain ⟨rfl, rfl⟩ := hnext.eq_done_of_isMarker hmarker
        exact ⟨hmarker, rfl⟩
    · obtain ⟨hmarker, hends⟩ := ih hids.2 hafter hx
      exact ⟨hmarker, by simp [Program.ends, hends]⟩
  | ifThen hnext hne harm hchooses ih ihArm =>
    simp only [List.forall_mem_cons, List.forall_mem_append] at hids
    have hstart : ∀ s, _ = Target.label s → s ∈ set := fun s hs =>
      (hnext.start_mem hs).elim (hids.2.2 s) (hafter s)
    rcases List.mem_cons.mp hx with rfl | hx
    · obtain ⟨b, hb, rfl⟩ := harm.exists_start hne
      exact absurd hend (not_endsPaths_of_jumps hchooses
        ⟨hids.1, hids.2.1 b hb, hchooses.mem_targets.mpr (Or.inl rfl)⟩)
    · rcases List.mem_append.mp hx with hx | hx
      · obtain ⟨hmarker, hends⟩ := ihArm hids.2.1 hstart hx
        obtain ⟨rfl, rfl⟩ := hnext.eq_done_of_isMarker hmarker
        exact ⟨hmarker, hends⟩
      · obtain ⟨hmarker, hends⟩ := ih hids.2.2 hafter hx
        exact ⟨hmarker, by simp [Program.ends, Program.isDone_of_ends hends, hends]⟩
  | ifThenElse hnext hone' hone _ hother hchooses ih ihOne ihOther =>
    simp only [List.forall_mem_cons, List.forall_mem_append] at hids
    have hstart : ∀ s, _ = Target.label s → s ∈ set := fun s hs =>
      (hnext.start_mem hs).elim (hids.2.2 s) (hafter s)
    rcases List.mem_cons.mp hx with rfl | hx
    · obtain ⟨b, hb, rfl⟩ := hone.exists_start hone'
      exact absurd hend (not_endsPaths_of_jumps hchooses
        ⟨hids.1, hids.2.1.1 b hb, hchooses.mem_targets.mpr (Or.inl rfl)⟩)
    · rcases List.mem_append.mp hx with hx | hx
      · rcases List.mem_append.mp hx with hx | hx
        · obtain ⟨hmarker, hends⟩ := ihOne hids.2.1.1 hstart hx
          obtain ⟨rfl, rfl⟩ := hnext.eq_done_of_isMarker hmarker
          exact ⟨hmarker, by simp [Program.ends, Program.isDone, hends]⟩
        · obtain ⟨hmarker, hends⟩ := ihOther hids.2.1.2 hstart hx
          obtain ⟨rfl, rfl⟩ := hnext.eq_done_of_isMarker hmarker
          exact ⟨hmarker, by simp [Program.ends, Program.isDone, hends]⟩
      · obtain ⟨hmarker, hends⟩ := ih hids.2.2 hafter hx
        exact ⟨hmarker, by simp [Program.ends, Program.isDone_of_ends hends, hends]⟩
  | whileLoop hnext hne hbody hchooses ih ihBody =>
    simp only [List.forall_mem_cons, List.forall_mem_append] at hids
    rcases List.mem_cons.mp hx with rfl | hx
    · obtain ⟨b, hb, rfl⟩ := hbody.exists_start hne
      exact absurd hend (not_endsPaths_of_jumps hchooses
        ⟨hids.1, hids.2.1 b hb, hchooses.mem_targets.mpr (Or.inl rfl)⟩)
    · rcases List.mem_append.mp hx with hx | hx
      · have hback := ihBody hids.2.1 (fun k hk => Target.label.inj hk ▸ hids.1) hx
        exact absurd hback.1 Bool.false_ne_true
      · exact ih hids.2.2 hafter hx

/-- A last statement that can end does so where what follows is expressed by nesting. -/
theorem exists_endsPaths (h : Lowered ts p after start ids) (hmarker : after.isMarker = true)
    (hends : p.ends = true) : ∃ x ∈ ids, ts.EndsPaths set x := by
  induction h with
  | done => exact absurd hends Bool.false_ne_true
  | @plain next after start ids a hnext hat ih =>
    rw [Program.ends, Bool.or_eq_true, Program.isDone_iff] at hends
    rcases hends with rfl | hends
    · cases hnext
      refine ⟨a, List.mem_cons_self, Or.inr ⟨⟨_, (mem_targets_branch hat).mpr rfl, hmarker⟩, ?_⟩⟩
      rintro b ⟨_, _, hb⟩
      exact Target.ne_label hmarker b ((mem_targets_branch hat).mp hb).symm
    · obtain ⟨x, hx, hend⟩ := ih hmarker hends
      exact ⟨x, List.mem_cons_of_mem _ hx, hend⟩
  | ifThen hnext _ _ _ ih ihArm =>
    rw [Program.ends] at hends
    split at hends
    next hp =>
      rw [Program.isDone_iff] at hp
      subst hp
      cases hnext
      obtain ⟨x, hx, hend⟩ := ihArm hmarker hends
      exact ⟨x, by simp [hx], hend⟩
    next =>
      obtain ⟨x, hx, hend⟩ := ih hmarker hends
      exact ⟨x, by simp [hx], hend⟩
  | ifThenElse hnext _ _ _ _ _ ih ihOne ihOther =>
    rw [Program.ends] at hends
    split at hends
    next hp =>
      rw [Program.isDone_iff] at hp
      subst hp
      cases hnext
      rcases Bool.or_eq_true_iff.mp hends with hends | hends
      · obtain ⟨x, hx, hend⟩ := ihOne hmarker hends
        exact ⟨x, by simp [hx], hend⟩
      · obtain ⟨x, hx, hend⟩ := ihOther hmarker hends
        exact ⟨x, by simp [hx], hend⟩
    next =>
      obtain ⟨x, hx, hend⟩ := ih hmarker hends
      exact ⟨x, by simp [hx], hend⟩
  | whileLoop _ _ _ _ ih _ =>
    obtain ⟨x, hx, hend⟩ := ih hmarker hends
    exact ⟨x, by simp [hx], hend⟩

end Ends

/-! ### Other tables -/

/-- Exchanging targets other than the labels of a program leaves it a lowered program. -/
theorem map (h : Lowered ts p after start ids) {f : Target → Target}
    (hat : ∀ x ∈ ids, ts'.at? x = (ts.at? x).map (Transfer.mapTargets f))
    (hf : ∀ x ∈ ids, f (.label x) = .label x) : Lowered ts' p (f after) (f start) ids := by
  have hchoice : ∀ {a one other}, ts'.at? a = (ts.at? a).map (Transfer.mapTargets f) →
      ts.Chooses a one other → ts'.Chooses a (f one) (f other) := by
    rintro a one other hat ⟨condition, h | h⟩
    · exact ⟨condition, Or.inl (by rw [hat, h]; rfl)⟩
    · exact ⟨condition, Or.inr (by rw [hat, h]; rfl)⟩
  induction h with
  | done => exact .done _
  | plain hnext hbranch ih =>
    simp only [List.forall_mem_cons] at hat hf
    rw [hf.1]
    exact .plain (ih hat.2 hf.2) (by rw [hat.1, hbranch]; rfl)
  | ifThen hnext hne harm hchooses ih ihArm =>
    simp only [List.forall_mem_cons, List.forall_mem_append] at hat hf
    rw [hf.1]
    exact .ifThen (ih hat.2.2 hf.2.2) hne (ihArm hat.2.1 hf.2.1) (hchoice hat.1 hchooses)
  | ifThenElse hnext hone' hone hother' hother hchooses ih ihOne ihOther =>
    simp only [List.forall_mem_cons, List.forall_mem_append] at hat hf
    rw [hf.1]
    exact .ifThenElse (ih hat.2.2 hf.2.2) hone' (ihOne hat.2.1.1 hf.2.1.1) hother'
      (ihOther hat.2.1.2 hf.2.1.2) (hchoice hat.1 hchooses)
  | whileLoop hnext hne hbody hchooses ih ihBody =>
    simp only [List.forall_mem_cons, List.forall_mem_append] at hat hf
    have hback := ihBody hat.2.1 hf.2.1
    rw [hf.1] at hback ⊢
    exact .whileLoop (ih hat.2.2 hf.2.2) hne hback (hchoice hat.1 hchooses)

/-- So does changing other labels. -/
theorem congr (h : Lowered ts p after start ids) (hat : ∀ x ∈ ids, ts'.at? x = ts.at? x) :
    Lowered ts' p after start ids := by
  refine h.map (f := fun t => t) (fun x hx => ?_) fun _ _ => rfl
  rw [hat x hx]
  cases ts.at? x <;> simp [Transfer.mapTargets_id]

end Lowered
end StructuredFlow
