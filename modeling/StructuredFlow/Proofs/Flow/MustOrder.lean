/-
# The order in which labels must be got to

Of the labels that a label must get to, the one that comes first on every walk must itself
get to all others.  So the relation is a strict order (`MustPass.asymm`, `MustPass.trans`),
what a label must get to is a chain in it (`MustPass.total`), and the number of labels that a
label must get to falls along it (`mustCount_lt`): a candidate that must get to all other
candidates comes before them wherever candidates are compared by that number
(`head?_mergeSort`, `firstCandidate?_eq`).
-/

import StructuredFlow.Proofs.Flow.MustGetTo

namespace StructuredFlow

open Relation Structuring

namespace EndingWalk

variable {step : Nat → Nat → Prop} {ends : Nat → Prop} {a b : Nat} {walk : List Nat}

/-- A walk begins at its label. -/
theorem exists_eq_cons (h : EndingWalk step ends a walk) : ∃ rest, walk = a :: rest := by
  cases h with
  | stop => exact ⟨[], rfl⟩
  | step => exact ⟨_, rfl⟩

/-- A walk holds its label. -/
theorem head_mem (h : EndingWalk step ends a walk) : a ∈ walk := by
  obtain ⟨rest, rfl⟩ := h.exists_eq_cons
  exact List.mem_cons_self

/-- The part of a walk from another label on is shorter. -/
theorem exists_shorter (h : EndingWalk step ends a walk) (hb : b ∈ walk) (hne : b ≠ a) :
    ∃ rest, EndingWalk step ends b rest ∧ rest.length < walk.length ∧ rest ⊆ walk := by
  induction h with
  | stop => exact absurd (List.mem_singleton.mp hb) hne
  | @step a c walk _ hw ih =>
    have hb := (List.mem_cons.mp hb).resolve_left hne
    by_cases hbc : b = c
    · subst hbc
      exact ⟨walk, hw, Nat.lt_succ_self _, List.subset_cons_self _ _⟩
    · obtain ⟨rest, hrest, hlt, hsub⟩ := ih hb hbc
      exact ⟨rest, hrest, Nat.lt_succ_of_lt hlt, List.subset_cons_of_subset _ hsub⟩

/-- A walk stays where steps do not lead out. -/
theorem subset {P : Nat → Prop} (h : EndingWalk step ends a walk)
    (hP : ∀ x y, P x → step x y → P y) (ha : P a) : ∀ x ∈ walk, P x := by
  induction h with
  | stop => exact fun x hx => List.mem_singleton.mp hx ▸ ha
  | step hab _ ih => exact List.forall_mem_cons.mpr ⟨ha, ih (hP _ _ ha hab)⟩

/-- A walk that leaves labels with `P` goes on from the one label that they are left for. -/
theorem exists_of_leaves {P : Nat → Prop} (h : EndingWalk step ends a walk)
    (hP : ∀ x y, P x → step x y → P y ∨ y = b) (ha : P a) (hout : ∃ x ∈ walk, ¬P x) :
    ∃ rest, EndingWalk step ends b rest ∧ rest ⊆ walk := by
  obtain ⟨x, hx, hnot⟩ := hout
  induction h with
  | stop => exact absurd (List.mem_singleton.mp hx ▸ ha) hnot
  | step hab hw ih =>
    rcases hP _ _ ha hab with hc | rfl
    · have hx := (List.mem_cons.mp hx).resolve_left fun h => hnot (h ▸ ha)
      obtain ⟨rest, hrest, hsub⟩ := ih hc hx
      exact ⟨rest, hrest, List.subset_cons_of_subset _ hsub⟩
    · exact ⟨_, hw, List.subset_cons_self _ _⟩

/-- A walk holds an end. -/
theorem exists_end (h : EndingWalk step ends a walk) : ∃ x ∈ walk, ends x := by
  induction h with
  | stop he => exact ⟨_, List.mem_cons_self, he⟩
  | step _ _ ih =>
    obtain ⟨x, hx, he⟩ := ih
    exact ⟨x, List.mem_cons_of_mem _ hx, he⟩

/-- A walk can be begun earlier, through labels with `P`. -/
theorem exists_before {P : Nat → Prop} (h : EndingWalk step ends b walk)
    (hw : ReflTransGen (fun x y => P x ∧ step x y) a b) :
    ∃ longer, EndingWalk step ends a longer ∧ ∀ x ∈ longer, P x ∨ x ∈ walk := by
  induction hw using ReflTransGen.head_induction_on with
  | refl => exact ⟨walk, h, fun x hx => Or.inr hx⟩
  | @head x y hxy _ ih =>
    obtain ⟨longer, hlonger, hsub⟩ := ih
    exact ⟨_, EndingWalk.step hxy.2 hlonger, List.forall_mem_cons.mpr ⟨Or.inl hxy.1, hsub⟩⟩

/-- A walk that passes a label with `P` has labels without it, then a first one with it. -/
theorem exists_first {P : Nat → Prop} (h : EndingWalk step ends a walk)
    (hP : ∃ x ∈ walk, P x) : ∃ before b rest, walk = before ++ rest ∧ (∀ x ∈ before, ¬P x) ∧ P b ∧
      ReflTransGen (fun x y => ¬P x ∧ step x y) a b ∧ EndingWalk step ends b rest := by
  obtain ⟨x, hx, hPx⟩ := hP
  induction h with
  | stop he =>
    obtain rfl := List.mem_singleton.mp hx
    exact ⟨[], _, _, rfl, by simp, hPx, ReflTransGen.refl, EndingWalk.stop he⟩
  | @step a c walk hac hw ih =>
    by_cases ha : P a
    · exact ⟨[], a, _, rfl, by simp, ha, ReflTransGen.refl, EndingWalk.step hac hw⟩
    · have hx := (List.mem_cons.mp hx).resolve_left fun h => ha (h ▸ hPx)
      obtain ⟨before, b, rest, rfl, hbefore, hb, hreach, hrest⟩ := ih hx
      exact ⟨a :: before, b, rest, rfl, List.forall_mem_cons.mpr ⟨ha, hbefore⟩, hb,
        hreach.head ⟨ha, hac⟩, hrest⟩

end EndingWalk

/-- There are walks from a label to an end, and all of them pass another label. -/
def MustPass (step : Nat → Nat → Prop) (ends : Nat → Prop) (a b : Nat) : Prop :=
  b ≠ a ∧ (∃ walk, EndingWalk step ends a walk) ∧ ∀ walk, EndingWalk step ends a walk → b ∈ walk

namespace MustPass

variable {step : Nat → Nat → Prop} {ends : Nat → Prop} {a b c : Nat}

/-- A shortest walk to an end does not come back. -/
theorem asymm (hab : MustPass step ends a b) : ¬MustPass step ends b a := by
  rintro ⟨_, -, hba⟩
  obtain ⟨hne, ⟨walk, hwalk⟩, hpass⟩ := hab
  have hshorter : ∀ n, ∀ walk, EndingWalk step ends a walk → walk.length ≠ n := by
    intro n
    induction n using Nat.strong_induction_on with
    | _ n ih =>
      rintro walk hwalk rfl
      obtain ⟨fromB, hfromB, hltB, -⟩ := hwalk.exists_shorter (hpass walk hwalk) hne
      obtain ⟨fromA, hfromA, hltA, -⟩ := hfromB.exists_shorter (hba fromB hfromB) hne.symm
      exact ih _ (hltA.trans hltB) fromA hfromA rfl
  exact hshorter _ walk hwalk rfl

/-- What must be passed from a label that must be passed must be passed as well. -/
theorem trans (hab : MustPass step ends a b) (hbc : MustPass step ends b c) :
    MustPass step ends a c := by
  refine ⟨?_, hab.2.1, fun walk hwalk => ?_⟩
  · rintro rfl
    exact hab.asymm hbc
  · obtain ⟨rest, hrest, -, hsub⟩ := hwalk.exists_shorter (hab.2.2 walk hwalk) hab.1
    exact hsub (hbc.2.2 rest hrest)

/-- What must be passed is still ahead of a label that comes before it. -/
theorem of_before (hac : MustPass step ends a c) (hne : c ≠ b)
    (hw : ReflTransGen (fun x y => x ≠ c ∧ step x y) a b)
    (hb : ∃ walk, EndingWalk step ends b walk) : MustPass step ends b c := by
  refine ⟨hne, hb, fun walk hwalk => ?_⟩
  obtain ⟨longer, hlonger, hsub⟩ := hwalk.exists_before hw
  exact (hsub c (hac.2.2 longer hlonger)).resolve_left fun h => h rfl

/-- **What a label must get to is a chain**: of two such labels, the one that comes first
on some walk comes first on all of them. -/
theorem total (hab : MustPass step ends a b) (hac : MustPass step ends a c) (hne : b ≠ c) :
    MustPass step ends b c ∨ MustPass step ends c b := by
  obtain ⟨walk, hwalk⟩ := hab.2.1
  obtain ⟨-, x, rest, -, -, hx, hreach, hrest⟩ := hwalk.exists_first (P := fun x => x = b ∨ x = c)
    ⟨b, hab.2.2 walk hwalk, Or.inl rfl⟩
  rcases hx with rfl | rfl
  · refine Or.inl (hac.of_before hne.symm ?_ ⟨rest, hrest⟩)
    exact ReflTransGen.mono (fun y z h => ⟨fun hy => h.1 (Or.inr hy), h.2⟩) _ _ hreach
  · refine Or.inr (hab.of_before hne ?_ ⟨rest, hrest⟩)
    exact ReflTransGen.mono (fun y z h => ⟨fun hy => h.1 (Or.inl hy), h.2⟩) _ _ hreach

/-- A label that must be passed and must itself get to all others with `P` is the first of
them on every walk. -/
theorem exists_first_eq {P : Nat → Prop} (hab : MustPass step ends a b) (hb : P b)
    (hall : ∀ c, P c → c ≠ b → MustPass step ends b c) {walk : List Nat}
    (hwalk : EndingWalk step ends a walk) :
    ∃ before rest, walk = before ++ b :: rest ∧ ∀ x ∈ before, ¬P x := by
  obtain ⟨before, x, rest, rfl, hbefore, hx, hreach, hrest⟩ :=
    hwalk.exists_first ⟨b, hab.2.2 walk hwalk, hb⟩
  have hxb : x = b := by
    by_contra hne
    refine (hall x hx hne).asymm (hab.of_before (Ne.symm hne) ?_ ⟨rest, hrest⟩)
    exact ReflTransGen.mono (fun y z h => ⟨fun hy => h.1 (hy ▸ hb), h.2⟩) _ _ hreach
  subst hxb
  obtain ⟨rest, rfl⟩ := hrest.exists_eq_cons
  exact ⟨before, rest, rfl, hbefore⟩

end MustPass

/-! ### Counting what must be got to -/

namespace Structuring

variable {ts : Transfers} {set : LabelSet} {a b c : Nat}

/-- The record of a label lists what all walks from it must pass. -/
theorem mem_mustGetTo_iff_mustPass (hset : ∀ id ∈ set, id < ts.length) (ha : a ∈ set) :
    b ∈ (flowAt (Flow.analyze ts set) a).mustGetTo ↔
      MustPass (ts.JumpsWithin set) (ts.EndsPaths set) a b :=
  Flow.mem_mustGetTo_analyze hset ha

/-- **A label that must be got to must itself get to fewer labels.** -/
theorem mustCount_lt (hset : ∀ id ∈ set, id < ts.length) (ha : a ∈ set) (hb : b ∈ set)
    (h : MustPass (ts.JumpsWithin set) (ts.EndsPaths set) a b) :
    mustCount (Flow.analyze ts set) b < mustCount (Flow.analyze ts set) a := by
  rw [mustCount, mustCount, LabelSet.size_eq_card, LabelSet.size_eq_card]
  refine LabelSet.card_lt_of_subset (i := b) (fun c hc => ?_)
    ((mem_mustGetTo_iff_mustPass hset ha).mpr h) fun hself => ?_
  · exact (mem_mustGetTo_iff_mustPass hset ha).mpr
      (h.trans ((mem_mustGetTo_iff_mustPass hset hb).mp hc))
  · exact ((mem_mustGetTo_iff_mustPass hset hb).mp hself).1 rfl

/-! ### The first of the candidates -/

section Candidates

variable {flows : List Flow} {ids : List Nat} {best : Nat}

/-- One candidate comes before all others. -/
def Leads (flows : List Flow) (best : Nat) (ids : List Nat) : Prop :=
  best ∈ ids ∧ ∀ a ∈ ids, a = best ∨ mustCount flows a < mustCount flows best

/-- A label that must pass more comes before. -/
theorem comesBefore_of_lt (h : mustCount flows a < mustCount flows b) :
    comesBefore flows b a = true := by
  simp [comesBefore, h]

/-- A label that must pass less does not come before. -/
theorem not_comesBefore_of_lt (h : mustCount flows a < mustCount flows b) :
    comesBefore flows a b = false := by
  simp [comesBefore]
  omega

/-- **The first candidate is the one that leads the others.** -/
theorem firstCandidate?_eq (h : Leads flows best ids) : firstCandidate? flows ids = some best := by
  have hfold : ∀ (ids : List Nat) (found : Nat), (∀ a ∈ found :: ids, a = best ∨
      mustCount flows a < mustCount flows best) → best ∈ found :: ids →
      ids.foldl (fun best a => if comesBefore flows best a then best else a) found = best := by
    intro ids
    induction ids with
    | nil => exact fun found _ hmem => (List.mem_singleton.mp hmem).symm
    | cons a ids ih =>
      intro found hall hmem
      rw [List.foldl_cons]
      obtain ⟨hfound, ha, hall⟩ : _ ∧ _ ∧ _ := by
        rwa [List.forall_mem_cons, List.forall_mem_cons] at hall
      rw [List.mem_cons, List.mem_cons] at hmem
      have hbetter : (if comesBefore flows found a then found else a) = best ∨ best ∈ ids := by
        rcases hmem with rfl | rfl | hmem
        · left
          rcases ha with rfl | ha
          · exact ite_self _
          · rw [comesBefore_of_lt ha, if_pos rfl]
        · left
          rcases hfound with rfl | hfound
          · exact ite_self _
          · rw [not_comesBefore_of_lt hfound, if_neg Bool.false_ne_true]
        · exact Or.inr hmem
      refine ih _ (List.forall_mem_cons.mpr ⟨?_, hall⟩)
        (List.mem_cons.mpr (hbetter.imp_left Eq.symm))
      split
      · exact hfound
      · exact ha
  obtain ⟨hmem, hall⟩ := h
  cases ids with
  | nil => exact absurd hmem List.not_mem_nil
  | cons a ids => exact congrArg some (hfold ids a hall hmem)

/-- The order of candidates is transitive. -/
theorem comesBefore_trans (hab : comesBefore flows a b = true)
    (hbc : comesBefore flows b c = true) : comesBefore flows a c = true := by
  simp only [comesBefore, Bool.or_eq_true, Bool.and_eq_true, decide_eq_true_eq, beq_iff_eq] at *
  omega

/-- Of two candidates one comes before the other. -/
theorem comesBefore_total (flows : List Flow) (a b : Nat) :
    comesBefore flows a b = true ∨ comesBefore flows b a = true := by
  simp only [comesBefore, Bool.or_eq_true, Bool.and_eq_true, decide_eq_true_eq, beq_iff_eq]
  omega

/-- Candidates end up sorted. -/
theorem pairwise_mergeSort_comesBefore (flows : List Flow) (ids : List Nat) :
    (ids.mergeSort (comesBefore flows)).Pairwise fun a b => comesBefore flows a b = true := by
  have htrans : ∀ a b c, comesBefore flows a b = true → comesBefore flows b c = true →
      comesBefore flows a c = true := fun _ _ _ => comesBefore_trans
  have htotal : ∀ a b, (comesBefore flows a b || comesBefore flows b a) = true := fun a b =>
    (Bool.or_eq_true _ _).mpr (comesBefore_total flows a b)
  exact List.pairwise_mergeSort htrans htotal ids

/-- The first candidate comes before all of them. -/
theorem comesBefore_of_firstCandidate? (h : firstCandidate? flows ids = some best) :
    ∀ a ∈ ids, comesBefore flows best a = true := by
  have hfold : ∀ (ids : List Nat) (found : Nat), ∀ a ∈ found :: ids, comesBefore flows
      (ids.foldl (fun best a => if comesBefore flows best a then best else a) found) a = true := by
    intro ids
    induction ids with
    | nil =>
      intro found a ha
      obtain rfl := List.mem_singleton.mp ha
      exact or_self_iff.mp (comesBefore_total flows a a)
    | cons a ids ih =>
      intro found
      have hnext := ih (if comesBefore flows found a then found else a)
      rw [List.forall_mem_cons] at hnext
      rw [List.foldl_cons, List.forall_mem_cons, List.forall_mem_cons]
      by_cases hfound : comesBefore flows found a = true
      · rw [if_pos hfound] at hnext ⊢
        exact ⟨hnext.1, comesBefore_trans hnext.1 hfound, hnext.2⟩
      · rw [if_neg hfound] at hnext ⊢
        have hother := (comesBefore_total flows found a).resolve_left hfound
        exact ⟨comesBefore_trans hnext.1 hother, hnext.1, hnext.2⟩
  cases ids with
  | nil => exact fun a ha => absurd ha List.not_mem_nil
  | cons a ids => exact Option.some.inj h ▸ hfold ids a

/-- Sorting puts the candidate first that leads the others. -/
theorem head?_mergeSort (h : Leads flows best ids) :
    ∃ rest, ids.mergeSort (comesBefore flows) = best :: rest := by
  have hsorted := pairwise_mergeSort_comesBefore flows ids
  have hperm : ∀ a, a ∈ ids.mergeSort (comesBefore flows) ↔ a ∈ ids := fun a => List.mem_mergeSort
  cases hids : ids.mergeSort (comesBefore flows) with
  | nil =>
    have hmem := (hperm best).mpr h.1
    rw [hids] at hmem
    exact absurd hmem List.not_mem_nil
  | cons a rest =>
    refine ⟨rest, ?_⟩
    rw [hids] at hsorted hperm
    rcases h.2 a ((hperm a).mp List.mem_cons_self) with rfl | hlt
    · rfl
    · rcases List.mem_cons.mp ((hperm best).mpr h.1) with rfl | hmem
      · rfl
      · exact absurd ((List.pairwise_cons.mp hsorted).1 best hmem)
          (by rw [not_comesBefore_of_lt hlt]; exact Bool.false_ne_true)

end Candidates

end Structuring
end StructuredFlow
