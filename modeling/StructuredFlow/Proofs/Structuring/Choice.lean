/-
# The chosen pattern splits its region

Every pattern that `choosePattern` picks for a region splits it
(`splits_choosePattern`).  The parts of loops and conditionals come from
`reachAvoiding`, so what is known of them is what a search with a label to avoid
finds: it stays in the set, it is left for that label alone, and one of its starts
leads to each find.

That a crowded conditional has a jump out of its arm to the join is the one fact
that needs the labels a label must get to: the join is one of them for the first
label of the arm, so a walk leads there, and its last jump is the one sought.
-/

import StructuredFlow.Proofs.Structuring.Region

namespace StructuredFlow
namespace Structuring

open Relation StructuredFlow.Flow

variable {ts : Transfers} {set : LabelSet} {entry : Nat}

/-! ### Searching with a label to avoid -/

section ReachAvoiding

variable {within : LabelSet} {starts : List Nat} {avoid capacity : Nat}

/-- A jump within a set that does not lead to a label. -/
def AvoidingJump (ts : Transfers) (within : LabelSet) (avoid a b : Nat) : Prop :=
  ts.JumpsWithin within a b ∧ b ≠ avoid

variable (hset : ∀ id ∈ set, id < ts.length) (hwithin : ∀ id ∈ within, id ∈ set)
  (hcap : ts.length ≤ capacity)
include hset hwithin hcap

/-- **What a search that avoids a label finds** is what jumps reach from the starts without it. -/
theorem mem_reachAvoiding {a : Nat} :
    a ∈ reachAvoiding (analyze ts set) capacity starts within avoid ↔
      ∃ s ∈ starts, s ≠ avoid ∧ s ∈ within ∧ ReflTransGen (AvoidingJump ts within avoid) s a := by
  have hlt : ∀ id ∈ within, id < capacity := fun id h => (hset id (hwithin id h)).trans_le hcap
  have hstep : ∀ x ∈ within, ∀ y, StepBelow (fun id => (flowAt (analyze ts set) id).outLabels.filter
      fun id => id != avoid && within.contains id) capacity x y ↔
      AvoidingJump ts within avoid x y := by
    intro x hx y
    have hout : y ∈ (flowAt (analyze ts set) x).outLabels ↔ ts.JumpsWithin set x y :=
      mem_outLabels hset (hwithin x hx)
    simp only [StepBelow, List.mem_filter, hout, Bool.and_eq_true, bne_iff_ne,
      LabelSet.contains_iff_mem]
    constructor
    · rintro ⟨⟨hxy, hne, hy⟩, _⟩
      exact ⟨⟨hx, hy, hxy.2.2⟩, hne⟩
    · rintro ⟨hxy, hne⟩
      exact ⟨⟨⟨hwithin x hx, hwithin y hxy.2.1, hxy.2.2⟩, hne, hxy.2.1⟩, hlt y hxy.2.1⟩
  rw [reachAvoiding, mem_reach_empty]
  simp only [List.mem_filter, Bool.and_eq_true, bne_iff_ne, LabelSet.contains_iff_mem]
  constructor
  · rintro ⟨s, ⟨hs, hne, hsw⟩, _, hw⟩
    refine ⟨s, hs, hne, hsw, ?_⟩
    have : a ∈ within ∧ ReflTransGen (AvoidingJump ts within avoid) s a := by
      induction hw with
      | refl => exact ⟨hsw, ReflTransGen.refl⟩
      | tail _ hxy ih =>
        have hjump := (hstep _ ih.1 _).mp hxy
        exact ⟨hjump.1.2.1, ih.2.tail hjump⟩
    exact this.2
  · rintro ⟨s, hs, hne, hsw, hw⟩
    refine ⟨s, ⟨hs, hne, hsw⟩, hlt s hsw, ?_⟩
    exact ReflTransGen.mono (fun x y hxy => (hstep x hxy.1.1 y).mpr hxy) _ _ hw

/-- A search that avoids a label finds other members only. -/
theorem mem_within_of_reachAvoiding {a : Nat}
    (ha : a ∈ reachAvoiding (analyze ts set) capacity starts within avoid) :
    a ∈ within ∧ a ≠ avoid := by
  obtain ⟨s, _, hne, hsw, hw⟩ := (mem_reachAvoiding hset hwithin hcap).mp ha
  rcases hw.cases_tail with rfl | ⟨_, _, hstep⟩
  · exact ⟨hsw, hne⟩
  · exact ⟨hstep.1.2.1, hstep.2⟩

/-- A search that avoids a label finds its starts, apart from this one. -/
theorem start_mem_reachAvoiding {s : Nat} (hs : s ∈ starts) (hne : s ≠ avoid) (hsw : s ∈ within) :
    s ∈ reachAvoiding (analyze ts set) capacity starts within avoid :=
  (mem_reachAvoiding hset hwithin hcap).mpr ⟨s, hs, hne, hsw, ReflTransGen.refl⟩

/-- What is found is left for the label to avoid alone. -/
theorem reachAvoiding_jumps {a b : Nat}
    (ha : a ∈ reachAvoiding (analyze ts set) capacity starts within avoid) (hb : b ∈ within)
    (hab : ts.Jumps a b) :
    b ∈ reachAvoiding (analyze ts set) capacity starts within avoid ∨ avoid = b := by
  obtain ⟨haw, _⟩ := mem_within_of_reachAvoiding hset hwithin hcap ha
  obtain ⟨s, hs, hne, hsw, hw⟩ := (mem_reachAvoiding hset hwithin hcap).mp ha
  by_cases hba : b = avoid
  · exact Or.inr hba.symm
  · exact Or.inl ((mem_reachAvoiding hset hwithin hcap).mpr
      ⟨s, hs, hne, hsw, hw.tail ⟨⟨haw, hb, hab⟩, hba⟩⟩)

/-- The start leads to each find along finds. -/
theorem reachAvoiding_reached {s a : Nat}
    (ha : a ∈ reachAvoiding (analyze ts set) capacity [s] within avoid) :
    ReflTransGen
      (ts.JumpsWithin (reachAvoiding (analyze ts set) capacity [s] within avoid)) s a := by
  obtain ⟨s', hs', hne, hsw, hw⟩ := (mem_reachAvoiding hset hwithin hcap).mp ha
  obtain rfl := List.mem_singleton.mp hs'
  have hfind : ∀ x, ReflTransGen (AvoidingJump ts within avoid) s' x →
      x ∈ reachAvoiding (analyze ts set) capacity [s'] within avoid := fun x hx =>
    (mem_reachAvoiding hset hwithin hcap).mpr ⟨s', List.mem_singleton_self s', hne, hsw, hx⟩
  clear ha
  induction hw with
  | refl => exact ReflTransGen.refl
  | tail hw hstep ih => exact ih.tail ⟨hfind _ hw, hfind _ (hw.tail hstep), hstep.1.2.2⟩

end ReachAvoiding

/-- A search keeps the capacity that it is given. -/
@[simp] theorem capacity_reachAvoiding (flows : List Flow) (capacity : Nat) (starts : List Nat)
    (within : LabelSet) (avoid : Nat) :
    (reachAvoiding flows capacity starts within avoid).capacity = capacity := capacity_reach _ _ _

/-! ### Blocks of their own -/

/-- **The simple pattern splits a region** as it should: its conditions hold if it is found. -/
theorem simpleSplit_of_simpleNext? (hr : Region ts set entry) {next : Option Nat}
    (h : simpleNext? (analyze ts set) set entry = some next) : SimpleSplit ts set entry next := by
  have hset := hr.lt_length
  have he := hr.entry_mem
  have hjumps : ∀ b ∈ set, ts.Jumps entry b ↔ b ∈ (flowAt (analyze ts set) entry).outLabels :=
    fun b hb => by
      rw [mem_outLabels hset he]
      exact ⟨fun h => ⟨he, hb, h⟩, fun h => h.2.2⟩
  unfold simpleNext? at h
  dsimp only at h
  split at h
  next => exact absurd h (by simp)
  next hin =>
    have hno : ∀ a ∈ set, ¬ts.Jumps a entry := by
      intro a ha hae
      have hmem := (mem_inLabels hset he).mpr ⟨ha, he, hae⟩
      simp only [Bool.not_eq_true', Bool.not_eq_false, List.isEmpty_iff] at hin
      exact absurd (hin ▸ hmem) List.not_mem_nil
    split at h
    next hout =>
      split at h
      next hempty =>
        obtain rfl := Option.some.inj h
        exact
          { no_jump := hno
            jumps_iff := fun b hb => by rw [hjumps b hb, hout]; simp
            next_mem := fun b hb => absurd hb (by simp)
            eq_entry := fun _ a ha => by
              by_contra hne
              exact LabelSet.isEmpty_iff.mp hempty a (LabelSet.mem_erase.mpr ⟨ha, hne⟩) }
      next => exact absurd h (by simp)
    next b hout =>
      obtain rfl := Option.some.inj h
      have hb : ts.JumpsWithin set entry b :=
        (mem_outLabels hset he).mp (hout ▸ List.mem_singleton_self b)
      exact
        { no_jump := hno
          jumps_iff := fun x hx => by
            rw [hjumps x hx, hout, List.mem_singleton, Option.some.injEq]
            exact eq_comm
          next_mem := fun x hx => by
            obtain rfl := Option.some.inj hx
            refine LabelSet.mem_erase.mpr ⟨hb.2.1, fun hne => ?_⟩
            exact hno entry he (hne ▸ hb.2.2)
          eq_entry := fun hn => absurd hn (by simp) }
    next => exact absurd h (by simp)

/-! ### Loops -/

/-- The core of a loop is the entry and what leads back to it. -/
theorem mem_loopCore (hr : Region ts set entry) {a : Nat} :
    a ∈ loopCore (analyze ts set) set entry ↔
      a ∈ set ∧ (a = entry ∨ TransGen (ts.JumpsWithin set) a entry) := by
  rw [loopCore, LabelSet.mem_ofIds, List.mem_filter, LabelSet.mem_toList, Bool.or_eq_true,
    beq_iff_eq, LabelSet.contains_iff_mem]
  constructor
  · rintro ⟨⟨ha, h⟩, _⟩
    exact ⟨ha, h.imp_right (mem_allOut hr.lt_length ha).mp⟩
  · rintro ⟨ha, h⟩
    exact ⟨⟨ha, h.imp_right (mem_allOut hr.lt_length ha).mpr⟩, LabelSet.lt_capacity_of_mem ha⟩

/-- The exits of a core are the labels outside that it jumps to. -/
theorem mem_loopExits (hr : Region ts set entry) {core outsiders : LabelSet}
    (hcore : ∀ a ∈ core, a ∈ set) (hcap : core.capacity = ts.length) {b : Nat} :
    b ∈ loopExits (analyze ts set) core outsiders ↔
      b ∈ outsiders ∧ b ∈ set ∧ ∃ a ∈ core, ts.Jumps a b := by
  rw [loopExits, LabelSet.mem_ofIds, List.mem_flatMap, hcap]
  simp only [LabelSet.mem_toList, List.mem_filter, LabelSet.contains_iff_mem]
  constructor
  · rintro ⟨⟨a, ha, hab, hb⟩, _⟩
    have hjump := (mem_outLabels hr.lt_length (hcore a ha)).mp hab
    exact ⟨hb, hjump.2.1, a, ha, hjump.2.2⟩
  · rintro ⟨hb, hbs, a, ha, hab⟩
    have hjump : ts.JumpsWithin set a b := ⟨hcore a ha, hbs, hab⟩
    exact ⟨⟨a, ha, (mem_outLabels hr.lt_length (hcore a ha)).mpr hjump, hb⟩, hr.lt_length b hbs⟩

/-- A candidate for the pivot lies outside the core. -/
theorem mem_outsiders_of_mem_pivotCandidates {flows : List Flow} {core outsiders exits : LabelSet}
    (hexits : ∀ a ∈ exits, a ∈ outsiders) {a : Nat}
    (h : a ∈ pivotCandidates flows core outsiders exits) : a ∈ outsiders := by
  unfold pivotCandidates at h
  simp only [List.mem_append, List.mem_mergeSort, List.mem_filter, LabelSet.mem_toList] at h
  rcases h with h | h
  · exact h.1
  · exact hexits a h.1

/-- A pivot is one of the candidates, and reaches no label of the extension that it is chosen
with. -/
theorem choosePivot_eq_some {flows : List Flow} {outsiders exits extension : LabelSet}
    {candidates : List Nat} {pivot : Nat}
    (h : (choosePivot flows outsiders exits candidates).1 = some (pivot, extension)) :
    pivot ∈ candidates ∧
      extension = reachAvoiding flows outsiders.capacity exits.toList outsiders pivot ∧
      (flowAt flows pivot).allOut.disjoint extension = true := by
  induction candidates with
  | nil => exact absurd h (by simp [choosePivot])
  | cons candidate candidates ih =>
    rw [choosePivot] at h
    split at h
    next hd =>
      obtain ⟨rfl, rfl⟩ := Prod.mk.inj (Option.some.inj h)
      exact ⟨List.mem_cons_self, rfl, hd⟩
    next =>
      obtain ⟨hm, he, hd⟩ := ih h
      exact ⟨List.mem_cons_of_mem _ hm, he, hd⟩

/-- A loop none of whose labels jumps out of it is the whole region. -/
theorem loopSplit_of_no_exits (hr : Region ts set entry)
    (hempty : (loopExits (analyze ts set) (loopCore (analyze ts set) set entry)
      (set.diff (loopCore (analyze ts set) set entry))).isEmpty = true) :
    LoopSplit ts set entry
      ⟨loopCore (analyze ts set) set entry, none,
        set.diff (loopCore (analyze ts set) set entry)⟩ := by
  have hcap : (loopCore (analyze ts set) set entry).capacity = ts.length := by
    rw [loopCore, LabelSet.capacity_ofIds, hr.capacity_eq]
  have hcore : ∀ a ∈ loopCore (analyze ts set) set entry, a ∈ set := fun a ha =>
    ((mem_loopCore hr).mp ha).1
  have hentry : entry ∈ loopCore (analyze ts set) set entry :=
    (mem_loopCore hr).mpr ⟨hr.entry_mem, Or.inl rfl⟩
  have hstay : ∀ a ∈ loopCore (analyze ts set) set entry, ∀ b ∈ set, ts.Jumps a b →
      b ∈ loopCore (analyze ts set) set entry := by
    intro a ha b hb hab
    by_contra hn
    exact LabelSet.isEmpty_iff.mp hempty b ((mem_loopExits hr hcore hcap).mpr
      ⟨LabelSet.mem_diff.mpr ⟨hb, hn⟩, hb, a, ha, hab⟩)
  have hall : ∀ a ∈ set, a ∈ loopCore (analyze ts set) set entry :=
    hr.induct hentry fun a _ b hb hab ha => hstay a ha b hb hab
  have hnone : ∀ a, a ∉ set.diff (loopCore (analyze ts set) set entry) := fun a ha =>
    (LabelSet.mem_diff.mp ha).2 (hall a (LabelSet.mem_diff.mp ha).1)
  exact
    { capacity_body := hcap
      capacity_after := hr.capacity_eq
      entry_mem := hentry
      mem_iff := fun a => ⟨fun ha => Or.inl (hall a ha), fun h => h.elim (hcore a) fun h =>
        absurd h (hnone a)⟩
      not_mem_after := fun a _ => hnone a
      pivot_mem := fun pivot hp => absurd hp (by simp)
      after_empty := fun _ => hnone
      body_jumps := fun a ha b hb hab => Or.inl (hstay a ha b hb hab)
      after_jumps := fun a ha => absurd ha (hnone a) }

/-- The labels that make the body of a loop with a pivot: the core, which leads back to
the entry, and the extension, which is taken in on account of the pivot. -/
structure Pivoted (ts : Transfers) (set : LabelSet) (entry : Nat)
    (core outsiders extension : LabelSet) (pivot : Nat) : Prop where
  /-- The core is a set of labels. -/
  capacity_core : core.capacity = ts.length
  /-- So are the outsiders. -/
  capacity_outsiders : outsiders.capacity = ts.length
  /-- The core is what reaches the entry. -/
  mem_core : ∀ a, a ∈ core ↔ a ∈ set ∧ (a = entry ∨ TransGen (ts.JumpsWithin set) a entry)
  /-- The outsiders are all other members. -/
  mem_outsiders : ∀ a, a ∈ outsiders ↔ a ∈ set ∧ a ∉ core
  /-- The pivot is one of them. -/
  pivot_mem : pivot ∈ outsiders
  /-- The extension is made of others. -/
  extension_subset : ∀ a ∈ extension, a ∈ outsiders ∧ a ≠ pivot
  /-- Jumps out of the body lead to the pivot. -/
  exit_jumps : ∀ a, a ∈ core ∨ a ∈ extension → ∀ b ∈ outsiders, ts.Jumps a b →
    b ∈ extension ∨ b = pivot
  /-- The pivot does not lead back to the extension. -/
  not_back : ∀ b, TransGen (ts.JumpsWithin set) pivot b → b ∉ extension

/-- **A pivot that is chosen splits the region**: every way out of the core and the extension
leads through it. -/
theorem pivoted_of_choosePivot (hr : Region ts set entry)
    {core outsiders exits extension : LabelSet} {pivot : Nat}
    (hcore : core = loopCore (analyze ts set) set entry) (hout : outsiders = set.diff core)
    (hexits : exits = loopExits (analyze ts set) core outsiders)
    (hext : extension =
      reachAvoiding (analyze ts set) outsiders.capacity exits.toList outsiders pivot)
    (hpivot : pivot ∈ outsiders)
    (hd : (flowAt (analyze ts set) pivot).allOut.disjoint extension = true) :
    Pivoted ts set entry core outsiders extension pivot := by
  have hset := hr.lt_length
  have hcapCore : core.capacity = ts.length := by
    rw [hcore, loopCore, LabelSet.capacity_ofIds, hr.capacity_eq]
  have hcapOut : outsiders.capacity = ts.length := by rw [hout]; exact hr.capacity_eq
  have hmemCore : ∀ a, a ∈ core ↔ a ∈ set ∧ (a = entry ∨ TransGen (ts.JumpsWithin set) a entry) :=
    fun a => by rw [hcore, mem_loopCore hr]
  have hsub : ∀ a ∈ outsiders, a ∈ set := fun a ha => (LabelSet.mem_diff.mp (hout ▸ ha)).1
  refine
    { capacity_core := hcapCore
      capacity_outsiders := hcapOut
      mem_core := hmemCore
      mem_outsiders := fun a => by rw [hout, LabelSet.mem_diff]
      pivot_mem := hpivot
      extension_subset := fun a ha =>
        mem_within_of_reachAvoiding hset hsub hcapOut.ge (hext ▸ ha)
      exit_jumps := fun a ha b hb hab => ?_
      not_back := fun b hw =>
        LabelSet.disjoint_iff.mp hd b ((mem_allOut hset (hsub pivot hpivot)).mpr hw) }
  rcases ha with hac | hae
  · have hexit : b ∈ exits := by
      rw [hexits, mem_loopExits hr (fun x hx => ((hmemCore x).mp hx).1) hcapCore]
      exact ⟨hb, hsub b hb, a, hac, hab⟩
    by_cases hbp : b = pivot
    · exact Or.inr hbp
    · exact Or.inl (hext ▸ start_mem_reachAvoiding hset hsub hcapOut.ge
        (LabelSet.mem_toList.mpr hexit) hbp hb)
  · rcases reachAvoiding_jumps hset hsub hcapOut.ge (hext ▸ hae) hb hab with h | h
    · exact Or.inl (hext ▸ h)
    · exact Or.inr h.symm

namespace Pivoted

variable {core outsiders extension : LabelSet} {pivot : Nat}

/-- A label that jumps into the core belongs to it. -/
theorem mem_core_of_jumps (hp : Pivoted ts set entry core outsiders extension pivot) {a b : Nat}
    (ha : a ∈ set) (hb : b ∈ core) (hab : ts.Jumps a b) : a ∈ core := by
  obtain ⟨hbs, hbe⟩ := (hp.mem_core b).mp hb
  have hjump : ts.JumpsWithin set a b := ⟨ha, hbs, hab⟩
  rcases hbe with rfl | hw
  · exact (hp.mem_core a).mpr ⟨ha, Or.inr (TransGen.single hjump)⟩
  · exact (hp.mem_core a).mpr ⟨ha, Or.inr (TransGen.head hjump hw)⟩

/-- The body is the core and the extension. -/
theorem mem_body (hr : Region ts set entry)
    (hp : Pivoted ts set entry core outsiders extension pivot) (a : Nat) :
    a ∈ core.union extension ↔ a ∈ core ∨ a ∈ extension := by
  rw [LabelSet.mem_union, hp.capacity_core]
  refine and_iff_right_of_imp fun h => ?_
  rcases h with h | h
  · exact hr.lt_length a ((hp.mem_core a).mp h).1
  · exact hr.lt_length a ((hp.mem_outsiders a).mp (hp.extension_subset a h).1).1

/-- The region is the body and what lies behind it. -/
theorem mem_iff (hr : Region ts set entry)
    (hp : Pivoted ts set entry core outsiders extension pivot) (a : Nat) :
    a ∈ set ↔ a ∈ core.union extension ∨ a ∈ outsiders.diff extension := by
  rw [hp.mem_body hr, LabelSet.mem_diff]
  constructor
  · intro ha
    by_cases hac : a ∈ core
    · exact Or.inl (Or.inl hac)
    · by_cases hae : a ∈ extension
      · exact Or.inl (Or.inr hae)
      · exact Or.inr ⟨(hp.mem_outsiders a).mpr ⟨ha, hac⟩, hae⟩
  · rintro ((h | h) | ⟨h, _⟩)
    · exact ((hp.mem_core a).mp h).1
    · exact ((hp.mem_outsiders a).mp (hp.extension_subset a h).1).1
    · exact ((hp.mem_outsiders a).mp h).1

/-- From the body jumps lead into the body or to the pivot. -/
theorem body_jumps (hr : Region ts set entry)
    (hp : Pivoted ts set entry core outsiders extension pivot) {a b : Nat}
    (ha : a ∈ core.union extension) (hb : b ∈ set) (hab : ts.Jumps a b) :
    b ∈ core.union extension ∨ some pivot = some b := by
  rw [hp.mem_body hr] at ha ⊢
  by_cases hbc : b ∈ core
  · exact Or.inl (Or.inl hbc)
  · rcases hp.exit_jumps a ha b ((hp.mem_outsiders b).mpr ⟨hb, hbc⟩) hab with h | h
    · exact Or.inl (Or.inr h)
    · exact Or.inr (congrArg some h.symm)

/-- No label of the body lies behind it. -/
theorem not_mem_after (hr : Region ts set entry)
    (hp : Pivoted ts set entry core outsiders extension pivot) {a : Nat}
    (ha : a ∈ core.union extension) : a ∉ outsiders.diff extension := by
  intro hafter
  obtain ⟨hao, hae⟩ := LabelSet.mem_diff.mp hafter
  exact ((hp.mem_body hr a).mp ha).elim ((hp.mem_outsiders a).mp hao).2 hae

/-- What is left is the pivot and what it reaches. -/
theorem reached_of_mem_after (hr : Region ts set entry)
    (hp : Pivoted ts set entry core outsiders extension pivot) : ∀ a ∈ set,
      a ∈ outsiders.diff extension → a = pivot ∨ TransGen (ts.JumpsWithin set) pivot a := by
  refine hr.induct (fun h => ?_) fun a ha b hb hab ih hba => ?_
  · refine absurd h (hp.not_mem_after hr ((hp.mem_body hr entry).mpr (Or.inl ?_)))
    exact (hp.mem_core entry).mpr ⟨hr.entry_mem, Or.inl rfl⟩
  · rcases (hp.mem_iff hr a).mp ha with hbody | hafter
    · rcases hp.body_jumps hr hbody hb hab with h | h
      · exact absurd hba (hp.not_mem_after hr h)
      · exact Or.inl (Option.some.inj h).symm
    · rcases ih hafter with rfl | hw
      · exact Or.inr (TransGen.single ⟨ha, hb, hab⟩)
      · exact Or.inr (hw.tail ⟨ha, hb, hab⟩)

/-- No jump leads back into the body. -/
theorem after_jumps (hr : Region ts set entry)
    (hp : Pivoted ts set entry core outsiders extension pivot) {a b : Nat}
    (ha : a ∈ outsiders.diff extension) (hb : b ∈ set) (hab : ts.Jumps a b) :
    b ∈ outsiders.diff extension := by
  obtain ⟨hao, _⟩ := LabelSet.mem_diff.mp ha
  obtain ⟨has, hac⟩ := (hp.mem_outsiders a).mp hao
  refine LabelSet.mem_diff.mpr ⟨(hp.mem_outsiders b).mpr
    ⟨hb, fun h => hac (hp.mem_core_of_jumps has h hab)⟩, hp.not_back b ?_⟩
  rcases hp.reached_of_mem_after hr a has ha with rfl | hw
  · exact TransGen.single ⟨has, hb, hab⟩
  · exact hw.tail ⟨has, hb, hab⟩

/-- A loop with a pivot that does not lead back to the labels taken in splits the
region at the pivot. -/
theorem loopSplit (hr : Region ts set entry)
    (hp : Pivoted ts set entry core outsiders extension pivot) :
    LoopSplit ts set entry ⟨core.union extension, some pivot, outsiders.diff extension⟩ where
  capacity_body := hp.capacity_core
  capacity_after := hp.capacity_outsiders
  entry_mem := (hp.mem_body hr entry).mpr
    (Or.inl ((hp.mem_core entry).mpr ⟨hr.entry_mem, Or.inl rfl⟩))
  mem_iff := hp.mem_iff hr
  not_mem_after _ ha := hp.not_mem_after hr ha
  pivot_mem p h := by
    obtain rfl := Option.some.inj h
    exact LabelSet.mem_diff.mpr ⟨hp.pivot_mem, fun h => (hp.extension_subset pivot h).2 rfl⟩
  after_empty h := absurd h (by simp)
  body_jumps _ ha _ hb hab := hp.body_jumps hr ha hb hab
  after_jumps _ ha _ hb hab := hp.after_jumps hr ha hb hab

end Pivoted

/-- **The loop pattern splits a region** as it should: its conditions hold if it is found. -/
theorem loopSplit_of_loopPlan? (hr : Region ts set entry) {plan : LoopPlan} {events : List Event}
    (h : loopPlan? (analyze ts set) set entry = (some plan, events)) :
    LoopSplit ts set entry plan := by
  unfold loopPlan? at h
  split at h
  next => exact absurd (congrArg Prod.fst h) (by simp)
  next =>
    dsimp only at h
    split at h
    next hempty =>
      obtain rfl := Option.some.inj (congrArg Prod.fst h)
      exact loopSplit_of_no_exits hr hempty
    next =>
      split at h
      next => exact absurd (congrArg Prod.fst h) (by simp)
      next pivot extension found hchoose =>
        obtain rfl := Option.some.inj (congrArg Prod.fst h)
        obtain ⟨hm, hext, hd⟩ := choosePivot_eq_some (congrArg Prod.fst hchoose)
        refine (pivoted_of_choosePivot hr rfl rfl rfl hext ?_ hd).loopSplit hr
        refine mem_outsiders_of_mem_pivotCandidates (fun a ha => ?_) hm
        have hcap : (loopCore (analyze ts set) set entry).capacity = ts.length := by
          rw [loopCore, LabelSet.capacity_ofIds, hr.capacity_eq]
        exact ((mem_loopExits hr (fun x hx => ((mem_loopCore hr).mp hx).1) hcap).mp ha).1

/-! ### Conditionals -/

/-- Beyond a join lie the join and what it leads to. -/
theorem mem_beyondJoin_some {flows : List Flow} {capacity join a : Nat} (ha : a < capacity) :
    a ∈ beyondJoin flows capacity (some join) ↔ a ∈ (flowAt flows join).allOut ∨ a = join := by
  rw [beyondJoin, LabelSet.mem_insert, LabelSet.mem_union, LabelSet.capacity_union,
    LabelSet.capacity_empty]
  constructor
  · rintro (⟨_, h⟩ | ⟨rfl, _⟩)
    · exact Or.inl (h.resolve_left LabelSet.not_mem_empty)
    · exact Or.inr rfl
  · rintro (h | rfl)
    · exact Or.inl ⟨ha, Or.inr h⟩
    · exact Or.inr ⟨rfl, ha⟩

/-- A choice between labels is a conditional branch to them. -/
theorem choice?_eq_some {t : Option Transfer} {condition : Operand} {onTrue onFalse : Nat}
    (h : choice? t = some (condition, onTrue, onFalse)) :
    t = some (.condBranch condition (.label onTrue) (.label onFalse)) := by
  unfold choice? at h
  split at h
  next => cases h; rfl
  next => exact absurd h (by simp)

/-- A candidate that is chosen is one of the candidates. -/
theorem mem_of_firstCandidate? {flows : List Flow} {ids : List Nat} {id : Nat}
    (h : firstCandidate? flows ids = some id) : id ∈ ids := by
  have hfold : ∀ (ids : List Nat) (best : Nat),
      ids.foldl (fun best a => if comesBefore flows best a then best else a) best ∈
        best :: ids := by
    intro ids
    induction ids with
    | nil => exact fun best => List.mem_cons_self
    | cons a ids ih =>
      intro best
      rw [List.foldl_cons]
      rcases List.mem_cons.mp (ih (if comesBefore flows best a then best else a)) with h | h
      · rw [h]
        split
        · exact List.mem_cons_self
        · exact List.mem_cons_of_mem _ List.mem_cons_self
      · exact List.mem_cons_of_mem _ (List.mem_cons_of_mem _ h)
  cases ids with
  | nil => exact absurd h (by simp [firstCandidate?])
  | cons a ids => exact Option.some.inj h ▸ hfold ids a

/-- The arms and the join that two targets make. -/
structure ArmChoice (ts : Transfers) (set : LabelSet) (onTrue onFalse firstArm : Nat)
    (second join : Option Nat) (negated : Bool) : Prop where
  /-- The first arm is one of the targets. -/
  firstArm_eq : firstArm = if negated then onFalse else onTrue
  /-- The other one is the second arm, or else the join. -/
  other_eq : second.elim join some = some (if negated then onTrue else onFalse)
  /-- A walk leads from the first arm to the join. -/
  first_join : ∀ j, join = some j → TransGen (ts.JumpsWithin set) firstArm j ∧ j ≠ firstArm
  /-- A walk leads from the second arm to the join. -/
  second_join : ∀ arm j, second = some arm → join = some j →
    TransGen (ts.JumpsWithin set) arm j ∧ j ≠ arm

/-- **How the arms are chosen**: each of the two targets becomes an arm or the join, and a join is
what walks from the arms come to. -/
theorem armChoice_of_chooseArms (hset : ∀ id ∈ set, id < ts.length) {onTrue onFalse firstArm : Nat}
    {second join : Option Nat} {negated : Bool} (ht : onTrue ∈ set) (hf : onFalse ∈ set)
    (h : chooseArms (analyze ts set) onTrue onFalse = (firstArm, second, join, negated)) :
    ArmChoice ts set onTrue onFalse firstArm second join negated := by
  unfold chooseArms at h
  dsimp only at h
  split at h
  next hc =>
    cases h
    exact
      { firstArm_eq := rfl
        other_eq := rfl
        first_join := fun j hj => Option.some.inj hj ▸ transGen_of_mem_mustGetTo hset hf hc
        second_join := fun arm j ha => absurd ha (by simp) }
  next =>
    split at h
    next hc =>
      cases h
      exact
        { firstArm_eq := rfl
          other_eq := rfl
          first_join := fun j hj => Option.some.inj hj ▸ transGen_of_mem_mustGetTo hset ht hc
          second_join := fun arm j ha => absurd ha (by simp) }
    next =>
      cases h
      have hboth : ∀ j, firstCandidate? (analyze ts set)
            ((flowAt (analyze ts set) onTrue).mustGetTo.inter
              (flowAt (analyze ts set) onFalse).mustGetTo).toList = some j →
          j ∈ (flowAt (analyze ts set) onTrue).mustGetTo ∧
            j ∈ (flowAt (analyze ts set) onFalse).mustGetTo := fun j hj =>
        LabelSet.mem_inter.mp (LabelSet.mem_toList.mp (mem_of_firstCandidate? hj))
      exact
        { firstArm_eq := rfl
          other_eq := rfl
          first_join := fun j hj => transGen_of_mem_mustGetTo hset ht (hboth j hj).1
          second_join := fun arm j ha hj => by
            obtain rfl := Option.some.inj ha
            exact transGen_of_mem_mustGetTo hset hf (hboth j hj).2 }

/-- What an arm reaches without passing the join is a region of its own. -/
theorem armRegion_reachAvoiding (hr : Region ts set entry) (hno : ∀ a ∈ set, ¬ts.Jumps a entry)
    {arm : Nat} {join : Option Nat} (harm : ts.JumpsWithin set entry arm)
    (hne : ∀ j, join = some j → j ≠ arm) :
    ArmRegion ts set join
      (reachAvoiding (analyze ts set) ts.length [arm] set (join.getD entry)) arm := by
  have hset := hr.lt_length
  have hsub : ∀ a ∈ set, a ∈ set := fun a ha => ha
  have havoid : arm ≠ join.getD entry := by
    cases join with
    | none =>
      intro h
      obtain rfl : arm = entry := h
      exact hno arm hr.entry_mem harm.2.2
    | some j => exact (hne j rfl).symm
  exact
    { capacity_eq := capacity_reachAvoiding _ _ _ _ _
      start_mem := start_mem_reachAvoiding hset hsub le_rfl (List.mem_singleton_self arm) havoid
        harm.2.1
      reached := fun a ha => reachAvoiding_reached hset hsub le_rfl ha
      subset := fun a ha => (mem_within_of_reachAvoiding hset hsub le_rfl ha).1
      jumps := fun a ha b hb hab => by
        refine (reachAvoiding_jumps hset hsub le_rfl ha hb hab).imp_right fun h => ?_
        cases join with
        | none =>
          obtain rfl : entry = b := h
          exact absurd hab (hno a (mem_within_of_reachAvoiding hset hsub le_rfl ha).1)
        | some j => exact congrArg some h }

/-- What the plan of a conditional is made of, and the tests that it has passed. -/
structure CondPlanned (ts : Transfers) (set : LabelSet) (entry : Nat) (plan : CondPlan) : Prop where
  /-- The entry chooses between the two targets. -/
  at?_entry : ts.at? entry =
    some (.condBranch plan.test.value (.label plan.onTrue) (.label plan.onFalse))
  /-- The entry leads to two members. -/
  two_targets : (flowAt (analyze ts set) entry).outLabels.length = 2
  /-- No walk leads from the entry back to it. -/
  not_mem_allIn : entry ∉ (flowAt (analyze ts set) entry).allIn
  /-- The arms and the join are chosen from the targets. -/
  arms_eq : chooseArms (analyze ts set) plan.onTrue plan.onFalse =
    (plan.firstArm, plan.second.map Prod.fst, plan.join, plan.test.negated)
  /-- The first arm reaches its labels without passing the join. -/
  firstRegion_eq : plan.firstRegion =
    reachAvoiding (analyze ts set) ts.length [plan.firstArm] set (plan.join.getD entry)
  /-- So does the second. -/
  second_eq : ∀ arm region, plan.second = some (arm, region) →
    region = reachAvoiding (analyze ts set) ts.length [arm] set (plan.join.getD entry)
  /-- The regions are those of the arms. -/
  regions_eq : plan.regions =
    plan.firstRegion.union ((plan.second.map Prod.snd).getD (.empty ts.length))
  /-- The rest is what is left of the set. -/
  rest_eq : plan.rest = (set.erase entry).diff plan.regions
  /-- The arms are apart. -/
  disjoint : ((plan.second.map Prod.snd).getD (.empty ts.length)).disjoint plan.firstRegion = true
  /-- The entry is in no arm. -/
  entry_not_mem : entry ∉ plan.regions
  /-- The join leads into no arm. -/
  join_disjoint : plan.regions.disjoint (beyondJoin (analyze ts set) ts.length plan.join) = true
  /-- Without a join nothing is left. -/
  rest_isEmpty : plan.join = none → plan.rest.isEmpty = true
  /-- The conditional is crowded when its join is. -/
  crowded_eq : plan.crowded = isCrowded (analyze ts set) (plan.second.map Prod.fst) plan.join

/-- **The conditional pattern splits a region** as it should: its conditions hold if it is
found. -/
theorem condPlanned_of_condPlan? {plan : CondPlan} {events : List Event}
    (h : condPlan? (analyze ts set) ts set entry = (some plan, events)) :
    CondPlanned ts set entry plan := by
  unfold condPlan? at h
  dsimp only at h
  split at h
  next => exact absurd (congrArg Prod.fst h) (by simp)
  next hflow =>
    simp only [ne_eq, Bool.or_eq_true, decide_eq_true_eq, not_or, not_not,
      LabelSet.contains_iff_mem] at hflow
    split at h
    next => exact absurd (congrArg Prod.fst h) (by simp)
    next condition onTrue onFalse hchoice =>
      generalize harms : chooseArms (analyze ts set) onTrue onFalse = arms at h
      obtain ⟨firstArm, second, join, negated⟩ := arms
      dsimp only at h
      split at h
      next => exact absurd (congrArg Prod.fst h) (by simp)
      next htests =>
        split at h
        next => exact absurd (congrArg Prod.fst h) (by simp)
        next hrest =>
          obtain rfl := Option.some.inj (congrArg Prod.fst h)
          simp only [Bool.or_eq_true, Bool.not_eq_true', not_or, Bool.not_eq_false,
            LabelSet.contains_iff_mem] at htests
          obtain ⟨⟨hdisjoint, hentry⟩, hafter⟩ := htests
          exact
            { at?_entry := choice?_eq_some hchoice
              two_targets := hflow.1
              not_mem_allIn := hflow.2
              arms_eq := by cases second <;> exact harms
              firstRegion_eq := rfl
              second_eq := fun arm region hsec => by
                cases second with
                | none => exact absurd hsec (by simp)
                | some _ =>
                  obtain ⟨rfl, rfl⟩ := Prod.mk.inj (Option.some.inj hsec)
                  rfl
              regions_eq := rfl
              rest_eq := rfl
              disjoint := hdisjoint
              entry_not_mem := hentry
              join_disjoint := hafter
              rest_isEmpty := fun hj => by
                obtain rfl : join = none := hj
                simpa using hrest
              crowded_eq := by cases second <;> rfl }

namespace CondPlanned

variable {plan : CondPlan}

/-- No member jumps to the entry, as the entry reaches every member. -/
theorem no_jump (hr : Region ts set entry) (hp : CondPlanned ts set entry plan) :
    ∀ a ∈ set, ¬ts.Jumps a entry := by
  intro a ha hae
  have hcycle : TransGen (ts.JumpsWithin set) entry entry :=
    TransGen.tail' (hr.reached a ha) ⟨ha, hr.entry_mem, hae⟩
  exact hp.not_mem_allIn ((mem_allIn hr.lt_length hr.entry_mem).mpr hcycle)

/-- The targets of the entry are two different members. -/
theorem targets (hr : Region ts set entry) (hp : CondPlanned ts set entry plan) :
    plan.onTrue ≠ plan.onFalse ∧ ts.JumpsWithin set entry plan.onTrue ∧
      ts.JumpsWithin set entry plan.onFalse := by
  have htargets : ts.targets entry = [.label plan.onTrue, .label plan.onFalse] := by
    unfold Transfers.targets
    rw [hp.at?_entry]
    rfl
  have hmem : ∀ b ∈ (flowAt (analyze ts set) entry).outLabels,
      ts.JumpsWithin set entry b ∧ (b = plan.onTrue ∨ b = plan.onFalse) := by
    intro b hb
    have hjump := (mem_outLabels hr.lt_length hr.entry_mem).mp hb
    refine ⟨hjump, ?_⟩
    have h := hjump.2.2
    rw [Transfers.Jumps, htargets] at h
    simpa using h
  have hnodup := nodup_outLabels hr.lt_length hr.entry_mem
  obtain ⟨x, y, hxy⟩ := List.length_eq_two.mp hp.two_targets
  rw [hxy] at hnodup hmem
  have hne : x ≠ y := by simpa using hnodup
  obtain ⟨hx, hx'⟩ := hmem x (by simp)
  obtain ⟨hy, hy'⟩ := hmem y (by simp)
  rcases hx' with rfl | rfl <;> rcases hy' with rfl | rfl
  · exact absurd rfl hne
  · exact ⟨hne, hx, hy⟩
  · exact ⟨hne.symm, hy, hx⟩
  · exact absurd rfl hne

/-- The arms are those that are chosen. -/
theorem armChoice (hr : Region ts set entry) (hp : CondPlanned ts set entry plan) :
    ArmChoice ts set plan.onTrue plan.onFalse plan.firstArm (plan.second.map Prod.fst) plan.join
      plan.test.negated :=
  have ht := hp.targets hr
  armChoice_of_chooseArms hr.lt_length ht.2.1.2.1 ht.2.2.2.1 hp.arms_eq

/-- The entry jumps to the first arm. -/
theorem jumps_firstArm (hr : Region ts set entry) (hp : CondPlanned ts set entry plan) :
    ts.JumpsWithin set entry plan.firstArm := by
  obtain ⟨_, ht, hf⟩ := hp.targets hr
  rw [(hp.armChoice hr).firstArm_eq]
  split
  · exact hf
  · exact ht

/-- Where there is no second arm the other target is the join. -/
theorem other_eq (hr : Region ts set entry) (hp : CondPlanned ts set entry plan) :
    plan.second.elim plan.join (fun arm => some arm.1) =
      some (if plan.test.negated then plan.onTrue else plan.onFalse) := by
  rw [← (hp.armChoice hr).other_eq]
  cases plan.second <;> rfl

/-- The first arm is the region that avoids the join. -/
theorem first (hr : Region ts set entry) (hp : CondPlanned ts set entry plan) :
    ArmRegion ts set plan.join plan.firstRegion plan.firstArm := by
  rw [hp.firstRegion_eq]
  exact armRegion_reachAvoiding hr (hp.no_jump hr) (hp.jumps_firstArm hr) fun j hj =>
    ((hp.armChoice hr).first_join j hj).2

/-- The second arm is the region that avoids the join. -/
theorem second (hr : Region ts set entry) (hp : CondPlanned ts set entry plan) {arm : Nat}
    {region : LabelSet} (hsec : plan.second = some (arm, region)) :
    ArmRegion ts set plan.join region arm := by
  obtain ⟨_, ht, hf⟩ := hp.targets hr
  have hother := hp.other_eq hr
  rw [hsec] at hother
  have harm : ts.JumpsWithin set entry arm := by
    obtain rfl := Option.some.inj hother
    split
    · exact ht
    · exact hf
  rw [hp.second_eq arm region hsec]
  exact armRegion_reachAvoiding hr (hp.no_jump hr) harm fun j hj =>
    ((hp.armChoice hr).second_join arm j (by rw [hsec]; rfl) hj).2

/-- The labels of the arms are those of the first and those of the second. -/
theorem mem_regions (hp : CondPlanned ts set entry plan) (a : Nat) : a ∈ plan.regions ↔
    a ∈ plan.firstRegion ∨ ∃ arm region, plan.second = some (arm, region) ∧ a ∈ region := by
  have hcap : plan.firstRegion.capacity = ts.length := by
    rw [hp.firstRegion_eq, capacity_reachAvoiding]
  rw [hp.regions_eq, LabelSet.mem_union, hcap]
  cases hsec : plan.second with
  | none =>
    simp only [Option.map_none, Option.getD_none, LabelSet.not_mem_empty, reduceCtorEq, false_and,
      exists_false, or_false, and_iff_right_iff_imp]
    exact fun h => hcap ▸ LabelSet.lt_capacity_of_mem h
  | some second =>
    obtain ⟨arm, region⟩ := second
    have hcap' : region.capacity = ts.length := by
      rw [hp.second_eq arm region hsec, capacity_reachAvoiding]
    simp only [Option.map_some, Option.getD_some, Option.some.injEq, Prod.mk.injEq]
    constructor
    · rintro ⟨_, h | h⟩
      · exact Or.inl h
      · exact Or.inr ⟨arm, region, ⟨rfl, rfl⟩, h⟩
    · rintro (h | ⟨_, _, ⟨rfl, rfl⟩, h⟩)
      · exact ⟨hcap ▸ LabelSet.lt_capacity_of_mem h, Or.inl h⟩
      · exact ⟨hcap' ▸ LabelSet.lt_capacity_of_mem h, Or.inr h⟩

/-- The join is another label than the entry and not in the arms. -/
theorem join_mem_rest (hr : Region ts set entry) (hp : CondPlanned ts set entry plan) {j : Nat}
    (hj : plan.join = some j) : j ∈ plan.rest := by
  have harms := hp.armChoice hr
  obtain ⟨hw, _⟩ := harms.first_join j hj
  rw [hp.rest_eq, LabelSet.mem_diff, LabelSet.mem_erase]
  refine ⟨⟨(mem_of_transGen hw).2, ?_⟩, ?_⟩
  · rintro rfl
    obtain ⟨a, _, htail⟩ := TransGen.tail'_iff.mp hw
    exact hp.no_jump hr a htail.1 htail.2.2
  · have hout : ∀ arm,
        j ∉ reachAvoiding (analyze ts set) ts.length [arm] set (plan.join.getD entry) := by
      intro arm h
      exact (mem_within_of_reachAvoiding hr.lt_length (fun _ ha => ha) le_rfl h).2 (by rw [hj]; rfl)
    rw [hp.mem_regions]
    rintro (h | ⟨arm, region, hsec, h⟩)
    · exact hout _ (hp.firstRegion_eq ▸ h)
    · exact hout arm (hp.second_eq arm region hsec ▸ h)

/-- What is left is the join and what it reaches. -/
theorem reached_of_mem_rest (hr : Region ts set entry) (hp : CondPlanned ts set entry plan) :
    ∀ a ∈ set, a ∈ plan.rest →
      ∃ j, plan.join = some j ∧ (a = j ∨ TransGen (ts.JumpsWithin set) j a) := by
  have hrest : ∀ a, a ∈ plan.rest ↔ (a ∈ set ∧ a ≠ entry) ∧ a ∉ plan.regions := fun a => by
    rw [hp.rest_eq, LabelSet.mem_diff, LabelSet.mem_erase]
  refine hr.induct (fun h => absurd rfl ((hrest entry).mp h).1.2) fun a ha b hb hab ih hba => ?_
  have hnot : b ∉ plan.regions := ((hrest b).mp hba).2
  by_cases hae : a = entry
  · subst hae
    have hfirst := (hp.armChoice hr).firstArm_eq
    rcases eq_of_jumps_choice hp.at?_entry hfirst (hp.other_eq hr) hab with rfl | hother
    · exact absurd ((hp.mem_regions _).mpr (Or.inl (hp.first hr).start_mem)) hnot
    · cases hsec : plan.second with
      | none => exact ⟨b, by rw [hsec] at hother; exact hother, Or.inl rfl⟩
      | some second =>
        rw [hsec] at hother
        obtain rfl : second.1 = b := Option.some.inj hother
        have hmem := (hp.second hr hsec).start_mem
        exact absurd ((hp.mem_regions _).mpr (Or.inr ⟨_, _, hsec, hmem⟩)) hnot
  · by_cases hreg : a ∈ plan.regions
    · have hjoin : plan.join = some b := by
        rcases (hp.mem_regions a).mp hreg with h | ⟨arm, region, hsec, h⟩
        · exact ((hp.first hr).jumps a h b hb hab).resolve_left fun h =>
            hnot ((hp.mem_regions b).mpr (Or.inl h))
        · exact ((hp.second hr hsec).jumps a h b hb hab).resolve_left fun h =>
            hnot ((hp.mem_regions b).mpr (Or.inr ⟨arm, region, hsec, h⟩))
      exact ⟨b, hjoin, Or.inl rfl⟩
    · obtain ⟨j, hj, h⟩ := ih ((hrest a).mpr ⟨⟨ha, hae⟩, hreg⟩)
      refine ⟨j, hj, Or.inr ?_⟩
      rcases h with rfl | hw
      · exact TransGen.single ⟨ha, hb, hab⟩
      · exact hw.tail ⟨ha, hb, hab⟩

/-- A crowded conditional has a jump out of its only arm, as a walk leads from there
to the join. -/
theorem exists_jump_join (hr : Region ts set entry) (hp : CondPlanned ts set entry plan)
    (hcrowded : plan.crowded = true) :
    ∃ a ∈ plan.regions, ∃ j, plan.join = some j ∧ ts.Jumps a j := by
  rw [hp.crowded_eq] at hcrowded
  unfold isCrowded at hcrowded
  split at hcrowded
  next j _ hj =>
    obtain ⟨hw, _⟩ := (hp.armChoice hr).first_join j hj
    have hfirst : ∀ a, a ∈ plan.firstRegion → a ∈ plan.regions := fun a ha =>
      (hp.mem_regions a).mpr (Or.inl ha)
    have hwalk : ∀ x, TransGen (ts.JumpsWithin set) plan.firstArm x →
        x ∈ plan.firstRegion ∨ ∃ a ∈ plan.regions, ts.Jumps a j := by
      intro x hx
      have hleave : ∀ y ∈ plan.firstRegion, ∀ z, ts.JumpsWithin set y z →
          z ∈ plan.firstRegion ∨ ∃ a ∈ plan.regions, ts.Jumps a j := by
        intro y hy z hyz
        refine ((hp.first hr).jumps y hy z hyz.2.1 hyz.2.2).imp_right fun h => ?_
        obtain rfl : j = z := Option.some.inj (hj.symm.trans h)
        exact ⟨y, hfirst y hy, hyz.2.2⟩
      induction hx with
      | single hstep => exact hleave _ (hp.first hr).start_mem _ hstep
      | tail _ hstep ih => exact ih.elim (fun h => hleave _ h _ hstep) Or.inr
    have hnot : j ∉ plan.firstRegion := fun h => by
      have hrest := hp.join_mem_rest hr hj
      rw [hp.rest_eq, LabelSet.mem_diff] at hrest
      exact hrest.2 (hfirst j h)
    obtain ⟨a, ha, haj⟩ := (hwalk j hw).resolve_left hnot
    exact ⟨a, ha, j, hj, haj⟩
  next => exact absurd hcrowded Bool.false_ne_true

/-- A plan that has passed the tests splits the region. -/
theorem condSplit (hr : Region ts set entry) (hp : CondPlanned ts set entry plan) :
    CondSplit ts set entry plan := by
  have hrest : ∀ a, a ∈ plan.rest ↔ a ∈ set ∧ a ≠ entry ∧ a ∉ plan.regions := fun a => by
    rw [hp.rest_eq, LabelSet.mem_diff, LabelSet.mem_erase, and_assoc]
  exact
    { at?_entry := hp.at?_entry
      onTrue_ne := (hp.targets hr).1
      firstArm_eq := (hp.armChoice hr).firstArm_eq
      other_eq := hp.other_eq hr
      no_jump := hp.no_jump hr
      first := hp.first hr
      second := fun _ _ hsec => hp.second hr hsec
      disjoint := fun arm region hsec a ha hreg => by
        have hd := LabelSet.disjoint_iff.mp hp.disjoint a
        rw [hsec] at hd
        exact hd hreg ha
      mem_regions := hp.mem_regions
      capacity_regions := by
        rw [hp.regions_eq, LabelSet.capacity_union, hp.firstRegion_eq, capacity_reachAvoiding]
      entry_not_mem := hp.entry_not_mem
      capacity_rest := by
        rw [hp.rest_eq, LabelSet.capacity_diff, LabelSet.capacity_erase, hr.capacity_eq]
      mem_rest := hrest
      join_mem := fun _ hj => hp.join_mem_rest hr hj
      rest_empty := fun hj => LabelSet.isEmpty_iff.mp (hp.rest_isEmpty hj)
      rest_jumps := fun a ha b hb hab => by
        have has := ((hrest a).mp ha).1
        refine (hrest b).mpr ⟨hb, fun h => hp.no_jump hr a has (h ▸ hab), fun hreg => ?_⟩
        obtain ⟨j, hj, h⟩ := hp.reached_of_mem_rest hr a has ha
        have hw : TransGen (ts.JumpsWithin set) j b := by
          rcases h with rfl | hw
          · exact TransGen.single ⟨has, hb, hab⟩
          · exact hw.tail ⟨has, hb, hab⟩
        have hd := LabelSet.disjoint_iff.mp hp.join_disjoint b hreg
        rw [hj] at hd
        refine hd ((mem_beyondJoin_some (hr.lt_length b hb)).mpr (Or.inl ?_))
        exact (mem_allOut hr.lt_length (mem_of_transGen hw).1).mpr hw
      crowded_jump := hp.exists_jump_join hr }

end CondPlanned

/-! ### The chosen pattern -/

/-- What the chosen pattern says of its region. -/
def Pattern.Splits (ts : Transfers) (set : LabelSet) (entry : Nat) : Pattern → Prop
  | .simple next => SimpleSplit ts set entry next
  | .loop plan => LoopSplit ts set entry plan
  | .cond plan => CondSplit ts set entry plan
  | .dispatch => True

/-- **The chosen pattern splits its region.** -/
theorem splits_choosePattern (hr : Region ts set entry) :
    (choosePattern ts set entry).1.Splits ts set entry := by
  unfold choosePattern
  dsimp only
  split
  next next h => exact simpleSplit_of_simpleNext? hr h
  next =>
    split
    next plan events h => exact loopSplit_of_loopPlan? hr h
    next =>
      split
      next plan more h => exact (condPlanned_of_condPlan? h).condSplit hr
      next => trivial

/-- The pattern of a label on its own that does not jump to itself. -/
theorem choosePattern_alone (hr : Region ts set entry) (hall : ∀ a ∈ set, a = entry)
    (hno : ¬ts.Jumps entry entry) : choosePattern ts set entry = (.simple none, []) := by
  have hin : (flowAt (analyze ts set) entry).inLabels = [] := by
    refine List.eq_nil_iff_forall_not_mem.mpr fun a ha => ?_
    have hjump := (mem_inLabels hr.lt_length hr.entry_mem).mp ha
    exact hno (hall a hjump.1 ▸ hjump.2.2)
  have hout : (flowAt (analyze ts set) entry).outLabels = [] := by
    refine List.eq_nil_iff_forall_not_mem.mpr fun a ha => ?_
    have hjump := (mem_outLabels hr.lt_length hr.entry_mem).mp ha
    have h := hjump.2.2
    rw [hall a hjump.2.1] at h
    exact hno h
  have hempty : (set.erase entry).isEmpty = true := LabelSet.isEmpty_iff.mpr fun a ha => by
    obtain ⟨ha, hne⟩ := LabelSet.mem_erase.mp ha
    exact hne (hall a ha)
  simp [choosePattern, simpleNext?, hin, hout, hempty]

/-- Choosing a pivot takes up no region. -/
theorem region?_of_mem_choosePivot {flows : List Flow} {outsiders exits : LabelSet}
    {candidates : List Nat} {event : Event}
    (h : event ∈ (choosePivot flows outsiders exits candidates).2) : event.region? = none := by
  induction candidates with
  | nil => exact absurd h (by simp [choosePivot])
  | cons candidate candidates ih =>
    rw [choosePivot] at h
    split at h
    next => exact absurd h (by simp)
    next =>
      rcases List.mem_cons.mp h with rfl | h
      · rfl
      · exact ih h

/-- Looking for a loop takes up no region. -/
theorem region?_of_mem_loopPlan? {flows : List Flow} {event : Event}
    (h : event ∈ (loopPlan? flows set entry).2) : event.region? = none := by
  unfold loopPlan? at h
  split at h
  next => exact absurd h (by simp)
  next =>
    dsimp only at h
    split at h
    next => exact absurd h (by simp)
    next =>
      split at h
      next events hchoose =>
        rcases List.mem_append.mp h with h | h
        · exact region?_of_mem_choosePivot (by rw [hchoose]; exact h)
        · rw [List.mem_singleton.mp h]
          rfl
      next pivot extension events hchoose =>
        exact region?_of_mem_choosePivot (by rw [hchoose]; exact h)

/-- Looking for a conditional takes up no region. -/
theorem region?_of_mem_condPlan? {flows : List Flow} {event : Event}
    (h : event ∈ (condPlan? flows ts set entry).2) : event.region? = none := by
  unfold condPlan? at h
  dsimp only at h
  split at h
  next => exact absurd h (by simp)
  next =>
    split at h
    next => exact absurd h (by simp)
    next =>
      split at h
      next =>
        rw [List.mem_singleton.mp h]
        rfl
      next =>
        split at h
        next =>
          rw [List.mem_singleton.mp h]
          rfl
        next => exact absurd h (by simp)

/-- Choosing a pattern takes up no region. -/
theorem region?_of_mem_choosePattern {event : Event} (h : event ∈ (choosePattern ts set entry).2) :
    event.region? = none := by
  unfold choosePattern at h
  dsimp only at h
  split at h
  next => exact absurd h (by simp)
  next =>
    split at h
    next plan events hloop =>
      exact region?_of_mem_loopPlan? (by rw [hloop]; exact h)
    next events hloop =>
      split at h
      all_goals
        rename_i hcond
        rcases List.mem_append.mp h with h | h
        · exact region?_of_mem_loopPlan? (by rw [hloop]; exact h)
        · exact region?_of_mem_condPlan? (by rw [hcond]; exact h)

end Structuring
end StructuredFlow
