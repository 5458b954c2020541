/-
# Offsets agree with sizes

The size of a struct is found with the struct open, its offsets with none open, one
measurement for each field.  The two find the same sizes: a field that leads back to the
struct comes to itself again as well, so it has no size either way
(`Sizable.of_fields`).  A struct has a size exactly if its fields have and their sum is a
number of 64 bits (`flatSize_struct_eq_some_iff`).  It has offsets under the same condition,
and they are the sums of the sizes before each field (`flatOffsets_eq_ok_some_iff`); else a
field without a size is met first, or a sum overflows first (`flatOffsets_eq_error_iff`).
-/

import StructuredFlow.Proofs.Ty.Layout

namespace StructuredFlow
namespace TypeTable

open Relation

/-- The slots at which parts of given sizes start, laid one behind the other from `start`. -/
def startsFrom (start : Nat) : List Nat → List Nat
  | [] => []
  | size :: rest => start :: startsFrom (start + size) rest

/-- Fields of given sizes laid one behind the other. -/
structure LaidOut (table : TypeTable) (fields : List Ty) (sizes offsets : List Nat) : Prop where
  /-- A field has the size given for it. -/
  sizes_eq : fields.map table.flatSize = sizes.map some
  /-- A field has one offset. -/
  length_eq : offsets.length = fields.length
  /-- A field starts where the fields before it end. -/
  offset_eq : ∀ (i : Nat) (h : i < offsets.length), offsets[i] = (sizes.take i).sum

variable {table : TypeTable} {ty part : Ty} {name : String} {fields : List Ty}
  {sizes offsets : List Nat} {start n : Nat}

/-! ### Starts -/

/-- Each size has its start. -/
@[simp] theorem length_startsFrom (start : Nat) (sizes : List Nat) :
    (startsFrom start sizes).length = sizes.length := by
  induction sizes generalizing start with
  | nil => rfl
  | cons size rest ih => rw [startsFrom, List.length_cons, List.length_cons, ih]

/-- A field starts behind the sizes in front of it. -/
theorem getElem_startsFrom {i : Nat} (h : i < (startsFrom start sizes).length) :
    (startsFrom start sizes)[i] = start + (sizes.take i).sum := by
  induction sizes generalizing start i with
  | nil => exact absurd h (Nat.not_lt_zero i)
  | cons size rest ih =>
    cases i with
    | zero => rfl
    | succ i => simp only [startsFrom, List.getElem_cons_succ, ih, List.take_succ_cons,
        List.sum_cons, Nat.add_assoc]

/-! ### The size of a struct by its fields -/

/-- A function with a result for each member of a list has them all. -/
theorem exists_map_eq_map_some_iff {α β : Type} {f : α → Option β} {l : List α} :
    (∃ r : List β, l.map f = r.map some) ↔ ∀ a ∈ l, ∃ b, f a = some b := by
  induction l with
  | nil => exact iff_of_true ⟨[], rfl⟩ (List.forall_mem_nil _)
  | cons a l ih =>
    rw [List.forall_mem_cons, ← ih]
    constructor
    · rintro ⟨_ | ⟨b, r⟩, h⟩
      · exact absurd h (by simp)
      · obtain ⟨ha, hl⟩ := List.cons.inj h
        exact ⟨⟨b, ha⟩, r, hl⟩
    · rintro ⟨⟨b, ha⟩, r, hl⟩
      exact ⟨b :: r, by rw [List.map_cons, List.map_cons, ha, hl]⟩

/-- The fields of a struct unfold to sizes, and the struct to their sum. -/
theorem unfolds_struct (hf : table.fields? name = some fields)
    (hsizes : fields.map table.flatSize = sizes.map some) :
    table.Unfolds (.struct name) sizes.sum := by
  have hsize : fields.map (table.slotsWithin []) = sizes := by
    have h := congrArg (List.map (Option.getD · 0)) hsizes
    rw [List.map_map, List.map_map] at h
    exact h.trans (List.map_id' sizes)
  rw [← hsize]
  refine .struct _ hf fun field hfield => unfolds_of_sizeWithin (sizeWithin_slotsWithin ?_)
  exact exists_map_eq_map_some_iff.mp ⟨sizes, hsizes⟩ field hfield

/-- **A struct of sizable fields is sizable** if it fits: were it to embed itself, the field
that leads back to it would. -/
theorem Sizable.of_fields (hf : table.fields? name = some fields)
    (hfields : ∀ field ∈ fields, ∃ m, table.flatSize field = some m)
    (hfits : ∀ n, table.Unfolds (.struct name) n → n ≤ 2 ^ 64 - 1) :
    table.Sizable (.struct name) := by
  have hpart : ∀ part, table.Holds (.struct name) part → ∃ m, table.flatSize part = some m := by
    intro part h
    rw [Holds, parts_struct hf] at h
    exact hfields part h
  have hsizable : ∀ part, table.Holds (.struct name) part → table.Sizable part := by
    intro part h
    obtain ⟨m, hm⟩ := hpart part h
    exact (flatSize_eq_some_iff.mp hm).1
  refine ⟨fun other hmeets => ?_, fun other hmeets => ?_, fun other n hmeets hn => ?_⟩
  -- what is met is the struct itself, or is met from one of its fields
  all_goals rcases ReflTransGen.cases_head hmeets with heq | ⟨field, hfield, hmeets⟩
  · cases heq
    exact ⟨fields, hf⟩
  · exact (hsizable field hfield).defined other hmeets
  · cases heq
    intro hself
    obtain ⟨field, hfield, hself⟩ := Unfolds.exists_part_embeds_self hself
    obtain ⟨m, hm⟩ := hpart field hfield
    exact (flatSize_eq_some_iff.mp hm).2.not_embeds_self hself
  · exact (hsizable field hfield).apart other hmeets
  · cases heq
    exact hfits n hn
  · exact (hsizable field hfield).fits other n hmeets hn

/-- **A struct has the size that its fields sum up to**, if that is a number of 64 bits. -/
theorem flatSize_struct_eq_some_iff : table.flatSize (.struct name) = some n ↔
    ∃ (fields : List Ty) (sizes : List Nat), table.fields? name = some fields ∧
      fields.map table.flatSize = sizes.map some ∧ sizes.sum = n ∧ n ≤ 2 ^ 64 - 1 := by
  constructor
  · intro h
    obtain ⟨-, fields, hf, -⟩ := sizeWithin_struct_eq_some_iff.mp h
    obtain ⟨hsizable, hn⟩ := flatSize_eq_some_iff.mp h
    have hfields : ∀ field ∈ fields, ∃ m, table.flatSize field = some m := fun field hfield =>
      (hsizable.of_holds (holds_field hf hfield)).exists_sizeWithin (List.forall_mem_nil _)
    obtain ⟨sizes, hsizes⟩ := exists_map_eq_map_some_iff.mpr hfields
    exact ⟨fields, sizes, hf, hsizes, (unfolds_struct hf hsizes).unique hn, le_of_sizeWithin h⟩
  · rintro ⟨fields, sizes, hf, hsizes, rfl, hle⟩
    have hunfolds := unfolds_struct hf hsizes
    have hfields := exists_map_eq_map_some_iff.mp ⟨sizes, hsizes⟩
    refine flatSize_eq_some_iff.mpr ⟨.of_fields hf hfields fun n hn => ?_, hunfolds⟩
    rwa [hn.unique hunfolds]

/-! ### The offsets of a struct -/

/-- A row whose first field has a size starts with that field, unless its end overflows. -/
theorem offsetsFrom_cons {field : Ty} {rest : List Ty} {size : Nat}
    (hsize : table.flatSize field = some size) : table.offsetsFrom start (field :: rest) =
      if start + size ≤ 2 ^ 64 - 1 then
        (table.offsetsFrom (start + size) rest).map (Option.map (start :: ·))
      else .error .overflow := by
  by_cases hle : start + size ≤ 2 ^ 64 - 1
  · have hfits : fit64 (start + size) = some (start + size) := fit64_eq_some_iff.mpr ⟨rfl, hle⟩
    rw [if_pos hle, offsetsFrom]
    simp only [hsize, hfits]
  · have hnone : fit64 (start + size) = none :=
      Option.eq_none_iff_forall_ne_some.mpr fun n h => hle (fit64_eq_some_iff.mp h).2
    rw [if_neg hle, offsetsFrom]
    simp only [hsize, hnone]

/-- A result that was mapped is some value if it was one before. -/
theorem exceptMap_eq_ok_some_iff {α β ε : Type} {f : α → β} {r : Except ε (Option α)} {b : β} :
    r.map (Option.map f) = .ok (some b) ↔ ∃ a, r = .ok (some a) ∧ f a = b := by
  rcases r with e | _ | a <;> simp [Except.map]

/-- Mapping a result leaves its error. -/
theorem exceptMap_eq_error_iff {α β ε : Type} {f : α → β} {r : Except ε α} {e : ε} :
    r.map f = .error e ↔ r = .error e := by
  cases r <;> simp [Except.map]

/-- The sizes of a row are that of its first field and those of the others. -/
theorem map_flatSize_cons_iff {field : Ty} {rest : List Ty} :
    (field :: rest).map table.flatSize = sizes.map some ↔ ∃ size behind, sizes = size :: behind ∧
      table.flatSize field = some size ∧ rest.map table.flatSize = behind.map some := by
  cases sizes with
  | nil => simp
  | cons size behind => simp [and_assoc]

/-- **A row has offsets if its fields have sizes and no sum of them overflows**; the offsets are
the starts that the sizes give. -/
theorem offsetsFrom_eq_ok_some_iff (hstart : start ≤ 2 ^ 64 - 1) :
    table.offsetsFrom start fields = .ok (some offsets) ↔ ∃ sizes : List Nat,
      fields.map table.flatSize = sizes.map some ∧ offsets = startsFrom start sizes ∧
        start + sizes.sum ≤ 2 ^ 64 - 1 := by
  induction fields generalizing start offsets with
  | nil =>
    rw [offsetsFrom, Except.ok.injEq, Option.some.injEq]
    constructor
    · rintro rfl
      exact ⟨[], rfl, rfl, hstart⟩
    · rintro ⟨sizes, hsizes, rfl, -⟩
      rw [List.map_eq_nil_iff.mp hsizes.symm, startsFrom]
  | cons field rest ih =>
    simp only [map_flatSize_cons_iff]
    cases hsize : table.flatSize field with
    | none => simp [offsetsFrom, hsize]
    | some size =>
      rw [offsetsFrom_cons hsize]
      split
      next hle =>
        rw [exceptMap_eq_ok_some_iff]
        constructor
        · rintro ⟨behind, hbehind, rfl⟩
          obtain ⟨sizes, hsizes, rfl, hsum⟩ := (ih hle).mp hbehind
          refine ⟨size :: sizes, ⟨size, sizes, rfl, rfl, hsizes⟩, rfl, ?_⟩
          rwa [List.sum_cons, ← Nat.add_assoc]
        · rintro ⟨_, ⟨_, sizes, rfl, ⟨⟩, hsizes⟩, rfl, hsum⟩
          rw [List.sum_cons, ← Nat.add_assoc] at hsum
          exact ⟨_, (ih hle).mpr ⟨sizes, hsizes, rfl, hsum⟩, rfl⟩
      next hlt =>
        refine iff_of_false (by simp) ?_
        rintro ⟨_, ⟨_, sizes, rfl, ⟨⟩, -⟩, -, hsum⟩
        rw [List.sum_cons] at hsum
        omega

/-- **A sum overflows if the fields up to some place have sizes that need more than 64 bits
together.** -/
theorem offsetsFrom_eq_error_iff (hstart : start ≤ 2 ^ 64 - 1) :
    table.offsetsFrom start fields = .error .overflow ↔ ∃ (front : List Ty) (sizes : List Nat),
      front <+: fields ∧
      front.map table.flatSize = sizes.map some ∧ 2 ^ 64 ≤ start + sizes.sum := by
  induction fields generalizing start with
  | nil =>
    refine iff_of_false (by simp [offsetsFrom]) ?_
    rintro ⟨front, sizes, hfront, hsizes, hsum⟩
    obtain rfl := List.prefix_nil.mp hfront
    obtain rfl := List.map_eq_nil_iff.mp hsizes.symm
    rw [List.sum_nil] at hsum
    omega
  | cons field rest ih =>
    constructor
    · intro h
      cases hsize : table.flatSize field with
      | none => exact absurd h (by simp [offsetsFrom, hsize])
      | some size =>
        rw [offsetsFrom_cons hsize] at h
        split at h
        next hle =>
          obtain ⟨front, sizes, hfront, hsizes, hsum⟩ := (ih hle).mp (exceptMap_eq_error_iff.mp h)
          refine ⟨field :: front, size :: sizes, List.cons_prefix_cons.mpr ⟨rfl, hfront⟩,
            map_flatSize_cons_iff.mpr ⟨size, sizes, rfl, hsize, hsizes⟩, ?_⟩
          rwa [List.sum_cons, ← Nat.add_assoc]
        next hlt =>
          refine ⟨[field], [size], List.cons_prefix_cons.mpr ⟨rfl, List.nil_prefix⟩,
            congrArg (List.cons · []) hsize, ?_⟩
          rw [List.sum_singleton]
          omega
    · rintro ⟨front, sizes, hfront, hsizes, hsum⟩
      rcases front with _ | ⟨first, front⟩
      · obtain rfl := List.map_eq_nil_iff.mp hsizes.symm
        rw [List.sum_nil] at hsum
        omega
      · obtain ⟨rfl, hbefore⟩ := List.cons_prefix_cons.mp hfront
        obtain ⟨size, behind, rfl, hsize, hbehind⟩ := map_flatSize_cons_iff.mp hsizes
        rw [List.sum_cons, ← Nat.add_assoc] at hsum
        rw [offsetsFrom_cons hsize]
        split
        next hle =>
          exact exceptMap_eq_error_iff.mpr
            ((ih hle).mpr ⟨front, behind, hbefore, hbehind, hsum⟩)
        next => rfl

/-- Fields are laid out from the sizes alone. -/
theorem laidOut_iff : table.LaidOut fields sizes offsets ↔
    fields.map table.flatSize = sizes.map some ∧ offsets = startsFrom 0 sizes := by
  constructor
  · intro h
    refine ⟨h.sizes_eq, List.ext_getElem ?_ fun i hi hi' => ?_⟩
    · simpa [h.length_eq] using congrArg List.length h.sizes_eq
    · rw [h.offset_eq i hi, getElem_startsFrom, Nat.zero_add]
  · rintro ⟨hsizes, rfl⟩
    refine ⟨hsizes, ?_, fun i hi => ?_⟩
    · simpa using (congrArg List.length hsizes).symm
    · rw [getElem_startsFrom, Nat.zero_add]

/-- **The offsets of a struct are the sums of the sizes before each field**, if all fields have
sizes and their sum is a number of 64 bits. -/
theorem flatOffsets_eq_ok_some_iff : table.flatOffsets name = .ok (some offsets) ↔
    ∃ fields sizes, table.fields? name = some fields ∧ table.LaidOut fields sizes offsets ∧
      sizes.sum ≤ 2 ^ 64 - 1 := by
  rw [flatOffsets]
  cases table.fields? name with
  | none => simp
  | some fields =>
    simp only [offsetsFrom_eq_ok_some_iff (Nat.zero_le _), Nat.zero_add, laidOut_iff, and_assoc,
      Option.some.injEq, exists_and_left, exists_eq_left']

/-- **The offsets of a struct overflow** if the sizes of the fields up to some place do. -/
theorem flatOffsets_eq_error_iff : table.flatOffsets name = .error .overflow ↔
    ∃ (fields front : List Ty) (sizes : List Nat), table.fields? name = some fields ∧
      front <+: fields ∧
      front.map table.flatSize = sizes.map some ∧ 2 ^ 64 ≤ sizes.sum := by
  rw [flatOffsets]
  cases table.fields? name with
  | none => simp
  | some fields =>
    simp only [offsetsFrom_eq_error_iff (Nat.zero_le _), Nat.zero_add, Option.some.injEq,
      exists_eq_left', exists_and_left]

namespace LaidOut

variable (h : table.LaidOut fields sizes offsets)

include h

/-- There is a size for each offset. -/
theorem length_sizes : sizes.length = offsets.length := by
  simpa [h.length_eq] using (congrArg List.length h.sizes_eq).symm

/-- An offset is the sum of the sizes in front of it. -/
theorem getElem?_offsets {i : Nat} (hi : i < offsets.length) :
    offsets[i]? = some (sizes.take i).sum := by
  rw [List.getElem?_eq_getElem hi, h.offset_eq i hi]

/-- The first field starts at the first slot. -/
theorem headD_offsets : offsets.headD 0 = 0 := by
  cases offsets with
  | nil => rfl
  | cons first rest => exact h.offset_eq 0 (Nat.succ_pos _)

/-- No field starts before those in front of it. -/
theorem pairwise_offsets : offsets.Pairwise (· ≤ ·) := by
  rw [List.pairwise_iff_getElem]
  intro i j hi hj hij
  rw [h.offset_eq i hi, h.offset_eq j hj]
  exact (List.take_prefix_take_left (Nat.le_of_lt hij)).sublist.sum_le_sum fun _ _ => Nat.zero_le _

/-- Every field ends within the sum of the sizes. -/
theorem add_le_sum : ∀ place ∈ offsets.zip sizes, place.1 + place.2 ≤ sizes.sum := by
  intro place hplace
  obtain ⟨i, hi, rfl⟩ := List.mem_iff_getElem.mp hplace
  rw [List.length_zip] at hi
  have hoffset : i < offsets.length := by omega
  have hsize : i < sizes.length := by omega
  rw [List.getElem_zip, h.offset_eq i hoffset]
  calc (sizes.take i).sum + sizes[i] = (sizes.take (i + 1)).sum := by
        rw [List.take_succ_eq_append_getElem hsize, List.sum_append, List.sum_singleton]
    _ ≤ sizes.sum := (List.take_sublist _ _).sum_le_sum fun _ _ => Nat.zero_le _

/-- The sizes sum up to where the last field ends. -/
theorem sum_eq : sizes.sum = offsets.getLastD 0 + sizes.getLastD 0 := by
  rcases sizes.eq_nil_or_concat with rfl | ⟨front, last, rfl⟩
  · have hnil : offsets = [] := List.eq_nil_of_length_eq_zero h.length_sizes.symm
    rw [hnil]
    rfl
  · have hlength : offsets.length = front.length + 1 := by
      rw [← h.length_sizes, List.concat_eq_append, List.length_append, List.length_singleton]
    have hlast : offsets.getLastD 0 = front.sum := by
      rw [List.getLastD_eq_getLast?, List.getLast?_eq_getElem?, hlength, Nat.add_sub_cancel,
        h.getElem?_offsets (by omega), Option.getD_some, List.concat_eq_append, List.take_left]
    rw [hlast, List.concat_eq_append, List.sum_append, List.sum_singleton, List.getLastD_concat]

end LaidOut

/-! ### Agreement -/

/-- A struct inside another, two structs of which each embeds the other, and a struct that
needs more slots than 64 bits count. -/
def nestedTable : TypeTable :=
  ⟨[("outer", [.int 32, .struct "inner", .array 2 (.struct "inner"), .ptr (.struct "outer")]),
    ("inner", [.int 8, .float 64]), ("odd", [.int 1, .array 0 (.struct "even")]),
    ("even", [.struct "odd"]), ("vast", [.array (2 ^ 63) (.int 8), .array (2 ^ 63) (.int 8)])]⟩

/-- What has offsets does not embed itself. -/
theorem not_embeds_self_of_flatOffsets (h : table.flatOffsets name = .ok (some offsets)) :
    ¬table.Embeds (.struct name) (.struct name) := by
  obtain ⟨fields, sizes, hf, hlaid, -⟩ := flatOffsets_eq_ok_some_iff.mp h
  exact (unfolds_struct hf hlaid.sizes_eq).not_embeds_self

/-- **Offsets agree with sizes.**  A struct that has a size has an offset for each field, the
sum of the sizes before it; the offsets ascend from zero, none of the additions that make them
exceeds 64 bits, and the last field ends at the size.  A struct that has offsets has fields
with sizes, and if the sum of these is a number of 64 bits the fields are laid out one behind
the other and the sum is its size.  A struct that embeds itself has no offsets: it is found to
have none, or a sum overflows before.  A sum overflows exactly if the sizes of the fields up to
some place need more than 64 bits together. -/
theorem flatOffsets_agrees (table : TypeTable) (name : String) :
    (∀ total, table.flatSize (.struct name) = some total → ∃ fields sizes offsets,
      table.fields? name = some fields ∧ table.flatOffsets name = .ok (some offsets) ∧
        table.LaidOut fields sizes offsets ∧ offsets.headD 0 = 0 ∧ offsets.Pairwise (· ≤ ·) ∧
          (∀ place ∈ offsets.zip sizes, place.1 + place.2 ≤ 2 ^ 64 - 1) ∧
            total = offsets.getLastD 0 + sizes.getLastD 0) ∧
      (∀ offsets, table.flatOffsets name = .ok (some offsets) →
        ∃ (fields : List Ty) (sizes : List Nat),
        table.fields? name = some fields ∧ fields.map table.flatSize = sizes.map some ∧
          (sizes.sum < 2 ^ 64 → table.LaidOut fields sizes offsets ∧
            table.flatSize (.struct name) = some sizes.sum)) ∧
        (table.Embeds (.struct name) (.struct name) →
          table.flatOffsets name = .ok none ∨ table.flatOffsets name = .error .overflow) ∧
          (table.flatOffsets name = .error .overflow ↔
            ∃ (fields front : List Ty) (sizes : List Nat),
            table.fields? name = some fields ∧ front <+: fields ∧
              front.map table.flatSize = sizes.map some ∧ 2 ^ 64 ≤ sizes.sum) := by
  refine ⟨fun total h => ?_, fun offsets h => ?_, fun hself => ?_, flatOffsets_eq_error_iff⟩
  · obtain ⟨fields, sizes, hf, hsizes, rfl, hle⟩ := flatSize_struct_eq_some_iff.mp h
    have hlaid : table.LaidOut fields sizes (startsFrom 0 sizes) := laidOut_iff.mpr ⟨hsizes, rfl⟩
    refine ⟨fields, sizes, _, hf, flatOffsets_eq_ok_some_iff.mpr ⟨fields, sizes, hf, hlaid, hle⟩,
      hlaid, hlaid.headD_offsets, hlaid.pairwise_offsets, fun place hplace => ?_, hlaid.sum_eq⟩
    exact (hlaid.add_le_sum place hplace).trans hle
  · obtain ⟨fields, sizes, hf, hlaid, hle⟩ := flatOffsets_eq_ok_some_iff.mp h
    refine ⟨fields, sizes, hf, hlaid.sizes_eq, fun _ => ⟨hlaid, ?_⟩⟩
    exact flatSize_struct_eq_some_iff.mpr ⟨fields, sizes, hf, hlaid.sizes_eq, rfl, hle⟩
  · rcases hresult : table.flatOffsets name with ⟨⟨⟩⟩ | _ | offsets
    · exact Or.inr rfl
    · exact Or.inl rfl
    · exact absurd hself (not_embeds_self_of_flatOffsets hresult)

/-- A struct with fields of sizes 1, 2, 4 and 1, one that embeds itself, and one whose fields do
not fit into 64 bits. -/
theorem flatOffsets_agrees_nestedTable :
    (nestedTable.flatSize (.struct "outer") = some 8 ∧
      ∃ fields sizes offsets, nestedTable.fields? "outer" = some fields ∧
        nestedTable.flatOffsets "outer" = .ok (some offsets) ∧
          nestedTable.LaidOut fields sizes offsets ∧ offsets.headD 0 = 0 ∧
            offsets.Pairwise (· ≤ ·) ∧
              (∀ place ∈ offsets.zip sizes, place.1 + place.2 ≤ 2 ^ 64 - 1) ∧
                8 = offsets.getLastD 0 + sizes.getLastD 0) ∧
      (nestedTable.flatOffsets "outer" = .ok (some [0, 1, 3, 7]) ∧
        ∃ (fields : List Ty) (sizes : List Nat), nestedTable.fields? "outer" = some fields ∧
          fields.map nestedTable.flatSize = sizes.map some ∧
            (sizes.sum < 2 ^ 64 → nestedTable.LaidOut fields sizes [0, 1, 3, 7] ∧
              nestedTable.flatSize (.struct "outer") = some sizes.sum)) ∧
        (nestedTable.Embeds (.struct "odd") (.struct "odd") ∧
          nestedTable.flatOffsets "odd" = .ok none) ∧
          nestedTable.flatOffsets "vast" = .error .overflow := by
  have hsize : nestedTable.flatSize (.struct "outer") = some 8 := by decide_cbv
  have hoffsets : nestedTable.flatOffsets "outer" = .ok (some [0, 1, 3, 7]) := by decide_cbv
  have hself : nestedTable.Embeds (.struct "odd") (.struct "odd") := by
    have hodd : nestedTable.Holds (.struct "odd") (.array 0 (.struct "even")) :=
      holds_field rfl (by decide)
    have heven : nestedTable.Holds (.struct "even") (.struct "odd") := holds_field rfl (by decide)
    exact ((TransGen.single hodd).tail (holds_element _ _)).tail heven
  have hodd : nestedTable.flatOffsets "odd" ≠ .error .overflow := by decide_cbv
  have hvast : [Ty.array (2 ^ 63) (.int 8), .array (2 ^ 63) (.int 8)].map nestedTable.flatSize =
      [2 ^ 63, 2 ^ 63].map some := by decide_cbv
  exact ⟨⟨hsize, (flatOffsets_agrees nestedTable "outer").1 8 hsize⟩,
    ⟨hoffsets, (flatOffsets_agrees nestedTable "outer").2.1 _ hoffsets⟩,
    ⟨hself, ((flatOffsets_agrees nestedTable "odd").2.2.1 hself).resolve_right hodd⟩,
    (flatOffsets_agrees nestedTable "vast").2.2.2.mpr
      ⟨_, _, [2 ^ 63, 2 ^ 63], rfl, List.prefix_rfl, hvast, by decide⟩⟩

end TypeTable
end StructuredFlow
