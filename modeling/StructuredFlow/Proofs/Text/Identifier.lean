/-
# Identifiers that differ

Names may share an identifier, but those that `Identifier.distinct` gives to the names
of a list do not (`nodup_distinct`).  Among one number more than there are identifiers
taken one is free, since different numbers make different identifiers
(`firstFree_not_mem`).

The bindings of function-local names are not chosen in view of each other.  Two names have
the same binding exactly if they merge (`ofLocal_eq_iff`): the characters that identifiers
may hold leave no difference between them, or just the `_` that one of them got in front.
Names that are identifiers as they stand do not merge (`eq_of_merges`).
-/

import Mathlib.Data.List.Induction
import Mathlib.Data.List.Nodup
import Mathlib.Data.List.Perm.Subperm
import StructuredFlow.Text.Identifier

namespace StructuredFlow
namespace Identifier

variable {taken : List String} {base : String}

/-- Different numbers make different identifiers. -/
theorem numbered_injective (base : String) : Function.Injective (numbered base) := by
  intro m n h
  have hdigits : Nat.toDigits 10 m = Nat.toDigits 10 n := by
    have hlist := congrArg String.toList h
    simpa [numbered, toString, Nat.toList_repr] using hlist
  have hvalue := congrArg (fun ds => Nat.ofDigitChars 10 ds 0) hdigits
  simpa only [Nat.ofDigitChars_ten_toDigits] using hvalue

/-- If the identifier found is taken, all those looked at were. -/
theorem numbered_mem_of_firstFree_mem {fuel suffix : Nat}
    (h : firstFree taken base fuel suffix ∈ taken) :
    ∀ j ≤ fuel, numbered base (suffix + j) ∈ taken := by
  induction fuel generalizing suffix with
  | zero =>
    intro j hj
    obtain rfl := Nat.le_zero.mp hj
    exact h
  | succ fuel ih =>
    rw [firstFree] at h
    split at h
    next hfirst =>
      intro j hj
      cases j with
      | zero => exact hfirst
      | succ j =>
        have hnext := ih h j (Nat.le_of_succ_le_succ hj)
        rwa [Nat.add_right_comm] at hnext
    next hfirst => exact absurd h hfirst

/-- **Among one number more than there are identifiers taken one is free.** -/
theorem firstFree_not_mem (taken : List String) (base : String) (suffix : Nat) :
    firstFree taken base taken.length suffix ∉ taken := by
  intro h
  have hall := numbered_mem_of_firstFree_mem h
  have hnodup : ((List.range (taken.length + 1)).map fun j =>
      numbered base (suffix + j)).Nodup := by
    refine List.nodup_range.map fun i j hij => ?_
    exact Nat.add_left_cancel (numbered_injective base hij)
  -- pigeonhole: more different identifiers would be taken than there are
  have hsub := hnodup.subperm fun identifier hid => by
    obtain ⟨j, hj, rfl⟩ := List.mem_map.mp hid
    exact hall j (Nat.le_of_lt_succ (List.mem_range.mp hj))
  have hlength := hsub.length_le
  rw [List.length_map, List.length_range] at hlength
  exact Nat.not_succ_le_self _ hlength

/-- The identifier chosen for a name is not taken. -/
theorem choose_not_mem (taken : List String) (index : Nat) (name : String) :
    choose taken index name ∉ taken := by
  rw [choose]
  split
  next => exact firstFree_not_mem taken (ofName name) index
  next h => exact h

/-- A name more at the end gets its identifier from those before it and their number. -/
theorem distinct_concat (names : List String) (name : String) : distinct (names ++ [name]) =
    distinct names ++ [choose (distinct names) (distinct names).length name] := by
  simp [distinct]

/-- Each name gets an identifier. -/
@[simp] theorem length_distinct (names : List String) :
    (distinct names).length = names.length := by
  induction names using List.reverseRecOn with
  | nil => rfl
  | append_singleton names name ih => rw [distinct_concat, List.length_append, ih]; simp

/-- **The identifiers of the names of a list differ from each other.** -/
theorem nodup_distinct (names : List String) : (distinct names).Nodup := by
  induction names using List.reverseRecOn with
  | nil => exact List.nodup_nil
  | append_singleton names name ih =>
    rw [distinct_concat, ← List.concat_eq_append, List.nodup_concat]
    exact ⟨choose_not_mem _ _ _, ih⟩

/-! ### Names that share a binding -/

/-- The characters of a name, with `_` for each that may not stand in an identifier. -/
def sanitized (name : String) : List Char := name.toList.map fun c => if isLegal c then c else '_'

/-- Tests for characters with which no identifier starts: none, or a digit first. -/
def lacksStart (chars : List Char) : Bool := chars.head?.all Char.isDigit

/-- Tests for a name that is an identifier as it stands. -/
def isIdentifier (name : String) : Bool := name.toList.all isLegal && !lacksStart name.toList

/-- Two names that become the same identifier: they do not differ in the characters that may
stand in one, or differ in the `_` put before one of them only. -/
def Merges (a b : String) : Prop :=
  sanitized a = sanitized b ∨ (lacksStart (sanitized a) = true ∧ sanitized b = '_' :: sanitized a) ∨
    (lacksStart (sanitized b) = true ∧ sanitized a = '_' :: sanitized b)

instance (a b : String) : Decidable (Merges a b) := inferInstanceAs (Decidable (_ ∨ _))

/-- An identifier starts with `_` where the characters alone could not start one. -/
theorem protectStart_eq_ite (chars : List Char) :
    protectStart chars = if lacksStart chars then '_' :: chars else chars := by
  cases chars <;> rfl

/-- Two texts agree once their starts are protected if they agreed before, or if one of them got
the `_` that the other had. -/
theorem protectStart_eq_iff {a b : List Char} : protectStart a = protectStart b ↔ a = b ∨
    (lacksStart a = true ∧ b = '_' :: a) ∨ (lacksStart b = true ∧ a = '_' :: b) := by
  -- what got its `_` already gets no second one
  have hstart : ∀ chars : List Char, lacksStart ('_' :: chars) = false := fun _ => rfl
  rw [protectStart_eq_ite, protectStart_eq_ite]
  cases ha : lacksStart a <;> cases hb : lacksStart b
  · simp
  · have hne : a ≠ b := by
      rintro rfl
      exact Bool.false_ne_true (ha.symm.trans hb)
    simp [hne]
  · have hne : a ≠ b := by
      rintro rfl
      exact Bool.false_ne_true (hb.symm.trans ha)
    simp [hne, eq_comm]
  · have hab : b ≠ '_' :: a := by
      rintro rfl
      exact Bool.false_ne_true ((hstart a).symm.trans hb)
    have hba : a ≠ '_' :: b := by
      rintro rfl
      exact Bool.false_ne_true ((hstart b).symm.trans ha)
    simp [hab, hba]

/-- **Two names share a binding exactly if they merge.** -/
theorem ofLocal_eq_iff {a b : String} : ofLocal a = ofLocal b ↔ Merges a b := by
  rw [Merges, ← protectStart_eq_iff]
  simp only [ofLocal, ofName, ← String.toList_inj, String.toList_append, String.toList_ofList,
    List.append_cancel_left_eq]
  rfl

/-- An identifier needs no character replaced. -/
theorem sanitized_eq_toList {name : String} (h : isIdentifier name = true) :
    sanitized name = name.toList := by
  obtain ⟨hlegal, -⟩ := Bool.and_eq_true_iff.mp h
  refine (List.map_congr_left fun c hc => ?_).trans (List.map_id name.toList)
  exact if_pos (List.all_eq_true.mp hlegal c hc)

/-- An identifier has a start. -/
theorem lacksStart_sanitized {name : String} (h : isIdentifier name = true) :
    lacksStart (sanitized name) = false := by
  rw [sanitized_eq_toList h]
  simpa using (Bool.and_eq_true_iff.mp h).2

/-- **Names that are identifiers as they stand do not merge.** -/
theorem eq_of_merges {a b : String} (ha : isIdentifier a = true) (hb : isIdentifier b = true)
    (h : Merges a b) : a = b := by
  rcases h with h | ⟨hstart, -⟩ | ⟨hstart, -⟩
  · rwa [sanitized_eq_toList ha, sanitized_eq_toList hb, String.toList_inj] at h
  · exact absurd hstart (by simp [lacksStart_sanitized ha])
  · exact absurd hstart (by simp [lacksStart_sanitized hb])

end Identifier
end StructuredFlow
