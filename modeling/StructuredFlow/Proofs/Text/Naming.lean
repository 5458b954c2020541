/-
# The identifiers of a list of names

`Identifier.distinct` goes once through a list of names.  A name gets its own identifier if
no name before it has that one; else identifiers with a number behind them are tried, from
the position of the name upward, until one is free.

`Settles` is that search without a bound on it.  Each identifier that is tried in vain is
one of an earlier name, and no two of them are the same, so the search ends
(`settles_choose`).  What is found may stand in the generated code (`isIdentifier_choose`): a
number behind an identifier takes nothing away from its start.
-/

import StructuredFlow.Proofs.Text.Decimal
import StructuredFlow.Proofs.Text.Identifier

namespace StructuredFlow
namespace Identifier

variable {taken : List String} {base name : String} {suffix : Nat}

/-! ### What may stand in the generated code -/

/-- An identifier has legal characters only, and a start. -/
theorem isIdentifier_iff {identifier : String} : isIdentifier identifier = true ↔
    (∀ c ∈ identifier.toList, isLegal c = true) ∧ lacksStart identifier.toList = false := by
  rw [isIdentifier, Bool.and_eq_true, List.all_eq_true, Bool.not_eq_true']

/-- A sanitized name has legal characters only. -/
theorem isLegal_of_mem_sanitized {c : Char} (h : c ∈ sanitized name) : isLegal c = true := by
  obtain ⟨d, -, rfl⟩ := List.mem_map.mp h
  split
  next hd => exact hd
  next => rfl

/-- What a name becomes is an identifier. -/
theorem isIdentifier_ofName (name : String) : isIdentifier (ofName name) = true := by
  have hchars : (ofName name).toList = protectStart (sanitized name) := String.toList_ofList
  rw [isIdentifier_iff, hchars, protectStart_eq_ite]
  split
  next => exact ⟨List.forall_mem_cons.mpr ⟨rfl, fun c => isLegal_of_mem_sanitized⟩, rfl⟩
  next h => exact ⟨fun c => isLegal_of_mem_sanitized, Bool.eq_false_iff.mpr h⟩

/-- A numbered name is the name, `_` and the digits of the number. -/
theorem toList_numbered (base : String) (n : Nat) :
    (numbered base n).toList = base.toList ++ '_' :: Decimal.digits n := by
  simp [numbered, toString, Nat.toList_repr, Decimal.digits]

/-- Digits may stand in an identifier. -/
theorem isLegal_of_isDigit {c : Char} (h : c.isDigit = true) : isLegal c = true := by
  simp [isLegal, Char.isAlphanum, h]

/-- A number behind an identifier leaves it one. -/
theorem isIdentifier_numbered (h : isIdentifier base = true) (n : Nat) :
    isIdentifier (numbered base n) = true := by
  obtain ⟨hlegal, hstart⟩ := isIdentifier_iff.mp h
  rw [isIdentifier_iff, toList_numbered]
  constructor
  · intro c hc
    rcases List.mem_append.mp hc with hc | hc
    · exact hlegal c hc
    · rcases List.mem_cons.mp hc with rfl | hc
      · rfl
      · exact isLegal_of_isDigit (Decimal.isDigit_of_mem_digits hc)
  · cases hchars : base.toList with
    | nil => exact absurd hstart (by simp [hchars, lacksStart])
    | cons c rest => simpa [hchars, lacksStart] using hstart

/-! ### The search for a free identifier -/

/-- The search for a free identifier: `tries` times what is at hand is taken and the next
number behind `base` is tried, and then the outcome is free. -/
inductive Settles (taken : List String) (base : String) : String → Nat → Nat → String → Prop
  /-- What is free is kept. -/
  | free {identifier : String} {suffix : Nat} (h : identifier ∉ taken) :
      Settles taken base identifier suffix 0 identifier
  /-- For what is taken the next number is tried. -/
  | next {identifier outcome : String} {suffix tries : Nat} (h : identifier ∈ taken)
      (hnext : Settles taken base (numbered base suffix) (suffix + 1) tries outcome) :
      Settles taken base identifier suffix (tries + 1) outcome

/-- The numbers below the first free one are all tried. -/
theorem settles_numbered {j : Nat} (hfree : numbered base (suffix + j) ∉ taken)
    (htaken : ∀ i < j, numbered base (suffix + i) ∈ taken) :
    Settles taken base (numbered base suffix) (suffix + 1) j (numbered base (suffix + j)) := by
  induction j generalizing suffix with
  | zero => exact .free hfree
  | succ j ih =>
    have hshift : ∀ i, suffix + (i + 1) = suffix + 1 + i := fun i => by omega
    rw [hshift j] at hfree ⊢
    refine .next (htaken 0 (Nat.succ_pos j)) (ih hfree fun i hi => ?_)
    rw [← hshift i]
    exact htaken (i + 1) (Nat.succ_lt_succ hi)

/-- Only numbers of taken identifiers are passed over, and no more of them than allowed. -/
theorem exists_firstFree_eq (taken : List String) (base : String) (fuel suffix : Nat) :
    ∃ j ≤ fuel, firstFree taken base fuel suffix = numbered base (suffix + j) ∧
      ∀ i < j, numbered base (suffix + i) ∈ taken := by
  induction fuel generalizing suffix with
  | zero => exact ⟨0, Nat.le_refl 0, rfl, fun i hi => absurd hi (Nat.not_lt_zero i)⟩
  | succ fuel ih =>
    rw [firstFree]
    split
    next hfirst =>
      obtain ⟨j, hj, heq, htaken⟩ := ih (suffix + 1)
      refine ⟨j + 1, Nat.succ_le_succ hj, by rw [heq, Nat.add_right_comm, Nat.add_assoc], ?_⟩
      rintro (_ | i) hi
      · exact hfirst
      · rw [Nat.add_comm i 1, ← Nat.add_assoc]
        exact htaken i (Nat.lt_of_succ_lt_succ hi)
    next => exact ⟨0, Nat.zero_le _, rfl, fun i hi => absurd hi (Nat.not_lt_zero i)⟩

/-- The number that makes the identifier found is the first one that makes a free one. -/
theorem exists_firstFree_length_eq (taken : List String) (base : String) (suffix : Nat) :
    ∃ j ≤ taken.length, firstFree taken base taken.length suffix = numbered base (suffix + j) ∧
      numbered base (suffix + j) ∉ taken ∧ ∀ i < j, numbered base (suffix + i) ∈ taken := by
  obtain ⟨j, hj, heq, htaken⟩ := exists_firstFree_eq taken base taken.length suffix
  exact ⟨j, hj, heq, heq ▸ firstFree_not_mem taken base suffix, htaken⟩

/-! ### What a name gets -/

/-- The identifier of the name at position `index`, those of the names before it being `taken`. -/
structure Chosen (taken : List String) (index : Nat) (name identifier : String) : Prop where
  /-- It may stand in the generated code. -/
  isIdentifier : isIdentifier identifier = true
  /-- The search for it ends. -/
  settles : ∃ tries ≤ taken.length + 1,
    Settles taken (ofName name) (ofName name) index tries identifier
  /-- A name whose identifier is free keeps it. -/
  eq_ofName : ofName name ∉ taken → identifier = ofName name
  /-- Any other gets the least number from its position on that makes a free one. -/
  eq_numbered : ofName name ∈ taken → ∃ n ≥ index, identifier = numbered (ofName name) n ∧
    identifier ∉ taken ∧ ∀ m, index ≤ m → m < n → numbered (ofName name) m ∈ taken

/-- **The search for a free identifier ends**, after no more tries than one for each identifier
that is taken and one more. -/
theorem settles_choose (taken : List String) (index : Nat) (name : String) :
    ∃ tries ≤ taken.length + 1,
      Settles taken (ofName name) (ofName name) index tries (choose taken index name) := by
  rw [choose]
  split
  next h =>
    obtain ⟨j, hj, heq, hfree, htaken⟩ := exists_firstFree_length_eq taken (ofName name) index
    exact ⟨j + 1, Nat.succ_le_succ hj, heq ▸ .next h (settles_numbered hfree htaken)⟩
  next h => exact ⟨0, Nat.zero_le _, .free h⟩

/-- What is chosen for a name is an identifier. -/
theorem isIdentifier_choose (taken : List String) (index : Nat) (name : String) :
    isIdentifier (choose taken index name) = true := by
  rw [choose]
  split
  next =>
    obtain ⟨j, -, heq, -⟩ := exists_firstFree_eq taken (ofName name) taken.length index
    exact heq ▸ isIdentifier_numbered (isIdentifier_ofName name) _
  next => exact isIdentifier_ofName name

/-- What is chosen for a name is what the names taken leave to it: its own identifier if that is
free, else the first number that is. -/
theorem chosen_choose (taken : List String) (index : Nat) (name : String) :
    Chosen taken index name (choose taken index name) where
  isIdentifier := isIdentifier_choose taken index name
  settles := settles_choose taken index name
  eq_ofName h := if_neg h
  eq_numbered h := by
    obtain ⟨j, -, heq, hfree, htaken⟩ := exists_firstFree_length_eq taken (ofName name) index
    rw [choose, if_pos h, heq]
    refine ⟨index + j, Nat.le_add_right index j, rfl, hfree, fun m hm hlt => ?_⟩
    obtain ⟨i, rfl⟩ := Nat.exists_eq_add_of_le hm
    exact htaken i (Nat.lt_of_add_lt_add_left hlt)

/-- The identifiers of the names so far do not change when more names follow. -/
theorem distinct_prefix (names more : List String) :
    distinct names <+: distinct (names ++ more) := by
  induction more using List.reverseRecOn with
  | nil => exact (List.append_nil names).symm ▸ List.prefix_refl _
  | append_singleton more name ih =>
    rw [← List.append_assoc, distinct_concat]
    exact ih.trans (List.prefix_append _ _)

/-- A name is given its identifier in view of those of the names before it. -/
theorem getElem?_distinct {names : List String} {i : Nat} (h : names[i]? = some name) :
    (distinct names)[i]? = some (choose ((distinct names).take i) i name) := by
  obtain ⟨hi, rfl⟩ := List.getElem?_eq_some_iff.mp h
  have hbefore : (distinct (names.take i)).length = i := by
    rw [length_distinct, List.length_take, Nat.min_eq_left (Nat.le_of_lt hi)]
  have hprefix : distinct (names.take i) <+: distinct names := by
    simpa using distinct_prefix (names.take i) (names.drop i)
  have htake : (distinct names).take i = distinct (names.take i) := by
    rw [List.prefix_iff_eq_take.mp hprefix, hbefore]
  have hupTo : distinct (names.take i ++ [names[i]]) <+: distinct names := by
    rw [List.take_append_getElem]
    simpa using distinct_prefix (names.take (i + 1)) (names.drop (i + 1))
  rw [distinct_concat, hbefore] at hupTo
  rw [htake]
  obtain ⟨rest, hrest⟩ := hupTo
  rw [← hrest, List.append_assoc, List.getElem?_append_right (Nat.le_of_eq hbefore), hbefore,
    Nat.sub_self]
  rfl

/-- Each identifier of a list may stand in the generated code. -/
theorem isIdentifier_of_mem_distinct {names : List String} {identifier : String}
    (h : identifier ∈ distinct names) : isIdentifier identifier = true := by
  obtain ⟨i, hi⟩ := List.mem_iff_getElem?.mp h
  have hlt : i < names.length := by
    rw [← length_distinct names]
    exact (List.getElem?_eq_some_iff.mp hi).1
  rw [getElem?_distinct (List.getElem?_eq_getElem hlt)] at hi
  exact Option.some.inj hi ▸ isIdentifier_choose _ _ _

/-- What stands in an identifier is no colon. -/
theorem colon_not_mem_of_isIdentifier {identifier : String} (h : isIdentifier identifier = true) :
    ':' ∉ identifier.toList := fun hmem =>
  absurd ((isIdentifier_iff.mp h).1 ':' hmem) (by decide)

/-- **The names of a list get identifiers that differ from each other**, one each: every one may
stand in the generated code, is the name's own where that is free, and else the one with the
least number behind it, from the position of the name upward, that is free; and the search for
it ends. -/
theorem distinct_chosen (names : List String) :
    (distinct names).length = names.length ∧ (distinct names).Nodup ∧
      ∀ i name, names[i]? = some name → ∃ identifier, (distinct names)[i]? = some identifier ∧
        Chosen ((distinct names).take i) i name identifier :=
  ⟨length_distinct names, nodup_distinct names, fun i name h =>
    ⟨_, getElem?_distinct h, chosen_choose _ i name⟩⟩

/-- The last of these names finds its own identifier taken, and the first one with a number as
well, by a name that is that identifier as it stands. -/
theorem distinct_chosen_numbered : ["a_b_2", "a.b", "a_b"][2]? = some "a_b" ∧
    ∃ identifier, (distinct ["a_b_2", "a.b", "a_b"])[2]? = some identifier ∧
      Chosen ((distinct ["a_b_2", "a.b", "a_b"]).take 2) 2 "a_b" identifier :=
  ⟨rfl, (distinct_chosen ["a_b_2", "a.b", "a_b"]).2.2 2 "a_b" rfl⟩

example : distinct ["a_b_2", "a.b", "a_b"] = ["a_b_2", "a_b", "a_b_3"] := by decide +kernel

end Identifier
end StructuredFlow
