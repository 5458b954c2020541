/-
# Numbers read back

The digits of a number are read back as the number, by any bound that it keeps
(`read_digits`).  What is read keeps the bound and ends in a digit (`le_of_read`,
`isDigit_getLast_of_read`).
-/

import Mathlib.Data.List.Basic
import StructuredFlow.Text.Decimal

namespace StructuredFlow
namespace Decimal

variable {n bound : Nat} {c : Char}

/-- A number has a digit. -/
theorem digits_ne_nil (n : Nat) : digits n ≠ [] := Nat.toDigits_ne_nil

/-- The digits of a number are digits. -/
theorem isDigit_of_mem_digits (h : c ∈ digits n) : c.isDigit = true :=
  Nat.isDigit_of_mem_toDigits (by decide) (by decide) h

/-- The value of the digits of a number is the number. -/
theorem value_digits (n : Nat) : value (digits n) = n := Nat.ofDigitChars_ten_toDigits

/-- Digits hold no sign to take off. -/
theorem dropPlus_digits (n : Nat) : dropPlus (digits n) = digits n := by
  cases hds : digits n with
  | nil => rfl
  | cons d ds =>
    have hdigit : d.isDigit = true := isDigit_of_mem_digits (hds ▸ List.mem_cons_self)
    have hplus : d ≠ '+' := by
      rintro rfl
      exact absurd hdigit (by decide)
    rw [dropPlus]
    simpa using hplus

/-- **The digits of a number are read back.** -/
theorem read_digits (h : n ≤ bound) : read bound (digits n) = some n := by
  have hall : (digits n).all Char.isDigit = true :=
    List.all_eq_true.mpr fun c hc => isDigit_of_mem_digits hc
  simp [read, dropPlus_digits, digits_ne_nil, hall, value_digits, h]

/-- Without the sign a text is an end of what it was. -/
theorem dropPlus_suffix (text : List Char) : dropPlus text <:+ text := by
  unfold dropPlus
  split
  next rest => exact List.suffix_cons '+' rest
  next => exact List.suffix_refl text

/-- **A number is read** from digits behind at most one sign, of a value that keeps the bound. -/
theorem read_eq_some_iff {text : List Char} : read bound text = some n ↔
    dropPlus text ≠ [] ∧ (∀ c ∈ dropPlus text, c.isDigit = true) ∧
      value (dropPlus text) = n ∧ n ≤ bound := by
  simp only [read]
  split
  next h =>
    refine iff_of_false (by simp) fun ⟨hne, hall, _, _⟩ => ?_
    rw [Bool.or_eq_true, Bool.not_eq_true', List.all_eq_false] at h
    obtain hnil | ⟨c, hc, hdigit⟩ := h
    · exact hne (List.isEmpty_iff.mp hnil)
    · exact hdigit (hall c hc)
  next h =>
    rw [Bool.or_eq_true, not_or, Bool.not_eq_true', Bool.not_eq_false, List.all_eq_true,
      List.isEmpty_iff] at h
    rw [and_iff_right h.1, and_iff_right h.2, Option.ite_none_right_eq_some, Option.some.injEq]
    constructor
    · rintro ⟨hle, rfl⟩
      exact ⟨rfl, hle⟩
    · rintro ⟨rfl, hle⟩
      exact ⟨hle, rfl⟩

/-- **What is read keeps the bound.** -/
theorem le_of_read {text : List Char} (h : read bound text = some n) : n ≤ bound :=
  (read_eq_some_iff.mp h).2.2.2

/-- What is read as a number ends in a digit. -/
theorem isDigit_getLast_of_read {text : List Char} (h : read bound text = some n)
    (hc : text.getLast? = some c) : c.isDigit = true := by
  obtain ⟨hne, hall, -, -⟩ := read_eq_some_iff.mp h
  obtain ⟨sign, hsign⟩ := dropPlus_suffix text
  rw [← hsign, List.getLast?_append_of_ne_nil _ hne] at hc
  exact hall c (List.mem_of_getLast? hc)

end Decimal
end StructuredFlow
