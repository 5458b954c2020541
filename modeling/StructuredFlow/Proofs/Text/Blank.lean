/-
# Trimmed and cut texts

Trimming does not see what `p` accepts at the ends of a text (`trimBy_append`) and leaves
a text alone whose first and last characters `p` does not accept (`trimBy_of_tight`); what
it leaves is such a text (`tight_trimBy`).  A text is cut at the separator written into it
if nothing before it could begin one (`splitOnce_append`).
-/

import Mathlib.Data.List.DropRight
import StructuredFlow.Text.Blank

namespace StructuredFlow
namespace Text

/-- A text of which `p` accepts neither the first character nor the last. -/
structure Tight (p : Char → Bool) (text : List Char) : Prop where
  /-- The first character is not accepted. -/
  head : ∀ c, text.head? = some c → p c = false
  /-- The last character is not accepted. -/
  last : ∀ c, text.getLast? = some c → p c = false

variable {p : Char → Bool} {before text after : List Char} {c : Char}

/-- Only the ends of a text say whether it is tight. -/
theorem tight_iff : Tight p text ↔
    text.head?.all (fun c => !p c) = true ∧ text.getLast?.all (fun c => !p c) = true := by
  simp only [Option.all_eq_true, Bool.not_eq_true']
  exact ⟨fun h => ⟨h.head, h.last⟩, fun h => ⟨h.1, h.2⟩⟩

instance : Decidable (Tight p text) := decidable_of_iff' _ tight_iff

/-- Trimming drops what is accepted in front, then what is accepted behind. -/
theorem trimBy_eq_rdropWhile (p : Char → Bool) (text : List Char) :
    trimBy p text = (text.dropWhile p).rdropWhile p := rfl

/-- Nothing is dropped from a text whose first character is not accepted. -/
theorem dropWhile_of_head (h : ∀ c, text.head? = some c → p c = false) :
    text.dropWhile p = text := by
  rw [List.dropWhile_eq_self_iff]
  intro hl
  simp [h text[0] (by rw [List.head?_eq_getElem?, List.getElem?_eq_getElem hl])]

/-- A text whose first character stays is trimmed at its end only. -/
theorem trimBy_prefix (h : ∀ c, text.head? = some c → p c = false) : trimBy p text <+: text := by
  rw [trimBy_eq_rdropWhile, dropWhile_of_head h]
  exact List.rdropWhile_prefix p text

/-- **A tight text stays as it is.** -/
theorem trimBy_of_tight (h : Tight p text) : trimBy p text = text := by
  rw [trimBy_eq_rdropWhile, dropWhile_of_head h.head, List.rdropWhile_eq_self_iff]
  intro hne
  simp [h.last _ (List.getLast?_eq_some_getLast hne)]

/-- **What trimming leaves is tight.** -/
theorem tight_trimBy (p : Char → Bool) (text : List Char) : Tight p (trimBy p text) where
  head c hc := by
    obtain ⟨removed, happend⟩ := List.rdropWhile_prefix p (text.dropWhile p)
    have hhead : (text.dropWhile p).head? = some c := by
      rw [← happend, List.head?_append, ← trimBy_eq_rdropWhile, hc]
      rfl
    have hnot := List.head?_dropWhile_not p text
    rwa [hhead] at hnot
  last c hc := by
    rw [trimBy_eq_rdropWhile] at hc
    have hne : (text.dropWhile p).rdropWhile p ≠ [] := by
      rintro hnil
      rw [hnil] at hc
      exact absurd hc (by simp)
    rw [List.getLast?_eq_some_getLast hne] at hc
    have hnot := List.rdropWhile_last_not p (text.dropWhile p) hne
    rw [Option.some.inj hc] at hnot
    simpa using hnot

/-- Trimming brings in no characters. -/
theorem mem_of_mem_trimBy (h : c ∈ trimBy p text) : c ∈ text := by
  rw [trimBy_eq_rdropWhile] at h
  exact (List.dropWhile_sublist p).mem ((List.rdropWhile_prefix p _).mem h)

/-- What is accepted may be put behind a text before it is trimmed there. -/
theorem rdropWhile_append_of_pos (h : ∀ c ∈ after, p c = true) :
    (text ++ after).rdropWhile p = text.rdropWhile p := by
  rw [List.rdropWhile, List.rdropWhile, List.reverse_append,
    List.dropWhile_append_of_pos fun c hc => h c (List.mem_reverse.mp hc)]

/-- **Trimming does not see what stands around a text**, if it would be removed. -/
theorem trimBy_append (hbefore : ∀ c ∈ before, p c = true) (hafter : ∀ c ∈ after, p c = true) :
    trimBy p (before ++ text ++ after) = trimBy p text := by
  rw [trimBy_eq_rdropWhile, trimBy_eq_rdropWhile, List.append_assoc,
    List.dropWhile_append_of_pos hbefore, List.dropWhile_append]
  split
  next h =>
    rw [List.isEmpty_iff.mp h, List.dropWhile_eq_nil_iff.mpr hafter]
  next => exact rdropWhile_append_of_pos hafter

/-- No last character is taken off a text that does not end in it. -/
theorem stripLast_eq_none_iff : stripLast c text = none ↔ text.getLast? ≠ some c := by
  rw [stripLast]
  split <;> simp_all

/-- No first character is taken off a text that does not start with it. -/
theorem stripFirst_eq_none_iff : stripFirst c text = none ↔ text.head? ≠ some c := by
  cases text with
  | nil => simp [stripFirst]
  | cons d rest => simp [stripFirst]

/-- **A text is cut where its separator was written**, if the separator's first character does
not occur before. -/
theorem splitOnce_append {separator : List Char} (h : c ∉ before) :
    splitOnce (c :: separator) (before ++ c :: separator ++ after) = some (before, after) := by
  induction before with
  | nil =>
    have hprefix : (c :: separator).isPrefixOf (c :: (separator ++ after)) = true :=
      List.isPrefixOf_iff_prefix.mpr ⟨after, rfl⟩
    rw [List.nil_append, List.cons_append, splitOnce, if_pos hprefix]
    simp
  | cons d before ih =>
    rw [List.mem_cons, not_or] at h
    obtain ⟨hd, hbefore⟩ := h
    have hprefix : ¬(c :: separator).isPrefixOf (d :: (before ++ c :: separator ++ after)) := by
      simp [hd]
    rw [List.cons_append, List.cons_append, splitOnce, if_neg hprefix, ih hbefore]
    rfl

end Text
end StructuredFlow
