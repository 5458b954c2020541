/-
# Blank characters and cutting text

The blank characters are the 25 of the Unicode property `White_Space`.  `trim`
removes them from both ends of a text; `stripFirst`, `stripLast` and `splitOnce`
take a text apart at a known character or separator.  Each of them returns a
shorter text, which is what lets readers recurse on the rest.
-/

namespace StructuredFlow
namespace Text

/-- The code points of the Unicode property `White_Space`. -/
def blankPoints : List Nat :=
  [0x09, 0x0A, 0x0B, 0x0C, 0x0D, 0x20, 0x85, 0xA0, 0x1680, 0x2000, 0x2001, 0x2002, 0x2003,
    0x2004, 0x2005, 0x2006, 0x2007, 0x2008, 0x2009, 0x200A, 0x2028, 0x2029, 0x202F, 0x205F,
    0x3000]

/-- Tests whether a character is white space. -/
def isBlank (c : Char) : Bool := blankPoints.contains c.toNat

/-- Removes from both ends the characters that `p` accepts. -/
def trimBy (p : Char → Bool) (text : List Char) : List Char :=
  ((text.dropWhile p).reverse.dropWhile p).reverse

/-- Removes white space from both ends. -/
def trim (text : List Char) : List Char := trimBy isBlank text

/-- The text after its first character, if that is `c`. -/
def stripFirst (c : Char) : List Char → Option (List Char)
  | [] => none
  | d :: rest => if d = c then some rest else none

/-- The text before its last character, if that is `c`. -/
def stripLast (c : Char) (text : List Char) : Option (List Char) :=
  if text.getLast? = some c then some text.dropLast else none

/-- The parts before and after the first occurrence of a separator. -/
def splitOnce (separator : List Char) : List Char → Option (List Char × List Char)
  | [] => if separator.isEmpty then some ([], []) else none
  | c :: rest =>
    if separator.isPrefixOf (c :: rest) then some ([], (c :: rest).drop separator.length)
    else (splitOnce separator rest).map fun (before, after) => (c :: before, after)

/-- Dropping makes no text longer. -/
theorem length_dropWhile_le (p : Char → Bool) (text : List Char) :
    (text.dropWhile p).length ≤ text.length :=
  (List.dropWhile_sublist p).length_le

/-- Trimming makes no text longer. -/
theorem length_trimBy_le (p : Char → Bool) (text : List Char) :
    (trimBy p text).length ≤ text.length := by
  rw [trimBy, List.length_reverse]
  refine Nat.le_trans (length_dropWhile_le ..) ?_
  rw [List.length_reverse]
  exact length_dropWhile_le ..

/-- Nor does trimming white space. -/
theorem length_trim_le (text : List Char) : (trim text).length ≤ text.length :=
  length_trimBy_le ..

/-- A first character is taken off where it stands. -/
theorem stripFirst_eq_some {c : Char} {text rest : List Char} :
    stripFirst c text = some rest ↔ text = c :: rest := by
  cases text with
  | nil => simp [stripFirst]
  | cons d l =>
    simp only [stripFirst, List.cons.injEq]
    split <;> simp_all

/-- A last character is taken off where it stands. -/
theorem stripLast_eq_some {c : Char} {text rest : List Char} :
    stripLast c text = some rest ↔ text = rest ++ [c] := by
  constructor
  · intro h
    simp only [stripLast] at h
    split at h
    · rename_i hl
      obtain rfl := Option.some.inj h
      obtain ⟨init, rfl⟩ := List.getLast?_eq_some_iff.mp hl
      simp
    · exact absurd h (by simp)
  · rintro rfl
    simp [stripLast]

/-- A text that is cut is put together from its parts and the separator. -/
theorem splitOnce_eq_some {separator text before after : List Char}
    (h : splitOnce separator text = some (before, after)) :
    text = before ++ separator ++ after := by
  induction text generalizing before with
  | nil =>
    simp only [splitOnce] at h
    split at h
    · simp_all
    · exact absurd h (by simp)
  | cons c rest ih =>
    simp only [splitOnce] at h
    split at h
    · rename_i hp
      obtain ⟨t, ht⟩ := List.isPrefixOf_iff_prefix.mp hp
      obtain ⟨rfl, rfl⟩ := Prod.mk.inj (Option.some.inj h)
      rw [← ht, List.drop_left, List.nil_append]
    · obtain ⟨⟨b, a⟩, hb, hba⟩ := Option.map_eq_some_iff.mp h
      obtain ⟨rfl, rfl⟩ := Prod.mk.inj hba
      rw [ih hb]
      rfl

end Text
end StructuredFlow
