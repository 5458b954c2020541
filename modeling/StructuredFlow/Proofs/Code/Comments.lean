/-
# Lines with comments and without

Lines that say the same apart from comments are related by `Annotates`: a comment stands on
a line of its own, or behind the code of its line.  To leave the comments out is then an
operation on lines (`Annotates.withoutComments`).  In the text of the lines a comment goes
as far as its line, and the line ends at the first character that ends one, wherever that
comes from.  So deleting each comment up to the end of its line (`Line.uncommented`) leaves
the text of the lines without comments exactly if no comment holds such a character
(`Annotates.uncommented_iff`); what stands behind one would be left over.

| line | what is left of its text |
| --- | --- |
| `code`, `instruction` | all of it |
| `comment` | what stands behind the end of the line |
| `commented` | the code, and all from the end of the line on |
-/

import Mathlib.Data.List.DropRight
import StructuredFlow.Code.Text

namespace StructuredFlow

/-- The characters that end a line, a newline among them. -/
structure LineEnds where
  /-- Tests whether a character ends a line. -/
  ends : Char → Bool
  /-- A newline does. -/
  newline : ends '\n' = true

namespace LineEnds

variable {e : LineEnds} {note : String}

/-- A text that stays within its line. -/
def OneLine (e : LineEnds) (note : String) : Prop := ∀ c ∈ note.toList, e.ends c = false

/-- What follows a text, and the newline behind it, from the end of its line on. -/
def onward (e : LineEnds) (note : String) : List Char :=
  (note.toList ++ ['\n']).dropWhile fun c => !e.ends c

/-- Behind a text that stays within its line follows the newline alone. -/
theorem onward_of_oneLine (h : e.OneLine note) : e.onward note = ['\n'] := by
  have hnote : ∀ c ∈ note.toList, (!e.ends c) = true := fun c hc => by rw [h c hc]; rfl
  rw [onward, List.dropWhile_append_of_pos hnote]
  simp [e.newline]

/-- A text that does not stay within its line leaves something behind it. -/
theorem one_lt_length_onward (h : ¬e.OneLine note) : 1 < (e.onward note).length := by
  have hne : note.toList.dropWhile (fun c => !e.ends c) ≠ [] := by
    rw [ne_eq, List.dropWhile_eq_nil_iff]
    exact fun hall => h fun c hc => by simpa using hall c hc
  rw [onward, List.dropWhile_append, if_neg (by simpa using hne), List.length_append,
    List.length_singleton]
  exact Nat.lt_add_of_pos_left (List.length_pos_iff.mpr hne)

/-- The newline behind a text is never taken away with it. -/
theorem onward_pos (e : LineEnds) (note : String) : 0 < (e.onward note).length := by
  by_cases hone : e.OneLine note
  · simp [onward_of_oneLine hone]
  · exact Nat.lt_of_succ_lt (one_lt_length_onward hone)

end LineEnds

namespace Line

/-- A line of code is its indentation, its text and a newline. -/
theorem toList_text_code (indent : String) (depth : Nat) (text : String) :
    ((Line.code depth text).text indent).toList =
      (String.join (List.replicate depth indent) ++ text).toList ++ ['\n'] :=
  String.toList_append

/-- The comment of a line, if there is one. -/
def note? : Line → Option String
  | .code _ _ | .instruction _ _ => none
  | .comment _ note | .commented _ _ note => some note

/-- A line without a comment stays as it is when comments are left out. -/
theorem withoutComment?_of_note? {line : Line} (h : line.note? = none) :
    line.withoutComment? = some line := by
  cases line with
  | code depth text => rfl
  | instruction depth text => rfl
  | _ => exact absurd h (by simp [note?])

/-- What is left of the text of a line when its comment is deleted up to the end of the line.
With a comment on a line of its own go the indentation before it and that end. -/
def uncommented (e : LineEnds) (indent : String) : Line → List Char
  | .code depth text | .instruction depth text => ((Line.code depth text).text indent).toList
  | .comment _ note => (e.onward note).tail
  | .commented depth text note =>
    (String.join (List.replicate depth indent) ++ text).toList ++ e.onward note

/-- A line without a comment is kept. -/
theorem uncommented_of_note? {line : Line} (h : line.note? = none) (e : LineEnds)
    (indent : String) : line.uncommented e indent = (line.text indent).toList := by
  cases line with
  | code depth text => rfl
  | instruction depth text => rfl
  | _ => exact absurd h (by simp [note?])

end Line

/-- Lines that differ from others in comments only, each of which is one of `names`. -/
inductive Annotates (names : List String) : List Line → List Line → Prop
  /-- There are no lines. -/
  | nil : Annotates names [] []
  /-- A line without a comment. -/
  | plain {lines plain : List Line} {line : Line} (hline : line.note? = none)
    (h : Annotates names lines plain) : Annotates names (line :: lines) (line :: plain)
  /-- A comment on a line of its own. -/
  | comment {lines plain : List Line} (depth : Nat) {note : String} (hnote : note ∈ names)
    (h : Annotates names lines plain) : Annotates names (.comment depth note :: lines) plain
  /-- A comment behind code. -/
  | commented {lines plain : List Line} (depth : Nat) (text : String) {note : String}
    (hnote : note ∈ names) (h : Annotates names lines plain) :
    Annotates names (.commented depth text note :: lines) (.code depth text :: plain)

namespace Annotates

variable {names : List String} {lines plain lines' plain' : List Line} {e : LineEnds}

/-- Lines that say the same may be put behind lines that do. -/
theorem append (h : Annotates names lines plain) (h' : Annotates names lines' plain') :
    Annotates names (lines ++ lines') (plain ++ plain') := by
  induction h with
  | nil => exact h'
  | plain hline _ ih => exact .plain hline ih
  | comment depth hnote _ ih => exact .comment depth hnote ih
  | commented depth text hnote _ ih => exact .commented depth text hnote ih

/-- A line of code differs from itself in nothing. -/
theorem code (depth : Nat) (text : String) (h : Annotates names lines plain) :
    Annotates names (.code depth text :: lines) (.code depth text :: plain) := .plain rfl h

/-- Lines of code alone differ from themselves in nothing. -/
theorem refl (h : ∀ line ∈ lines, line.note? = none) : Annotates names lines lines := by
  induction lines with
  | nil => exact .nil
  | cons line lines ih =>
    obtain ⟨hline, hlines⟩ := List.forall_mem_cons.mp h
    exact .plain hline (ih hlines)

/-- **Leaving the comments out gives the lines without.** -/
theorem withoutComments (h : Annotates names lines plain) :
    lines.filterMap Line.withoutComment? = plain := by
  induction h with
  | nil => rfl
  | plain hline _ ih => rw [List.filterMap_cons_some (Line.withoutComment?_of_note? hline), ih]
  | comment depth _ _ ih => exact ih
  | commented depth text _ _ ih => exact congrArg _ ih

/-- Every comment is one of the names. -/
theorem note_mem (h : Annotates names lines plain) :
    ∀ note ∈ lines.filterMap Line.note?, note ∈ names := by
  induction h with
  | nil => simp
  | plain hline _ ih => rwa [List.filterMap_cons_none hline]
  | comment depth hnote _ ih => exact List.forall_mem_cons.mpr ⟨hnote, ih⟩
  | commented depth text hnote _ ih => exact List.forall_mem_cons.mpr ⟨hnote, ih⟩

/-- Nothing but comments is deleted. -/
theorem length_le_uncommented (h : Annotates names lines plain) (indent : String) :
    (plain.flatMap fun line => (line.text indent).toList).length ≤
      (lines.flatMap (Line.uncommented e indent)).length := by
  induction h with
  | nil => exact Nat.le_refl _
  | plain hline _ ih =>
    simp only [List.flatMap_cons, List.length_append, Line.uncommented_of_note? hline]
    omega
  | comment depth _ _ ih =>
    simp only [List.flatMap_cons, List.length_append]
    omega
  | @commented _ _ depth text note _ _ ih =>
    have hpos := e.onward_pos note
    rw [List.flatMap_cons, List.flatMap_cons, Line.uncommented, Line.toList_text_code]
    simp only [List.length_append, List.length_singleton]
    omega

/-- **Deleting each comment up to the end of its line** leaves the text of the lines without
comments exactly if every comment stays within its line. -/
theorem uncommented_iff (h : Annotates names lines plain) (e : LineEnds) (indent : String) :
    lines.flatMap (Line.uncommented e indent) =
        plain.flatMap (fun line => (line.text indent).toList) ↔
      ∀ note ∈ lines.filterMap Line.note?, e.OneLine note := by
  induction h with
  | nil => simp
  | plain hline _ ih =>
    rw [List.flatMap_cons, List.flatMap_cons, Line.uncommented_of_note? hline,
      List.append_cancel_left_eq, ih, List.filterMap_cons_none hline]
  | @comment lines plain depth note _ h ih =>
    have hnotes : (Line.comment depth note :: lines).filterMap Line.note? =
        note :: lines.filterMap Line.note? := rfl
    rw [List.flatMap_cons, Line.uncommented, hnotes, List.forall_mem_cons, ← ih]
    by_cases hone : e.OneLine note
    · rw [LineEnds.onward_of_oneLine hone, and_iff_right hone]
      rfl
    · -- what is left over makes the text too long
      refine iff_of_false (fun heq => ?_) fun hboth => hone hboth.1
      have hlength := congrArg List.length heq
      have hle := h.length_le_uncommented (e := e) indent
      have hlt := LineEnds.one_lt_length_onward hone
      rw [List.length_append, List.length_tail] at hlength
      omega
  | @commented lines plain depth text note _ h ih =>
    have hnotes : (Line.commented depth text note :: lines).filterMap Line.note? =
        note :: lines.filterMap Line.note? := rfl
    rw [List.flatMap_cons, List.flatMap_cons, Line.uncommented, Line.toList_text_code, hnotes,
      List.forall_mem_cons, ← ih, List.append_assoc, List.append_assoc, List.append_cancel_left_eq]
    by_cases hone : e.OneLine note
    · rw [LineEnds.onward_of_oneLine hone, and_iff_right hone]
      exact List.append_right_inj _
    · refine iff_of_false (fun heq => ?_) fun hboth => hone hboth.1
      have hlength := congrArg List.length heq
      have hle := h.length_le_uncommented (e := e) indent
      have hlt := LineEnds.one_lt_length_onward hone
      rw [List.length_append, List.length_append, List.length_singleton] at hlength
      omega

end Annotates

namespace FunctionCode

/-- The comments in the code of a function. -/
def notes (code : FunctionCode) : List String := code.lines.filterMap Line.note?

/-- What is left of the text of the code of a function when each comment is deleted up to the
end of its line. -/
def uncommented (e : LineEnds) (indent : String) (code : FunctionCode) : String :=
  String.ofList (code.lines.flatMap (Line.uncommented e indent))

/-- **Deleting the comments from the text leaves the code without them exactly if no comment holds
the end of a line.** -/
theorem uncommented_eq_text_iff {names : List String} {code plain : FunctionCode}
    (h : Annotates names code.lines plain.lines) (e : LineEnds) (indent : String) :
    code.uncommented e indent = plain.text indent ↔ ∀ note ∈ code.notes, e.OneLine note := by
  rw [notes, ← h.uncommented_iff e indent, ← String.toList_inj, uncommented, text,
    String.toList_ofList, String.toList_join, List.flatMap_map]

end FunctionCode
end StructuredFlow
