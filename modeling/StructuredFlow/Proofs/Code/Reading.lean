/-
# Reading lines as statements

Printed lines are read as a script, from the last line to the first: when a line is read, what
follows it up to the end of its construct is known already (`Reading.script`), and how the
constructs around it end, with what follows each of them (`Reading.around`).  A line that ends
a construct puts one there, a line that begins a construct takes it away.

The texts of instructions are told apart from other lines and are taken as they are.  Of
comments nothing is read.  Any other line is read by its text alone (`Mark.ofText`), with one
exception.  What the variable of a dispatch is assigned to and what a `return` gives back are
texts of the input, and the two may look the same.  An assignment stands right before a
dispatch, which it declares the variable of, or right before the `continue` of one; so it is
looked for in these places only (`Reading.assigned?`).

A text that is written for a mark is read as this mark (`Mark.ofText_text`), if the names of
constructs are made the way they are: `L_` or `D_` and an identifier.
-/

import StructuredFlow.Proofs.Code.Lines
import StructuredFlow.Proofs.Code.Script
import StructuredFlow.Proofs.Text.Decimal

namespace StructuredFlow

/-! ### Numbers -/

/-- Reads a number: digits and nothing else. -/
def number? (text : String) : Option Nat :=
  if text.toList ≠ [] ∧ text.toList.all Char.isDigit then some (Decimal.value text.toList) else none

/-- A number is read back. -/
theorem number?_toString (n : Nat) : number? (toString n) = some n := by
  have hdigits : (toString n).toList = Decimal.digits n := Nat.toList_repr
  have hall : (Decimal.digits n).all Char.isDigit = true :=
    List.all_eq_true.mpr fun c hc => Decimal.isDigit_of_mem_digits hc
  rw [number?, hdigits, if_pos ⟨Decimal.digits_ne_nil n, hall⟩, Decimal.value_digits]

/-! ### Marks -/

/-- What a line says apart from assignments and instructions. -/
inductive Mark
  /-- `}` -/
  | closes
  /-- `} while (false);` -/
  | closesOnce
  /-- `} else {` -/
  | otherwise
  /-- `} else if (test) {` -/
  | otherwiseIf (test : String)
  /-- `if (test) {` -/
  | opensIf (test : String)
  /-- `case value: {` -/
  | opensCase (value : Nat)
  /-- `break name;` -/
  | leaves (name : String)
  /-- `continue name;` -/
  | restarts (name : String)
  /-- `return value;` or `return;` -/
  | returns (value : Option String)
  /-- `name: while (true) {` -/
  | opensLoop (name : String)
  /-- `name: do {` -/
  | opensOnce (name : String)
  /-- `name: while (true) switch (selector) {` -/
  | opensDispatch (name selector : String)
deriving DecidableEq, Repr

namespace Mark

/-- What closes a body that runs once. -/
def closingOnce : String := "\x7d while (false);"

/-- A mark as it is written. -/
def text : Mark → String
  | .closes => closing
  | .closesOnce => closingOnce
  | .otherwise => elseHead
  | .otherwiseIf test => "\x7d else if (" ++ test ++ ") \x7b"
  | .opensIf test => "if (" ++ test ++ ") \x7b"
  | .opensCase value => "case " ++ toString value ++ ": \x7b"
  | .leaves name => "break " ++ name ++ ";"
  | .restarts name => "continue " ++ name ++ ";"
  | .returns none => "return;"
  | .returns (some value) => "return " ++ value ++ ";"
  | .opensLoop name => name ++ ": while (true) \x7b"
  | .opensOnce name => name ++ ": do \x7b"
  | .opensDispatch name selector => name ++ ": while (true) switch (" ++ selector ++ ") \x7b"

/-- Reads a line that names a construct: the name goes up to the first colon. -/
def ofLabelled (text : String) : Option Mark :=
  let name := String.ofList (text.toList.takeWhile (· != ':'))
  let rest := String.ofList (text.toList.dropWhile (· != ':'))
  if rest = ": while (true) \x7b" then some (.opensLoop name)
  else if rest = ": do \x7b" then some (.opensOnce name)
  else (between? ": while (true) switch (" ") \x7b" rest).map (.opensDispatch name)

/-- Reads a line that begins with a word: the word, what stands behind its value, and what the
value says. -/
def ofKeyword (text : String) : List (String × String × (String → Option Mark)) → Option Mark
  | [] => none
  | (opening, ending, mark) :: rest =>
    match between? opening ending text with
    | some middle => mark middle
    | none => ofKeyword text rest

/-- The lines that begin with a word. -/
def keywords : List (String × String × (String → Option Mark)) :=
  [("\x7d else if (", ") \x7b", fun test => some (.otherwiseIf test)),
    ("if (", ") \x7b", fun test => some (.opensIf test)),
    ("case ", ": \x7b", fun value => (number? value).map .opensCase),
    ("break ", ";", fun name => some (.leaves name)),
    ("continue ", ";", fun name => some (.restarts name)),
    ("return ", ";", fun value => some (.returns (some value)))]

/-- Reads a line. -/
def ofText (text : String) : Option Mark :=
  if text = closing then some .closes
  else if text = closingOnce then some .closesOnce
  else if text = elseHead then some .otherwise
  else if text = "return;" then some (.returns none)
  else (ofKeyword text keywords).or (ofLabelled text)

end Mark

/-- A name as constructs have it: `L_` or `D_` and an identifier. -/
structure IsConstruct (name : String) : Prop where
  /-- It does not begin like a word of the language. -/
  begins : "L_".toList <+: name.toList ∨ "D_".toList <+: name.toList
  /-- It ends where the construct begins. -/
  colon_not_mem : ':' ∉ name.toList

/-- The names in a mark are names of constructs. -/
def Mark.Named : Mark → Prop
  | .opensLoop name | .opensOnce name | .opensDispatch name _ => IsConstruct name
  | _ => True

/-! ### Marks are read back -/

/-- Two texts of which none begins with the other. -/
def Diverge (a b : String) : Prop := ¬a.toList <+: b.toList ∧ ¬b.toList <+: a.toList

instance (a b : String) : Decidable (Diverge a b) := inferInstanceAs (Decidable (_ ∧ _))

section Texts

variable {text begun opening ending middle name rest : String}
  {mark : String → Option Mark} {more : List (String × String × (String → Option Mark))}

/-- A text that begins otherwise is not found between two others. -/
theorem between?_of_diverge (hbegun : begun.toList <+: text.toList) (h : Diverge opening begun) :
    between? opening ending text = none := by
  rw [Option.eq_none_iff_forall_ne_some]
  intro middle hmiddle
  have hopening : opening.toList <+: text.toList := by
    rw [between?_eq_some_iff.mp hmiddle, String.append_assoc, String.toList_append]
    exact List.prefix_append _ _
  rcases List.prefix_or_prefix_of_prefix hopening hbegun with hle | hle
  · exact h.1 hle
  · exact h.2 hle

/-- A text begins with what others are put behind. -/
theorem toList_prefix_append (begun rest : String) : begun.toList <+: (begun ++ rest).toList := by
  rw [String.toList_append]
  exact List.prefix_append _ _

/-- A text is none that begins otherwise. -/
theorem ne_of_begun (hbegun : begun.toList <+: text.toList) (h : ¬begun.toList <+: rest.toList) :
    text ≠ rest := by
  rintro rfl
  exact h hbegun

namespace Mark

/-- A word that a text does not begin with is passed over. -/
theorem ofKeyword_of_diverge (hbegun : begun.toList <+: text.toList) (h : Diverge opening begun) :
    ofKeyword text ((opening, ending, mark) :: more) = ofKeyword text more := by
  rw [ofKeyword, between?_of_diverge hbegun h]

/-- The word that a text begins with is found behind others. -/
theorem ofKeyword_of_getElem? {i : Nat} (hi : more[i]? = some (opening, ending, mark))
    (h : ∀ keyword ∈ more.take i, Diverge keyword.1 opening) :
    ofKeyword (opening ++ middle ++ ending) more = mark middle := by
  induction more generalizing i with
  | nil => exact absurd hi (by simp)
  | cons keyword more ih =>
    cases i with
    | zero =>
      obtain rfl := Option.some.inj hi
      rw [ofKeyword, between?_eq_some_iff.mpr rfl]
    | succ i =>
      rw [List.take_succ_cons] at h
      obtain ⟨hkeyword, hmore⟩ := List.forall_mem_cons.mp h
      have hbegun : opening.toList <+: (opening ++ middle ++ ending).toList := by
        rw [String.append_assoc]
        exact toList_prefix_append _ _
      rw [ofKeyword_of_diverge hbegun hkeyword]
      exact ih hi hmore

/-- A text that begins with none of the words is no such line. -/
theorem ofKeyword_eq_none (hbegun : begun.toList <+: text.toList)
    (h : ∀ keyword ∈ more, Diverge keyword.1 begun) : ofKeyword text more = none := by
  induction more with
  | nil => rfl
  | cons keyword more ih =>
    obtain ⟨hkeyword, hmore⟩ := List.forall_mem_cons.mp h
    rw [ofKeyword_of_diverge hbegun hkeyword, ih hmore]

/-- A text that begins otherwise is none of the lines that are always the same. -/
theorem ofText_of_begun (hbegun : begun.toList <+: text.toList)
    (h : ∀ fixed ∈ [closing, closingOnce, elseHead, "return;"], ¬begun.toList <+: fixed.toList) :
    ofText text = (ofKeyword text keywords).or (ofLabelled text) := by
  have hne : ∀ fixed ∈ [closing, closingOnce, elseHead, "return;"], text ≠ fixed :=
    fun fixed hfixed => ne_of_begun hbegun (h fixed hfixed)
  simp only [List.forall_mem_cons] at hne
  obtain ⟨hcloses, honce, helse, hreturn, -⟩ := hne
  rw [ofText, if_neg hcloses, if_neg honce, if_neg helse, if_neg hreturn]

/-- A line that begins with a word is read by what its word says of its value. -/
theorem ofText_keyword {i : Nat} {read : Mark}
    (hi : keywords[i]? = some (opening, ending, mark))
    (hbefore : ∀ keyword ∈ keywords.take i, Diverge keyword.1 opening)
    (hfixed : ∀ fixed ∈ [closing, closingOnce, elseHead, "return;"],
      ¬opening.toList <+: fixed.toList)
    (hread : mark middle = some read) : ofText (opening ++ middle ++ ending) = some read := by
  have hbegun : opening.toList <+: (opening ++ middle ++ ending).toList := by
    rw [String.append_assoc]
    exact toList_prefix_append _ _
  rw [ofText_of_begun hbegun hfixed, ofKeyword_of_getElem? hi hbefore, hread, Option.some_or]

/-- A name goes up to the first colon. -/
theorem span_colon (hname : ':' ∉ name.toList) (behind : String)
    (hbehind : behind.toList.head? = some ':') :
    String.ofList ((name ++ behind).toList.takeWhile (· != ':')) = name ∧
      String.ofList ((name ++ behind).toList.dropWhile (· != ':')) = behind := by
  have hall : ∀ c ∈ name.toList, (c != ':') = true := fun c hc =>
    bne_iff_ne.mpr fun heq => hname (heq ▸ hc)
  obtain ⟨chars, hchars⟩ : ∃ chars, behind.toList = ':' :: chars :=
    List.head?_eq_some_iff.mp hbehind
  rw [String.toList_append, List.takeWhile_append_of_pos hall, List.dropWhile_append_of_pos hall,
    hchars, List.takeWhile_cons_of_neg (by simp), List.dropWhile_cons_of_neg (by simp), ← hchars,
    List.append_nil, String.ofList_toList, String.ofList_toList]
  exact ⟨rfl, rfl⟩

/-- The name of a construct is no other line. -/
theorem ofText_labelled (h : IsConstruct name) :
    ofText (name ++ rest) = ofLabelled (name ++ rest) := by
  have hname : name.toList <+: (name ++ rest).toList := toList_prefix_append name rest
  rcases h.begins with hbegins | hbegins
  all_goals
    rw [ofText_of_begun (hbegins.trans hname) (by decide),
      ofKeyword_eq_none (hbegins.trans hname) (by decide), Option.none_or]

/-- **A mark is read back from its text**, if its name is that of a construct. -/
theorem ofText_text {mark : Mark} (h : mark.Named) : ofText mark.text = some mark := by
  cases mark with
  | closes | closesOnce | otherwise => rfl
  | otherwiseIf test => exact ofText_keyword (i := 0) rfl (by decide) (by decide) rfl
  | opensIf test => exact ofText_keyword (i := 1) rfl (by decide) (by decide) rfl
  | opensCase value =>
    refine ofText_keyword (i := 2) rfl (by decide) (by decide) ?_
    rw [number?_toString]
    rfl
  | leaves name => exact ofText_keyword (i := 3) rfl (by decide) (by decide) rfl
  | restarts name => exact ofText_keyword (i := 4) rfl (by decide) (by decide) rfl
  | returns value =>
    cases value with
    | none => rfl
    | some value => exact ofText_keyword (i := 5) rfl (by decide) (by decide) rfl
  | opensLoop name =>
    obtain ⟨hname, hrest⟩ := span_colon h.colon_not_mem ": while (true) \x7b" rfl
    rw [text, ofText_labelled h, ofLabelled, hname, hrest]
    rfl
  | opensOnce name =>
    obtain ⟨hname, hrest⟩ := span_colon h.colon_not_mem ": do \x7b" rfl
    rw [text, ofText_labelled h, ofLabelled, hname, hrest]
    rfl
  | opensDispatch name selector =>
    have htext : (opensDispatch name selector).text =
        name ++ (": while (true) switch (" ++ selector ++ ") \x7b") := by
      simp only [text, String.append_assoc]
    have hbegun : ": while (true) switch (".toList <+:
        (": while (true) switch (" ++ selector ++ ") \x7b").toList := by
      rw [String.append_assoc]
      exact toList_prefix_append _ _
    obtain ⟨hname, hrest⟩ := span_colon h.colon_not_mem
      (": while (true) switch (" ++ selector ++ ") \x7b") (by simp)
    rw [htext, ofText_labelled h, ofLabelled, hname, hrest, if_neg (ne_of_begun hbegun (by decide)),
      if_neg (ne_of_begun hbegun (by decide)), between?_eq_some_iff.mpr rfl]
    rfl

end Mark

end Texts

/-! ### Reading lines -/

/-- How a construct ends. -/
inductive Ending
  /-- With a brace; the other body of a conditional may stand in front of it. -/
  | brace (otherwise : Option Script)
  /-- With the test of a body that runs once. -/
  | once
deriving DecidableEq, Repr

/-- What is known where the lines behind have been read. -/
structure Reading where
  /-- What stands from here to the end of the innermost construct. -/
  script : Script
  /-- How the constructs around end, and what follows each of them, the innermost first. -/
  around : List (Ending × Script)
deriving DecidableEq, Repr

/-- Tests whether a script stands behind an assignment only: a dispatch, or the `continue` of
one. -/
def Script.needsAssignment : Script → Bool
  | .restart name _ => "D_".toList.isPrefixOf name.toList
  | .dispatch .. => true
  | _ => false

namespace Reading

/-- The number that a line assigns to the variable of dispatches, if it stands where it can
and reads `selector = number;`, or in front of a dispatch `var selector = number;`. -/
def assigned? (selector : String) (z : Reading) (text : String) : Option Nat :=
  match z.script with
  | .restart name _ =>
    if "D_".toList.isPrefixOf name.toList then
      (between? (selector ++ " = ") ";" text).bind number?
    else none
  | .dispatch .. => (between? ("var " ++ selector ++ " = ") ";" text).bind number?
  | _ => none

/-- Takes the innermost construct away, which ends with a brace and has one body. -/
def enclose (z : Reading) (construct : Script → Script → Script) : Option Reading :=
  match z.around with
  | (.brace none, next) :: around => some ⟨construct z.script next, around⟩
  | _ => none

/-- Reads a mark. -/
def readMark (z : Reading) : Mark → Option Reading
  | .closes => some ⟨.done, (.brace none, z.script) :: z.around⟩
  | .closesOnce => some ⟨.done, (.once, z.script) :: z.around⟩
  | .otherwise =>
    match z.around with
    | (.brace none, next) :: around => some ⟨.done, (.brace (some z.script), next) :: around⟩
    | _ => none
  | .otherwiseIf test =>
    match z.around with
    | (.brace otherwise, next) :: around =>
      some ⟨.done, (.brace (some (.branch test z.script (otherwise.getD .done) .done)), next) ::
        around⟩
    | _ => none
  | .opensIf test =>
    match z.around with
    | (.brace otherwise, next) :: around =>
      some ⟨.branch test z.script (otherwise.getD .done) next, around⟩
    | _ => none
  | .opensCase value => z.enclose (.clause value)
  | .opensLoop name => z.enclose (.loop name)
  | .opensDispatch name selector => z.enclose (.dispatch name selector)
  | .opensOnce name =>
    match z.around with
    | (.once, next) :: around => some ⟨.once name z.script next, around⟩
    | _ => none
  | .leaves name => some { z with script := .leave name z.script }
  | .restarts name => some { z with script := .restart name z.script }
  | .returns value => some { z with script := .ret value z.script }

/-- Reads a line of code. -/
def readText (selector : String) (z : Reading) (text : String) : Option Reading :=
  match z.assigned? selector text with
  | some value => some { z with script := .assign selector value z.script }
  | none => (Mark.ofText text).bind z.readMark

/-- Reads a line. -/
def readLine (selector : String) (z : Reading) : Line → Option Reading
  | .instruction _ text => some { z with script := .perform text z.script }
  | .comment _ _ => some z
  | .code _ text | .commented _ text _ => z.readText selector text

/-- Reads lines, the last one first. -/
def readAll (selector : String) (z : Reading) : List Line → Option Reading
  | [] => some z
  | line :: rest => (readAll selector z rest).bind fun z => z.readLine selector line

end Reading

/-- What the lines of a function say, in which dispatches switch on the variable given: they
begin with its head and end with a brace. -/
def Script.read? (selector : String) : List Line → Option Script
  | .code _ head :: lines =>
    match between? "function " ") \x7b" head, Reading.readAll selector ⟨.done, []⟩ lines with
    | some _, some ⟨script, [(.brace none, .done)]⟩ => some script
    | _, _ => none
  | _ => none

namespace Reading

variable {selector text : String} {z z' : Reading} {depth : Nat} {lines lines' : List Line}

/-- Of lines behind others the last ones are read first. -/
theorem readAll_append : z.readAll selector (lines ++ lines') =
    (z.readAll selector lines').bind fun z => z.readAll selector lines := by
  induction lines with
  | nil =>
    rw [List.nil_append]
    cases z.readAll selector lines' <;> rfl
  | cons line lines ih =>
    rw [List.cons_append, readAll, ih]
    cases z.readAll selector lines' <;> rfl

/-- Nothing is assigned where no assignment can stand. -/
theorem assigned?_eq_none (h : z.script.needsAssignment = false) (text : String) :
    z.assigned? selector text = none := by
  rw [assigned?]
  split
  next name next heq =>
    rw [heq] at h
    exact if_neg (Bool.eq_false_iff.mp h)
  next name selector' cases next heq =>
    rw [heq] at h
    exact absurd h (by simp [Script.needsAssignment])
  next => rfl

/-- **Where no assignment can stand a mark is read as what it says.** -/
theorem readAll_mark (mark : Mark) (hmark : mark.Named) (hz : z.script.needsAssignment = false)
    (depth : Nat) : z.readAll selector [.code depth mark.text] = z.readMark mark := by
  change z.readText selector mark.text = _
  rw [readText, assigned?_eq_none hz, Mark.ofText_text hmark]
  rfl

end Reading
end StructuredFlow
