/-
# Reading printed lines

A printed control transfer leaves out what is empty: a conditional none of whose arms
jumps, the first of two arms, whose test is then negated, an else without a jump, a switch
without cases.  To see that nothing is lost the lines are read as they stand.  Of a line it
only counts how it opens, divides or closes a conditional.

| line | what it does |
| --- | --- |
| `if (test) {` | opens a conditional, whose first arm runs if the test holds |
| `} else if (test) {` | goes on to the next arm, which runs if none has run and the test holds |
| `} else {` | goes on to the last arm, which runs if none has run |
| `}` | closes the conditional |
| any other | performs its text, unless an arm that does not run is around it |

Tests are read as they are written, so `!(e)` holds where `e` does not
(`Interpretation.negating`) and of all other texts nothing is known.  Read in this way a
conditional performs the jump of the first arm whose test holds, or else the last
(`readAll_choice`), and a control transfer its call and then the jump of the target that it
chooses (`read_instructionStatements`).
-/

import StructuredFlow.Code.Text
import StructuredFlow.Proofs.Code.Visit

namespace StructuredFlow

universe u

variable {σ : Type u} {I : Interpretation σ}

/-! ### Texts of lines -/

/-- What stands between an opening and a closing text. -/
def between? (opening closing text : String) : Option String := do
  let rest ← opening.toList.isPrefixOf? text.toList
  let middle ← closing.toList.isSuffixOf? rest
  return String.ofList middle

/-- A text stands between two others exactly if it is what they enclose. -/
theorem between?_eq_some_iff {opening closing text middle : String} :
    between? opening closing text = some middle ↔ text = opening ++ middle ++ closing := by
  simp only [between?, Option.bind_eq_bind, Option.bind_eq_some_iff, Option.pure_def,
    Option.some.injEq, List.isPrefixOf?_eq_some_iff_append_eq,
    List.isSuffixOf?_eq_some_iff_append_eq, ← String.toList_inj, String.toList_append,
    String.toList_ofList]
  constructor
  · rintro ⟨rest, hrest, list, hlist, hmiddle⟩
    rw [← hrest, ← hlist, hmiddle, List.append_assoc]
  · intro h
    exact ⟨middle.toList ++ closing.toList, by rw [h, List.append_assoc], _, rfl, rfl⟩

/-- What a line of code does to the conditionals around it. -/
inductive Clause
  /-- It opens one under a test. -/
  | opens (test : String)
  /-- It ends an arm; the next one is under a test, or the last. -/
  | divides (test : Option String)
  /-- It closes one. -/
  | closes
  /-- Nothing. -/
  | plain
deriving DecidableEq

/-- What a text says about conditionals. -/
def Clause.ofText (text : String) : Clause :=
  if text = closing then .closes
  else if text = elseHead then .divides none
  else match between? "if (" ") \x7b" text, between? "\x7d else if (" ") \x7b" text with
    | some test, _ => .opens test
    | none, some test => .divides (some test)
    | none, none => .plain

namespace Clause

variable {opening text middle : String}

/-- What ends a text is the end of it. -/
theorem suffix_of_between? {ending : String} (h : between? opening ending text = some middle) :
    ending.toList <:+ text.toList := by
  rw [between?_eq_some_iff.mp h, String.toList_append]
  exact List.suffix_append _ _

/-- What ends as the head of a conditional does is no other mark. -/
theorem ofText_of_between? (h : between? opening ") \x7b" text = some middle) : ofText text =
    match between? "if (" ") \x7b" text, between? "\x7d else if (" ") \x7b" text with
    | some test, _ => .opens test
    | none, some test => .divides (some test)
    | none, none => .plain := by
  have hsuffix := suffix_of_between? h
  have hclosing : text ≠ closing := by
    rintro rfl
    exact absurd hsuffix (by decide)
  have helse : text ≠ elseHead := by
    rintro rfl
    exact absurd hsuffix (by decide)
  rw [ofText, if_neg hclosing, if_neg helse]

/-- The first arm of a conditional opens it. -/
theorem ofText_armHead_zero (test : Test) : ofText (armHead 0 test) = .opens test.text := by
  have hhead : between? "if (" ") \x7b" (armHead 0 test) = some test.text :=
    between?_eq_some_iff.mpr rfl
  rw [ofText_of_between? hhead, hhead]

/-- Any other arm of a conditional ends the one before it. -/
theorem ofText_armHead_succ (position : Nat) (test : Test) :
    ofText (armHead (position + 1) test) = .divides (some test.text) := by
  have htext : armHead (position + 1) test = "\x7d else if (" ++ test.text ++ ") \x7b" := rfl
  have hhead := between?_eq_some_iff.mpr htext
  have hfirst : between? "if (" ") \x7b" (armHead (position + 1) test) = none := by
    rw [htext, between?, String.toList_append, String.toList_append]
    rfl
  rw [ofText_of_between? hhead, hfirst, hhead]

/-- A text that neither ends an arm nor begins one says nothing about conditionals. -/
theorem ofText_eq_plain (hclosing : text ≠ closing)
    (hlast : text.toList.getLast? ≠ some '\x7b') : ofText text = .plain := by
  have helse : text ≠ elseHead := by
    rintro rfl
    exact hlast rfl
  have hbetween : ∀ opening, between? opening ") \x7b" text = none := by
    intro opening
    refine Option.eq_none_iff_forall_ne_some.mpr fun middle h => hlast ?_
    obtain ⟨rest, hrest⟩ := suffix_of_between? h
    rw [← hrest, List.getLast?_append]
    rfl
  rw [ofText, if_neg hclosing, if_neg helse, hbetween, hbetween]

/-- A statement that ends in a semicolon says nothing about conditionals. -/
theorem ofText_semicolon (text : String) : ofText (text ++ ";") = .plain := by
  have hlast : (text ++ ";").toList.getLast? = some ';' := by
    rw [String.toList_append, List.getLast?_append]
    rfl
  refine ofText_eq_plain (fun h => ?_) ?_
  · rw [h] at hlast
    exact absurd hlast (by decide)
  · rw [hlast]
    decide

end Clause

/-! ### Tests -/

/-- The truth of a text, given that of the texts that are no negations. -/
def readTest (holds : String → Bool) (text : String) : Bool :=
  match _h : between? "!(" ")" text with
  | some inner => !readTest holds inner
  | none => holds text
termination_by text.length
decreasing_by
  have hopening : "!(".length = 2 := rfl
  rw [between?_eq_some_iff.mp _h, String.length_append, String.length_append]
  omega

/-- A negation holds where what is negated does not. -/
theorem readTest_not (holds : String → Bool) (text : String) :
    readTest holds ("!(" ++ text ++ ")") = !readTest holds text := by
  have h : between? "!(" ")" ("!(" ++ text ++ ")") = some text := between?_eq_some_iff.mpr rfl
  rw [readTest]
  split
  next inner hinner => rw [Option.some.inj (hinner.symm.trans h)]
  next hnone => exact absurd (hnone.symm.trans h) (by simp)

/-- The truth of a text that is no negation is not looked into. -/
theorem readTest_of_eq_none {text : String} (h : between? "!(" ")" text = none)
    (holds : String → Bool) : readTest holds text = holds text := by
  rw [readTest]
  split
  next inner hinner => exact absurd (hinner.symm.trans h) (by simp)
  next => rfl

/-- The interpretation that reads negations and leaves the truth of all other texts as it is. -/
def Interpretation.negating (I : Interpretation σ) : Interpretation σ where
  perform := I.perform
  holds text state := readTest (fun text => I.holds text state) text

/-- A negated test holds where the test does not. -/
theorem Interpretation.negating_holds_not (I : Interpretation σ) (e : String) (state : σ) :
    I.negating.holds (Test.not ⟨e, false⟩).text state =
      !I.negating.holds (Test.text ⟨e, false⟩) state :=
  readTest_not _ e

/-! ### Reading -/

/-- How it stands with an arm of a conditional. -/
inductive ArmState
  /-- No arm up to this one has run. -/
  | waits
  /-- It runs. -/
  | runs
  /-- An arm before it has run, or the conditional is not reached. -/
  | passed
deriving DecidableEq

/-- The state of the next arm, whose test holds or not. -/
def ArmState.next : ArmState → Bool → ArmState
  | .waits, true => .runs
  | .waits, false => .waits
  | _, _ => .passed

/-- Once an arm has run, or if the conditional is not reached, no arm after it runs. -/
theorem ArmState.next_of_ne_waits {arm : ArmState} (h : arm ≠ .waits) (holds : Bool) :
    arm.next holds = .passed := by
  cases arm with
  | waits => exact absurd rfl h
  | _ => rfl

/-- Where the reading of lines has come to. -/
structure Reader (σ : Type u) where
  /-- What was performed so far. -/
  progress : Progress σ
  /-- The arms around the next line, the innermost first. -/
  arms : List ArmState

namespace Reader

/-- Tests whether lines are performed where a reader stands. -/
def isRunning (z : Reader σ) : Bool := z.arms.head?.all (· = .runs)

/-- Reads a line of code. -/
def readText (I : Interpretation σ) (z : Reader σ) (text : String) : Reader σ :=
  match Clause.ofText text with
  | .opens test =>
    let holds := I.holds test z.progress.state
    { z with arms := (if z.isRunning then ArmState.waits.next holds else .passed) :: z.arms }
  | .divides test =>
    let holds := test.all fun test => I.holds test z.progress.state
    { z with arms := z.arms.modifyHead fun arm => arm.next holds }
  | .closes => { z with arms := z.arms.tail }
  | .plain => if z.isRunning then { z with progress := z.progress.perform I text } else z

/-- Reads a line. -/
def readLine (I : Interpretation σ) (z : Reader σ) : Line → Reader σ
  | .code _ text | .instruction _ text | .commented _ text _ => z.readText I text
  | .comment _ _ => z

/-- Reads lines one after the other. -/
def readAll (I : Interpretation σ) (z : Reader σ) (lines : List Line) : Reader σ :=
  lines.foldl (readLine I) z

variable {p : Progress σ} {arm : ArmState} {arms : List ArmState} {z : Reader σ} {depth : Nat}

/-- A line of code is read before those behind it. -/
theorem readAll_cons (text : String) (lines : List Line) :
    z.readAll I (.code depth text :: lines) = (z.readText I text).readAll I lines := rfl

/-- Lines are read before those behind them. -/
theorem readAll_append (lines lines' : List Line) :
    z.readAll I (lines ++ lines') = (z.readAll I lines).readAll I lines' := List.foldl_append

/-- Behind the head of a conditional its first arm runs or waits. -/
theorem readText_armHead_zero (hrun : z.isRunning = true) (test : Test) :
    z.readText I (armHead 0 test) =
      ⟨z.progress, ArmState.waits.next (I.holds test.text z.progress.state) :: z.arms⟩ := by
  rw [readText, Clause.ofText_armHead_zero]
  simp only [if_pos hrun]

/-- At the head of another arm the arm before it ends, and the next one runs if its test holds and
none has run. -/
theorem readText_armHead_succ (position : Nat) (test : Test) :
    (⟨p, arm :: arms⟩ : Reader σ).readText I (armHead (position + 1) test) =
      ⟨p, arm.next (I.holds test.text p.state) :: arms⟩ := by
  rw [readText, Clause.ofText_armHead_succ]
  rfl

/-- The last arm runs if none has run. -/
theorem readText_elseHead :
    (⟨p, arm :: arms⟩ : Reader σ).readText I elseHead = ⟨p, arm.next true :: arms⟩ := rfl

/-- Any other text is performed where lines are. -/
theorem readText_plain {text : String} (h : Clause.ofText text = .plain) : z.readText I text =
    if z.isRunning then { z with progress := z.progress.perform I text } else z := by
  rw [readText, h]

/-- Plain lines are performed where lines are, and only there. -/
theorem readAll_linesAt {texts : List String} (h : ∀ text ∈ texts, Clause.ofText text = .plain) :
    z.readAll I (linesAt depth texts) =
      if z.isRunning then { z with progress := z.progress.performAll I texts } else z := by
  induction texts generalizing z with
  | nil => split <;> rfl
  | cons text texts ih =>
    obtain ⟨htext, htexts⟩ := List.forall_mem_cons.mp h
    change (z.readText I text).readAll I (linesAt depth texts) = _
    rw [ih htexts, readText_plain htext]
    by_cases hrun : z.isRunning = true
    · rw [if_pos hrun, if_pos hrun]
      exact if_pos hrun
    · rw [if_neg hrun, if_neg hrun, if_neg hrun]

end Reader

/-! ### Jumps -/

/-- The texts of a jump, if there is one. -/
def jumpTexts (way : Option Jump) : List String := (way.map Jump.lines).getD []

/-- A jump ends by leaving a construct or by starting one again. -/
theorem Jump.getLast?_lines (way : Jump) : ∃ construct : String,
    way.lines.getLast? = some s!"break {construct};" ∨
      way.lines.getLast? = some s!"continue {construct};" := by
  cases way with
  | redirect selector index dispatch => exact ⟨dispatch, Or.inr rfl⟩
  | leave construct => exact ⟨construct, Or.inl rfl⟩
  | restart construct => exact ⟨construct, Or.inr rfl⟩

/-- The lines of a jump say nothing about conditionals. -/
theorem ofText_of_mem_jumpTexts {way : Option Jump} : ∀ text ∈ jumpTexts way,
    Clause.ofText text = .plain := by
  cases way with
  | none => exact List.forall_mem_nil _
  | some way =>
    cases way with
    | redirect selector index dispatch =>
      exact List.forall_mem_cons.mpr ⟨Clause.ofText_semicolon _, List.forall_mem_singleton.mpr
        (Clause.ofText_semicolon _)⟩
    | leave construct => exact List.forall_mem_singleton.mpr (Clause.ofText_semicolon _)
    | restart construct => exact List.forall_mem_singleton.mpr (Clause.ofText_semicolon _)

/-! ### Conditionals -/

/-- The lines of the arms of a conditional from a position on, and those that end it. -/
def armLines (depth position : Nat) (arms : List (Test × Option Jump)) (fallback : Option Jump) :
    List Line :=
  ((arms.zipIdx position).flatMap fun ((test, way), position) =>
    .code depth (armHead position test) :: jumpLines (depth + 1) way) ++
  (match fallback with
    | some way => .code depth elseHead :: linesAt (depth + 1) way.lines
    | none => []) ++
  [.code depth closing]

/-- The arms of a conditional begin with the head of the first and the lines of its jump. -/
theorem armLines_cons (depth position : Nat) (test : Test) (way : Option Jump)
    (arms : List (Test × Option Jump)) (fallback : Option Jump) :
    armLines depth position ((test, way) :: arms) fallback =
      .code depth (armHead position test) :: (jumpLines (depth + 1) way ++
        armLines depth (position + 1) arms fallback) := by
  simp [armLines]

/-- The jump of the first arm whose test holds, or else the last. -/
def firstHolding (holds : String → Bool) (arms : List (Test × Option Jump))
    (fallback : Option Jump) : Option Jump :=
  match arms.find? fun arm => holds arm.1.text with
  | some arm => arm.2
  | none => fallback

namespace Reader

variable {p : Progress σ} {arm : ArmState} {around : List ArmState} {depth : Nat}
  {arms : List (Test × Option Jump)} {fallback : Option Jump}

/-- The lines of a jump are performed where lines are, and only there. -/
theorem readAll_jumpLines (z : Reader σ) (way : Option Jump) : z.readAll I (jumpLines depth way) =
    if z.isRunning then { z with progress := z.progress.performAll I (jumpTexts way) } else z :=
  readAll_linesAt ofText_of_mem_jumpTexts

/-- The last arm runs if none before it has. -/
theorem readAll_armLines_nil (position : Nat) :
    (⟨p, arm :: around⟩ : Reader σ).readAll I (armLines depth position [] fallback) =
      ⟨if arm.next true = .runs then p.performAll I (jumpTexts fallback) else p, around⟩ := by
  cases fallback with
  | none => cases arm <;> rfl
  | some way =>
    have hlines : armLines depth position [] (some way) =
        .code depth elseHead :: (jumpLines (depth + 1) (some way) ++ [.code depth closing]) := rfl
    rw [hlines, readAll_cons, readText_elseHead, readAll_append, readAll_jumpLines]
    cases arm <;> rfl

/-- Behind the arm that runs nothing of a conditional is performed. -/
theorem readAll_armLines_of_ne_waits (harm : arm ≠ .waits) (position : Nat) :
    (⟨p, arm :: around⟩ : Reader σ).readAll I (armLines depth (position + 1) arms fallback) =
      ⟨p, around⟩ := by
  induction arms generalizing arm position with
  | nil => rw [readAll_armLines_nil, ArmState.next_of_ne_waits harm, if_neg (by decide)]
  | cons first arms ih =>
    obtain ⟨test, way⟩ := first
    rw [armLines_cons, readAll_cons, readText_armHead_succ, ArmState.next_of_ne_waits harm,
      readAll_append, readAll_jumpLines, if_neg (by simp [isRunning])]
    exact ih (by decide) _

/-- Entered or not, an arm with the arms behind it performs the jump of the first of them
whose test holds. -/
theorem readAll_arm (position : Nat) (test : Test) (way : Option Jump)
    (h : (⟨p, .waits :: around⟩ : Reader σ).readAll I
        (armLines depth (position + 1) arms fallback) =
      ⟨p.performAll I (jumpTexts (firstHolding (fun e => I.holds e p.state) arms fallback)),
        around⟩) :
    (⟨p, ArmState.waits.next (I.holds test.text p.state) :: around⟩ : Reader σ).readAll I
        (jumpLines (depth + 1) way ++ armLines depth (position + 1) arms fallback) =
      ⟨p.performAll I (jumpTexts
        (firstHolding (fun e => I.holds e p.state) ((test, way) :: arms) fallback)), around⟩ := by
  rw [readAll_append, readAll_jumpLines, firstHolding, List.find?_cons]
  cases I.holds test.text p.state with
  | false => exact h
  | true => exact readAll_armLines_of_ne_waits (by decide) position

/-- Where no arm has run yet, the first of the others whose test holds does. -/
theorem readAll_armLines_of_waits (position : Nat) :
    (⟨p, .waits :: around⟩ : Reader σ).readAll I (armLines depth (position + 1) arms fallback) =
      ⟨p.performAll I (jumpTexts (firstHolding (fun e => I.holds e p.state) arms fallback)),
        around⟩ := by
  induction arms generalizing position with
  | nil => exact readAll_armLines_nil _
  | cons first arms ih =>
    obtain ⟨test, way⟩ := first
    rw [armLines_cons, readAll_cons, readText_armHead_succ]
    exact readAll_arm _ test way (ih _)

/-- **A conditional performs the jump of the first arm whose test holds, or else the last.** -/
theorem readAll_choice {z : Reader σ} (hrun : z.isRunning = true) (hne : arms ≠ []) :
    z.readAll I (Statement.lines depth (.choice arms fallback)) =
      ⟨z.progress.performAll I
        (jumpTexts (firstHolding (fun e => I.holds e z.progress.state) arms fallback)),
          z.arms⟩ := by
  cases arms with
  | nil => exact absurd rfl hne
  | cons first arms =>
    obtain ⟨test, way⟩ := first
    change z.readAll I (armLines depth 0 ((test, way) :: arms) fallback) = _
    rw [armLines_cons, readAll_cons, readText_armHead_zero hrun]
    exact readAll_arm _ test way (readAll_armLines_of_waits _)

/-- The lines of a single statement are its own. -/
theorem statementLines_singleton (statement : Statement) :
    statementLines depth [statement] = statement.lines depth := List.append_nil _

/-- A jump that stands alone is performed, and none if there is none. -/
theorem readAll_jump {z : Reader σ} (hrun : z.isRunning = true) (way : Option Jump) :
    z.readAll I (statementLines depth (way.map Statement.jump).toList) =
      ⟨z.progress.performAll I (jumpTexts way), z.arms⟩ := by
  have hlines : statementLines depth (way.map Statement.jump).toList = jumpLines depth way := by
    cases way with
    | none => rfl
    | some way => exact statementLines_singleton _
  rw [hlines, readAll_jumpLines, if_pos hrun]

/-- **Of two arms one is performed**, also if it is the second and stands alone under the
negated test. -/
theorem readAll_twoWay {z : Reader σ} (hrun : z.isRunning = true) {test : Test}
    (hnot : I.holds test.not.text z.progress.state = !I.holds test.text z.progress.state)
    (first second : Option Jump) :
    z.readAll I (statementLines depth (Emission.twoWay test first second)) =
      ⟨z.progress.performAll I
        (jumpTexts (if I.holds test.text z.progress.state then first else second)), z.arms⟩ := by
  cases first with
  | some first =>
    rw [Emission.twoWay, statementLines_singleton, readAll_choice hrun (by simp), firstHolding,
      List.find?_singleton]
    cases I.holds test.text z.progress.state <;> rfl
  | none =>
    cases second with
    | none => rw [Emission.twoWay, ite_self]; rfl
    | some second =>
      rw [Emission.twoWay, statementLines_singleton, readAll_choice hrun (by simp), firstHolding,
        List.find?_singleton, hnot]
      cases I.holds test.text z.progress.state <;> rfl

/-- **Of many arms the first whose test holds is performed, or else the last**, whichever of
them are empty. -/
theorem readAll_manyWay {z : Reader σ} (hrun : z.isRunning = true)
    (arms : List (Test × Option Jump)) (fallback : Option Jump) :
    z.readAll I (statementLines depth (Emission.manyWay arms fallback)) =
      ⟨z.progress.performAll I
        (jumpTexts (firstHolding (fun e => I.holds e z.progress.state) arms fallback)),
          z.arms⟩ := by
  rw [Emission.manyWay]
  split
  next hnone =>
    rw [Bool.and_eq_true, Option.isNone_iff_eq_none, List.all_eq_true] at hnone
    obtain ⟨rfl, harms⟩ := hnone
    have hchosen : firstHolding (fun e => I.holds e z.progress.state) arms none = none := by
      rw [firstHolding]
      split
      next arm harm =>
        exact Option.isNone_iff_eq_none.mp
          (harms arm (List.mem_of_find?_eq_some harm))
      next => rfl
    rw [hchosen]
    rfl
  next =>
    split
    next hempty =>
      obtain rfl := List.isEmpty_iff.mp hempty
      exact readAll_jump hrun fallback
    next hne =>
      rw [statementLines_singleton]
      exact readAll_choice hrun fun h => hne (List.isEmpty_iff.mpr h)

end Reader

/-! ### Control transfers -/

namespace Emission

variable {s : Source} {around : Option Dispatch} {inst : Instruction} {t : Transfer}
  {target : Target} {z : Reader σ} {depth : Nat}

/-- What reports an error has no result. -/
theorem throw_bind_ne_ok {α β : Type} (error : EmissionError) (f : α → Emission β) (b : β)
    (r r' : Registry) : ((throw error : Emission α) >>= f).run.run r ≠ (.ok b, r') := by
  intro h
  have hresult : Except.error error = Except.ok b := congrArg Prod.fst h
  exact absurd hresult (by simp)

/-- A target to which a jump was written is found. -/
theorem Found.of_run {r r' : Registry} {way : Option Jump}
    (h : (jumpTo s around target).run.run r = (.ok way, r')) : Found s around target := by
  have hname : ∀ entry, ¬entry < s.identifiers.length →
      constructName s entry = throw (.missingLabel entry) := by
    intro entry hentry
    simp [constructName, identifierAt, List.getElem?_eq_none (Nat.le_of_not_lt hentry)]
  cases target with
  | label id =>
    rw [jumpTo, jumpToLabel] at h
    split at h
    next d hd => exact ⟨d, Option.filter_eq_some_iff.mp hd⟩
    next =>
      rw [labelAt] at h
      split at h
      next label _ => exact absurd h (throw_bind_ne_ok (.escapingBranch label.name) Pure.pure _ _ _)
      next => exact absurd h (throw_bind_ne_ok (.missingLabel id) _ _ _ _)
  | breakOf entry =>
    by_contra hentry
    rw [jumpTo, hname entry hentry] at h
    exact throw_bind_ne_ok _ _ _ _ _ h
  | continueOf entry =>
    by_contra hentry
    rw [jumpTo, hname entry hentry] at h
    exact throw_bind_ne_ok _ _ _ _ _ h
  | nop => trivial

/-- Among the targets found, only those that go on outside a dispatch have no jump. -/
theorem Found.jumpTexts_eq_nil_iff (h : Found s around target) (index : Nat → Nat) :
    jumpTexts (Written.jump s index around target) = [] ↔ target = .nop ∧ around = none := by
  cases target with
  | label id =>
    obtain ⟨d, rfl, -⟩ := h
    simp [Written.jump, jumpTexts, Jump.lines]
  | breakOf entry => simp [Written.jump, jumpTexts, Jump.lines]
  | continueOf entry => simp [Written.jump, jumpTexts, Jump.lines]
  | nop => cases around <;> simp [Written.jump, jumpTexts, Jump.lines]

/-- The call of an invoke says nothing about conditionals. -/
theorem ofText_of_mem_statement (ht : inst.action = .transfer t) :
    ∀ text ∈ (inst.statement s.bindings).toOption.toList, Clause.ofText text = .plain := by
  rw [Instruction.statement, ht]
  cases t with
  | invoke callee args normal unwind =>
    refine List.forall_mem_singleton.mpr (Clause.ofText_eq_plain (fun h => ?_) ?_)
    · have hlength := congrArg String.length h
      have hone : closing.length = 1 := rfl
      have htail : " = true; \x7d".length = 10 := rfl
      rw [Bindings.invokeStatement, String.length_append] at hlength
      omega
    · have htail : " = true; \x7d".toList.getLast? = some '\x7d' := rfl
      rw [Bindings.invokeStatement, String.toList_append, List.getLast?_append, htail,
        Option.some_or]
      decide
  | _ => exact List.forall_mem_nil _

/-- The first case that the scrutinee equals is the first arm whose test holds. -/
theorem firstHolding_of_choose {flag : String} {state : σ} {scrutinee : Operand} {default : Target}
    {cases : List (String × Target)}
    (h : (Transfer.switch scrutinee default cases).choose I flag state = some target)
    (jump : Target → Option Jump) :
    firstHolding (fun e => I.holds e state)
      (cases.map fun (value, target) =>
        (⟨s!"{scrutinee.expression} == {value}", false⟩, jump target)) (jump default) =
      jump target := by
  have hfirst : ((fun arm : Test × Option Jump => I.holds arm.1.text state) ∘
      fun (value, target) => (⟨s!"{scrutinee.expression} == {value}", false⟩, jump target)) =
      fun c : String × Target => I.holds s!"{scrutinee.expression} == {c.1}" state := rfl
  rw [firstHolding, List.find?_map, hfirst]
  dsimp only [Transfer.choose] at h
  cases hcase : cases.find? fun c => I.holds s!"{scrutinee.expression} == {c.1}" state with
  | some c =>
    rw [hcase] at h
    exact congrArg jump (Option.some.inj h)
  | none =>
    rw [hcase] at h
    exact congrArg jump (Option.some.inj h)

/-- **The lines of a control transfer perform its call, if it has one, and the jump of the
target that it chooses.** -/
theorem readAll_transfer {index : Nat → Nat} (hrun : z.isRunning = true)
    (ht : inst.action = .transfer t)
    (h : t.choose I.negating s.config.exceptionFlag
      (z.progress.performAll I (inst.statement s.bindings).toOption.toList).state = some target) :
    z.readAll I.negating (statementLines depth (Written.transfer s index around inst t)) =
      ⟨(z.progress.performAll I (inst.statement s.bindings).toOption.toList).performAll I
        (jumpTexts (Written.jump s index around target)), z.arms⟩ := by
  have hcall : ∀ text ∈ Written.callTexts s inst t, Clause.ofText text = .plain := by
    rw [callTexts_eq ht]
    exact ofText_of_mem_statement ht
  rw [← callTexts_eq ht] at h ⊢
  cases t with
  | branch only =>
    obtain rfl : only = target := Option.some.inj h
    exact Reader.readAll_jump hrun _
  | condBranch condition ifTrue ifFalse =>
    obtain rfl := Option.some.inj h
    refine (Reader.readAll_twoWay hrun (I.negating_holds_not _ _) _ _).trans ?_
    rw [apply_ite (Written.jump s index around)]
    rfl
  | switch scrutinee default cases =>
    refine (Reader.readAll_manyWay hrun _ _).trans ?_
    exact congrArg (fun way => (⟨z.progress.performAll I (jumpTexts way), z.arms⟩ : Reader σ))
      (firstHolding_of_choose h _)
  | invoke callee args normal unwind =>
    obtain rfl := Option.some.inj h
    have htext : Clause.ofText (s.statement inst) = .plain := hcall _ (List.mem_singleton_self _)
    have hstill : (⟨z.progress.perform I.negating (s.statement inst), z.arms⟩ :
        Reader σ).isRunning = true := hrun
    change (z.readText I.negating (s.statement inst)).readAll I.negating
      (statementLines depth (twoWay _ _ _)) = _
    rw [Reader.readText_plain htext, if_pos hrun]
    refine (Reader.readAll_twoWay hstill (I.negating_holds_not _ _) _ _).trans ?_
    rw [apply_ite (Written.jump s index around)]
    rfl
  | ret value => exact absurd h (by simp [Transfer.choose])
  | unreachable => exact absurd h (by simp [Transfer.choose])

/-- **Printed control transfers select the right slot.**  If there is a jump to each target,
the control transfer is written.  Read line by line under any interpretation, it performs the
call of an invoke and then the statements of the jump to the target that it chooses, and
nothing else.  There are none exactly if that target goes on outside a dispatch; in a dispatch
they end by leaving a construct or by starting one again. -/
theorem read_instructionStatements (s : Source) (around : Option Dispatch) (inst : Instruction)
    {t : Transfer} (ht : inst.action = .transfer t) (hslots : t.targets ≠ []) (r : Registry)
    (hjumps : ∀ target ∈ t.targets, ∃ way r', (jumpTo s around target).run.run r = (.ok way, r')) :
    ∃ list r', (instructionStatements s around inst).run.run r = (.ok list, r') ∧
      ∀ {σ : Type u} (I : Interpretation σ) (p : Progress σ) (depth : Nat),
        let called := p.performAll I (inst.statement s.bindings).toOption.toList
        ∃ target way, t.choose I.negating s.config.exceptionFlag called.state = some target ∧
          (jumpTo s around target).run.run r' = (.ok way, r') ∧
          (Reader.mk p []).readAll I.negating (statementLines depth list) =
            ⟨called.performAll I (jumpTexts way), []⟩ ∧
          (jumpTexts way = [] ↔ target = .nop ∧ around = none) ∧
          (around ≠ none → ∃ construct : String,
            (jumpTexts way).getLast? = some s!"break {construct};" ∨
              (jumpTexts way).getLast? = some s!"continue {construct};") := by
  have hfound : ∀ target ∈ t.targets, Found s around target := by
    intro target htarget
    obtain ⟨way, r', hway⟩ := hjumps target htarget
    exact Found.of_run hway
  obtain ⟨list, hlist, hwritten⟩ := does_transferStatements ht hfound r
  have hstatements : instructionStatements s around inst = transferStatements s around inst t := by
    rw [instructionStatements, ht]
  refine ⟨list, _, by rw [hstatements, hlist], fun I p depth => ?_⟩
  obtain ⟨target, hchoose⟩ : ∃ target, t.choose I.negating s.config.exceptionFlag
      (p.performAll I (inst.statement s.bindings).toOption.toList).state = some target :=
    Transfer.exists_choose hslots
  have htarget : target ∈ t.targets := Transfer.choose_mem hchoose
  -- The jump is asked for again in the registry that is left, where its index has been given out.
  generalize hafter : r.assignAll _ = r' at hwritten
  obtain ⟨way, hway, hjump⟩ := does_jumpTo (hfound target htarget) r'
  have hsame : r'.assignAll (target.requests.map (Prod.mk s.function)) = r' := by
    refine Registry.assignAll_of_mem fun key hkey => ?_
    obtain ⟨id, hid, rfl⟩ := List.mem_map.mp hkey
    rw [← hafter, Registry.mem_assignAll]
    refine Or.inr (List.mem_map_of_mem (List.mem_flatMap.mpr ⟨target, ?_, hid⟩))
    exact Transfer.mem_writtenTargets.mpr htarget
  rw [hsame] at hway hjump
  have hwritten' : way = Written.jump s (r'.index s.function) around target :=
    hjump r' List.prefix_rfl
  subst hwritten'
  have hnil := (hfound target htarget).jumpTexts_eq_nil_iff (r'.index s.function)
  refine ⟨target, _, hchoose, hway, ?_, hnil, fun haround => ?_⟩
  · rw [hwritten r' List.prefix_rfl]
    exact readAll_transfer rfl ht hchoose
  · have hsome : Written.jump s (r'.index s.function) around target ≠ none := fun hnone =>
      haround (hnil.mp (by rw [hnone]; rfl)).2
    obtain ⟨jump, hjump⟩ := Option.ne_none_iff_exists'.mp hsome
    rw [hjump]
    exact jump.getLast?_lines

/-- A function with one label, at which a construct is entered. -/
def Source.single : Source where
  config := {}
  bindings := { table := [], params := [], types := {}, exceptionFlag := "threw" }
  function := 0
  labels := [⟨0, "entry", []⟩]
  identifiers := ["entry"]

/-- A choice that goes on if the condition holds and leaves the construct if not. -/
def Source.leavingUnless : Instruction where
  action := .transfer (.condBranch (.ssa "x") .nop (.breakOf 0))

/-- Only the second arm is written, under the negated test, and only it is performed. -/
theorem read_instructionStatements_leavingUnless :
    ∃ list r', (instructionStatements .single none Source.leavingUnless).run.run .empty =
        (.ok list, r') ∧
      ∀ b, ((Reader.mk ⟨[], ()⟩ []).readAll
        (Interpretation.negating ⟨fun _ state => state, fun _ _ => b⟩)
        (statementLines 1 list)).progress.performed = if b then [] else ["break L_entry;"] := by
  have hjumps : ∀ target ∈ [Target.nop, .breakOf 0],
      ∃ way r', (jumpTo .single none target).run.run .empty = (.ok way, r') := by
    simp only [List.forall_mem_cons]
    exact ⟨⟨_, _, rfl⟩, ⟨_, _, rfl⟩, List.forall_mem_nil _⟩
  obtain ⟨list, r', hrun, hread⟩ :=
    read_instructionStatements .single none Source.leavingUnless rfl (by decide) .empty hjumps
  refine ⟨list, r', hrun, fun b => ?_⟩
  obtain ⟨target, way, hchoose, hway, hlines, -⟩ := hread ⟨fun _ state => state, fun _ _ => b⟩
    ⟨[], ()⟩ 1
  have hholds :
      (Interpretation.negating ⟨fun _ state => state, fun _ (_ : Unit) => b⟩).holds "$x" () =
      b := readTest_of_eq_none (by decide_cbv) _
  have htarget : target = if b then .nop else .breakOf 0 := by
    rw [← hholds]
    exact (Option.some.inj hchoose).symm
  rw [hlines]
  cases b with
  | true =>
    subst htarget
    obtain rfl : none = way := Except.ok.inj (congrArg Prod.fst hway)
    rfl
  | false =>
    subst htarget
    obtain rfl : some (.leave "L_entry") = way := Except.ok.inj (congrArg Prod.fst hway)
    rfl

end Emission
end StructuredFlow
