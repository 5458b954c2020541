/-
# Named sets of labels

A `Bank` holds sets under names.  A `Step` builds a set, changes one in place or
asks about some; the set it is about, its subject, is named first.  Changing a
set by another, also by itself, leaves the other as it is.

| step | answer |
| --- | --- |
| `new`, `full`, `ofIds`, `copy`, `clear` | none |
| `insert`, `remove`, `union`, `inter`, `diff` | whether the subject changed |
| `contains`, `disjoint`, `subset`, `equal` | whether it is so |
-/

import StructuredFlow.LabelSet

namespace StructuredFlow
namespace LabelSet

/-- Sets under names, each name at most once. -/
abbrev Bank := List (String × LabelSet)

namespace Bank

/-- The set of a name. -/
def get? (bank : Bank) (name : String) : Option LabelSet := bank.lookup name

/-- Gives a name a set, in place of the one it may have had. -/
def put (bank : Bank) (name : String) (set : LabelSet) : Bank :=
  (name, set) :: bank.filter fun entry => entry.1 ≠ name

@[simp] theorem get?_put_self (bank : Bank) (name : String) (set : LabelSet) :
    (bank.put name set).get? name = some set := by
  simp [get?, put]

/-- The other sets of a bank stay. -/
theorem get?_put_of_ne {bank : Bank} {name other : String} (set : LabelSet) (h : other ≠ name) :
    (bank.put name set).get? other = bank.get? other := by
  have hb : (other == name) = false := by simpa using h
  simp only [get?, put, List.lookup_cons, hb]
  induction bank with
  | nil => rfl
  | cons entry rest ih =>
    obtain ⟨key, value⟩ := entry
    by_cases hk : key = name
    · subst hk
      simp only [List.filter_cons, ne_eq, not_true_eq_false, decide_false, Bool.false_eq_true,
        if_false, List.lookup_cons, hb]
      exact ih
    · simp only [List.filter_cons, ne_eq, hk, not_false_eq_true, decide_true, if_true,
        List.lookup_cons]
      rw [← ih]

end Bank

/-- An operation on named sets. -/
inductive Step
  /-- Builds the set without members. -/
  | new (subject : String) (capacity : Nat)
  /-- Builds the set of every id below the capacity. -/
  | full (subject : String) (capacity : Nat)
  /-- Builds the set of the ids given. -/
  | ofIds (subject : String) (capacity : Nat) (ids : List Nat)
  /-- Gives the subject the set of another name. -/
  | copy (subject other : String)
  /-- Removes every member. -/
  | clear (subject : String)
  /-- Adds an id. -/
  | insert (subject : String) (id : Nat)
  /-- Removes an id. -/
  | remove (subject : String) (id : Nat)
  /-- Asks for an id. -/
  | contains (subject : String) (id : Nat)
  /-- Adds the members of another set. -/
  | union (subject other : String)
  /-- Keeps the members of another set. -/
  | inter (subject other : String)
  /-- Removes the members of another set. -/
  | diff (subject other : String)
  /-- Asks whether two sets share no member. -/
  | disjoint (subject other : String)
  /-- Asks whether every member is one of the other set. -/
  | subset (subject other : String)
  /-- Asks whether two sets have the same capacity and members. -/
  | equal (subject other : String)
deriving DecidableEq, Repr

/-- The name of the set that a step is about. -/
def Step.subject : Step → String
  | .new a _ | .full a _ | .ofIds a _ _ | .copy a _ | .clear a | .insert a _ | .remove a _
  | .contains a _ | .union a _ | .inter a _ | .diff a _ | .disjoint a _ | .subset a _
  | .equal a _ => a

/-- The subject of a step afterwards and the answer; `none` if the step needs a
set that the bank does not hold. -/
def Step.outcome? (bank : Bank) : Step → Option (LabelSet × Option Bool)
  | .new _ capacity => some (.empty capacity, none)
  | .full _ capacity => some (.full capacity, none)
  | .ofIds _ capacity ids => some (.ofIds capacity ids, none)
  | .copy _ b => do return (← bank.get? b, none)
  | .clear a => do return ((← bank.get? a).clear, none)
  | .insert a id => do
    let s ← bank.get? a
    return (s.insert id, some (s.insertAlters id))
  | .remove a id => do
    let s ← bank.get? a
    return (s.erase id, some (s.eraseAlters id))
  | .contains a id => do
    let s ← bank.get? a
    return (s, some (s.contains id))
  | .union a b => do
    let s ← bank.get? a
    let t ← bank.get? b
    return (s.union t, some (s.unionAlters t))
  | .inter a b => do
    let s ← bank.get? a
    let t ← bank.get? b
    return (s.inter t, some (s.interAlters t))
  | .diff a b => do
    let s ← bank.get? a
    let t ← bank.get? b
    return (s.diff t, some (s.diffAlters t))
  | .disjoint a b => do
    let s ← bank.get? a
    return (s, some (s.disjoint (← bank.get? b)))
  | .subset a b => do
    let s ← bank.get? a
    return (s, some (s.subset (← bank.get? b)))
  | .equal a b => do
    let s ← bank.get? a
    return (s, some (decide (s = (← bank.get? b))))

/-- The answer of a step and its subject, by itself and in the bank, afterwards. -/
def Bank.step? (bank : Bank) (step : Step) : Option (Option Bool × LabelSet × Bank) := do
  let (set, answer) ← step.outcome? bank
  return (answer, set, bank.put step.subject set)

end LabelSet
end StructuredFlow
