/-
# Walking a branch graph

A walk starts at a label and goes on, at each label, to the target that the next
of a sequence of choices picks: with `n` targets a choice `c` picks target `c % n`.
It ends at a label without targets, and at a target that is no label.
-/

import StructuredFlow.Transfers

namespace StructuredFlow
namespace Transfers

/-- The target of a label that a choice picks. -/
def pick? (ts : Transfers) (choice id : Nat) : Option Target :=
  (ts.targets id)[choice % (ts.targets id).length]?

/-- The labels visited from a label on, at most `limit` of them, the choice at the
first one being number `position`. -/
def walkFrom (ts : Transfers) (choices : Nat → Nat) : Nat → Nat → Nat → List Nat
  | 0, _, _ => []
  | limit + 1, position, id =>
    id ::
      match ts.pick? (choices position) id with
      | some (.label next) => walkFrom ts choices limit (position + 1) next
      | _ => []

/-- The labels visited from an entry on, at most `limit` of them. -/
def walk (ts : Transfers) (choices : Nat → Nat) (limit entry : Nat) : List Nat :=
  ts.walkFrom choices limit 0 entry

end Transfers
end StructuredFlow
