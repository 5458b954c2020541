/-
# Bindings of local names

The names of a function are its parameters and the names that its instructions define.
Each is bound in the code under an identifier of its own name, without regard to the
others, so they keep apart exactly if no two of them merge (`keepsApart_iff`).  The contract
asks only that no name is defined twice, and a function that meets it may hold names that
merge (`merged_bindings`).
-/

import StructuredFlow.Code.Expression
import StructuredFlow.Function.Validation
import StructuredFlow.Proofs.Text.Identifier

namespace StructuredFlow
namespace Function

/-- The names of a function: its parameters, and those that its instructions define. -/
def localNames (f : Function) : List String :=
  f.params ++ f.instructions.filterMap Instruction.definedName?

/-- Different names of a function have different bindings. -/
def KeepsApart (f : Function) : Prop :=
  ∀ a ∈ f.localNames, ∀ b ∈ f.localNames, a ≠ b → Identifier.ofLocal a ≠ Identifier.ofLocal b

/-- **The names of a function have bindings of their own exactly if no two of them merge**, and
so if they are identifiers as they stand. -/
theorem keepsApart_iff (f : Function) :
    (f.KeepsApart ↔ ∀ a ∈ f.localNames, ∀ b ∈ f.localNames, a ≠ b → ¬Identifier.Merges a b) ∧
      ((∀ name ∈ f.localNames, Identifier.isIdentifier name = true) → f.KeepsApart) := by
  have hiff : f.KeepsApart ↔
      ∀ a ∈ f.localNames, ∀ b ∈ f.localNames, a ≠ b → ¬Identifier.Merges a b := by
    simp only [KeepsApart, ne_eq, Identifier.ofLocal_eq_iff]
  refine ⟨hiff, fun hnames => hiff.mpr fun a ha b hb hne hmerges => ?_⟩
  exact hne (Identifier.eq_of_merges (hnames a ha) (hnames b hb) hmerges)

/-- A function that defines two names which merge, and returns the first. -/
def merging : Function :=
  .ofLabels "merging" []
    [("entry",
      [{ result := some ⟨"a.b", .int 32⟩, action := .operation (.assign (.literal "1")) },
        { result := some ⟨"a_b", .int 32⟩, action := .operation (.assign (.literal "2")) },
        { action := .transfer (.ret (some (.ssa "a.b"))) }])]

/-- The contract lets two names merge: the second definition overwrites the first, and the code
returns `2` for `a.b`, which is `1`. -/
theorem merged_bindings : merging.validate = .ok () ∧ ¬merging.KeepsApart ∧
    ∀ b : Bindings, (merging.instructions.take 2).map (Instruction.statement b) =
        [.ok "var $a_b = 1;", .ok "var $a_b = 2;"] ∧
      (Operand.ssa "a.b").expression = "$a_b" := by
  refine ⟨by decide, fun h => ?_, fun b => ⟨rfl, rfl⟩⟩
  have hmerges : Identifier.Merges "a.b" "a_b" := by decide
  exact h "a.b" (by decide) "a_b" (by decide) (by decide) (Identifier.ofLocal_eq_iff.mpr hmerges)

end Function
end StructuredFlow
