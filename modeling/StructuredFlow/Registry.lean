/-
# Dispatch indices

Each label that a dispatch can jump to needs a number.  A `Registry` is the list
of the labels, with their functions, in the order in which their numbers were
first asked for; the number is the position.  One registry serves all functions
of a module, so no two labels of the module share a number.
-/

namespace StructuredFlow

/-- The pairs of function id and label id that have an index, in order. -/
structure Registry where
  /-- The pair at a position has that position as its index. -/
  keys : List (Nat × Nat)
  /-- No pair has two indices. -/
  nodup : keys.Nodup
deriving DecidableEq

namespace Registry

/-- The registry in which no label has an index. -/
def empty : Registry := ⟨[], List.nodup_nil⟩

instance : Inhabited Registry := ⟨empty⟩

/-- The index that a label has, or would be given next. -/
def index (r : Registry) (function label : Nat) : Nat := r.keys.idxOf (function, label)

/-- The index of a label, if it has one. -/
def get? (r : Registry) (function label : Nat) : Option Nat :=
  if (function, label) ∈ r.keys then some (r.index function label) else none

/-- A label that is new keeps the list without repetitions. -/
theorem nodup_concat {keys : List (Nat × Nat)} {key : Nat × Nat} (h : keys.Nodup)
    (hn : key ∉ keys) : (keys ++ [key]).Nodup := by
  refine List.nodup_append.mpr ⟨h, by simp, fun a ha b hb => ?_⟩
  rw [List.mem_singleton.mp hb]
  exact fun hab => hn (hab ▸ ha)

/-- The registry in which a label has an index, the next free one if it had none. -/
def assign (r : Registry) (function label : Nat) : Registry :=
  if h : (function, label) ∈ r.keys then r
  else
    { keys := r.keys ++ [(function, label)]
      nodup := nodup_concat r.nodup h }

/-- The number of labels with an index. -/
def size (r : Registry) : Nat := r.keys.length

/-- Tests whether no label has an index. -/
def isEmpty (r : Registry) : Bool := r.keys.isEmpty

@[simp] theorem mem_assign {r : Registry} {function label : Nat} {key : Nat × Nat} :
    key ∈ (r.assign function label).keys ↔ key ∈ r.keys ∨ key = (function, label) := by
  unfold assign
  split
  · constructor
    · exact Or.inl
    · rintro (h | rfl)
      · exact h
      · assumption
  · simp

/-- Assigning an index leaves those of other labels, and its own, as they are. -/
theorem index_assign {r : Registry} {function label f l : Nat}
    (h : (f, l) ∈ r.keys ∨ (f, l) = (function, label)) :
    (r.assign function label).index f l = r.index f l := by
  unfold assign index
  split
  · rfl
  · rw [List.idxOf_append]
    split
    · rfl
    · rename_i hn
      obtain h | h := h
      · exact absurd h hn
      · rw [List.idxOf_eq_length hn, h]
        simp

end Registry
end StructuredFlow
