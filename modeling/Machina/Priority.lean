import Mathlib

/-!
# Choosing by priority

Candidates are given by a predicate, their priority by a relation that says which
of two goes first. A scan along a list sorted by priority finds the choice.
-/

namespace MachinaPriority

variable {α : Type*} {before : α → α → Prop}

/-- The candidate that goes before every other one, or nothing when there is no candidate. -/
def IsChoice (before : α → α → Prop) (candidate : α → Prop) : Option α → Prop
  | none => ∀ a, ¬ candidate a
  | some a => candidate a ∧ ∀ b, candidate b → b ≠ a → before a b

/-- A scan of a sorted list stops at an element that goes before all others it would accept. -/
theorem before_of_find? {l : List α} {p : α → Bool} {a b : α} (hsorted : l.Pairwise before)
    (ha : l.find? p = some a) (hb : b ∈ l) (hpb : p b = true) (hne : b ≠ a) : before a b := by
  obtain ⟨_, as, bs, rfl, has⟩ := List.find?_eq_some_iff_append.mp ha
  rcases List.mem_append.mp hb with hmem | hmem
  · have hnot := has b hmem
    simp [hpb] at hnot
  have htail : b ∈ bs := (List.mem_cons.mp hmem).resolve_left hne
  have hright := (List.pairwise_append.mp hsorted).2.1
  exact (List.pairwise_cons.mp hright).1 b htail

/-- A scan of a sorted list of everything finds the choice. -/
theorem isChoice_find? {l : List α} (p : α → Bool) (hsorted : l.Pairwise before) (hall : ∀ a, a ∈ l) :
    IsChoice before (fun a => p a = true) (l.find? p) := by
  cases h : l.find? p with
  | none => exact fun a => List.find?_eq_none.mp h a (hall a)
  | some a => exact ⟨List.find?_some h, fun b hpb hne => before_of_find? hsorted h (hall b) hpb hne⟩

end MachinaPriority
