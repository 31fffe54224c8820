import Mathlib

/-!
# Owners and places

Two maps describe who is where: `owner` gives the occupant of a slot, `place` the
slot of an item. They are paired when they are inverse to each other, with two
kinds of exceptions: stale items may still be listed at slots they left, and
displaced items are at a slot that somebody else took over.
-/

namespace MachinaPairing

open Function (update update_of_ne)

variable {R T : Type}

/-- Occupants are where `place` says unless stale, and items are occupants unless displaced. -/
structure Paired (owner : R → Option T) (place : T → Option R) (stale displaced : T → Prop) : Prop where
  owns : ∀ r t, owner r = some t → place t = some r ∨ stale t
  owned : ∀ t r, place t = some r → owner r = some t ∨ displaced t

namespace Paired

variable {owner : R → Option T} {place : T → Option R} {S D D' : T → Prop} {r : R} {s t : T}

theorem mono (h : Paired owner place S D) (hD : ∀ u, D u → D' u) : Paired owner place S D' :=
  ⟨h.owns, fun t r ht => (h.owned t r ht).imp_right (hD t)⟩

section

variable [DecidableEq T]

end

variable [DecidableEq R] [DecidableEq T]

/-- The occupant leaves its slot. -/
theorem release (h : Paired owner place S D) (hr : owner r = some t) :
    Paired (update owner r none) (update place t none) S D := by
  refine ⟨fun r' t' hown => ?_, fun t' r' hpl => ?_⟩
  · have hne : r' ≠ r := fun he => by simp [he] at hown
    rw [update_of_ne hne] at hown
    by_cases ht : t' = t
    · subst ht
      right
      rcases h.owns r' t' hown with hplace | hs
      · refine (h.owns r t' hr).resolve_left fun hplace' => ?_
        exact hne (Option.some.inj (hplace.symm.trans hplace'))
      · exact hs
    · rw [update_of_ne ht]
      exact h.owns r' t' hown
  · have ht : t' ≠ t := fun he => by simp [he] at hpl
    rw [update_of_ne ht] at hpl
    refine (h.owned t' r' hpl).imp_left fun hown => ?_
    have hne : r' ≠ r := fun he => ht (Option.some.inj (hown.symm.trans (he ▸ hr)))
    rwa [update_of_ne hne]

/-- An item without a slot, or one that may be stale, takes a slot; whoever was there is displaced. -/
theorem take (h : Paired owner place S D) (ht : place t = none ∨ S t) (r : R) :
    Paired (update owner r (some t)) (update place t (some r)) S fun u => D u ∨ owner r = some u := by
  refine ⟨fun r' t' hown => ?_, fun t' r' hpl => ?_⟩
  · by_cases hne : r' = r
    · subst hne
      obtain rfl : t = t' := by simpa using hown
      exact .inl (Function.update_self _ _ _)
    · rw [update_of_ne hne] at hown
      by_cases hne' : t' = t
      · subst hne'
        rcases h.owns r' t' hown with hplace | hs
        · exact .inr (ht.resolve_left (by simp [hplace]))
        · exact .inr hs
      · rw [update_of_ne hne']
        exact h.owns r' t' hown
  · by_cases hne : t' = t
    · subst hne
      obtain rfl : r = r' := by simpa using hpl
      exact .inl (Function.update_self _ _ _)
    · rw [update_of_ne hne] at hpl
      rcases h.owned t' r' hpl with hown | hd
      · by_cases he : r' = r
        · exact .inr (.inr (he ▸ hown))
        · exact .inl (by rwa [update_of_ne he])
      · exact .inr (.inl hd)

/-- The same for an empty slot. -/
theorem give (h : Paired owner place S D) (hr : owner r = none) (ht : place t = none ∨ S t) :
    Paired (update owner r (some t)) (update place t (some r)) S D :=
  (h.take ht r).mono fun u hu => hu.resolve_right (by simp [hr])

end Paired

end MachinaPairing
