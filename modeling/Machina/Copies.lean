import Mathlib

/-!
# Sequences of block copies

A copy moves a run of cells from one store to another. After a sequence of copies a
cell holds what the last copy that covers it brought there.
-/

namespace MachinaCopies

variable {α : Type}

/-- `len` cells from `src` on, to be copied to `dst` on. -/
structure Copy where
  src : Nat
  dst : Nat
  len : Nat
  deriving DecidableEq, Repr

def Copy.Covers (c : Copy) (a : Nat) : Prop := c.dst ≤ a ∧ a < c.dst + c.len

instance (c : Copy) (a : Nat) : Decidable (c.Covers a) := inferInstanceAs (Decidable (_ ∧ _))

def Copy.apply (c : Copy) (source target : Nat → α) : Nat → α := fun a =>
  if c.Covers a then source (c.src + (a - c.dst)) else target a

/-- The target store after a sequence of copies. -/
def copyAll (source target : Nat → α) : List Copy → Nat → α
  | [] => target
  | c :: cs => copyAll source (c.apply source target) cs

variable (source target : Nat → α)

@[simp] theorem copyAll_nil : copyAll source target [] = target := rfl

@[simp] theorem copyAll_cons (c : Copy) (cs : List Copy) :
    copyAll source target (c :: cs) = copyAll source (c.apply source target) cs := rfl

/-- The source cell of the last copy that covers a cell. -/
def lands : List Copy → Nat → Option Nat
  | [], _ => none
  | c :: cs, a => (lands cs a).or (if c.Covers a then some (c.src + (a - c.dst)) else none)

theorem copyAll_apply (cs : List Copy) (a : Nat) :
    copyAll source target cs a = ((lands cs a).map source).getD (target a) := by
  induction cs generalizing target with
  | nil => rfl
  | cons c cs ih =>
    rw [copyAll_cons, ih, lands]
    cases lands cs a with
    | some s => rfl
    | none =>
      rw [Option.none_or, Copy.apply]
      split <;> rfl

/-- A cell is left as it was exactly when what lands on it is what it held. -/
theorem copyAll_eq_iff (cs : List Copy) (a : Nat) :
    copyAll source target cs a = target a ↔ ∀ s, lands cs a = some s → source s = target a := by
  rw [copyAll_apply]
  cases lands cs a with
  | none => exact iff_of_true rfl nofun
  | some s => exact ⟨fun h s' hs => Option.some.inj hs ▸ h, fun h => h s rfl⟩

end MachinaCopies
