import Mathlib

/-!
# Runs of labelled transition systems

A system is a relation between a state, an event and the next state. A run is a
finite sequence of such steps. A condition that every step of a run has to meet
is put into the relation, by `guarded`.
-/

namespace MachinaRuns

variable {σ ε : Type}

/-- `Run R s es t`: the events `es`, taken in order, lead from `s` to `t`. -/
inductive Run (R : σ → ε → σ → Prop) : σ → List ε → σ → Prop where
  | nil (s : σ) : Run R s [] s
  | cons {s t u : σ} {e : ε} {es : List ε} (hstep : R s e t) (hrest : Run R t es u) : Run R s (e :: es) u

/-- The transition relation of a step function. -/
def ofStep (step : σ → ε → σ) : σ → ε → σ → Prop := fun s e t => t = step s e

/-- The transition relation of a step function that need not return. -/
def ofOption (step : σ → ε → Option σ) : σ → ε → σ → Prop := fun s e t => step s e = some t

/-- Only the steps whose event meets `ok` in the state before it. -/
def guarded (ok : σ → ε → Prop) (R : σ → ε → σ → Prop) : σ → ε → σ → Prop := fun s e t => ok s e ∧ R s e t

/-- What every step preserves, every run preserves. -/
theorem Run.invariant {R : σ → ε → σ → Prop} {I : σ → Prop} (hstep : ∀ s e t, R s e t → I s → I t)
    {s t : σ} {es : List ε} (hrun : Run R s es t) (hs : I s) : I t := by
  induction hrun with
  | nil s => exact hs
  | cons h _ ih => exact ih (hstep _ _ _ h hs)

/-- What every step satisfies, every step of a run satisfies. -/
theorem Run.mono {R S : σ → ε → σ → Prop} (hstep : ∀ s e t, R s e t → S s e t) {s t : σ} {es : List ε}
    (hrun : Run R s es t) : Run S s es t := by
  induction hrun with
  | nil s => exact .nil s
  | cons h _ ih => exact .cons (hstep _ _ _ h) ih

/-- Evaluating the events one after the other gives a run. -/
theorem Run.of_foldlM {step : σ → ε → Option σ} {s t : σ} {es : List ε} (h : es.foldlM step s = some t) :
    Run (ofOption step) s es t := by
  induction es generalizing s with
  | nil =>
    cases h
    exact .nil _
  | cons e es ih =>
    rw [List.foldlM_cons] at h
    obtain ⟨u, hfirst, hrest⟩ := Option.bind_eq_some_iff.mp h
    exact .cons hfirst (ih hrest)

/-- What every step of a counted loop preserves holds after the loop. -/
theorem foldlM_range {f : σ → Nat → Option σ} {I : Nat → σ → Prop} {n : Nat}
    (hstep : ∀ i < n, ∀ s t, I i s → f s i = some t → I (i + 1) t) {s t : σ} (hs : I 0 s)
    (hrun : (List.range n).foldlM f s = some t) : I n t := by
  induction n generalizing t with
  | zero =>
    obtain rfl := Option.some.inj hrun
    exact hs
  | succ n ih =>
    rw [List.range_succ, List.foldlM_append] at hrun
    obtain ⟨u, hinit, hlast⟩ := Option.bind_eq_some_iff.mp hrun
    rw [List.foldlM_cons] at hlast
    obtain ⟨v, hv, hnil⟩ := Option.bind_eq_some_iff.mp hlast
    obtain rfl := Option.some.inj hnil
    exact hstep n (Nat.lt_succ_self n) u v (ih (fun i hi => hstep i (Nat.lt_succ_of_lt hi)) hinit) hv

end MachinaRuns
