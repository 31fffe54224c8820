import Mathlib

/-!
# The virtual clock and its timers

The binary heap of timers is the list of its entries in the order in which they
are popped. The clock and the identifiers are 64-bit words that wrap. In a
sequence of calls, the callback of a timer is the position of the call that
added it. Time is the sum of the deltas, which the clock shows until it wraps.
-/
namespace MachinaVirtualClock

structure TimerEntry (α : Type) where
  expireTime : ℤ
  id : ℕ
  callback : α
  deriving DecidableEq

variable {α : Type}

/-- Entries are ordered by expiry, then by identifier. -/
def TimerEntry.le (a b : TimerEntry α) : Prop := toLex (a.expireTime, a.id) ≤ toLex (b.expireTime, b.id)

instance : DecidableRel (TimerEntry.le (α := α)) := fun _ _ => inferInstanceAs (Decidable (_ ≤ _))
instance : Std.Total (TimerEntry.le (α := α)) := ⟨fun _ _ => le_total _ _⟩
instance : IsTrans (TimerEntry α) TimerEntry.le := ⟨fun _ _ _ => le_trans⟩

structure VirtualClock (α : Type) where
  ns : ℤ
  timers : List (TimerEntry α)
  nextId : ℕ

namespace VirtualClock

def new : VirtualClock α := ⟨0, [], 0⟩

/-- Pops entries while the first one has expired. -/
def popExpired (newNs : ℤ) : List (TimerEntry α) → List (TimerEntry α) × List (TimerEntry α)
  | [] => ([], [])
  | e :: heap =>
    if e.expireTime ≤ newNs then
      let (expired, rest) := popExpired newNs heap
      (e :: expired, rest)
    else ([], e :: heap)

/-- The clock after a step, and the entries whose callbacks ran, in order. -/
def step (c : VirtualClock α) (deltaNs : ℤ) : VirtualClock α × List (TimerEntry α) :=
  let newNs := (c.ns + deltaNs).bmod (2 ^ 64)
  let (expired, rest) := popExpired newNs c.timers
  ({ c with ns := newNs, timers := rest }, expired)

def addTimer (c : VirtualClock α) (expireNs : ℤ) (callback : α) : VirtualClock α × ℕ :=
  ({ c with nextId := (c.nextId + 1) % 2 ^ 64,
            timers := c.timers.orderedInsert TimerEntry.le ⟨expireNs, c.nextId, callback⟩ }, c.nextId)

/-- Drains the heap, drops the entries of the identifier and rebuilds it. -/
def removeTimer (c : VirtualClock α) (id : ℕ) : VirtualClock α × Bool :=
  let entries := c.timers.filter (·.id ≠ id)
  ({ c with timers := entries.insertionSort TimerEntry.le }, entries.length < c.timers.length)

end VirtualClock

inductive Call where
  | addTimer (expireNs : ℤ)
  | removeTimer (id : ℕ)
  | step (deltaNs : ℤ)
  deriving DecidableEq

section

variable (calls : ℕ → Call)

def clockAt : ℕ → VirtualClock ℕ
  | 0 => .new
  | n + 1 => match calls n with
    | .addTimer e => ((clockAt n).addTimer e n).1
    | .removeTimer id => ((clockAt n).removeTimer id).1
    | .step d => ((clockAt n).step d).1

/-- The entries whose callbacks run in a call. -/
def firedAt (n : ℕ) : List (TimerEntry ℕ) :=
  match calls n with
  | .step d => ((clockAt calls n).step d).2
  | _ => []

/-- The time before a call: the sum of the deltas so far. -/
def elapsed : ℕ → ℤ
  | 0 => 0
  | n + 1 => match calls n with
    | .step d => elapsed n + d
    | _ => elapsed n

/-- The step of a call ends at or after the entry's expiry. -/
def Expires (n : ℕ) (e : TimerEntry ℕ) : Prop :=
  (∃ d, calls n = .step d) ∧ e.expireTime ≤ elapsed calls (n + 1)

/-- Added by an earlier call, and neither expired nor removed since. -/
def Pending (n : ℕ) (e : TimerEntry ℕ) : Prop :=
  e.callback < n ∧ calls e.callback = .addTimer e.expireTime ∧ e.id = (clockAt calls e.callback).nextId ∧
    ∀ m, e.callback < m → m < n → ¬Expires calls m e ∧ calls m ≠ .removeTimer e.id

/-- What a sequence of calls promises about its timers. -/
structure FiresOnce : Prop where
  fires_iff : ∀ n e, e ∈ firedAt calls n ↔ Pending calls n e ∧ Expires calls n e
  once : ∀ n m e, e ∈ firedAt calls n → e ∈ firedAt calls m → n = m
  removed_silent : ∀ n m e, calls n = .removeTimer e.id → e.callback < n → n < m → e ∉ firedAt calls m
  removes_iff : ∀ n id, calls n = .removeTimer id →
    (((clockAt calls n).removeTimer id).2 ↔ ∃ e, Pending calls n e ∧ e.id = id)
  ordered : ∀ n, (firedAt calls n).Pairwise TimerEntry.le ∧ (firedAt calls n).Nodup

end

open VirtualClock

/-- On a heap in order, popping splits it at the time of the step. -/
theorem popExpired_eq (newNs : ℤ) {l : List (TimerEntry α)} (h : l.Pairwise TimerEntry.le) : popExpired newNs l =
      (l.filter (fun e => e.expireTime ≤ newNs), l.filter (fun e => newNs < e.expireTime)) := by
  induction l with
  | nil => rfl
  | cons e l ih =>
    obtain ⟨hle, hl⟩ := List.pairwise_cons.mp h
    by_cases he : e.expireTime ≤ newNs
    · simp [popExpired, he, ih hl, not_lt.mpr he]
    have hlate : ∀ e' ∈ l, newNs < e'.expireTime := by
      intro e' he'
      have := Prod.Lex.toLex_le_toLex.mp (hle e' he')
      grind
    have hnone : l.filter (fun e => decide (e.expireTime ≤ newNs)) = [] := by simpa using hlate
    have hall : l.filter (fun e => decide (newNs < e.expireTime)) = l := by simpa using hlate
    simp [popExpired, he, hnone, hall, not_le.mp he]

variable {calls : ℕ → Call} {n : ℕ}

theorem pending_succ (e : TimerEntry ℕ) : Pending calls (n + 1) e ↔
      Pending calls n e ∧ ¬Expires calls n e ∧ calls n ≠ .removeTimer e.id ∨
        e.callback = n ∧ calls n = .addTimer e.expireTime ∧ e.id = (clockAt calls n).nextId := by
  constructor
  · rintro ⟨hlt, hadd, hid, hkept⟩
    rcases Nat.lt_succ_iff_lt_or_eq.mp hlt with hlt | rfl
    · exact Or.inl ⟨⟨hlt, hadd, hid, fun m hm hn => hkept m hm (by omega)⟩, hkept n hlt (by omega)⟩
    · exact Or.inr ⟨rfl, hadd, hid⟩
  · rintro (⟨⟨hlt, hadd, hid, hkept⟩, hnow⟩ | ⟨rfl, hadd, hid⟩)
    · refine ⟨by omega, hadd, hid, fun m hm hn => ?_⟩
      rcases Nat.lt_succ_iff_lt_or_eq.mp hn with hn | rfl
      · exact hkept m hm hn
      · exact hnow
    · exact ⟨by omega, hadd, hid, fun m hm hn => by omega⟩

theorem elapsed_nonneg (hdelta : ∀ n d, calls n = .step d → 0 ≤ d) (n : ℕ) : 0 ≤ elapsed calls n := by
  induction n with
  | zero => exact le_rfl
  | succ n ih =>
    rw [elapsed]
    split
    · exact add_nonneg ih (hdelta n _ ‹_›)
    · exact ih

/-- While the deltas stay within 63 bits the clock shows the time. -/
theorem clockAt_ns (hdelta : ∀ n d, calls n = .step d → 0 ≤ d) (hsum : ∀ n, elapsed calls n < 2 ^ 63) (n : ℕ) :
    (clockAt calls n).ns = elapsed calls n := by
  induction n with
  | zero => rfl
  | succ n ih =>
    have hlow := elapsed_nonneg hdelta (n + 1)
    have hhigh := hsum (n + 1)
    cases hcall : calls n with
    | addTimer e => simpa [clockAt, elapsed, hcall, addTimer] using ih
    | removeTimer id => simpa [clockAt, elapsed, hcall, removeTimer] using ih
    | step d =>
      simp only [elapsed, hcall] at hlow hhigh
      simp only [clockAt, hcall, VirtualClock.step, elapsed, ih, Int.bmod_def]
      omega

section

variable (hns : ∀ n, (clockAt calls n).ns = elapsed calls n)

include hns

/-- The heap holds exactly the pending entries, each once and in order. -/
theorem timers_pending (n : ℕ) : (∀ e, e ∈ (clockAt calls n).timers ↔ Pending calls n e) ∧
      (clockAt calls n).timers.Pairwise TimerEntry.le ∧ (clockAt calls n).timers.Nodup := by
  induction n with
  | zero => simp [clockAt, VirtualClock.new, Pending]
  | succ n ih =>
    obtain ⟨hmem, hsorted, hnodup⟩ := ih
    simp only [pending_succ, ← hmem]
    cases hcall : calls n with
    | addTimer e =>
      have hnew : ⟨e, (clockAt calls n).nextId, n⟩ ∉ (clockAt calls n).timers := fun h =>
        absurd ((hmem _).mp h).1 (lt_irrefl n)
      simp only [clockAt, hcall, addTimer, Expires]
      refine ⟨fun x => ?_, hsorted.orderedInsert _ _, ?_⟩
      · obtain ⟨ex, id, cb⟩ := x
        simp
        grind
      · exact (List.perm_orderedInsert _ _ _).nodup_iff.mpr (List.nodup_cons.mpr ⟨hnew, hnodup⟩)
    | removeTimer id =>
      simp only [clockAt, hcall, removeTimer, (hsorted.filter _).insertionSort_eq, Expires]
      refine ⟨fun x => ?_, hsorted.filter _, hnodup.filter _⟩
      simp
      grind
    | step d =>
      have hend : elapsed calls (n + 1) = ((clockAt calls n).ns + d).bmod (2 ^ 64) := by
        rw [← hns]
        simp [clockAt, hcall, VirtualClock.step]
      simp only [Expires, hend]
      simp only [clockAt, hcall, VirtualClock.step, popExpired_eq _ hsorted]
      refine ⟨fun x => ?_, hsorted.filter _, hnodup.filter _⟩
      simp

theorem firedAt_iff (e : TimerEntry ℕ) : e ∈ firedAt calls n ↔ Pending calls n e ∧ Expires calls n e := by
  obtain ⟨hmem, hsorted, -⟩ := timers_pending hns n
  cases hcall : calls n <;>
    simp [firedAt, hcall, Expires, ← hns, clockAt, VirtualClock.step, popExpired_eq _ hsorted, hmem]

end

/-- As long as the deltas add up to less than 2⁶³, each timer fires once, at the first step that reaches its expiry,
unless it is removed before; each step fires its timers in order. -/
theorem timers_fire_once (calls : ℕ → Call) (hdelta : ∀ n d, calls n = .step d → 0 ≤ d)
    (hsum : ∀ n, elapsed calls n < 2 ^ 63) : FiresOnce calls where
  fires_iff n e := firedAt_iff (clockAt_ns hdelta hsum) e
  once n m e hn hm := by
    rw [firedAt_iff (clockAt_ns hdelta hsum)] at hn hm
    rcases lt_trichotomy n m with h | h | h
    · exact absurd hn.2 (hm.1.2.2.2 n hn.1.1 h).1
    · exact h
    · exact absurd hm.2 (hn.1.2.2.2 m hm.1.1 h).1
  removed_silent n m e hcall hn hm hfired :=
    ((firedAt_iff (clockAt_ns hdelta hsum) e).mp hfired).1.2.2.2 n hn hm |>.2 hcall
  removes_iff n id _ := by
    obtain ⟨hmem, -⟩ := timers_pending (clockAt_ns hdelta hsum) n
    simp [removeTimer, List.length_filter_lt_length_iff_exists, hmem]
  ordered n := by
    obtain ⟨-, hsorted, hnodup⟩ := timers_pending (clockAt_ns hdelta hsum) n
    cases hcall : calls n <;> simp only [firedAt, hcall, VirtualClock.step, popExpired_eq _ hsorted]
    · exact ⟨List.Pairwise.nil, List.nodup_nil⟩
    · exact ⟨List.Pairwise.nil, List.nodup_nil⟩
    · exact ⟨hsorted.filter _, hnodup.filter _⟩

/-- A timer at 5 and two steps of 3; what follows tries to remove it. -/
def twoSteps : ℕ → Call
  | 0 => .addTimer 5
  | 1 | 2 => .step 3
  | _ => .removeTimer 0

theorem elapsed_twoSteps (n : ℕ) : elapsed twoSteps (n + 3) = 6 := by
  induction n with
  | zero => rfl
  | succ n ih => exact ih

theorem timers_fire_once_twoSteps : FiresOnce twoSteps ∧ firedAt twoSteps 2 = [⟨5, 0, 0⟩] := by
  refine ⟨timers_fire_once twoSteps ?_ ?_, by decide⟩
  · intro n d hstep
    match n with
    | 0 => cases hstep
    | 1 | 2 => cases hstep; decide
    | n + 3 => cases hstep
  · intro n
    match n with
    | 0 | 1 | 2 => decide
    | n + 3 => rw [elapsed_twoSteps]; decide

/-- A timer for the last nanosecond that the clock can show, and one step past it. -/
def pastTheEnd : ℕ → Call
  | 0 => .step (2 ^ 63 - 1)
  | 1 => .addTimer (2 ^ 63 - 1)
  | _ => .step 1

/-- The clock wraps, and the timer does not fire. -/
theorem wrapped_clock_loses_timer : ¬ FiresOnce pastTheEnd ∧ firedAt pastTheEnd 2 = [] ∧
    elapsed pastTheEnd 3 = 2 ^ 63 := by
  have hfired : firedAt pastTheEnd 2 = [] := by decide
  refine ⟨fun hright => ?_, hfired, by decide⟩
  have hfires := (hright.fires_iff 2 ⟨2 ^ 63 - 1, 0, 1⟩).mpr
    ⟨⟨by decide, rfl, rfl, fun m hm hn => absurd hn (Nat.not_lt.mpr hm)⟩, ⟨1, rfl⟩, by decide⟩
  rw [hfired] at hfires
  cases hfires

end MachinaVirtualClock
