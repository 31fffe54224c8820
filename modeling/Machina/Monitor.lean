import Mathlib

/-!
# Pausing and waking the vCPU

The monitor's requests, the waker of a CPU halted by WFI, and the execution loop where it
meets them. One access to the quit flag, or a section under a lock with the calls of the
waker in it, is one step. The branch of `check_monitor_pause` that waits for the debugger, and the
time before `set_wfi_waker` has given the monitor its waker, are left out.
-/

namespace MachinaMonitor

inductive VmState where
  | running | pauseRequested | paused
  deriving DecidableEq

structure WfiState where
  irqPending : Bool := false
  stopped : Bool := false
  monitorWake : Bool := false
  deadline : Option Nat := none

/-- Where the execution loop stands: in guest code, in `wait` before its checks or asleep, in
`check_pause` before the quit flag, before the lock, parked, or before the flag again, or left. -/
inductive Loop where
  | free | waiting (timeout : Option Nat) | asleep (timeout : Option Nat)
  | checking | entering | parked | checked | halted

structure Sys extends WfiState where
  vm : VmState := .running
  quitRequested : Bool := false
  loop : Loop := .free

variable (s : Sys)

/-- `notify_all` on the waker's condition variable, which may also wake up by itself. -/
def Sys.notifyAll : Sys :=
  match s.loop with
  | .asleep timeout => { s with loop := .waiting timeout }
  | _ => s

/-- `request_stop` up to its wait. -/
def Sys.requestStop : Sys :=
  if s.vm = .paused then s else { s with vm := .pauseRequested, monitorWake := true }.notifyAll

def Sys.requestCont : Sys := if s.vm = .running then s else { s with vm := .running, monitorWake := false }

/-- `request_quit` after it has stored the flag. -/
def Sys.requestQuit : Sys := { s with vm := .running, stopped := true }.notifyAll

/-- One pass of the loop in `wait`. -/
def Sys.wait (now : Nat) : Sys :=
  if s.irqPending then { s with irqPending := false, loop := .checking }
  else if s.stopped then { s with loop := .halted }
  else if s.monitorWake then { s with monitorWake := false, loop := .checking }
  else if s.deadline.any (· ≤ now) then { s with deadline := none, loop := .checking }
  else { s with loop := .asleep s.deadline }

/-- The part of `check_pause` under the lock. -/
def Sys.checkPause : Sys :=
  if s.vm = .pauseRequested then { s with vm := .paused, loop := .parked } else { s with loop := .checked }

/-- The next step of the execution loop. From guest code it goes to WFI or to the pause check, and a sleep that was
ended at its timeout may count as timed out. -/
def Sys.advance (now : Nat) (choice : Bool) : Sys :=
  match s.loop with
  | .free => { s with loop := if choice then .waiting none else .checking }
  | .waiting timeout =>
    if choice && timeout.any (· ≤ now) then { s with deadline := none, loop := .checking } else s.wait now
  | .asleep timeout => if timeout.any (· ≤ now) then { s with deadline := none, loop := .checking } else s
  | .checking => { s with loop := if s.quitRequested then .halted else .entering }
  | .entering => s.checkPause
  | .parked => if s.vm = .paused then s else { s with loop := .checked }
  | .checked => { s with loop := if s.quitRequested then .halted else .free }
  | .halted => s

inductive Event where
  | wake | setDeadline (deadline : Nat) | clearDeadline | spurious
  | requestStop | requestCont | storeQuit | requestQuit | stop | leave
  | advance (now : Nat) (choice : Bool)

def step : Event → Sys
  | .wake => { s with irqPending := true }.notifyAll
  | .setDeadline deadline => { s with deadline := some deadline }.notifyAll
  | .clearDeadline => { s with deadline := none }
  | .spurious => s.notifyAll
  | .requestStop => s.requestStop
  | .requestCont => s.requestCont
  | .storeQuit => { s with quitRequested := true }
  | .requestQuit => if s.quitRequested then s.requestQuit else s
  | .stop => { s with stopped := true }.notifyAll
  -- `should_exit`
  | .leave =>
    match s.loop with
    | .free => { s with loop := .halted }
    | _ => s
  | .advance now choice => s.advance now choice

/-- Whoever sleeps has missed nothing, and a pause request is heard at the next check. -/
structure Inv : Prop where
  asleep : ∀ d, s.loop = .asleep d → s.irqPending = false ∧ s.stopped = false ∧ s.monitorWake = false ∧
    (s.deadline = none ∨ s.deadline = d)
  paused : s.vm = .paused → s.loop = .parked
  requested : s.vm = .pauseRequested → s.monitorWake = true ∨ s.loop = .checking ∨ s.loop = .entering ∨
    s.loop = .halted
  latched : s.monitorWake = true → s.vm ≠ .running ∨ s.quitRequested = true

variable {s}

theorem advance_inv (h : Inv s) (now : Nat) (choice : Bool) : Inv (s.advance now choice) := by
  obtain ⟨hasleep, hpaused, hrequested, hlatched⟩ := h
  unfold Sys.advance
  split <;> constructor <;> grind -linarith [Sys.wait, Sys.checkPause]

theorem step_inv (h : Inv s) (e : Event) : Inv (step s e) := by
  cases e with
  | advance now choice => exact advance_inv h now choice
  | _ =>
    obtain ⟨hasleep, hpaused, hrequested, hlatched⟩ := h
    constructor <;> grind -linarith [step, Sys.notifyAll, Sys.requestStop, Sys.requestCont, Sys.requestQuit]

/-- In every interleaving of monitor threads, devices and the vCPU: a CPU asleep in WFI has missed no wakeup, stop,
pause request or deadline, a paused machine is parked, and the monitor's wakeup outlives no pause. -/
theorem pause_and_wake_safe (es : List Event) :
    let t := es.foldl step {}
    (∀ d, t.loop = .asleep d → t.irqPending = false ∧ t.stopped = false ∧ t.vm = .running ∧
        (t.deadline = none ∨ t.deadline = d)) ∧
      (t.vm = .paused → t.loop = .parked) ∧ (t.monitorWake = true → t.vm ≠ .running ∨ t.quitRequested = true) := by
  intro t
  have hinv : Inv t := List.foldlRecOn es step ⟨by simp, by simp, by simp, by simp⟩ fun _ h e _ => step_inv h e
  refine ⟨fun d hd => ?_, hinv.paused, hinv.latched⟩
  obtain ⟨hirq, hstop, hwake, hdeadline⟩ := hinv.asleep d hd
  refine ⟨hirq, hstop, ?_, hdeadline⟩
  cases hvm : t.vm with
  | running => rfl
  | paused => simp [hinv.paused hvm] at hd
  | pauseRequested => simpa [hwake, hd] using hinv.requested hvm

end MachinaMonitor
