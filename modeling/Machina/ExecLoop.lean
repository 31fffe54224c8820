import Machina.StopPoints
import Machina.TbPages

/-!
# The execution loop under a debugger

The loop looks for breakpoints when it is about to enter generated code: at the pc, and inside the block it has
found. Generated code then goes from block to block over the patched jumps without coming back. Data accesses are not
compared with the watchpoints at all.
-/

namespace MachinaExecLoop

open MachinaTbStore MachinaStopPoints
open MachinaTbPages hiding Event step start

def cfCountMask : BitVec 32 := 0xFFFF#32
def cfSingleStep : BitVec 32 := 0x20000#32

def maxInsns (cflags : BitVec 32) : Nat :=
  if cflags &&& cfCountMask = 0#32 then 512 else (cflags &&& cfCountMask).toNat

/-- The flags of a block that is translated for one instruction and not kept. -/
def oneInsn : BitVec 32 := cfSingleStep ||| 1#32

/-- A pc and the flags that go with it. -/
abbrev Place := BitVec 64 × BitVec 32

/-- Whether the CPU is parked: in `check_monitor_pause`, which restores written registers afterwards, or in
`complete_step`, which does not. -/
inductive Parked where
  | no | paused | stepped
  deriving DecidableEq, Repr

/-- The loop of CPU 0. `running` is the block whose code is about to run, and whether this is a single step.
`inserted` are the stop points the debugger has inserted and not removed; the source does not keep them. -/
structure Loop where
  engine : Engine
  pc : BitVec 64
  flags : BitVec 32
  nextTbHint : Option Nat
  running : Option (Nat × Bool)
  gdb : GdbStops
  parked : Parked
  inserted : List StopPoint

variable (l : Loop)

def Loop.goto (p : Place) : Loop := { l with pc := p.1, flags := p.2 }

/-- What the guest and the devices do until generated code is entered: the interrupt that is delivered, the physical
pc, the two translations, and the fault if there is no block. -/
structure Turn where
  stepping : Bool
  irq : Option Place
  curPhys : Option (BitVec 64)
  work : Work
  single : Work
  fault : Option Place

/-- An interrupt is delivered at the head of the loop, but not during a single step. -/
def Loop.interrupt (t : Turn) : Loop :=
  if t.stepping then l
  else
    match t.irq with
    | some p => { l.goto p with nextTbHint := none }
    | none => l

def Loop.genOne (w : Work) : Option Nat × Loop :=
  let r := tbGenCode l.engine.store (l.engine.caches 0) l.pc l.flags oneInsn w
  (r.1, { l with engine := setCache l.engine 0 r })

def Loop.find (curPhys : Option (BitVec 64)) (w : Work) : Option Nat × Loop :=
  let r := tbFind l.engine.store (l.engine.caches 0) l.pc l.flags curPhys w
  (r.1, { l with engine := setCache l.engine 0 r })

/-- The hint is used without another look at the pc. -/
def Loop.hintOrFind (t : Turn) : Option Nat × Loop :=
  match l.nextTbHint with
  | some i => (some i, { l with nextTbHint := none })
  | none => l.find t.curPhys t.work

/-- The block to enter; one that spans a breakpoint is replaced by a block of one instruction. -/
def Loop.select (t : Turn) : Option Nat × Loop :=
  if t.stepping then l.genOne t.single
  else
    match l.hintOrFind t with
    | (none, l) => (none, l)
    | (some i, l) =>
      if l.gdb.gdbBreakpointInTb (l.engine.store.tbs i).pc (l.engine.store.tbs i).size then l.genOne t.single
      else (some i, l)

/-- The loop up to `cpu_tb_exec`. No block is entered after a fault, for a full code buffer, or at a breakpoint. -/
def Loop.dispatch (t : Turn) : Loop :=
  match (l.interrupt t).select t with
  | (none, l) =>
    match t.fault with
    | some p => l.goto p
    | none => { l with nextTbHint := none }
  | (some i, l) =>
    if !t.stepping && l.gdb.gdbCheckBreakpoint l.pc then { l with parked := .paused }
    else { l with running := some (i, t.stepping) }

structure Access where
  addr : BitVec 64
  size : Nat
  isWrite : Bool

/-- What generated code does in one block: the instructions it executes, their data accesses, and the exit slot it goes
on through. -/
structure Visit where
  insns : List (BitVec 64)
  accesses : List Access
  slot : Slot

def Tb.spans (t : Tb) (a : BitVec 64) : Prop := (a - t.pc).toNat < t.size

instance (t : Tb) (a : BitVec 64) : Decidable (Tb.spans t a) := inferInstanceAs (Decidable (_ < _))

/-- Instructions that the code of a block can execute: it starts at the pc of the block, and may be left before the
first or after any instruction. -/
def Executes (t : Tb) (insns : List (BitVec 64)) : Prop :=
  insns.length ≤ maxInsns t.cflags ∧ (∀ a ∈ insns, Tb.spans t a) ∧ (insns = [] ∨ insns.head? = some t.pc)

-- The list is scanned; the instance for all words would be found first.
instance (t : Tb) (insns : List (BitVec 64)) : Decidable (Executes t insns) :=
  have : Decidable (∀ a ∈ insns, Tb.spans t a) := List.decidableBAll _ _
  inferInstanceAs (Decidable (_ ∧ _))

/-- `cpu_tb_exec`: generated code goes from block to block over patched jumps; the result is the last block. -/
def follow (s : TbStore) : Nat → List Visit → Option Nat
  | _, [] => none
  | i, [v] => if Executes (s.tbs i) v.insns then some i else none
  | i, v :: w :: vs =>
    if Executes (s.tbs i) v.insns then
      match (s.tbs i).jump v.slot with
      | some j => follow s j (w :: vs)
      | none => none
    else none

/-- `ArchExitAction`; the actions that return from the loop are one. -/
inductive ArchExitAction where
  | cont
  | flushAllTb
  | flushDirtyTbPages (pages : List Nat)
  | flushPendingTb
  | leave

/-- How generated code is left. A helper that raises an exception jumps to the head of the loop. -/
inductive Exit where
  | raised
  | slot (n : Slot)
  | noChain
  | arch (action : ArchExitAction) (place : Place)
  | undef (place : Place)

/-- What the guest and the devices do after generated code. `fault` is the fault it has latched, `findFault` that of
the lookup, and `lateFault` one that is latched at the end of the loop. -/
structure After where
  place : Place
  exit : Exit
  dirty : List Nat
  fault : Option Place
  flushPending : Bool
  curPhys : Option (BitVec 64)
  work : Work
  findFault : Option Place
  irq : Option Place
  pendingIrq : Bool
  lateFault : Option Place
  lateIrq : Option Place
  pause : Bool

def Loop.dropHints : Loop :=
  { l with
    engine := { l.engine with caches := Function.update l.engine.caches 0 (l.engine.caches 0).invalidate }
    nextTbHint := none }

def Loop.invalidateAll (l : Loop) : Loop :=
  ({ l with engine := onStore l.engine l.engine.store.invalidateAll }).dropHints

def Loop.invalidatePage (page : Nat) : Option Loop :=
  (l.engine.store.invalidatePhysPage page).map fun s => { l with engine := onStore l.engine s }

/-- The check for self-modified code after every block. -/
def Loop.invalidateDirty (pages : List Nat) : Option Loop :=
  if pages.isEmpty then some l
  else
    (pages.foldlM (fun (l : Loop) page =>
      if l.engine.store.isCodePage page then l.invalidatePage page else some l) l).map Loop.dropHints

/-- No block was found: a fault is delivered, or the loop is left. -/
def Loop.notFound (fault : Option Place) : Loop :=
  match fault with
  | some p => l.goto p
  | none => { l with nextTbHint := none }

section

variable (stepping : Bool)

/-- The end of the loop. A fault that is still latched moves the pc and leaves the hint. -/
def Loop.finish (x : After) : Loop :=
  if stepping then { l with parked := .stepped }
  else
    let l :=
      match x.lateFault, x.lateIrq with
      | some p, _ => l.goto p
      | none, some p => { l.goto p with nextTbHint := none }
      | none, none => l
    if x.pause then { l with parked := .paused } else l

/-- An exit through a slot: the block found next is chained to the one that was left. -/
def Loop.exitSlot (src : Nat) (n : Slot) (x : After) : Loop :=
  match x.fault with
  | some p => l.goto p
  | none =>
    if x.flushPending then l.invalidateAll
    else
      match l.find x.curPhys x.work with
      | (none, l) => l.notFound x.findFault
      | (some dst, l) =>
        Loop.finish
          { l with engine := onStore l.engine (l.engine.store.tbAddJump src n dst), nextTbHint := some dst } stepping x

/-- An indirect exit, with its cached target. -/
def Loop.exitNoChain (src : Nat) (x : After) : Loop :=
  match x.fault with
  | some p => l.goto p
  | none =>
    if x.flushPending then l.invalidateAll
    else
      match l.engine.store.exitTargetHit src l.pc l.flags with
      | some cached =>
        match x.irq with
        | some p => l.goto p
        | none =>
          if x.pendingIrq then l
          else if l.gdb.gdbCheckBreakpoint l.pc then { l with parked := .paused }
          else { l with nextTbHint := some cached }
      | none =>
        match l.find x.curPhys x.work with
        | (none, l) => l.notFound x.findFault
        | (some dst, l) =>
          let store := l.engine.store.modify src fun t => { t with exitTarget := some dst }
          Loop.finish { l with engine := onStore l.engine store, nextTbHint := some dst } stepping x

def Loop.exitArch (action : ArchExitAction) (x : After) : Option Loop :=
  match action with
  | .cont => some (l.finish stepping x)
  | .flushAllTb => some (l.invalidateAll.finish stepping x)
  | .flushDirtyTbPages [] => some (l.invalidateAll.finish stepping x)
  | .flushDirtyTbPages pages => (pages.foldlM Loop.invalidatePage l).map fun l => l.dropHints.finish stepping x
  | .flushPendingTb => some ((if x.flushPending then l.invalidateAll else l).finish stepping x)
  | .leave => some { l with nextTbHint := none }

/-- The loop from the return of generated code to the next iteration. -/
def Loop.leave (src : Nat) (x : After) : Option Loop :=
  let l := l.goto x.place
  match x.exit with
  | .raised => some { l with nextTbHint := none }
  | .slot n => (l.invalidateDirty x.dirty).map fun l => l.exitSlot stepping src n x
  | .noChain => (l.invalidateDirty x.dirty).map fun l => l.exitNoChain stepping src x
  | .arch action p => (l.invalidateDirty x.dirty).bind fun l => (l.goto p).exitArch stepping action x
  | .undef p => (l.invalidateDirty x.dirty).map fun l => (l.goto p).finish stepping x

inductive Event where
  | dispatch (t : Turn)
  /-- Generated code runs through the visits. -/
  | execute (visits : List Visit) (x : After)
  | insert (p : StopPoint)
  | remove (p : StopPoint)
  | writePc (p : Place)
  | resume
  | connect (on : Bool)
  /-- Another CPU works on the shared store. -/
  | other (e : MachinaTbPages.Event)

end

def step (l : Loop) : Event → Option Loop
  | .dispatch t => if l.parked = .no ∧ l.running = none then some (l.dispatch t) else none
  | .execute visits x =>
    match l.running with
    | some (i, stepping) =>
      (follow l.engine.store i visits).bind fun src => ({ l with running := none }).leave stepping src x
    | none => none
  | .insert p =>
    if l.parked = .no then none
    else some { l with gdb := l.gdb.insert p, inserted := p :: l.inserted.filter (· ≠ p) }
  | .remove p =>
    if l.parked = .no then none else some { l with gdb := l.gdb.remove p, inserted := l.inserted.filter (· ≠ p) }
  | .writePc p => if l.parked = .paused then some (l.goto p) else none
  | .resume => some { l with parked := .no }
  | .connect on => some { l with gdb := { l.gdb with connected := on } }
  | .other e => (MachinaTbPages.step l.engine e).map fun engine => { l with engine := engine }

end MachinaExecLoop
