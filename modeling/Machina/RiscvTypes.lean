import Machina.Bits

/-!
# RISC-V privilege levels, access kinds and trap causes

The enumerations shared by the CSR file, the PMP unit, the MMU and the trap
logic, with the numeric codes the hardware registers see.
-/

namespace MachinaRiscv

/-- RISC-V privilege level; the source derives its order from the codes 0, 1, 3. -/
inductive PrivLevel where
  | user | supervisor | machine
  deriving DecidableEq, Repr

namespace PrivLevel

def code : PrivLevel → Nat
  | user => 0
  | supervisor => 1
  | machine => 3

instance : LT PrivLevel := ⟨fun a b => a.code < b.code⟩
instance : LE PrivLevel := ⟨fun a b => a.code ≤ b.code⟩
instance (a b : PrivLevel) : Decidable (a < b) := inferInstanceAs (Decidable (a.code < b.code))
instance (a b : PrivLevel) : Decidable (a ≤ b) := inferInstanceAs (Decidable (a.code ≤ b.code))

theorem lt_def (a b : PrivLevel) : a < b ↔ a.code < b.code := Iff.rfl
theorem le_def (a b : PrivLevel) : a ≤ b ↔ a.code ≤ b.code := Iff.rfl

theorem le_machine (a : PrivLevel) : a ≤ machine := by cases a <;> decide

/-- Decode a two-bit previous-privilege field; the reserved code 2 reads as machine. -/
def ofField (field : BitVec 64) : PrivLevel :=
  if field = 0#64 then user else if field = 1#64 then supervisor else machine

end PrivLevel

inductive AccessType where
  | read | write | execute
  deriving DecidableEq, Repr

/-- Synchronous exceptions, listed in the order of their cause codes. -/
inductive Exception where
  | instructionMisaligned | instructionAccessFault | illegalInstruction | breakpoint
  | loadMisaligned | loadAccessFault | storeMisaligned | storeAccessFault
  | ecallFromU | ecallFromS | ecallFromM
  | instructionPageFault | loadPageFault | storePageFault
  deriving DecidableEq, Repr

def Exception.code : Exception → Nat
  | instructionMisaligned => 0
  | instructionAccessFault => 1
  | illegalInstruction => 2
  | breakpoint => 3
  | loadMisaligned => 4
  | loadAccessFault => 5
  | storeMisaligned => 6
  | storeAccessFault => 7
  | ecallFromU => 8
  | ecallFromS => 9
  | ecallFromM => 11
  | instructionPageFault => 12
  | loadPageFault => 13
  | storePageFault => 15

inductive Interrupt where
  | supervisorSoftware | machineSoftware | supervisorTimer | machineTimer
  | supervisorExternal | machineExternal
  deriving DecidableEq, Repr

/-- The discriminant `irq as u64`, which is also its bit position in `mip` and `mie`. -/
def Interrupt.code : Interrupt → Nat
  | supervisorSoftware => 1
  | machineSoftware => 3
  | supervisorTimer => 5
  | machineTimer => 7
  | supervisorExternal => 9
  | machineExternal => 11

/-- Map an access type to its access-fault exception. -/
def accessFault : AccessType → Exception
  | .read => .loadAccessFault
  | .write => .storeAccessFault
  | .execute => .instructionAccessFault

/-- Map an access type to its page-fault exception. -/
def pageFault : AccessType → Exception
  | .read => .loadPageFault
  | .write => .storePageFault
  | .execute => .instructionPageFault

end MachinaRiscv
