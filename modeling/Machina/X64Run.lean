import Machina.ByteMem
import Machina.X64Decode

/-!
# Executing x86-64 machine code

Code is a string of bytes that is decoded as it is executed. Jumps are relative, so
that the bytes from the next instruction on say where control is; code is left at its
end or by a jump to a place outside the bytes that are left. Calls are an effect on
the state given from outside.
-/

namespace MachinaX64Run

open MachinaByteReader (Bytes)
open MachinaByteMem (Mem)
open MachinaX86 (Flags ArithOp flagsAdd flagsSub flagsLogic)
open MachinaX64Decode

structure Cpu where
  regs : Gpr → BitVec 64
  flags : Option Flags
  mem : Mem

namespace Cpu

variable (cpu : Cpu)

def setFlags (f : Option Flags) : Cpu := { cpu with flags := f }

def setReg (r : Gpr) (v : BitVec 64) : Cpu := { cpu with regs := Function.update cpu.regs r v }

/-- Write the low `n` bytes of a word to memory. -/
def store (a : BitVec 64) (n : Nat) (v : BitVec 64) : Cpu := { cpu with mem := MachinaByteMem.write cpu.mem a n v }

def get (w : Width) : Place → BitVec w.bits
  | .low r => (cpu.regs r).setWidth w.bits
  | .high r => (cpu.regs r >>> 8).setWidth w.bits
  | .mem a => (MachinaByteMem.read cpu.mem (a.value cpu.regs) (w.bits / 8)).setWidth w.bits

/-- A register after a write of its low part: 32 bits clear the upper half, 8 and 16 bits keep the rest. -/
def merge (w : Width) (old : BitVec 64) (v : BitVec w.bits) : BitVec 64 :=
  match w with
  | .byte | .word => (old >>> w.bits <<< w.bits) ||| v.setWidth 64
  | .long | .quad => v.setWidth 64

def put (w : Width) (p : Place) (v : BitVec w.bits) : Cpu :=
  match p with
  | .low r => cpu.setReg r (merge w (cpu.regs r) v)
  | .high r => cpu.setReg r ((cpu.regs r &&& ~~~(0xFF#64 <<< 8)) ||| (v.setWidth 8).setWidth 64 <<< 8)
  | .mem a => cpu.store (a.value cpu.regs) (w.bits / 8) (v.setWidth 64)

end Cpu

inductive Flow where
  | next
  | jump (disp : Int)
  deriving DecidableEq, Repr

/-- The result of an arithmetic instruction; a comparison has none. -/
def arithValue {n : Nat} : ArithOp → BitVec n → BitVec n → Option (BitVec n)
  | .add, x, y => some (x + y)
  | .sub, x, y => some (x - y)
  | .and, x, y => some (x &&& y)
  | .or, x, y => some (x ||| y)
  | .xor, x, y => some (x ^^^ y)
  | .cmp, _, _ => none

def arithFlags {n : Nat} : ArithOp → BitVec n → BitVec n → Flags
  | .add, x, y => flagsAdd x y
  | .sub, x, y => flagsSub x y
  | .and, x, y => flagsLogic (x &&& y)
  | .or, x, y => flagsLogic (x ||| y)
  | .xor, x, y => flagsLogic (x ^^^ y)
  | .cmp, x, y => flagsSub x y

def execArith (op : ArithOp) (w : Width) (dst : Place) (y : BitVec w.bits) (cpu : Cpu) : Cpu :=
  let x := cpu.get w dst
  (match arithValue op x y with
    | some v => cpu.put w dst v
    | none => cpu).setFlags (some (arithFlags op x y))

/-- Execute one instruction; `call` is what a called function does up to its return, if it returns. -/
def exec (call : BitVec 64 → Cpu → Option Cpu) (insn : Insn) (cpu : Cpu) : Option (Cpu × Flow) :=
  match insn with
  | .mov w dst src => some (cpu.put w dst (cpu.get w src), .next)
  | .movImm w dst imm => some (cpu.put w dst (imm.setWidth w.bits), .next)
  | .extend signed w narrow dst src =>
    let v := cpu.get narrow src
    some (cpu.put w (.low dst) (if signed then v.signExtend w.bits else v.setWidth w.bits), .next)
  | .arith op w dst src => some (execArith op w dst (cpu.get w src) cpu, .next)
  | .arithImm op w dst imm => some (execArith op w dst (imm.setWidth w.bits) cpu, .next)
  | .shiftImm op w dst count => some ((cpu.put w dst (op.eval (cpu.get w dst) count)).setFlags none, .next)
  | .imulImm w dst src imm =>
    some ((cpu.put w (.low dst) (cpu.get w src * imm.setWidth w.bits)).setFlags none, .next)
  | .jcc cc disp => cpu.flags.map fun f => (cpu, if cc.holds f then .jump disp.toInt else .next)
  | .jmp disp => some (cpu, .jump disp.toInt)
  | .call target => (call (cpu.get .quad target) cpu).map (·, .next)

/-- How a piece of code is left: at its end, or by a jump that ends so far behind it. -/
inductive Outcome where
  | fell (cpu : Cpu)
  | left (cpu : Cpu) (beyond : Int)

/-- Execute at most `fuel` instructions. -/
def runFor (call : BitVec 64 → Cpu → Option Cpu) : Nat → Bytes → Cpu → Option Outcome
  | _, [], cpu => some (.fell cpu)
  | 0, _ :: _, _ => none
  | fuel + 1, b :: bytes, cpu =>
    match decode (b :: bytes) with
    | none => none
    | some (insn, rest) =>
      match exec call insn cpu with
      | none => none
      | some (cpu, .next) => runFor call fuel rest cpu
      | some (cpu, .jump disp) =>
        if 0 ≤ disp ∧ disp ≤ rest.length then runFor call fuel (rest.drop disp.toNat) cpu
        else some (.left cpu (disp - rest.length))

/-- Execute code to where it is left. -/
def run (call : BitVec 64 → Cpu → Option Cpu) (bytes : Bytes) (cpu : Cpu) : Option Outcome :=
  runFor call bytes.length bytes cpu

section

variable {call : BitVec 64 → Cpu → Option Cpu} {bytes rest : Bytes} {insn : Insn} {cpu cpu' : Cpu}

/-- An instruction has a byte at least, so that more fuel than bytes changes nothing. -/
theorem runFor_eq_run (fuel : Nat) (hfuel : bytes.length ≤ fuel) :
    runFor call fuel bytes cpu = run call bytes cpu := by
  induction fuel using Nat.strong_induction_on generalizing bytes cpu with
  | _ fuel ih =>
    cases bytes with
    | nil => rw [run, runFor, runFor]
    | cons b bytes =>
      obtain ⟨fuel, rfl⟩ : ∃ k, fuel = k + 1 := ⟨fuel - 1, by simp at hfuel; omega⟩
      rw [run, List.length_cons, runFor, runFor]
      cases hdec : decode (b :: bytes) with
      | none => rfl
      | some p =>
        obtain ⟨insn, rest⟩ := p
        have hrest := decode_length hdec
        simp only [List.length_cons] at hrest hfuel
        have hsame (code : Bytes) (cpu : Cpu) (hcode : code.length ≤ rest.length) :
            runFor call fuel code cpu = runFor call bytes.length code cpu := by
          rw [ih fuel (by omega) (by omega), ih bytes.length (by omega) (by omega)]
        dsimp only
        cases exec call insn cpu with
        | none => rfl
        | some q =>
          obtain ⟨cpu', flow⟩ := q
          cases flow with
          | next => exact hsame rest cpu' le_rfl
          | jump disp =>
            dsimp only
            rw [hsame (rest.drop disp.toNat) cpu' (by simp)]

@[simp] theorem run_nil : run call [] cpu = some (.fell cpu) := by
  rw [run, runFor]

theorem run_next (hdec : decode bytes = some (insn, rest)) (hexec : exec call insn cpu = some (cpu', .next)) :
    run call bytes cpu = run call rest cpu' := by
  have hlen := decode_length hdec
  cases bytes with
  | nil => simp at hlen
  | cons b bytes =>
    rw [run, List.length_cons, runFor, hdec]
    simp only [hexec]
    exact runFor_eq_run _ (by simpa using Nat.le_of_lt_succ hlen)

theorem run_single (hdec : decode bytes = some (insn, [])) (hexec : exec call insn cpu = some (cpu', .next)) :
    run call bytes cpu = some (.fell cpu') := by
  rw [run_next hdec hexec, run_nil]

end

end MachinaX64Run
