import Mathlib

/-!
# A fragment of the x86-64 integer instructions

Sixteen 64-bit registers, four flags and straight-line code that may end in a
conditional jump. Instructions work on 64 bits with the REX.W marker and on 32
bits without it; a 32-bit result clears the upper half of its register. Where the
processor leaves flags undefined the machine has none, and a jump on them is stuck.
-/

namespace MachinaX86

def opSize (rexw : Bool) : Nat := if rexw then 64 else 32

structure Flags where
  zf : Bool
  sf : Bool
  cf : Bool
  of : Bool
  deriving DecidableEq, Repr

/-- Condition codes of the conditional jumps. -/
inductive Cc where
  | b | ae | e | ne | be | a | l | ge | le | g
  deriving DecidableEq, Repr

def Cc.holds (f : Flags) : Cc → Bool
  | .b => f.cf
  | .ae => !f.cf
  | .e => f.zf
  | .ne => !f.zf
  | .be => f.cf || f.zf
  | .a => !(f.cf || f.zf)
  | .l => f.sf != f.of
  | .ge => f.sf == f.of
  | .le => f.zf || f.sf != f.of
  | .g => !f.zf && f.sf == f.of

inductive ArithOp where
  | add | or | and | sub | xor | cmp
  deriving DecidableEq, Repr

inductive ShiftOp where
  | rol | ror | shl | shr | sar
  deriving DecidableEq, Repr

inductive Insn where
  | arith (op : ArithOp) (rexw : Bool) (dst src : Nat)
  | lea (rexw : Bool) (dst base index : Nat)
  | imul (rexw : Bool) (dst src : Nat)
  | neg (rexw : Bool) (reg : Nat)
  | not (rexw : Bool) (reg : Nat)
  | shiftCl (op : ShiftOp) (rexw : Bool) (dst : Nat)
  | shiftImm (op : ShiftOp) (rexw : Bool) (dst imm : Nat)
  | andn (rexw : Bool) (dst src1 src2 : Nat)
  | mov (rexw : Bool) (dst src : Nat)
  | movslq (dst src : Nat)
  | test (rexw : Bool) (src1 src2 : Nat)
  | jcc (cc : Cc) (label : Nat)
  deriving DecidableEq, Repr

def rcx : Nat := 1

structure Cpu where
  regs : Nat → BitVec 64
  flags : Option Flags
  jump : Option Nat

namespace Cpu

variable (cpu : Cpu)

def get (rexw : Bool) (reg : Nat) : BitVec (opSize rexw) := (cpu.regs reg).setWidth _

/-- Write a register; the bits above the operand size become zero. -/
def put {w : Nat} (reg : Nat) (v : BitVec w) : Cpu :=
  { cpu with regs := Function.update cpu.regs reg (v.setWidth 64) }

variable (f : Option Flags)

def setFlags : Cpu := { cpu with flags := f }

@[simp] theorem put_regs_self {w : Nat} (reg : Nat) (v : BitVec w) :
    (cpu.put reg v).regs reg = v.setWidth 64 := Function.update_self ..

@[simp] theorem put_jump {w : Nat} (reg : Nat) (v : BitVec w) : (cpu.put reg v).jump = cpu.jump := rfl
@[simp] theorem setFlags_regs : (cpu.setFlags f).regs = cpu.regs := rfl
@[simp] theorem setFlags_flags : (cpu.setFlags f).flags = f := rfl
@[simp] theorem setFlags_jump : (cpu.setFlags f).jump = cpu.jump := rfl

end Cpu

section Semantics

variable {w : Nat}

def flagsAdd (x y : BitVec w) : Flags :=
  ⟨decide (x + y = 0#w), (x + y).msb, decide (2 ^ w ≤ x.toNat + y.toNat), x.saddOverflow y⟩

def flagsSub (x y : BitVec w) : Flags := ⟨decide (x - y = 0#w), (x - y).msb, x.ult y, x.ssubOverflow y⟩

def flagsLogic (r : BitVec w) : Flags := ⟨decide (r = 0#w), r.msb, false, false⟩

/-- A shift or rotation; the count is masked to five or six bits. -/
def ShiftOp.eval (op : ShiftOp) (x : BitVec w) (count : Nat) : BitVec w :=
  let n := count % w
  match op with
  | .rol => x.rotateLeft n
  | .ror => x.rotateRight n
  | .shl => x <<< n
  | .shr => x >>> n
  | .sar => x.sshiftRight n

def execArith (op : ArithOp) (rexw : Bool) (dst src : Nat) (cpu : Cpu) : Cpu :=
  let x := cpu.get rexw dst
  let y := cpu.get rexw src
  match op with
  | .add => (cpu.put dst (x + y)).setFlags (some (flagsAdd x y))
  | .sub => (cpu.put dst (x - y)).setFlags (some (flagsSub x y))
  | .and => (cpu.put dst (x &&& y)).setFlags (some (flagsLogic (x &&& y)))
  | .or => (cpu.put dst (x ||| y)).setFlags (some (flagsLogic (x ||| y)))
  | .xor => (cpu.put dst (x ^^^ y)).setFlags (some (flagsLogic (x ^^^ y)))
  | .cmp => cpu.setFlags (some (flagsSub x y))

def exec (insn : Insn) (cpu : Cpu) : Option Cpu :=
  match insn with
  | .arith op rexw dst src => some (execArith op rexw dst src cpu)
  | .lea rexw dst base index => some (cpu.put dst (cpu.get rexw base + cpu.get rexw index))
  | .imul rexw dst src => some ((cpu.put dst (cpu.get rexw dst * cpu.get rexw src)).setFlags none)
  | .neg rexw reg => some ((cpu.put reg (-cpu.get rexw reg)).setFlags (some (flagsSub 0 (cpu.get rexw reg))))
  | .not rexw reg => some (cpu.put reg (~~~cpu.get rexw reg))
  | .shiftCl op rexw dst => some ((cpu.put dst (op.eval (cpu.get rexw dst) (cpu.regs rcx).toNat)).setFlags none)
  | .shiftImm op rexw dst imm => some ((cpu.put dst (op.eval (cpu.get rexw dst) imm)).setFlags none)
  | .andn rexw dst src1 src2 =>
    let r := ~~~cpu.get rexw src1 &&& cpu.get rexw src2
    some ((cpu.put dst r).setFlags (some (flagsLogic r)))
  | .mov rexw dst src => some (cpu.put dst (cpu.get rexw src))
  | .movslq dst src => some (cpu.put dst (((cpu.regs src).setWidth 32).signExtend 64))
  | .test rexw src1 src2 => some (cpu.setFlags (some (flagsLogic (cpu.get rexw src1 &&& cpu.get rexw src2))))
  | .jcc cc label => cpu.flags.map fun f => if cc.holds f then { cpu with jump := some label } else cpu

/-- Execute straight-line code up to its end or the first jump taken. -/
def run : List Insn → Cpu → Option Cpu
  | [], cpu => some cpu
  | insn :: rest, cpu => do
    let cpu ← exec insn cpu
    if cpu.jump.isSome then some cpu else run rest cpu

end Semantics

theorem run_single (insn : Insn) (cpu : Cpu) : run [insn] cpu = exec insn cpu := by
  simp [run]

/-- A comparison followed by a conditional jump. -/
theorem run_branch {first : Insn} {cpu : Cpu} {f : Flags} (hj : cpu.jump = none)
    (hfirst : exec first cpu = some (cpu.setFlags (some f))) (cc : Cc) (label : Nat) :
    ∃ cpu', run [first, .jcc cc label] cpu = some cpu' ∧ cpu'.jump = if cc.holds f then some label else none := by
  have hnone : ((cpu.setFlags (some f)).jump).isSome = false := by simp [hj]
  refine ⟨if cc.holds f then { cpu.setFlags (some f) with jump := some label } else cpu.setFlags (some f), ?_, ?_⟩
  · rw [run, hfirst]
    simp only [Option.bind_eq_bind, Option.bind_some, hnone, Bool.false_eq_true, if_false]
    rw [run_single, exec, Cpu.setFlags_flags, Option.map_some]
  · split_ifs
    · rfl
    · exact hj

section Flags

variable {w : Nat}

theorem sub_eq_zero_iff (x y : BitVec w) : x - y = 0#w ↔ x = y := by
  constructor
  · intro h
    have := congrArg (· + y) h
    simpa [BitVec.sub_add_cancel] using this
  · rintro rfl
    simp

/-- A difference of signed numbers wraps around at most once. -/
theorem bmod_lt_zero_iff {d : Int} {m : Nat} (hm : 0 < m) (hlo : -(2 * m) < d) (hhi : d < 2 * m) :
    d.bmod (2 * m) < 0 ↔ (d < 0 ∧ -m ≤ d) ∨ (m : Int) ≤ d := by
  have hcase : d.bmod (2 * m) = if (m : Int) ≤ d then d - 2 * m else if d < -m then d + 2 * m else d := by
    rw [Int.bmod_eq_iff (by omega)]
    split_ifs <;> refine ⟨by omega, by omega, ?_⟩
    · exact ⟨-1, by push_cast; ring⟩
    · exact ⟨1, by push_cast; ring⟩
    · exact ⟨0, by ring⟩
  rw [hcase]
  split_ifs <;> omega

/-- The sign of a difference differs from the overflow exactly when the first operand is the smaller one. -/
theorem sign_ne_overflow (x y : BitVec w) : ((x - y).msb != x.ssubOverflow y) = x.slt y := by
  rcases Nat.eq_zero_or_pos w with rfl | hw
  · rw [Subsingleton.elim x y]
    simp [BitVec.ssubOverflow, BitVec.slt]
  have hx := BitVec.toInt_lt (x := x)
  have hx' := BitVec.le_toInt x
  have hy := BitVec.toInt_lt (x := y)
  have hy' := BitVec.le_toInt y
  have hpow : 2 ^ w = 2 * 2 ^ (w - 1) := by rw [← pow_succ', Nat.sub_add_cancel hw]
  have hpos : 0 < 2 ^ (w - 1) := Nat.two_pow_pos _
  rw [BitVec.msb_eq_toInt, BitVec.toInt_sub, hpow]
  generalize hm : 2 ^ (w - 1) = m at *
  have hmi : (2 : Int) ^ (w - 1) = m := by rw [← hm]; push_cast; rfl
  rw [hmi] at hx hx' hy hy'
  have hiff := bmod_lt_zero_iff (d := x.toInt - y.toInt) hpos (by omega) (by omega)
  have hsign : decide ((x.toInt - y.toInt).bmod (2 * m) < 0) =
      (decide (x.toInt < y.toInt) != (decide (x.toInt - y.toInt ≥ m) || decide (x.toInt - y.toInt < -m))) := by
    rw [Bool.eq_iff_iff, decide_eq_true_iff, hiff]
    by_cases h1 : x.toInt < y.toInt <;> by_cases h2 : x.toInt - y.toInt ≥ m <;>
      by_cases h3 : x.toInt - y.toInt < -m <;> simp [h1, h2, h3] <;> omega
  rw [hsign, BitVec.ssubOverflow, BitVec.slt, hmi]
  cases decide (x.toInt < y.toInt) <;> cases _ || _ <;> rfl

/-- What a condition code says about two compared words. -/
def Cc.compares (x y : BitVec w) : Cc → Bool
  | .b => x.ult y
  | .ae => y.ule x
  | .e => decide (x = y)
  | .ne => decide (x ≠ y)
  | .be => x.ule y
  | .a => y.ult x
  | .l => x.slt y
  | .ge => y.sle x
  | .le => x.sle y
  | .g => y.slt x

theorem holds_flagsSub (cc : Cc) (x y : BitVec w) : cc.holds (flagsSub x y) = cc.compares x y := by
  have hsign := sign_ne_overflow x y
  have hge : ((x - y).msb == x.ssubOverflow y) = !x.slt y := by rw [← hsign, bne, Bool.not_not]
  have heq : decide (x - y = 0#w) = decide (x = y) := by rw [decide_eq_decide]; exact sub_eq_zero_iff x y
  have hint : x = y ↔ x.toInt = y.toInt := BitVec.toInt_inj.symm
  have hnat : x = y ↔ x.toNat = y.toNat := BitVec.toNat_inj.symm
  cases cc with
  | b => rfl
  | l => exact hsign
  | e => exact heq
  | ne =>
    simp [Cc.holds, Cc.compares, flagsSub, heq]
  | ae =>
    simp only [Cc.holds, Cc.compares, flagsSub, BitVec.ult, BitVec.ule]
    rw [← decide_not, decide_eq_decide]
    omega
  | be =>
    simp only [Cc.holds, Cc.compares, flagsSub, heq, BitVec.ult, BitVec.ule, hnat]
    rw [← Bool.decide_or, decide_eq_decide]
    omega
  | a =>
    simp only [Cc.holds, Cc.compares, flagsSub, heq, BitVec.ult, hnat]
    rw [← Bool.decide_or, ← decide_not, decide_eq_decide]
    omega
  | ge =>
    simp only [Cc.holds, Cc.compares, flagsSub, hge, BitVec.slt, BitVec.sle]
    rw [← decide_not, decide_eq_decide]
    omega
  | le =>
    simp only [Cc.holds, Cc.compares, flagsSub, hsign, heq, BitVec.slt, BitVec.sle, hint]
    rw [← Bool.decide_or, decide_eq_decide]
    omega
  | g =>
    simp only [Cc.holds, Cc.compares, flagsSub, hge, heq, BitVec.slt, hint]
    rw [← decide_not, ← decide_not, ← Bool.decide_and, decide_eq_decide]
    omega

end Flags

end MachinaX86
