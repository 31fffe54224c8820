import Machina.X86
import Machina.Regalloc

/-!
# Code for the operations the optimizer folds

The instructions the x86-64 backend emits for arithmetic, logic, shifts, type
conversions and conditional branches, given the registers of the operands. A panic
of the sources is the value `none`; so are the operations that are not modelled here.
-/

namespace MachinaCodegen

open MachinaIr MachinaRegalloc MachinaX86

/-- The registers satisfy the constraints of an opcode. -/
structure Satisfies (ct : OpConstraint) (opc : Opcode) (oregs iregs : List Reg) : Prop where
  outputs : oregs.length = opc.info.nbOargs
  inputs : iregs.length = opc.info.nbIargs
  input : ∀ i reg, iregs[i]? = some reg → (ct (opc.info.nbOargs + i)).regs.contains reg = true
  aliased : ∀ k reg, oregs[k]? = some reg → (ct k).oalias = true → iregs[(ct k).aliasIndex]? = some reg
  output : ∀ k reg, oregs[k]? = some reg → (ct k).oalias = false → (ct k).regs.contains reg = true
  newreg : ∀ k reg, oregs[k]? = some reg → (ct k).newreg = true → reg ∉ iregs
  distinct : oregs.Nodup

/-- The encoding of a condition in a constant argument. -/
def condCode : Cond → Nat
  | .never => 0
  | .always => 1
  | .eq => 8
  | .ne => 9
  | .lt => 10
  | .ge => 11
  | .le => 12
  | .gt => 13
  | .ltu => 14
  | .geu => 15
  | .leu => 16
  | .gtu => 17
  | .tstEq => 18
  | .tstNe => 19

def condFromU32 : Nat → Option Cond
  | 0 => some .never
  | 1 => some .always
  | 8 => some .eq
  | 9 => some .ne
  | 10 => some .lt
  | 11 => some .ge
  | 12 => some .le
  | 13 => some .gt
  | 14 => some .ltu
  | 15 => some .geu
  | 16 => some .leu
  | 17 => some .gtu
  | 18 => some .tstEq
  | 19 => some .tstNe
  | _ => none

theorem condFromU32_condCode (c : Cond) : condFromU32 (condCode c) = some c := by
  cases c <;> rfl

def isTst (c : Cond) : Bool := decide (c = .tstEq) || decide (c = .tstNe)

def isSigned (c : Cond) : Bool := decide (c = .lt) || decide (c = .ge) || decide (c = .le) || decide (c = .gt)

/-- The condition code of a conditional jump; `always` and `never` are not expected here. -/
def fromTcg : Cond → Cc
  | .eq | .tstEq | .always => .e
  | .ne | .tstNe | .never => .ne
  | .lt => .l
  | .ge => .ge
  | .le => .le
  | .gt => .g
  | .ltu => .b
  | .geu => .ae
  | .leu => .be
  | .gtu => .a

def arithOp : Opcode → Option ArithOp
  | .sub => some .sub
  | .and => some .and
  | .or => some .or
  | .xor => some .xor
  | _ => none

def shiftOp : Opcode → Option ShiftOp
  | .shl => some .shl
  | .shr => some .shr
  | .sar => some .sar
  | .rotL => some .rol
  | .rotR => some .ror
  | _ => none

/-- The instructions for one operation. Where the output takes over the register of the first
input, only the output register is named. -/
def tcgOutOp (op : Op) (oregs iregs : List Reg) : Option (List Insn) :=
  let rexw := decide (op.opType = .i64)
  match op.opc, oregs, iregs with
  | .add, [d], [a, b] =>
    some (if d = a then [.arith .add rexw d b] else if d = b then [.arith .add rexw d a] else [.lea rexw d a b])
  | .mul, [d], [_, b] => some [.imul rexw d b]
  | .neg, [d], [_] => some [.neg rexw d]
  | .not, [d], [_] => some [.not rexw d]
  | .andC, [d], [a, b] => some [.andn rexw d b a]
  | .extI32I64, [d], [s] => some [.movslq d s]
  | .extUI32I64, [d], [s] | .extrlI64I32, [d], [s] => some (if d ≠ s then [.mov false d s] else [])
  | .extrhI64I32, [d], [_] => some [.shiftImm .shr true d 32]
  | .brCond, [], [a, b] => do
    let cond ← condFromU32 (op.args 2)
    some [if isTst cond then .test rexw a b else .arith .cmp rexw a b, .jcc (fromTcg cond) (op.args 3)]
  | .sub, [d], [_, b] | .and, [d], [_, b] | .or, [d], [_, b] | .xor, [d], [_, b] => do
    let aop ← arithOp op.opc
    some [.arith aop rexw d b]
  | .shl, [d], [_, _] | .shr, [d], [_, _] | .sar, [d], [_, _] | .rotL, [d], [_, _] | .rotR, [d], [_, _] => do
    let sop ← shiftOp op.opc
    some [.shiftCl sop rexw d]
  | _, _, _ => none

end MachinaCodegen
