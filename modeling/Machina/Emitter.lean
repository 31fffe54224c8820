import Machina.Bits
import Machina.ByteReader

/-!
# Emitting x86-64 instructions

The functions that append machine code to the code buffer, each as the bytes it
appends. An opcode is a word whose low byte is the opcode byte and whose upper bits
ask for prefixes and escapes.
-/

namespace MachinaEmitter

open MachinaBits MachinaByteReader

/-! ### Prefix flags and opcodes -/

def pExt : BitVec 32 := 0x100#32
def pExt38 : BitVec 32 := 0x200#32
def pData16 : BitVec 32 := 0x400#32
def pRexw : BitVec 32 := 0x1000#32
def pRexbR : BitVec 32 := 0x2000#32
def pRexbRm : BitVec 32 := 0x4000#32
def pExt3a : BitVec 32 := 0x10000#32
def pSimdf3 : BitVec 32 := 0x20000#32
def pSimdf2 : BitVec 32 := 0x40000#32

def opcArithGvEv : BitVec 32 := 0x03#32
def opcArithEvGv : BitVec 32 := 0x01#32
def opcMovbEvGv : BitVec 32 := 0x88#32
def opcMovlEvGv : BitVec 32 := 0x89#32
def opcMovlGvEv : BitVec 32 := 0x8B#32
def opcMovzbl : BitVec 32 := 0xB6#32 ||| pExt
def opcMovzwl : BitVec 32 := 0xB7#32 ||| pExt
def opcMovsbl : BitVec 32 := 0xBE#32 ||| pExt
def opcMovswl : BitVec 32 := 0xBF#32 ||| pExt
def opcMovslq : BitVec 32 := 0x63#32 ||| pRexw
def opcLea : BitVec 32 := 0x8D#32

inductive ArithOp where
  | add | or | adc | sbb | and | sub | xor | cmp
  deriving DecidableEq, Repr

def ArithOp.code : ArithOp → UInt8
  | .add => 0
  | .or => 1
  | .adc => 2
  | .sbb => 3
  | .and => 4
  | .sub => 5
  | .xor => 6
  | .cmp => 7

/-! ### Registers -/

inductive Reg where
  | rax | rcx | rdx | rbx | rsp | rbp | rsi | rdi | r8 | r9 | r10 | r11 | r12 | r13 | r14 | r15
  deriving DecidableEq, Repr

namespace Reg

def num : Reg → UInt8
  | rax => 0
  | rcx => 1
  | rdx => 2
  | rbx => 3
  | rsp => 4
  | rbp => 5
  | rsi => 6
  | rdi => 7
  | r8 => 8
  | r9 => 9
  | r10 => 10
  | r11 => 11
  | r12 => 12
  | r13 => 13
  | r14 => 14
  | r15 => 15

def low3 (r : Reg) : UInt8 := r.num &&& 0x7

/-- The registers from 8 on need a REX prefix. -/
def needsRex (r : Reg) : Bool := decide (8 ≤ r.num)

end Reg

/-! ### Opcodes, ModRM and memory operands -/

def rexwFlag (rexw : Bool) : BitVec 32 := if rexw then pRexw else 0#32

def emitU8 (val : UInt8) : Bytes := [val]
def emitU32 (val : BitVec 32) : Bytes := leBytes 4 val.toNat

variable (opc : BitVec 32)

/-- The bits of the REX prefix; a bare one is forced to reach the low bytes of RSP, RBP, RSI and RDI. -/
def rexBits (r rm index : UInt8) : UInt8 :=
  let rex : UInt8 := if has opc pRexw then 0x08 else 0
  let rex := if 8 ≤ r then rex ||| 0x04 else rex
  let rex := if 8 ≤ index then rex ||| 0x02 else rex
  let rex := if 8 ≤ rm then rex ||| 0x01 else rex
  let rex := if has opc pRexbR ∧ 4 ≤ r ∧ rex = 0 then 0x40 else rex
  if has opc pRexbRm ∧ 4 ≤ rm ∧ rex = 0 then 0x40 else rex

def emitOpc3 (r rm index : UInt8) : Bytes :=
  let rex := rexBits opc r rm index
  (if has opc pData16 then [0x66] else []) ++
  (if has opc pSimdf3 then [0xF3] else if has opc pSimdf2 then [0xF2] else []) ++
  (if rex ≠ 0 then [0x40 ||| rex] else []) ++
  (if has opc (pExt ||| pExt38 ||| pExt3a) then
    0x0F :: (if has opc pExt38 then [0x38] else if has opc pExt3a then [0x3A] else [])
  else []) ++
  [⟨opc.setWidth 8⟩]

def emitOpc (r rm : UInt8) : Bytes := emitOpc3 opc r rm 0

def emitModrm (r rm : Reg) : Bytes :=
  emitOpc opc r.num rm.num ++ [(0xC0 : UInt8) ||| (r.low3 <<< 3) ||| rm.low3]

def isDisp8 (offset : BitVec 32) : Prop := -128 ≤ offset.toInt ∧ offset.toInt ≤ 127

instance (offset : BitVec 32) : Decidable (isDisp8 offset) := inferInstanceAs (Decidable (_ ∧ _))

/-- Operand `[base + offset]`: RBP and R13 always have a displacement, RSP and R12 a SIB byte. -/
def offsetOperand (r base : Reg) (offset : BitVec 32) : Bytes :=
  let r3 := r.low3
  let b3 := base.low3
  if offset = 0#32 ∧ b3 ≠ 5 then
    if b3 = 4 then [(r3 <<< 3) ||| 0x04, 0x24] else [(r3 <<< 3) ||| b3]
  else if isDisp8 offset then
    (if b3 = 4 then [(0x44 : UInt8) ||| (r3 <<< 3), 0x24] else [(0x40 : UInt8) ||| (r3 <<< 3) ||| b3]) ++
      emitU8 ⟨offset.setWidth 8⟩
  else
    (if b3 = 4 then [(0x84 : UInt8) ||| (r3 <<< 3), 0x24] else [(0x80 : UInt8) ||| (r3 <<< 3) ||| b3]) ++
      emitU32 offset

def emitModrmOffset (r base : Reg) (offset : BitVec 32) : Bytes :=
  emitOpc opc r.num base.num ++ offsetOperand r base offset

/-- Operand `[base + index * 2^shift + offset]`. -/
def sibOperand (r base index : Reg) (shift : UInt8) (offset : BitVec 32) : Bytes :=
  let r3 := r.low3
  let b3 := base.low3
  let x3 := index.low3
  let sib := (shift <<< 6) ||| (x3 <<< 3) ||| b3
  if offset = 0#32 ∧ b3 ≠ 5 then [(r3 <<< 3) ||| 0x04, sib]
  else if isDisp8 offset then [(0x44 : UInt8) ||| (r3 <<< 3), sib] ++ emitU8 ⟨offset.setWidth 8⟩
  else [(0x84 : UInt8) ||| (r3 <<< 3), sib] ++ emitU32 offset

/-- The asserted conditions on shift and index give `none` when they fail. -/
def emitModrmSib (r base index : Reg) (shift : UInt8) (offset : BitVec 32) : Option Bytes :=
  if ¬(shift ≤ 3) then none
  else if index = .rsp then none
  else some (emitOpc3 opc r.num base.num index.num ++ sibOperand r base index shift offset)

/-! ### Instructions -/

def emitMovRr (rexw : Bool) (dst src : Reg) : Bytes := emitModrm (opcMovlEvGv ||| rexwFlag rexw) src dst

def emitMovzx (dst src : Reg) : Bytes := emitModrm opc dst src
def emitMovsx (dst src : Reg) : Bytes := emitModrm opc dst src

end MachinaEmitter
