import Machina.Bits

/-!
# The intermediate representation

Types, opcodes with their argument counts and flags, temporaries, operations and
the translation context. Arguments and temporaries are indexed by numbers; tables
that grow are total functions together with their length.
-/

namespace MachinaIr

inductive IrType where
  | i32 | i64 | i128 | v64 | v128 | v256
  deriving DecidableEq, Repr

def IrType.sizeBits : IrType → Nat
  | .i32 => 32
  | .i64 => 64
  | .i128 => 128
  | .v64 => 64
  | .v128 => 128
  | .v256 => 256

def IrType.sizeBytes (ty : IrType) : Nat := ty.sizeBits / 8

inductive Opcode where
  | mov | setCond | negSetCond | movCond
  | add | sub | mul | neg | divS | divU | remS | remU | divS2 | divU2
  | mulSH | mulUH | mulS2 | mulU2
  | addCO | addCI | addCio | addC1O | subBO | subBI | subBio | subB1O
  | and | or | xor | not | andC | orC | eqv | nand | nor
  | shl | shr | sar | rotL | rotR
  | extract | sExtract | deposit | extract2
  | bswap16 | bswap32 | bswap64
  | clz | ctz | ctPop
  | brCond2I32 | setCond2I32
  | extI32I64 | extUI32I64 | extrlI64I32 | extrhI64I32
  | ld8U | ld8S | ld16U | ld16S | ld32U | ld32S | ld | st8 | st16 | st32 | st
  | qemuLd | qemuSt | qemuLd2 | qemuSt2
  | br | brCond | setLabel | gotoTb | exitTb | gotoPtr | mb
  | call
  | pluginCb | pluginMemCb
  | nop | discard | insnStart
  | movVec | dupVec | dup2Vec | ldVec | stVec | dupmVec
  | addVec | subVec | mulVec | negVec | absVec | ssaddVec | usaddVec | sssubVec | ussubVec
  | sminVec | uminVec | smaxVec | umaxVec
  | andVec | orVec | xorVec | andcVec | orcVec | nandVec | norVec | eqvVec | notVec
  | shliVec | shriVec | sariVec | rotliVec
  | shlsVec | shrsVec | sarsVec | rotlsVec
  | shlvVec | shrvVec | sarvVec | rotlvVec | rotrvVec
  | cmpVec | bitselVec | cmpselVec
  deriving DecidableEq, Repr

inductive OpFlag where
  | bbExit | bbEnd | callClobber | sideEffects | int | notPresent | vector | condBranch | carryOut | carryIn
  deriving DecidableEq, Repr

structure OpDef where
  nbOargs : Nat
  nbIargs : Nat
  nbCargs : Nat
  flags : List OpFlag
  deriving DecidableEq, Repr

def OpDef.contains (d : OpDef) (flag : OpFlag) : Bool := decide (flag ∈ d.flags)

def Opcode.info : Opcode → OpDef
  | .mov => ⟨1, 1, 0, [.int, .notPresent]⟩
  | .setCond | .negSetCond => ⟨1, 2, 1, [.int]⟩
  | .movCond => ⟨1, 4, 1, [.int]⟩
  | .add | .sub | .mul | .divS | .divU | .remS | .remU | .mulSH | .mulUH | .and | .or | .xor | .andC | .orC
  | .eqv | .nand | .nor | .shl | .shr | .sar | .rotL | .rotR | .clz | .ctz => ⟨1, 2, 0, [.int]⟩
  | .neg | .not | .ctPop => ⟨1, 1, 0, [.int]⟩
  | .divS2 | .divU2 => ⟨2, 3, 0, [.int]⟩
  | .mulS2 | .mulU2 => ⟨2, 2, 0, [.int]⟩
  | .addCO | .addC1O | .subBO | .subB1O => ⟨1, 2, 0, [.int, .carryOut]⟩
  | .addCI | .subBI => ⟨1, 2, 0, [.int, .carryIn]⟩
  | .addCio | .subBio => ⟨1, 2, 0, [.int, .carryIn, .carryOut]⟩
  | .extract | .sExtract => ⟨1, 1, 2, [.int]⟩
  | .deposit => ⟨1, 2, 2, [.int]⟩
  | .extract2 => ⟨1, 2, 1, [.int]⟩
  | .bswap16 | .bswap32 | .bswap64 => ⟨1, 1, 1, [.int]⟩
  | .brCond2I32 => ⟨0, 4, 2, [.bbEnd, .condBranch]⟩
  | .setCond2I32 => ⟨1, 4, 1, []⟩
  | .extI32I64 | .extUI32I64 | .extrlI64I32 | .extrhI64I32 => ⟨1, 1, 0, []⟩
  | .ld8U | .ld8S | .ld16U | .ld16S | .ld32U | .ld32S | .ld => ⟨1, 1, 1, [.int]⟩
  | .st8 | .st16 | .st32 | .st => ⟨0, 2, 1, [.int]⟩
  | .qemuLd => ⟨1, 1, 1, [.callClobber, .sideEffects, .int]⟩
  | .qemuSt => ⟨0, 2, 1, [.callClobber, .sideEffects, .int]⟩
  | .qemuLd2 => ⟨2, 1, 1, [.callClobber, .sideEffects, .int]⟩
  | .qemuSt2 => ⟨0, 3, 1, [.callClobber, .sideEffects, .int]⟩
  | .br => ⟨0, 0, 1, [.bbEnd, .notPresent]⟩
  | .brCond => ⟨0, 2, 2, [.bbEnd, .condBranch, .int]⟩
  | .setLabel => ⟨0, 0, 1, [.bbEnd, .notPresent]⟩
  | .gotoTb | .exitTb => ⟨0, 0, 1, [.bbExit, .bbEnd, .notPresent]⟩
  | .gotoPtr => ⟨0, 1, 0, [.bbExit, .bbEnd]⟩
  | .mb => ⟨0, 0, 1, [.notPresent]⟩
  | .call => ⟨1, 6, 2, [.callClobber, .notPresent]⟩
  | .pluginCb => ⟨0, 0, 1, [.notPresent]⟩
  | .pluginMemCb => ⟨0, 1, 1, [.notPresent]⟩
  | .nop => ⟨0, 0, 0, [.notPresent]⟩
  | .discard => ⟨1, 0, 0, [.notPresent]⟩
  | .insnStart => ⟨0, 0, 2, [.notPresent]⟩
  | .movVec => ⟨1, 1, 0, [.vector, .notPresent]⟩
  | .dupVec | .negVec | .absVec | .notVec => ⟨1, 1, 0, [.vector]⟩
  | .ldVec | .dupmVec | .shliVec | .shriVec | .sariVec | .rotliVec => ⟨1, 1, 1, [.vector]⟩
  | .stVec => ⟨0, 2, 1, [.vector]⟩
  | .cmpVec => ⟨1, 2, 1, [.vector]⟩
  | .bitselVec => ⟨1, 3, 0, [.vector]⟩
  | .cmpselVec => ⟨1, 4, 1, [.vector]⟩
  | .dup2Vec | .addVec | .subVec | .mulVec | .ssaddVec | .usaddVec | .sssubVec | .ussubVec | .sminVec | .uminVec
  | .smaxVec | .umaxVec | .andVec | .orVec | .xorVec | .andcVec | .orcVec | .nandVec | .norVec | .eqvVec
  | .shlsVec | .shrsVec | .sarsVec | .rotlsVec | .shlvVec | .shrvVec | .sarvVec | .rotlvVec | .rotrvVec =>
    ⟨1, 2, 0, [.vector]⟩

inductive Cond where
  | never | always | eq | ne | lt | ge | le | gt | ltu | geu | leu | gtu | tstEq | tstNe
  deriving DecidableEq, Repr

/-- Lifetime and scope of a temporary. -/
inductive TempKind where
  | ebb | tb | global | fixed | const
  deriving DecidableEq, Repr

/-- Location of a temporary's value during register allocation. -/
inductive TempVal where
  | dead | reg | mem | const
  deriving DecidableEq, Repr

abbrev TempIdx := Nat
abbrev Reg := Nat

abbrev RegSet := BitVec 64

namespace RegSet

open MachinaBits

def contains (s : RegSet) (r : Reg) : Bool := has s (bit r)
def set (s : RegSet) (r : Reg) : RegSet := s ||| bit r
def clear (s : RegSet) (r : Reg) : RegSet := s &&& ~~~bit r
def union (s s' : RegSet) : RegSet := s ||| s'
def intersect (s s' : RegSet) : RegSet := s &&& s'
def subtract (s s' : RegSet) : RegSet := s &&& ~~~s'

def first (s : RegSet) : Option Reg := (List.range 64).find? s.contains

end RegSet

/-- A temporary: its properties in the IR and the state of the register allocator. -/
structure Temp where
  ty : IrType
  kind : TempKind
  valType : TempVal
  reg : Option Reg
  memCoherent : Bool
  memAllocated : Bool
  val : BitVec 64
  memBase : Option TempIdx
  memOffset : Int
  deriving DecidableEq, Repr

variable (ty : IrType)

def Temp.newEbb : Temp := ⟨ty, .ebb, .dead, none, false, false, 0#64, none, 0⟩
def Temp.newTb : Temp := { Temp.newEbb ty with kind := .tb }
def Temp.newConst (val : BitVec 64) : Temp := ⟨ty, .const, .const, none, false, false, val, none, 0⟩

def Temp.newGlobal (base : TempIdx) (offset : Int) : Temp :=
  ⟨ty, .global, .mem, none, true, true, 0#64, some base, offset⟩

def Temp.newFixed (reg : Reg) : Temp :=
  ⟨ty, .fixed, .reg, some reg, false, false, 0#64, none, 0⟩

def Temp.isConst (t : Temp) : Bool := decide (t.kind = .const)
def Temp.isFixed (t : Temp) : Bool := decide (t.kind = .fixed)

/-- Whether the temporary has to be saved back to memory at block boundaries. -/
def Temp.isGlobalOrFixed (t : Temp) : Bool := decide (t.kind = .global) || decide (t.kind = .fixed)

/-- Which arguments of an op are dead after it and which have to be synced. -/
structure LifeData where
  dead : Nat → Bool
  sync : Nat → Bool

def LifeData.none : LifeData := ⟨fun _ => false, fun _ => false⟩

/-- One operation. The argument slots hold temporaries first, outputs before inputs, and
then encoded constants. -/
structure Op where
  opc : Opcode
  opType : IrType
  param1 : BitVec 8
  param2 : BitVec 8
  life : LifeData
  outputPref : Nat → RegSet
  args : Nat → TempIdx

/-- An operation with the given leading arguments. -/
def Op.withArgs (opc : Opcode) (opType : IrType) (args : List TempIdx) : Op :=
  ⟨opc, opType, 0#8, 0#8, .none, fun _ => 0#64, fun i => args.getD i 0⟩

def Op.oargs (op : Op) : List TempIdx := (List.range op.opc.info.nbOargs).map op.args

def Op.iargs (op : Op) : List TempIdx :=
  (List.range op.opc.info.nbIargs).map fun i => op.args (op.opc.info.nbOargs + i)

def Op.cargs (op : Op) : List Nat :=
  (List.range op.opc.info.nbCargs).map fun i => op.args (op.opc.info.nbOargs + op.opc.info.nbIargs + i)

/-- The translation context without its operations. -/
structure Context where
  temps : TempIdx → Temp
  nbTemps : Nat
  nbGlobals : Nat
  constTable : IrType → BitVec 64 → Option TempIdx
  frameReg : Option Reg
  frameEnd : Int
  frameAllocEnd : Int

/-- Get or create a constant temporary, one for each type and value. -/
def Context.newConst (ctx : Context) (ty : IrType) (val : BitVec 64) : Context × TempIdx :=
  match ctx.constTable ty val with
  | some existing => (ctx, existing)
  | none =>
    ({ ctx with
       temps := Function.update ctx.temps ctx.nbTemps (.newConst ty val)
       nbTemps := ctx.nbTemps + 1
       constTable := fun ty' val' => if ty' = ty ∧ val' = val then some ctx.nbTemps else ctx.constTable ty' val' },
      ctx.nbTemps)

end MachinaIr
