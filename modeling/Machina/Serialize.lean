import Machina.ByteReader
import Machina.Ir
import Machina.Runs

/-!
# The binary form of the intermediate representation

A context as the builder makes it, the bytes it is written to, and the reader that
makes contexts from bytes. The reader counts the turns of its loops and the labels it
creates.
-/

namespace MachinaSerialize

open MachinaIr MachinaByteReader MachinaByteReader.Reader MachinaRuns

/-- A temporary, with its name. Offsets are the bits of an `i64`. -/
@[ext] structure Temp where
  idx : BitVec 32
  ty : IrType
  baseType : IrType
  kind : TempKind
  valType : TempVal
  reg : Option (BitVec 8)
  memCoherent : Bool
  memAllocated : Bool
  val : BitVec 64
  memBase : Option (BitVec 32)
  memOffset : BitVec 64
  name : Option String
  deriving DecidableEq

section

variable (idx : BitVec 32) (ty : IrType)

def Temp.newEbb : Temp :=
  ⟨idx, ty, ty, .ebb, .dead, none, false, false, 0#64, none, 0#64, none⟩

def Temp.newTb : Temp := { Temp.newEbb idx ty with kind := .tb }

def Temp.newConst (val : BitVec 64) : Temp :=
  ⟨idx, ty, ty, .const, .const, none, false, false, val, none, 0#64, none⟩

def Temp.newGlobal (base : BitVec 32) (offset : BitVec 64) (name : String) : Temp :=
  ⟨idx, ty, ty, .global, .mem, none, true, true, 0#64, some base, offset, some name⟩

def Temp.newFixed (reg : BitVec 8) (name : String) : Temp :=
  ⟨idx, ty, ty, .fixed, .reg, some reg, false, false, 0#64, none, 0#64, some name⟩

def maxOpArgs : Nat := 10

end

/-- An operation. Its arguments are an array of ten, which is zero where nothing was put. -/
@[ext] structure Op where
  idx : BitVec 32
  opc : Opcode
  opType : IrType
  param1 : BitVec 8
  param2 : BitVec 8
  life : BitVec 32
  outputPref : RegSet × RegSet
  args : Nat → BitVec 32
  nargs : BitVec 8

def Op.new (idx : BitVec 32) (opc : Opcode) (opType : IrType) : Op :=
  ⟨idx, opc, opType, 0#8, 0#8, 0#32, (0#64, 0#64), fun _ => 0#32, 0#8⟩

def Op.withArgs (idx : BitVec 32) (opc : Opcode) (opType : IrType) (args : List (BitVec 32)) : Op :=
  { Op.new idx opc opType with
    args := fun k => (args.take maxOpArgs).getD k 0#32
    nargs := BitVec.ofNat 8 (min args.length maxOpArgs) }

/-- A label that no branch refers to yet. -/
structure Label where
  id : BitVec 32
  deriving DecidableEq

structure Context where
  temps : List Temp
  ops : List Op
  labels : List Label
  nbGlobals : BitVec 32
  constTable : IrType → BitVec 64 → Option (BitVec 32)

namespace Context

def new : Context := ⟨[], [], [], 0#32, fun _ _ => none⟩

/-- A context from parts that were read. -/
def fromRawParts (temps : List Temp) (ops : List Op) (labels : List Label) (nbGlobals : BitVec 32) : Context :=
  ⟨temps, ops, labels, nbGlobals, fun _ _ => none⟩

/-- A global or fixed temporary as the next translation finds it. -/
def resetTemp (t : Temp) : Temp :=
  match t.kind with
  | .fixed => { t with memCoherent := false }
  | .global => { t with valType := .mem, reg := none, memCoherent := true }
  | _ => t

variable (ctx : Context)

def reset : Context :=
  { ctx with
    temps := (ctx.temps.take ctx.nbGlobals.toNat).map resetTemp, ops := [], labels := []
    constTable := fun _ _ => none }

def nextTemp : BitVec 32 := BitVec.ofNat 32 ctx.temps.length

def push (t : Temp) : Context := { ctx with temps := ctx.temps ++ [t] }

/-- Get or create a constant, one for each type and value. -/
def newConst (ctx : Context) (ty : IrType) (val : BitVec 64) : Context :=
  match ctx.constTable ty val with
  | some _ => ctx
  | none =>
    { ctx.push (.newConst ctx.nextTemp ty val) with
      constTable := fun ty' val' => if ty' = ty ∧ val' = val then some ctx.nextTemp else ctx.constTable ty' val' }

/-- Globals and fixed temporaries are registered before all others. -/
def register (t : Temp) : Option Context :=
  if ctx.nextTemp = ctx.nbGlobals then some { ctx.push t with nbGlobals := ctx.nbGlobals + 1#32 } else none

def newLabel : Context :=
  { ctx with labels := ctx.labels ++ [⟨BitVec.ofNat 32 ctx.labels.length⟩] }

/-- Emit an operation with its arguments; temporaries, label ids and immediates are all numbers here. -/
def emitOp (opc : Opcode) (ty : IrType) (args : List (BitVec 32)) : Context :=
  { ctx with ops := ctx.ops ++ [.withArgs (BitVec.ofNat 32 ctx.ops.length) opc ty args] }

end Context

/-- What the builder can be asked to do. -/
inductive Build where
  | newTemp (ty : IrType)
  | newTempTb (ty : IrType)
  | newConst (ty : IrType) (val : BitVec 64)
  | newGlobal (ty : IrType) (base : BitVec 32) (offset : BitVec 64) (name : String)
  | newFixed (ty : IrType) (reg : BitVec 8) (name : String)
  | newLabel
  | emit (opc : Opcode) (ty : IrType) (args : List (BitVec 32))
  | reset

def Context.build (ctx : Context) : Build → Option Context
  | .newTemp ty => some (ctx.push (.newEbb ctx.nextTemp ty))
  | .newTempTb ty => some (ctx.push (.newTb ctx.nextTemp ty))
  | .newConst ty val => some (ctx.newConst ty val)
  | .newGlobal ty base offset name => ctx.register (.newGlobal ctx.nextTemp ty base offset name)
  | .newFixed ty reg name => ctx.register (.newFixed ctx.nextTemp ty reg name)
  | .newLabel => some ctx.newLabel
  | .emit opc ty args => some (ctx.emitOp opc ty args)
  | .reset => some ctx.reset

/-- The context comes out of a run of the builder. -/
def Built (ctx : Context) : Prop := ∃ bs, Run (ofOption Context.build) Context.new bs ctx

section Write

def magic : Bytes := [0x54, 0x43, 0x49, 0x52]

def version : Nat := 1

/-- No name, no register or no base. -/
def noIndex : BitVec 32 := 0xFFFFFFFF#32

def kindByte : TempKind → Nat
  | .ebb => 0
  | .tb => 1
  | .global => 2
  | .fixed => 3
  | .const => 4

def typeByte : IrType → Nat
  | .i32 => 0
  | .i64 => 1
  | .i128 => 2
  | .v64 => 3
  | .v128 => 4
  | .v256 => 5

def nameBytes (s : String) : Bytes := s.toUTF8.data.toList

structure StringTable where
  strings : List String
  map : String → Option (BitVec 32)

def StringTable.new : StringTable := ⟨[], fun _ => none⟩

def StringTable.intern (tab : StringTable) (s : String) : BitVec 32 × StringTable :=
  match tab.map s with
  | some idx => (idx, tab)
  | none =>
    let idx := BitVec.ofNat 32 tab.strings.length
    (idx, ⟨tab.strings ++ [s], fun s' => if s' = s then some idx else tab.map s'⟩)

/-- The length field has 16 bits, whatever the length. -/
def writeName (s : String) : Bytes := leBytes 2 (nameBytes s).length ++ nameBytes s

def StringTable.writeTo (tab : StringTable) : Bytes := leBytes 4 tab.strings.length ++ tab.strings.flatMap writeName

/-- The name indices of the temporaries, with the table they refer to. -/
def internNames : List Temp → StringTable → List (BitVec 32) × StringTable
  | [], tab => ([], tab)
  | t :: ts, tab =>
    match t.name with
    | none =>
      let (rest, tab') := internNames ts tab
      (noIndex :: rest, tab')
    | some name =>
      let (idx, tab') := tab.intern name
      let (rest, tab'') := internNames ts tab'
      (idx :: rest, tab'')

def writeTemp (t : Temp) (nameIdx : BitVec 32) : Bytes :=
  leBytes 1 (kindByte t.kind) ++ leBytes 1 (typeByte t.ty) ++ leBytes 1 (typeByte t.baseType) ++
    leBytes 1 (t.reg.getD 0xFF#8).toNat ++ leBytes 8 t.val.toNat ++ leBytes 4 (t.memBase.getD noIndex).toNat ++
    leBytes 8 t.memOffset.toNat ++ leBytes 4 nameIdx.toNat

def writeOp (op : Op) : Bytes :=
  leBytes 1 op.opc.ctorIdx ++ leBytes 1 (typeByte op.opType) ++ leBytes 1 op.param1.toNat ++
    leBytes 1 op.param2.toNat ++ leBytes 1 op.nargs.toNat ++ leBytes 3 0 ++
    ((List.range op.nargs.toNat).map op.args).flatMap fun a => leBytes 4 a.toNat

/-- Serialize a single context. An operation that claims more arguments than the array has makes it panic. -/
def serialize (ctx : Context) : Option Bytes :=
  let (nameIndices, strtab) := internNames ctx.temps .new
  if ∀ op ∈ ctx.ops, op.nargs.toNat ≤ maxOpArgs then
    some (magic ++ leBytes 2 version ++ leBytes 2 0 ++ leBytes 4 ctx.nbGlobals.toNat ++ leBytes 4 ctx.labels.length ++
      leBytes 4 1 ++ strtab.writeTo ++
      leBytes 4 ctx.temps.length ++ (ctx.temps.zip nameIndices).flatMap (fun p => writeTemp p.1 p.2) ++
      leBytes 4 ctx.ops.length ++ ctx.ops.flatMap writeOp)
  else none

end Write

section Read

/-- How reading ends without a value. -/
inductive Stop where
  | unexpectedEof
  | invalidData (msg : String)
  | panic
  deriving DecidableEq

/-- The reader counts loop turns and new labels. -/
abbrev Rd := Reader (Nat × Nat) Stop

def turn : Rd Unit := count (1, 0)

def word (n w : Nat) : Rd (BitVec w) := do
  let v ← number .unexpectedEof n
  pure (BitVec.ofNat w v)

def readU8 : Rd (BitVec 8) := word 1 8
def readU16 : Rd (BitVec 16) := word 2 16
def readU32 : Rd (BitVec 32) := word 4 32
def readU64 : Rd (BitVec 64) := word 8 64
def readI64 : Rd (BitVec 64) := word 8 64

def u8ToKind (v : BitVec 8) : Rd TempKind :=
  match v.toNat with
  | 0 => pure .ebb
  | 1 => pure .tb
  | 2 => pure .global
  | 3 => pure .fixed
  | 4 => pure .const
  | _ => fail (.invalidData "invalid TempKind")

def u8ToType (v : BitVec 8) : Rd IrType :=
  match v.toNat with
  | 0 => pure .i32
  | 1 => pure .i64
  | 2 => pure .i128
  | 3 => pure .v64
  | 4 => pure .v128
  | 5 => pure .v256
  | _ => fail (.invalidData "invalid Type")

def opcodeCount : Nat := 128

def u8ToOpcode (v : BitVec 8) : Rd Opcode :=
  if v.toNat < opcodeCount then pure (Opcode.ofNat v.toNat) else fail (.invalidData "invalid Opcode")

/-- As many values as a count before them says. -/
def counted {α : Type} (r : Nat → Rd α) : Rd (List α) := do
  let count ← readU32
  times r count.toNat 0

/-- A byte that stands for a kind, a type or an opcode. -/
def readKind : Rd TempKind := readU8 >>= u8ToKind
def readType : Rd IrType := readU8 >>= u8ToType
def readOpcode : Rd Opcode := readU8 >>= u8ToOpcode

def readName (_ : Nat) : Rd String := do
  turn
  let len ← readU16
  let buf ← exact .unexpectedEof len.toNat
  match String.fromUTF8? ⟨buf.toArray⟩ with
  | some s => pure s
  | none => fail (.invalidData "invalid UTF-8")

def readStringTable : Rd (List String) := counted readName

/-- The name with an index. An index outside the table makes the reader panic. -/
def lookupName (strtab : List String) (nameIdx : BitVec 32) : Rd (Option String) :=
  if nameIdx = noIndex then pure none
  else
    match strtab[nameIdx.toNat]? with
    | some name => pure (some name)
    | none => fail .panic

/-- Where the value of a temporary is before register allocation. -/
def initialVal : TempKind → TempVal
  | .const => .const
  | .fixed => .reg
  | .global => .mem
  | _ => .dead

def readTemp (strtab : List String) (i : Nat) : Rd Temp := do
  turn
  let kind ← readKind
  let ty ← readType
  let baseType ← readType
  let regByte ← readU8
  let val ← readU64
  let memBaseRaw ← readU32
  let memOffset ← readI64
  let nameIdx ← readU32
  let name ← lookupName strtab nameIdx
  pure
    { idx := BitVec.ofNat 32 i, ty := ty, baseType := baseType, kind := kind, valType := initialVal kind
      reg := if regByte = 0xFF#8 then none else some regByte
      memCoherent := decide (kind = .global), memAllocated := decide (kind = .global), val := val
      memBase := if memBaseRaw = noIndex then none else some memBaseRaw
      memOffset := memOffset, name := name }

def readArg (_ : Nat) : Rd (BitVec 32) := do
  turn
  readU32

def readOp (i : Nat) : Rd Op := do
  turn
  let opc ← readOpcode
  let opType ← readType
  let param1 ← readU8
  let param2 ← readU8
  let nargs ← readU8
  let _pad ← exact .unexpectedEof 3
  -- Only as many slots as the array has are filled, but the count is kept.
  let args ← times readArg (min nargs.toNat maxOpArgs) 0
  pure
    { Op.new (BitVec.ofNat 32 i) opc opType with
      param1 := param1, param2 := param2, nargs := nargs, args := fun k => args.getD k 0#32 }

/-- Create labels until there is one with the id. -/
def growLabels (id : BitVec 32) (labels : List Label) : Rd (List Label) := do
  let missing := id.toNat + 1 - labels.length
  count (0, missing)
  pure (labels ++ (List.range' labels.length missing).map fun k => ⟨BitVec.ofNat 32 k⟩)

def labelPos (opc : Opcode) : Nat := opc.info.nbOargs + opc.info.nbIargs + opc.info.nbCargs - 1

/-- The label an operation names, if it is one of those the reader looks at. -/
def namedLabel (op : Op) : Option (BitVec 32) :=
  if op.opc = .setLabel then some (op.args 0)
  else if op.opc = .br ∨ op.opc = .brCond then some (op.args (labelPos op.opc))
  else none

def growFor (op : Op) (labels : List Label) : Rd (List Label) :=
  match namedLabel op with
  | some id => growLabels id labels
  | none => pure labels

/-- Labels are made afresh from the operations; their number in the header is not looked at. -/
def buildLabels : List Op → List Label → Rd (List Label)
  | [], labels => pure labels
  | op :: ops, labels => do
    turn
    let labels ← growFor op labels
    buildLabels ops labels

def deserializeOneTb (nbGlobals : BitVec 32) : Rd Context := do
  let strtab ← readStringTable
  let temps ← counted (readTemp strtab)
  let ops ← counted readOp
  let labels ← buildLabels ops []
  pure (.fromRawParts temps ops labels nbGlobals)

def readTb (nbGlobals : BitVec 32) (_ : Nat) : Rd Context := do
  turn
  deserializeOneTb nbGlobals

structure Header where
  flags : BitVec 16
  nbGlobals : BitVec 32
  nbLabels : BitVec 32
  tbCount : BitVec 32

def readHeader : Rd Header := do
  let m ← exact .unexpectedEof 4
  if m ≠ magic then fail (.invalidData "bad magic")
  else do
    let v ← readU16
    if v ≠ BitVec.ofNat 16 version then fail (.invalidData "unsupported version")
    else do
      let flags ← readU16
      let nbGlobals ← readU32
      let nbLabels ← readU32
      let tbCount ← readU32
      pure ⟨flags, nbGlobals, nbLabels, tbCount⟩

/-- Files one after the other. Fewer bytes than a magic number are the end. -/
def deserializeFrom : Nat → Rd (List Context)
  | 0 => fail .panic
  | fuel + 1 => do
    turn
    ifShort 4 (pure []) do
      let h ← readHeader
      let contexts ← times (readTb h.nbGlobals) h.tbCount.toNat 0
      let rest ← deserializeFrom fuel
      pure (contexts ++ rest)

/-- Every file takes bytes, so there is fuel enough. -/
def deserialize (b : Bytes) : (Nat × Nat) × Except Stop (List Context × Bytes) := deserializeFrom (b.length + 1) b

end Read

end MachinaSerialize
