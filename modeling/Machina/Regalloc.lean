import Machina.Ir

/-!
# The register allocator

A greedy allocator that walks the operations once and emits host code. Its state
is the location of each temporary, the owner of each register, the free registers
and the code so far. Constraints say which registers an argument may use and which
output takes over the register of which input. A panic of the sources is the value
`none`. Here are the parts that choose the registers of an operation and of a call;
freeing what is dead, syncing globals and the walk over the operations are left out.
-/

namespace MachinaRegalloc

open MachinaBits MachinaIr

/-- The registers that may be allocated: all but RSP, RBP and R14. -/
def allocatableRegs : RegSet := 0xBFCF#64

structure ArgConstraint where
  regs : RegSet
  oalias : Bool
  ialias : Bool
  aliasIndex : Nat
  newreg : Bool
  deriving DecidableEq, Repr

def ArgConstraint.unused : ArgConstraint := ⟨0#64, false, false, 0, false⟩

/-- The constraints of the arguments of an opcode. -/
abbrev OpConstraint := Nat → ArgConstraint

/-- A host operation emitted to bring words into registers or back to memory. -/
inductive HostOp where
  | mov (ty : IrType) (dst src : Reg)
  | movi (ty : IrType) (dst : Reg) (val : BitVec 64)
  | ld (ty : IrType) (dst base : Reg) (offset : Int)
  | st (ty : IrType) (src base : Reg) (offset : Int)

/-- The state of the allocator, with the code emitted so far. -/
structure Alloc where
  ctx : Context
  regToTemp : Reg → Option TempIdx
  freeRegs : RegSet
  allocatable : RegSet
  code : List HostOp

namespace Alloc

variable (st : Alloc)

def temp (t : TempIdx) : Temp := st.ctx.temps t

def setTemp (t : TempIdx) (temp : Temp) : Alloc :=
  { st with ctx := { st.ctx with temps := Function.update st.ctx.temps t temp } }

def emit (h : HostOp) : Alloc := { st with code := st.code ++ [h] }

def freeReg (reg : Reg) : Alloc :=
  { st with
    regToTemp := Function.update st.regToTemp reg none
    freeRegs := if st.allocatable.contains reg then st.freeRegs.set reg else st.freeRegs }

def assign (reg : Reg) (t : TempIdx) : Alloc :=
  { st with regToTemp := Function.update st.regToTemp reg (some t), freeRegs := st.freeRegs.clear reg }

end Alloc

def toMem (t : Temp) : Temp := { t with valType := .mem, reg := none, memCoherent := true }

def toDead (t : Temp) : Temp := { t with valType := .dead, reg := none }

def inReg (t : Temp) (reg : Reg) : Temp := { t with valType := .reg, reg := some reg }

/-- A stack slot for a local that needs spilling. -/
def allocTempFrame (ctx : Context) (t : TempIdx) : Option (Context × Int) :=
  let temp := ctx.temps t
  if temp.memAllocated then some (ctx, temp.memOffset)
  else
    let size : Int := temp.ty.sizeBytes
    let offset := (ctx.frameAllocEnd + size - 1) / size * size
    if offset + size ≤ ctx.frameEnd then
      some ({ ctx with
        frameAllocEnd := offset + size
        temps := Function.update ctx.temps t { temp with memAllocated := true, memOffset := offset } }, offset)
    else none

section

variable (st : Alloc)

/-- Store a temporary back to memory. -/
def tempSync (t : TempIdx) : Option Alloc :=
  let temp := st.temp t
  if temp.memCoherent then some st
  else
    match temp.reg, temp.memBase with
    | none, _ => some st
    | some reg, some base => do
      let baseReg ← (st.temp base).reg
      some (st.emit (.st temp.ty reg baseReg temp.memOffset))
    | some reg, none =>
      if temp.memAllocated then do
        let frameReg ← st.ctx.frameReg
        some (st.emit (.st temp.ty reg frameReg temp.memOffset))
      else some st

/-- Evict the occupant of a register: globals are synced, locals are spilled. -/
def evictReg (reg : Reg) : Option Alloc :=
  match st.regToTemp reg with
  | none => some st
  | some t =>
    if (st.temp t).isGlobalOrFixed then do
      let st ← tempSync st t
      some ((st.setTemp t (toMem (st.temp t))).freeReg reg)
    else do
      let (ctx, offset) ← allocTempFrame st.ctx t
      let frameReg ← ctx.frameReg
      let st := ({ st with ctx := ctx }.emit (.st (st.temp t).ty reg frameReg offset)).freeReg reg
      some (st.setTemp t (toMem (st.temp t)))

/-- Allocate a register, preferably a free one. -/
def regAlloc (required forbidden preferred : RegSet) : Option (Reg × Alloc) :=
  let candidates := (required.intersect st.allocatable).subtract forbidden
  match ((candidates.intersect st.freeRegs).intersect preferred).first with
  | some r => some (r, st)
  | none =>
    match (candidates.intersect st.freeRegs).first with
    | some r => some (r, st)
    | none =>
      match candidates.first with
      | some r => (evictReg st r).map (r, ·)
      | none => do
        let r ← (required.intersect st.allocatable).first
        let st ← evictReg st r
        some (r, st)

/-- Load a temporary into a register that satisfies the constraint. -/
def tempLoadTo (t : TempIdx) (required forbidden preferred : RegSet) : Option (Reg × Alloc) :=
  let temp := st.temp t
  match temp.valType with
  | .reg => do
    let cur ← temp.reg
    if required.contains cur && !forbidden.contains cur then some (cur, st)
    else do
      let (dst, st) ← regAlloc st required forbidden preferred
      let st := ((st.emit (.mov temp.ty dst cur)).freeReg cur).assign dst t
      some (dst, st.setTemp t { st.temp t with reg := some dst })
  | .const => do
    let (reg, st) ← regAlloc st required forbidden preferred
    let st := (st.assign reg t).emit (.movi temp.ty reg temp.val)
    some (reg, st.setTemp t (inReg (st.temp t) reg))
  | .mem => do
    let (reg, st) ← regAlloc st required forbidden preferred
    let st := st.assign reg t
    let st ←
      match temp.memBase with
      | some base => do
        let baseReg ← (st.temp base).reg
        some (st.emit (.ld temp.ty reg baseReg temp.memOffset))
      | none =>
        if temp.memAllocated then do
          let frameReg ← st.ctx.frameReg
          some (st.emit (.ld temp.ty reg frameReg temp.memOffset))
        else some st
    some (reg, st.setTemp t { inReg (st.temp t) reg with memCoherent := true })
  | .dead => none

end

section Op

/-- What the allocator knows about the inputs of an operation: their registers, the set of these,
which may be reused for an output, and the fixed temporaries that were moved away. -/
structure Inputs where
  regs : Nat → Reg
  allocated : RegSet
  reusable : Nat → Bool
  fixedMoves : List (TempIdx × Reg × Reg)

def Inputs.none : Inputs := ⟨fun _ => 0, 0#64, fun _ => false, []⟩

variable (op : Op) (ct : OpConstraint)

def iarg (i : Nat) : TempIdx := op.args (op.opc.info.nbOargs + i)

/-- An aliased input that dies here and is neither a global nor a constant. -/
def reusableInput (st : Alloc) (i : Nat) : Bool :=
  let temp := st.temp (iarg op i)
  (ct (op.opc.info.nbOargs + i)).ialias && op.life.dead (op.opc.info.nbOargs + i) &&
    !(temp.isGlobalOrFixed || temp.isConst)

def loadInput (s : Alloc × Inputs) (i : Nat) : Option (Alloc × Inputs) := do
  let (st, ins) := s
  let argCt := ct (op.opc.info.nbOargs + i)
  let t := iarg op i
  let reuse := reusableInput op ct st i
  let home := if (st.temp t).isFixed then (st.temp t).reg else none
  let (reg, st) ← tempLoadTo st t argCt.regs ins.allocated (if reuse then op.outputPref argCt.aliasIndex else 0#64)
  let moved :=
    match home, (st.temp t).reg with
    | some orig, some cur => if cur ≠ orig then [(t, orig, cur)] else []
    | _, _ => []
  some (st, {
    regs := Function.update ins.regs i reg
    allocated := ins.allocated.set reg
    reusable := Function.update ins.reusable i reuse
    fixedMoves := ins.fixedMoves ++ moved })

/-- Read the registers of the inputs again after all of them are loaded. -/
def refreshInput (st : Alloc) (ins : Inputs) (i : Nat) : Option Inputs :=
  let temp := st.temp (iarg op i)
  if temp.valType = .reg then do
    let reg ← temp.reg
    some { ins with regs := Function.update ins.regs i reg, allocated := ins.allocated.set reg }
  else some ins

structure Outputs where
  regs : Nat → Reg
  allocated : RegSet

def outputReg (st : Alloc) (ins : Inputs) (outs : Outputs) (k : Nat) : Option (Reg × Alloc) :=
  let argCt := ct k
  if argCt.oalias then
    let oldReg := ins.regs argCt.aliasIndex
    if ins.reusable argCt.aliasIndex then some (oldReg, st)
    else do
      let src := iarg op argCt.aliasIndex
      let ty := (st.temp src).ty
      let (copyReg, st) ← regAlloc st st.allocatable (ins.allocated.union outs.allocated) 0#64
      let st := (st.emit (.mov ty copyReg oldReg)).assign copyReg src
      some (oldReg, st.setTemp src { st.temp src with reg := some copyReg })
  else if argCt.newreg then regAlloc st argCt.regs (ins.allocated.union outs.allocated) 0#64
  else regAlloc st argCt.regs outs.allocated 0#64

def assignOutput (ins : Inputs) (s : Alloc × Outputs) (k : Nat) : Option (Alloc × Outputs) := do
  let (st, outs) := s
  let dst := op.args k
  let (reg, st) ← outputReg op ct st ins outs k
  let st := st.assign reg dst
  some (st.setTemp dst { inReg (st.temp dst) reg with memCoherent := false },
    { regs := Function.update outs.regs k reg, allocated := outs.allocated.set reg })

variable (st : Alloc)

/-- Read the register of an input again after the outputs were assigned. -/
def finalInputReg (ins : Inputs) (i : Nat) : Reg :=
  let temp := st.temp (iarg op i)
  if temp.valType = .reg then temp.reg.getD (ins.regs i) else ins.regs i

/-- The inputs of an operation in their registers. -/
def loadInputs : Option (Alloc × Inputs) := do
  let (st, ins) ← (List.range op.opc.info.nbIargs).foldlM (loadInput op ct) (st, Inputs.none)
  let ins ← (List.range op.opc.info.nbIargs).foldlM (refreshInput op st) { ins with allocated := 0#64 }
  some (st, ins)

/-- The outputs of an operation in their registers. -/
def assignOutputs (ins : Inputs) : Option (Alloc × Outputs) :=
  (List.range op.opc.info.nbOargs).foldlM (assignOutput op ct ins) (st, ⟨fun _ => 0, 0#64⟩)

end Op

section Call

/-- A move of a call argument into its register. -/
structure RegMove where
  src : Reg
  dst : Reg
  ty : IrType
  deriving DecidableEq, Repr

/-- One sweep over the moves: those whose target is not the source of another open move are
emitted. -/
def sweepMoves : List RegMove → List RegMove → List HostOp × List RegMove
  | _, [] => ([], [])
  | before, m :: rest =>
    if (before ++ rest).any (fun other => decide (other.src = m.dst)) then
      let (code, open') := sweepMoves (before ++ [m]) rest
      (code, m :: open')
    else
      let (code, open') := sweepMoves before rest
      (.mov m.ty m.dst m.src :: code, open')

/-- Sweep until nothing can be emitted; each sweep that emits something shortens the list. -/
def orderMoves : Nat → List RegMove → List HostOp × List RegMove
  | 0, moves => ([], moves)
  | fuel + 1, moves =>
    let (code, open') := sweepMoves [] moves
    if code.isEmpty then ([], open')
    else
      let (code', open'') := orderMoves fuel open'
      (code ++ code', open'')

/-- Follow a cycle from a register: emit the open move that reads it, then the one that reads the
target of that one. -/
def followCycle : Nat → Reg → List RegMove → List HostOp × List RegMove
  | 0, _, moves => ([], moves)
  | fuel + 1, cur, moves =>
    match moves.find? (fun m => decide (m.src = cur)) with
    | some n =>
      let (code, open') := followCycle fuel n.dst (moves.erase n)
      (.mov n.ty n.dst n.src :: code, open')
    | none => ([], moves)

/-- Break the remaining cycles with R11. -/
def breakCycles : Nat → List RegMove → List HostOp
  | 0, _ => []
  | _, [] => []
  | fuel + 1, m :: rest =>
    let (code, open') := followCycle (rest.length + 1) m.dst (m :: rest)
    .mov m.ty 11 m.src :: code ++ [.mov m.ty m.dst 11] ++ breakCycles fuel (open'.erase m)

def resolveMoves (moves : List RegMove) : List HostOp :=
  let (code, open') := orderMoves moves.length moves
  code ++ breakCycles open'.length open'

variable (op : Op) (ct : OpConstraint)

/-- The register a call argument has to be in. -/
def callTarget (i : Nat) : Option Reg := (ct (op.opc.info.nbOargs + i)).regs.first

variable (st : Alloc)

/-- The move of an argument that is in a register. -/
def callMove (i : Nat) : Option (List RegMove) := do
  let target ← callTarget op ct i
  let temp := st.temp (iarg op i)
  if temp.valType = .reg then do
    let src ← temp.reg
    some (if src ≠ target then [⟨src, target, temp.ty⟩] else [])
  else some []

end Call

section X86

def anyReg : RegSet := allocatableRegs
def notRcx : RegSet := allocatableRegs.clear 1
def notRaxRdx : RegSet := (allocatableRegs.clear 0).clear 2

def r (regs : RegSet) : ArgConstraint := ⟨regs, false, false, 0, false⟩
def fixed (reg : Reg) : ArgConstraint := r (bit reg)
def newreg (regs : RegSet) : ArgConstraint := ⟨regs, false, false, 0, true⟩

/-- An output that takes over the register of input `i`. -/
def outAlias (regs : RegSet) (i : Nat) : ArgConstraint := ⟨regs, true, false, i, false⟩

/-- An input whose register output `k` takes over. -/
def inAlias (regs : RegSet) (k : Nat) : ArgConstraint := ⟨regs, false, true, k, false⟩

def opArgs (args : List ArgConstraint) : OpConstraint := fun i => args.getD i .unused

/-- The constraints of the x86-64 backend. -/
def opConstraint : Opcode → OpConstraint
  | .add | .andC => opArgs [r anyReg, r anyReg, r anyReg]
  | .sub | .mul | .and | .or | .xor | .addCO | .addCI | .addCio | .addC1O | .subBO | .subBI | .subBio | .subB1O
  | .deposit | .extract2 => opArgs [outAlias anyReg 0, inAlias anyReg 0, r anyReg]
  | .neg | .not | .bswap16 | .bswap32 | .bswap64 | .extrhI64I32 => opArgs [outAlias anyReg 0, inAlias anyReg 0]
  | .shl | .shr | .sar | .rotL | .rotR => opArgs [outAlias notRcx 0, inAlias notRcx 0, fixed 1]
  | .setCond | .negSetCond | .clz | .ctz => opArgs [newreg anyReg, r anyReg, r anyReg]
  | .movCond => opArgs [outAlias anyReg 2, r anyReg, r anyReg, inAlias anyReg 0, r anyReg]
  | .brCond | .st | .st8 | .st16 | .st32 | .qemuSt => opArgs [r anyReg, r anyReg]
  | .mulS2 | .mulU2 => opArgs [outAlias (bit 0) 0, fixed 2, inAlias (bit 0) 0, r notRaxRdx]
  | .divS2 | .divU2 =>
    opArgs [outAlias (bit 0) 0, outAlias (bit 2) 1, inAlias (bit 0) 0, inAlias (bit 2) 1, r notRaxRdx]
  | .extract | .sExtract | .ctPop | .ld | .ld8U | .ld8S | .ld16U | .ld16S | .ld32U | .ld32S | .extI32I64 | .extUI32I64
  | .extrlI64I32 | .qemuLd => opArgs [r anyReg, r anyReg]
  | .gotoPtr => opArgs [r anyReg]
  | .call => opArgs [fixed 0, fixed 7, fixed 6, fixed 2, fixed 1, fixed 8, fixed 9]
  | _ => opArgs []

end X86

end MachinaRegalloc
