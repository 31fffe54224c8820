import Machina.Ir

/-!
# The optimizer

A single forward pass with constant folding, copy propagation and algebraic
simplification. It keeps one record for each temporary: whether it is a known
constant, and of which temporary it is a copy. Each operation is rewritten in
place; folding may add constant temporaries to the context.
-/

namespace MachinaOptimize

open MachinaIr

structure TempInfo where
  isConst : Bool
  val : BitVec 64
  copyOf : Option TempIdx
  deriving DecidableEq, Repr

def TempInfo.unknown : TempInfo := ⟨false, 0#64, none⟩

/-- The table of the pass; temporaries beyond its end are unknown. -/
abbrev Info := TempIdx → TempInfo

def typeMask : IrType → BitVec 64
  | .i32 => 0xFFFFFFFF#64
  | _ => BitVec.allOnes 64

/-- A comparison of two constants, as the pass evaluates it. -/
def evalCond (a b : BitVec 64) (cond : Cond) (ty : IrType) : Bool :=
  let a := a &&& typeMask ty
  let b := b &&& typeMask ty
  match cond with
  | .always => true
  | .never => false
  | .eq => decide (a = b)
  | .ne => decide (a ≠ b)
  | .lt => a.slt b
  | .ge => b.sle a
  | .le => a.sle b
  | .gt => b.slt a
  | .ltu => a.ult b
  | .geu => b.ule a
  | .leu => a.ule b
  | .gtu => b.ult a
  | .tstEq => decide (a &&& b = 0#64)
  | .tstNe => decide (a &&& b ≠ 0#64)

/-- The condition encoded in a constant argument. -/
def condFromCarg : Nat → Cond
  | 1 => .always
  | 8 => .eq
  | 9 => .ne
  | 10 => .lt
  | 11 => .ge
  | 12 => .le
  | 13 => .gt
  | 14 => .ltu
  | 15 => .geu
  | 16 => .leu
  | 17 => .gtu
  | 18 => .tstEq
  | 19 => .tstNe
  | _ => .never

structure OptState where
  ctx : Context
  info : Info

/-- The table at the start: the existing constants. -/
def seedInfo (ctx : Context) : Info := fun i =>
  if i < ctx.nbTemps ∧ (ctx.temps i).isConst = true then ⟨true, (ctx.temps i).val, none⟩ else .unknown

def resetCopies (info : Info) : Info := fun i => { info i with copyOf := none }

/-- Forget a redefined temporary and all records of copies of it. -/
def invalidateOne (info : Info) (dst : TempIdx) : Info := fun i =>
  if i = dst then { info i with isConst := false, copyOf := none }
  else if (info i).copyOf = some dst then { info i with copyOf := none }
  else info i

/-- Forget the outputs of an operation; constant temporaries stay what they are. -/
def invalidateOutputs (ctx : Context) (info : Info) : List TempIdx → Info
  | [] => info
  | t :: rest => invalidateOutputs ctx (if (ctx.temps t).isConst then info else invalidateOne info t) rest

/-- Record that `dst` is now a known constant. -/
def setConst (info : Info) (dst : TempIdx) (val : BitVec 64) : Info := Function.update info dst ⟨true, val, none⟩

/-- Record that `dst` is a copy of `src`. -/
def setCopy (info : Info) (dst src : TempIdx) : Info :=
  if (info src).isConst then Function.update info dst ⟨true, (info src).val, none⟩
  else Function.update info dst { info dst with isConst := false, copyOf := some src }

def toMov (op : Op) (dst src : TempIdx) : Op :=
  { op with opc := .mov, args := Function.update (Function.update op.args 0 dst) 1 src }

variable (st : OptState)

/-- Replace an operation by a move of a constant. -/
def replaceWithConst (op : Op) (dst : TempIdx) (val : BitVec 64) (ty : IrType) : OptState × Op :=
  let masked := val &&& typeMask ty
  let (ctx, c) := st.ctx.newConst ty masked
  let info := Function.update st.info c { st.info c with isConst := true, val := masked }
  (⟨ctx, setConst info dst masked⟩, toMov op dst c)

/-- Replace an operation by a move; the copy is deliberately not recorded. -/
def replaceWithMov (op : Op) (dst src : TempIdx) : OptState × Op :=
  ({ st with info := invalidateOne st.info dst }, toMov op dst src)

/-- A move: record the copy or the constant. -/
def foldMov (op : Op) : OptState × Op :=
  let dst := op.args 0
  let src := op.args 1
  let info :=
    if (st.info src).isConst then setConst st.info dst ((st.info src).val &&& typeMask op.opType)
    else setCopy st.info dst src
  ({ st with info := info }, op)

/-- Negation and complement of a known constant. -/
def foldUnary (op : Op) : OptState × Op :=
  let dst := op.args 0
  let si := st.info (op.args 1)
  if si.isConst = false then ({ st with info := invalidateOne st.info dst }, op)
  else
    let val := if op.opc = .neg then 0#64 - si.val else ~~~si.val
    replaceWithConst st op dst (val &&& typeMask op.opType) op.opType

section

variable (opc : Opcode)

def extValue (val : BitVec 64) : BitVec 64 :=
  match opc with
  | .extI32I64 => (val.setWidth 32).signExtend 64
  | .extrhI64I32 => (val >>> 32) &&& 0xFFFFFFFF#64
  | _ => val &&& 0xFFFFFFFF#64

def outType : IrType := if opc = .extI32I64 ∨ opc = .extUI32I64 then .i64 else .i32

/-- Type conversions of a known constant. -/
def foldExt (op : Op) : OptState × Op :=
  let dst := op.args 0
  let si := st.info (op.args 1)
  if si.isConst = false then ({ st with info := invalidateOne st.info dst }, op)
  else replaceWithConst st op dst (extValue op.opc si.val) (outType op.opc)

/-- A shift amount: the low 32 bits of the operand modulo the width. -/
def shiftAmount (b : BitVec 64) (ty : IrType) : Nat := (b.setWidth 32).toNat % ty.sizeBits

def evalBinary (a b : BitVec 64) (ty : IrType) : Option (BitVec 64) :=
  let sh := shiftAmount b ty
  let r :=
    match opc with
    | .add => some (a + b)
    | .sub => some (a - b)
    | .mul => some (a * b)
    | .and => some (a &&& b)
    | .or => some (a ||| b)
    | .xor => some (a ^^^ b)
    | .andC => some (a &&& ~~~b)
    | .shl => some (a <<< (sh % 64))
    | .shr => some ((a &&& typeMask ty) >>> (sh % 64))
    | .sar =>
      if ty = IrType.i32 then some (((a.setWidth 32).sshiftRight sh).signExtend 64) else some (a.sshiftRight (sh % 64))
    | .rotL => if ty = IrType.i32 then some (((a.setWidth 32).rotateLeft sh).setWidth 64) else some (a.rotateLeft sh)
    | .rotR => if ty = IrType.i32 then some (((a.setWidth 32).rotateRight sh).setWidth 64) else some (a.rotateRight sh)
    | _ => none
  r.map (· &&& typeMask ty)

/-- What a binary operation is replaced by. -/
inductive Rewrite where
  | const (val : BitVec 64)
  | mov (src : TempIdx)
  | neg (src : TempIdx)
  deriving DecidableEq, Repr

/-- Algebraic simplification when the second operand is the constant `b`. -/
def simplifyRight (a : TempIdx) (b allOnes : BitVec 64) : Option Rewrite :=
  match opc with
  | .add | .sub | .xor | .shl | .shr | .sar | .rotL | .rotR => if b = 0#64 then some (.mov a) else none
  | .or => if b = 0#64 then some (.mov a) else if b = allOnes then some (.const allOnes) else none
  | .mul => if b = 0#64 then some (.const 0#64) else if b = 1#64 then some (.mov a) else none
  | .and => if b = 0#64 then some (.const 0#64) else if b = allOnes then some (.mov a) else none
  | .andC => if b = allOnes then some (.const 0#64) else none
  | _ => none

/-- Algebraic simplification when the first operand is the constant `a`. -/
def simplifyLeft (a : BitVec 64) (b : TempIdx) (allOnes : BitVec 64) : Option Rewrite :=
  match opc with
  | .add => if a = 0#64 then some (.mov b) else none
  | .sub => if a = 0#64 then some (.neg b) else none
  | .mul | .and => if a = 0#64 then some (.const 0#64) else none
  | .or => if a = allOnes then some (.const allOnes) else none
  | _ => none

def trySimplify (a b : TempIdx) (ai bi : TempInfo) (ty : IrType) : Option Rewrite :=
  let mask := typeMask ty
  (if bi.isConst then simplifyRight opc a (bi.val &&& mask) mask else none).or
    (if ai.isConst then simplifyLeft opc (ai.val &&& mask) b mask else none)

/-- Identities of an operation on two equal operands. -/
def sameOperand (a : TempIdx) : Option Rewrite :=
  match opc with
  | .and | .or => some (.mov a)
  | .xor | .sub => some (.const 0#64)
  | _ => none

/-- Folding comes first, then simplification, then the identities. -/
def binaryRewrite (info : Info) (opc : Opcode) (a b : TempIdx) (ty : IrType) : Option Rewrite :=
  let ai := info a
  let bi := info b
  let mask := typeMask ty
  let folded :=
    if ai.isConst && bi.isConst then
      (evalBinary opc (ai.val &&& mask) (bi.val &&& mask) ty).map Rewrite.const
    else none
  (folded.or (trySimplify opc a b ai bi ty)).or (if a = b then sameOperand opc a else none)

end

def applyRewrite (op : Op) (dst : TempIdx) : Rewrite → OptState × Op
  | .const val => replaceWithConst st op dst val op.opType
  | .mov src => replaceWithMov st op dst src
  | .neg src => ({ st with info := invalidateOne st.info dst }, { toMov op dst src with opc := .neg })

def foldBinary (op : Op) : OptState × Op :=
  let dst := op.args 0
  match binaryRewrite st.info op.opc (op.args 1) (op.args 2) op.opType with
  | some r => applyRewrite st op dst r
  | none => ({ st with info := invalidateOne st.info dst }, op)

/-- A conditional branch on constants becomes a jump or nothing. -/
def foldBrcond (info : Info) (op : Op) : Op :=
  let ai := info (op.args 0)
  let bi := info (op.args 1)
  if ai.isConst = false ∨ bi.isConst = false then op
  else if evalCond ai.val bi.val (condFromCarg (op.args 2)) op.opType then
    { op with opc := .br, args := Function.update op.args 0 (op.args 3) }
  else { op with opc := .nop }

/-- The operations at which the pass resets the copies. -/
def isBoundary : Opcode → Bool
  | .setLabel | .br | .exitTb | .gotoTb | .gotoPtr | .call => true
  | _ => false

/-- The operations the pass does not look into. -/
def isSkipped (opc : Opcode) : Bool :=
  opc.info.contains .sideEffects || opc.info.contains .vector || decide (opc = .nop) || decide (opc = .insnStart) ||
    decide (opc = .discard)

/-- Replace the inputs that are recorded as copies. -/
def propagate (info : Info) (op : Op) : Op :=
  let start := op.opc.info.nbOargs
  { op with args := fun i =>
      if start ≤ i ∧ i < start + op.opc.info.nbIargs then ((info (op.args i)).copyOf).getD (op.args i) else op.args i }

def isUnary (opc : Opcode) : Bool := decide (opc = .neg) || decide (opc = .not)

def isExt : Opcode → Bool
  | .extI32I64 | .extUI32I64 | .extrlI64I32 | .extrhI64I32 => true
  | _ => false

def isBinary : Opcode → Bool
  | .add | .sub | .mul | .and | .or | .xor | .andC | .shl | .shr | .sar | .rotL | .rotR => true
  | _ => false

def optimizeOp (op : Op) : OptState × Op :=
  if isBoundary op.opc then ({ st with info := resetCopies (invalidateOutputs st.ctx st.info op.oargs) }, op)
  else if isSkipped op.opc then ({ st with info := invalidateOutputs st.ctx st.info op.oargs }, op)
  else
    let op := propagate st.info op
    if op.opc = .mov then foldMov st op
    else if isUnary op.opc then foldUnary st op
    else if isExt op.opc then foldExt st op
    else if isBinary op.opc then foldBinary st op
    else if op.opc = .brCond then (st, foldBrcond st.info op)
    else ({ st with info := invalidateOutputs st.ctx st.info op.oargs }, op)

def optimizeOps (st : OptState) : List Op → OptState × List Op
  | [] => (st, [])
  | op :: rest =>
    let r := optimizeOp st op
    let r' := optimizeOps r.1 rest
    (r'.1, r.2 :: r'.2)

/-- Main optimizer entry point. -/
def optimize (ctx : Context) (ops : List Op) : Context × List Op :=
  let r := optimizeOps ⟨ctx, seedInfo ctx⟩ ops
  (r.1.ctx, r.2)

end MachinaOptimize
