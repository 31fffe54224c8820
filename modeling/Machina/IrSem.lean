import Machina.Ir

/-!
# What the intermediate representation means

Temporaries hold 64-bit words. Moves, arithmetic, logic, shifts and conversions
work at the width of their type and clear the upper bits. Every other operation
is given by a parameter: it maps what the operation says, its inputs and the
world to outputs and a new world, and may leave the block. Memory accesses are
recorded with their operands, in order.
-/

namespace MachinaIrSem

open MachinaIr

def width : IrType → Nat
  | .i32 => 32
  | _ => 64

/-- The low part of a word, at the width of a type. -/
def low (ty : IrType) (v : BitVec 64) : BitVec (width ty) := v.setWidth (width ty)

def unOp {w : Nat} (opc : Opcode) (x : BitVec w) : Option (BitVec w) :=
  match opc with
  | .mov => some x
  | .neg => some (-x)
  | .not => some (~~~x)
  | _ => none

/-- Two-operand operations at a width; shifts count modulo the width. -/
def binOp {w : Nat} (opc : Opcode) (x y : BitVec w) : Option (BitVec w) :=
  match opc with
  | .add => some (x + y)
  | .sub => some (x - y)
  | .mul => some (x * y)
  | .and => some (x &&& y)
  | .or => some (x ||| y)
  | .xor => some (x ^^^ y)
  | .andC => some (x &&& ~~~y)
  | .shl => some (x <<< (y.toNat % w))
  | .shr => some (x >>> (y.toNat % w))
  | .sar => some (x.sshiftRight (y.toNat % w))
  | .rotL => some (x.rotateLeft (y.toNat % w))
  | .rotR => some (x.rotateRight (y.toNat % w))
  | _ => none

/-- Conversions between the two integer widths. -/
def extOp (opc : Opcode) (v : BitVec 64) : Option (BitVec 64) :=
  match opc with
  | .extI32I64 => some ((v.setWidth 32).signExtend 64)
  | .extUI32I64 => some ((v.setWidth 32).setWidth 64)
  | .extrlI64I32 => some ((v.setWidth 32).setWidth 64)
  | .extrhI64I32 => some (((v >>> 32).setWidth 32).setWidth 64)
  | _ => none

/-- The result of an arithmetic operation; `none` for all other operations. -/
def arith (opc : Opcode) (ty : IrType) : List (BitVec 64) → Option (BitVec 64)
  | [x] =>
    ((unOp opc (low ty x)).map fun r => r.setWidth 64).or ((extOp opc x).map fun r => (low ty r).setWidth 64)
  | [x, y] => (binOp opc (low ty x) (low ty y)).map fun r => r.setWidth 64
  | _ => none

/-- What an operation says apart from its temporaries. -/
structure Instr where
  opc : Opcode
  opType : IrType
  param1 : BitVec 8
  param2 : BitVec 8
  cargs : List Nat
  deriving DecidableEq, Repr

def instr (op : Op) : Instr := ⟨op.opc, op.opType, op.param1, op.param2, op.cargs⟩

/-- What an operation does to the world. -/
structure Effect (W E : Type) where
  outputs : List (BitVec 64)
  world : W
  exit : Option E

/-- The meaning of the operations that are not arithmetic. -/
abbrev Sem (W E : Type) := Instr → List (BitVec 64) → W → Effect W E

structure Access where
  instr : Instr
  inputs : List (BitVec 64)
  deriving DecidableEq, Repr

/-- The operations that access host or guest memory. -/
def accessesMemory : Opcode → Bool
  | .ld8U | .ld8S | .ld16U | .ld16S | .ld32U | .ld32S | .ld | .st8 | .st16 | .st32 | .st => true
  | .qemuLd | .qemuSt | .qemuLd2 | .qemuSt2 | .ldVec | .stVec | .dupmVec => true
  | _ => false

structure State (W : Type) where
  vals : TempIdx → BitVec 64
  world : W
  trace : List Access

/-- The word a constant temporary stands for. -/
def constValue (t : Temp) : BitVec 64 := (low t.ty t.val).setWidth 64

/-- The word a temporary holds; constant temporaries do not change. -/
def value (ctx : Context) (vals : TempIdx → BitVec 64) (t : TempIdx) : BitVec 64 :=
  if (ctx.temps t).isConst then constValue (ctx.temps t) else vals t

/-- Write the outputs of an operation, in order. -/
def setOutputs (vals : TempIdx → BitVec 64) : List TempIdx → List (BitVec 64) → TempIdx → BitVec 64
  | t :: ts, v :: vs => setOutputs (Function.update vals t v) ts vs
  | _, _ => vals

section

variable {W E : Type} (sem : Sem W E) (ctx : Context)

/-- Execute one operation; an exit leaves the block. -/
def exec (op : Op) (σ : State W) : State W × Option E :=
  let inputs := op.iargs.map (value ctx σ.vals)
  match arith op.opc op.opType inputs with
  | some v => ({ σ with vals := setOutputs σ.vals op.oargs [v] }, none)
  | none =>
    let eff := sem (instr op) inputs σ.world
    (⟨setOutputs σ.vals op.oargs eff.outputs, eff.world,
        if accessesMemory op.opc then σ.trace ++ [⟨instr op, inputs⟩] else σ.trace⟩, eff.exit)

/-- Execute a straight-line block up to its end or its exit. -/
def run : List Op → State W → State W × Option E
  | [], σ => (σ, none)
  | op :: rest, σ =>
    match exec sem ctx op σ with
    | (σ', none) => run rest σ'
    | (σ', some e) => (σ', some e)

end

theorem setOutputs_of_not_mem {t : TempIdx} (ts : List TempIdx) (vs : List (BitVec 64))
    (vals : TempIdx → BitVec 64) (h : t ∉ ts) : setOutputs vals ts vs t = vals t := by
  induction ts generalizing vs vals with
  | nil => rfl
  | cons u ts ih =>
    cases vs with
    | nil => rfl
    | cons v vs =>
      obtain ⟨hne, hrest⟩ := List.ne_and_not_mem_of_not_mem_cons h
      rw [setOutputs, ih _ _ hrest, Function.update_of_ne hne]

theorem value_setOutputs {ctx : Context} {vals : TempIdx → BitVec 64} {t : TempIdx} {ts : List TempIdx}
    (vs : List (BitVec 64)) (h : t ∉ ts) : value ctx (setOutputs vals ts vs) t = value ctx vals t := by
  rw [value, value, setOutputs_of_not_mem ts vs vals h]

theorem value_update_of_ne {ctx : Context} {vals : TempIdx → BitVec 64} {t d : TempIdx} (h : t ≠ d) (w : BitVec 64) :
    value ctx (Function.update vals d w) t = value ctx vals t := by
  rw [value, value, Function.update_of_ne h]

theorem value_update_self {ctx : Context} {vals : TempIdx → BitVec 64} {d : TempIdx}
    (h : (ctx.temps d).isConst = false) (w : BitVec 64) : value ctx (Function.update vals d w) d = w := by
  rw [value, h, if_neg Bool.false_ne_true, Function.update_self]

theorem exec_vals {W E : Type} (sem : Sem W E) (ctx : Context) (op : Op) (σ : State W) :
    ∃ vs, (exec sem ctx op σ).1.vals = setOutputs σ.vals op.oargs vs := by
  unfold exec
  dsimp only
  split
  · exact ⟨_, rfl⟩
  · exact ⟨_, rfl⟩

theorem exec_congr {W E : Type} (sem : Sem W E) {ctx ctx' : Context} {op : Op}
    (h : ∀ t ∈ op.iargs, ctx'.temps t = ctx.temps t) (σ : State W) : exec sem ctx' op σ = exec sem ctx op σ := by
  have hinputs : op.iargs.map (value ctx' σ.vals) = op.iargs.map (value ctx σ.vals) := by
    refine List.map_congr_left fun t ht => ?_
    rw [value, value, h t ht]
  simp [exec, hinputs]

end MachinaIrSem
