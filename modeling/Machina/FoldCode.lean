import Machina.Codegen
import Machina.Fold
import Machina.RegallocOwn

/-!
# Folding against the emitted code

What the optimizer writes in place of an operation on known operands, compared with
what the instructions compute that the backend emits for the operation itself.
Arithmetic, logic, shifts and most conversions agree. A zero extension in place
leaves the upper half of its register alone, and of the branch decisions the signed
32-bit ones and the two constant conditions may differ.
-/

namespace MachinaFoldCode

open MachinaBits MachinaIr MachinaIrSem MachinaOptimize MachinaFold MachinaRegalloc MachinaX86 MachinaCodegen

def isFoldable (opc : Opcode) : Bool := isUnary opc || isExt opc || isBinary opc || decide (opc = .brCond)

def foldOp (st : OptState) (op : Op) : OptState × Op :=
  if isUnary op.opc then foldUnary st op
  else if isExt op.opc then foldExt st op
  else if isBinary op.opc then foldBinary st op
  else (st, foldBrcond st.info op)

def argType (op : Op) : IrType :=
  match op.opc with
  | .extI32I64 | .extUI32I64 => .i32
  | .extrlI64I32 | .extrhI64I32 => .i64
  | _ => op.opType

def resultType (op : Op) : IrType := if isExt op.opc then outType op.opc else op.opType

/-- The word written by what an operation was replaced with: a constant, an operand or its negation. -/
def newWord (r : OptState × Op) (vals : TempIdx → BitVec 64) : Option (BitVec 64) :=
  match r.2.opc with
  | .mov => some (value r.1.ctx vals (r.2.args 1))
  | .neg => some (-value r.1.ctx vals (r.2.args 1))
  | _ => none

/-- The decision a branch was replaced with. -/
def newJump (op : Op) : Option (Option Nat) :=
  match op.opc with
  | .br => some (some (op.args 0))
  | .nop => some none
  | _ => none

section

variable {op : Op} {oregs iregs : List Reg} {cpu : Cpu}

/-- The operation's code was emitted and ran, and left the processor in a state. -/
def Runs (op : Op) (oregs iregs : List Reg) (cpu cpu' : Cpu) : Prop :=
  ∃ code, tcgOutOp op oregs iregs = some code ∧ run code cpu = some cpu'

theorem runs_of_single {insn : Insn} {cpu' : Cpu} (hcode : tcgOutOp op oregs iregs = some [insn])
    (hexec : exec insn cpu = some cpu') : Runs op oregs iregs cpu cpu' :=
  ⟨[insn], hcode, by rw [run_single, hexec]⟩

theorem length_one {l : List Reg} (h : l.length = 1) : ∃ d, l = [d] := List.length_eq_one_iff.mp h

theorem length_two {l : List Reg} (h : l.length = 2) : ∃ a b, l = [a, b] := List.length_eq_two.mp h

/-- The processor masks the shift count, so only its low part matters. -/
theorem eval_count (sop : ShiftOp) (rexw : Bool) (x : BitVec (opSize rexw)) (v : BitVec 64) :
    sop.eval x (v.setWidth (opSize rexw)).toNat = sop.eval x v.toNat := by
  have hdvd : opSize rexw ∣ 2 ^ opSize rexw := by cases rexw <;> decide
  simp [ShiftOp.eval, Nat.mod_mod_of_dvd _ hdvd]

theorem eq_of_contains_fixed {k reg : Reg} (h : (fixed k).regs.contains reg = true) : reg = k := by
  have hbit : (bit k : RegSet).getLsbD reg = true := by rwa [← MachinaRegallocOwn.contains_eq]
  rw [getLsbD_bit, Bool.and_eq_true, decide_eq_true_eq, decide_eq_true_eq] at hbit
  exact hbit.2.symm

/-- Instructions work at the width of the type. -/
theorem low_at_width {ty : IrType} (hty : ty = .i32 ∨ ty = .i64) (f : (w : Nat) → BitVec w → BitVec w → BitVec w)
    (x y : BitVec 64) : low ty ((f (opSize (decide (ty = .i64))) (x.setWidth _) (y.setWidth _)).setWidth 64) =
      f (width ty) (low ty x) (low ty y) := by
  rcases hty with rfl | rfl
  · exact low_setWidth .i32 _
  · exact low_setWidth .i64 _

/-- One instruction that writes `f` of two operands computes `f` at the width of the type. -/
theorem runs_of_put (hty : op.opType = .i32 ∨ op.opType = .i64) (f : (w : Nat) → BitVec w → BitVec w → BitVec w)
    {insn : Insn} {cpu' : Cpu} {d a b : Reg} (hcode : tcgOutOp op oregs iregs = some [insn])
    (hexec : exec insn cpu = some cpu') (hput : cpu'.regs d =
      (f (opSize (decide (op.opType = .i64))) ((cpu.regs a).setWidth _) ((cpu.regs b).setWidth _)).setWidth 64) :
    Runs op oregs iregs cpu cpu' ∧
      some (f (width op.opType) (low op.opType (cpu.regs a)) (low op.opType (cpu.regs b))) =
        some (low op.opType (cpu'.regs d)) := by
  refine ⟨runs_of_single hcode hexec, congrArg some ?_⟩
  rw [hput, low_at_width hty f]

/-- A shift by the count in RCX. -/
theorem runs_of_shift (hty : op.opType = .i32 ∨ op.opType = .i64) {d : Reg} (sop : ShiftOp)
    (hcode : tcgOutOp op oregs iregs = some [.shiftCl sop (decide (op.opType = .i64)) d])
    (hop : ∀ {w : Nat} (x y : BitVec w), binOp op.opc x y = some (sop.eval x y.toNat)) :
    ∃ cpu', Runs op oregs iregs cpu cpu' ∧
      binOp op.opc (low op.opType (cpu.regs d)) (low op.opType (cpu.regs 1)) = some (low op.opType (cpu'.regs d)) := by
  rw [hop]
  refine ⟨_, runs_of_put hty (fun _ x y => sop.eval x y.toNat) hcode rfl ?_⟩
  rw [eval_count]
  exact Cpu.put_regs_self ..

/-- The code of a two-operand operation computes its meaning at the width of its type. -/
theorem runs_binary (cpu : Cpu) (hty : op.opType = .i32 ∨ op.opType = .i64) (hopc : isBinary op.opc = true)
    (h : Satisfies (opConstraint op.opc) op.opc oregs iregs) :
    ∃ d a b cpu', oregs = [d] ∧ iregs = [a, b] ∧ Runs op oregs iregs cpu cpu' ∧
      binOp op.opc (low op.opType (cpu.regs a)) (low op.opType (cpu.regs b)) = some (low op.opType (cpu'.regs d)) := by
  obtain ⟨opc, ty, p1, p2, life, pref, args⟩ := op
  dsimp only at *
  obtain ⟨d, rfl⟩ : ∃ d, oregs = [d] := by
    apply length_one
    rw [h.outputs]
    cases opc <;> first | exact absurd hopc (by decide) | rfl
  obtain ⟨a, b, rfl⟩ : ∃ a b, iregs = [a, b] := by
    apply length_two
    rw [h.inputs]
    cases opc <;> first | exact absurd hopc (by decide) | rfl
  have halias (hct : (opConstraint opc 0).oalias = true ∧ (opConstraint opc 0).aliasIndex = 0) : d = a := by
    have := h.aliased 0 d rfl hct.1
    rw [hct.2] at this
    exact (Option.some.inj this).symm
  have hcount (hct : opConstraint opc (opc.info.nbOargs + 1) = fixed 1) : b = 1 := by
    have := h.input 1 b rfl
    rw [hct] at this
    exact eq_of_contains_fixed this
  suffices hmain : ∃ cpu', Runs ⟨opc, ty, p1, p2, life, pref, args⟩ [d] [a, b] cpu cpu' ∧
      binOp opc (low ty (cpu.regs a)) (low ty (cpu.regs b)) = some (low ty (cpu'.regs d)) by
    obtain ⟨cpu', hruns, hword⟩ := hmain
    exact ⟨d, a, b, cpu', rfl, rfl, hruns, hword⟩
  cases opc with
  | sub =>
    obtain rfl := halias (by decide)
    exact ⟨_, runs_of_put hty (fun _ x y => x - y) rfl rfl (by simp [execArith, Cpu.get])⟩
  | mul =>
    obtain rfl := halias (by decide)
    exact ⟨_, runs_of_put hty (fun _ x y => x * y) rfl rfl (by simp [Cpu.get])⟩
  | and =>
    obtain rfl := halias (by decide)
    exact ⟨_, runs_of_put hty (fun _ x y => x &&& y) rfl rfl (by simp [execArith, Cpu.get])⟩
  | or =>
    obtain rfl := halias (by decide)
    exact ⟨_, runs_of_put hty (fun _ x y => x ||| y) rfl rfl (by simp [execArith, Cpu.get])⟩
  | xor =>
    obtain rfl := halias (by decide)
    exact ⟨_, runs_of_put hty (fun _ x y => x ^^^ y) rfl rfl (by simp [execArith, Cpu.get])⟩
  | andC =>
    refine ⟨_, runs_of_put hty (fun _ x y => x &&& ~~~y) rfl rfl ?_⟩
    simp [Cpu.get, BitVec.and_comm]
  | add =>
    by_cases hda : d = a
    · subst hda
      refine ⟨_, runs_of_put hty (fun _ x y => x + y) (by simp only [tcgOutOp, if_true]; rfl) rfl ?_⟩
      simp [execArith, Cpu.get]
    by_cases hdb : d = b
    · subst hdb
      refine ⟨_, runs_of_put hty (fun _ x y => x + y) (by simp only [tcgOutOp, if_neg hda, if_true]; rfl) rfl ?_⟩
      simp [execArith, Cpu.get, BitVec.add_comm]
    · refine ⟨_, runs_of_put hty (fun _ x y => x + y) (by simp only [tcgOutOp, if_neg hda, if_neg hdb]; rfl) rfl ?_⟩
      simp [Cpu.get]
  | shl | shr | sar | rotL | rotR =>
    obtain rfl := halias (by decide)
    obtain rfl := hcount rfl
    exact runs_of_shift hty _ rfl fun _ _ => rfl
  | _ => exact absurd hopc (by decide)

theorem runs_unary (cpu : Cpu) (hty : op.opType = .i32 ∨ op.opType = .i64) (hopc : isUnary op.opc = true)
    (h : Satisfies (opConstraint op.opc) op.opc oregs iregs) :
    ∃ d s cpu', oregs = [d] ∧ iregs = [s] ∧ Runs op oregs iregs cpu cpu' ∧
      unOp op.opc (low op.opType (cpu.regs s)) = some (low op.opType (cpu'.regs d)) := by
  obtain ⟨opc, ty, p1, p2, life, pref, args⟩ := op
  have hneg : opc = .neg ∨ opc = .not := by simpa [isUnary] using hopc
  obtain ⟨d, rfl⟩ : ∃ d, oregs = [d] := length_one (by rcases hneg with rfl | rfl <;> exact h.outputs)
  obtain ⟨s, rfl⟩ : ∃ s, iregs = [s] := length_one (by rcases hneg with rfl | rfl <;> exact h.inputs)
  obtain rfl : s = d := by
    rcases hneg with rfl | rfl <;> exact Option.some.inj (h.aliased 0 d rfl rfl)
  rcases hneg with rfl | rfl
  · refine ⟨s, s, _, rfl, rfl, runs_of_put (a := s) (b := s) hty (fun _ x _ => -x) rfl rfl ?_⟩
    exact Cpu.put_regs_self ..
  · refine ⟨s, s, _, rfl, rfl, runs_of_put (a := s) (b := s) hty (fun _ x _ => ~~~x) rfl rfl ?_⟩
    exact Cpu.put_regs_self ..

/-- The code of a type conversion. A zero extension in place emits nothing. -/
theorem runs_ext (cpu : Cpu) (hopc : isExt op.opc = true) (h : Satisfies (opConstraint op.opc) op.opc oregs iregs) :
    ∃ d s cpu', oregs = [d] ∧ iregs = [s] ∧ Runs op oregs iregs cpu cpu' ∧ low (outType op.opc) (cpu'.regs d) =
        low (outType op.opc) (if op.opc = .extUI32I64 ∧ d = s then cpu.regs s else extValue op.opc (cpu.regs s)) := by
  obtain ⟨opc, ty, p1, p2, life, pref, args⟩ := op
  dsimp only at *
  obtain ⟨d, rfl⟩ : ∃ d, oregs = [d] := by
    apply length_one
    rw [h.outputs]
    cases opc <;> first | exact absurd hopc (by decide) | rfl
  obtain ⟨s, rfl⟩ : ∃ s, iregs = [s] := by
    apply length_one
    rw [h.inputs]
    cases opc <;> first | exact absurd hopc (by decide) | rfl
  cases opc with
  | extI32I64 =>
    refine ⟨d, s, _, rfl, rfl, runs_of_single rfl rfl, ?_⟩
    simp [extValue]
  | extUI32I64 =>
    by_cases hds : d = s
    · subst hds
      refine ⟨d, d, cpu, rfl, rfl, ⟨[], by simp [tcgOutOp], rfl⟩, ?_⟩
      simp
    · refine ⟨d, s, _, rfl, rfl, runs_of_single
        (by simp only [tcgOutOp, ne_eq, hds, not_false_iff, if_true]; rfl) rfl, ?_⟩
      simp [extValue, hds, Cpu.get, opSize, and_low32]
  | extrlI64I32 =>
    by_cases hds : d = s
    · subst hds
      refine ⟨d, d, cpu, rfl, rfl, ⟨[], by simp [tcgOutOp], rfl⟩, ?_⟩
      exact (low_and_typeMask .i32 (cpu.regs d)).symm
    · refine ⟨d, s, _, rfl, rfl, runs_of_single
        (by simp only [tcgOutOp, ne_eq, hds, not_false_iff, if_true]; rfl) rfl, ?_⟩
      simp [extValue, Cpu.get, opSize, and_low32]
  | extrhI64I32 =>
    obtain rfl : s = d := Option.some.inj (h.aliased 0 d rfl rfl)
    refine ⟨s, s, _, rfl, rfl, runs_of_single rfl rfl, ?_⟩
    have hlow : low .i32 ((cpu.regs s >>> 32) &&& 0xFFFFFFFF#64) = low .i32 (cpu.regs s >>> 32) :=
      low_and_typeMask .i32 _
    simp [extValue, outType, hlow, ShiftOp.eval, Cpu.get, opSize]
    rfl
  | _ => exact absurd hopc (by decide)

/-- The decision the emitted comparison and jump take. -/
def runCond {w : Nat} (c : Cond) (x y : BitVec w) : Bool :=
  if isTst c then (fromTcg c).holds (flagsLogic (x &&& y)) else (fromTcg c).compares x y

theorem runs_branch (cpu : Cpu) (hty : op.opType = .i32 ∨ op.opType = .i64) (hopc : op.opc = .brCond) {c : Cond}
    (hc : op.args 2 = condCode c) (h : Satisfies (opConstraint op.opc) op.opc oregs iregs) (hj : cpu.jump = none) :
    ∃ a b cpu', iregs = [a, b] ∧ Runs op oregs iregs cpu cpu' ∧ cpu'.jump =
        if runCond c (low op.opType (cpu.regs a)) (low op.opType (cpu.regs b)) then some (op.args 3) else none := by
  obtain ⟨opc, ty, p1, p2, life, pref, args⟩ := op
  dsimp only at *
  subst hopc
  obtain rfl : oregs = [] := List.length_eq_zero_iff.mp h.outputs
  obtain ⟨a, b, rfl⟩ : ∃ a b, iregs = [a, b] := length_two h.inputs
  have hcode : tcgOutOp ⟨.brCond, ty, p1, p2, life, pref, args⟩ [] [a, b] =
      some [if isTst c then .test (decide (ty = .i64)) a b else .arith .cmp (decide (ty = .i64)) a b,
        .jcc (fromTcg c) (args 3)] := by
    simp [tcgOutOp, hc, condFromU32_condCode]
  let x := cpu.get (decide (ty = .i64)) a
  let y := cpu.get (decide (ty = .i64)) b
  have hfirst : exec (if isTst c then .test (decide (ty = .i64)) a b else .arith .cmp (decide (ty = .i64)) a b) cpu =
      some (cpu.setFlags (some (if isTst c then flagsLogic (x &&& y) else flagsSub x y))) := by
    split_ifs <;> rfl
  obtain ⟨cpu', hrun, hjump⟩ := run_branch hj hfirst (fromTcg c) (args 3)
  refine ⟨a, b, cpu', rfl, ⟨_, hcode, hrun⟩, ?_⟩
  have hcond : (fromTcg c).holds (if isTst c then flagsLogic (x &&& y) else flagsSub x y) = runCond c x y := by
    rw [runCond]
    split_ifs
    · rfl
    · exact holds_flagsSub ..
  rw [hjump, hcond]
  rcases hty with rfl | rfl <;> rfl

end

end MachinaFoldCode
