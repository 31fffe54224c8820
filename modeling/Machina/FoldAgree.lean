import Machina.FoldCode

/-!
# Where folding and the emitted code agree

The constant written for a folded operation is what the emitted code computes, at
the width of the result, and the decision of a folded branch is the one the emitted
jump takes, exactly under the conditions stated here.
-/

namespace MachinaFoldAgree

open MachinaBits (setWidth_inj eq_low_half_iff)
open MachinaIr MachinaIrSem MachinaOptimize MachinaFold MachinaRegalloc MachinaX86 MachinaCodegen MachinaFoldCode

section Branch

/-- Both operands have the same sign, where that matters; the constant conditions are compiled as a
comparison for equality. -/
def CondOk (c : Cond) (ty : IrType) (x y : BitVec 64) : Prop :=
  if c = .always ∨ c = .never then low ty x = low ty y
  else if isSigned c ∧ ty = .i32 then (x.setWidth 32).msb = (y.setWidth 32).msb
  else True

instance (c : Cond) (ty : IrType) (x y : BitVec 64) : Decidable (CondOk c ty x y) := by
  unfold CondOk
  infer_instance

theorem toNat_setWidth_width {ty : IrType} (x : BitVec (width ty)) : (x.setWidth 64).toNat = x.toNat := by
  rw [BitVec.toNat_setWidth, Nat.mod_eq_of_lt]
  exact lt_of_lt_of_le x.isLt (Nat.pow_le_pow_right (by decide) (width_le ty))

theorem ult_setWidth_width {ty : IrType} (x y : BitVec (width ty)) :
    (x.setWidth 64).ult (y.setWidth 64) = x.ult y := by
  simp only [BitVec.ult, toNat_setWidth_width]

theorem ule_setWidth_width {ty : IrType} (x y : BitVec (width ty)) :
    (x.setWidth 64).ule (y.setWidth 64) = x.ule y := by
  simp only [BitVec.ule, toNat_setWidth_width]

theorem slt_setWidth_32 (x y : BitVec 32) : (x.setWidth 64).slt (y.setWidth 64) = x.ult y := by
  have htoInt (z : BitVec 32) : (z.setWidth 64).toInt = z.toNat := by
    have := z.isLt
    rw [BitVec.toInt_setWidth, Int.bmod_eq_of_le] <;> omega
  simp [BitVec.slt, BitVec.ult, htoInt]

theorem ult_eq_slt_iff {w : Nat} (x y : BitVec w) : x.ult y = x.slt y ↔ x.msb = y.msb := by
  rw [BitVec.slt_eq_ult]
  cases x.msb <;> cases y.msb <;> cases x.ult y <;> decide

theorem slt_32_iff (x y : BitVec 32) : (x.setWidth 64).slt (y.setWidth 64) = x.slt y ↔ x.msb = y.msb := by
  rw [slt_setWidth_32]
  exact ult_eq_slt_iff x y

theorem sle_32_iff (x y : BitVec 32) : (x.setWidth 64).sle (y.setWidth 64) = x.sle y ↔ x.msb = y.msb := by
  rw [BitVec.sle_eq_not_slt, BitVec.sle_eq_not_slt, Bool.not_inj_iff, slt_32_iff, eq_comm]

theorem tst_setWidth {ty : IrType} (x y : BitVec (width ty)) :
    x.setWidth 64 &&& y.setWidth 64 = 0#64 ↔ x &&& y = 0#(width ty) := by
  rw [← BitVec.setWidth_and, ← setWidth_inj (width_le _)]
  simp

/-- The conditions that neither are signed nor constant. -/
theorem evalCond_eq_runCond (ty : IrType) {c : Cond} (hconst : ¬(c = .always ∨ c = .never)) (hs : isSigned c = false)
    (a b : BitVec 64) : evalCond a b c ty = runCond c (low ty a) (low ty b) := by
  unfold evalCond
  simp only [and_typeMask]
  generalize low ty a = x
  generalize low ty b = y
  cases c with
  | always => exact absurd (.inl rfl) hconst
  | never => exact absurd (.inr rfl) hconst
  | eq => exact decide_eq_decide.mpr (setWidth_inj (width_le _))
  | ne => exact decide_eq_decide.mpr (setWidth_inj (width_le _)).not
  | ltu => exact ult_setWidth_width x y
  | geu => exact ule_setWidth_width y x
  | leu => exact ule_setWidth_width x y
  | gtu => exact ult_setWidth_width y x
  | tstEq => exact decide_eq_decide.mpr (tst_setWidth x y)
  | tstNe =>
    have htst : decide (x.setWidth 64 &&& y.setWidth 64 = 0#64) = decide (x &&& y = 0#(width ty)) :=
      decide_eq_decide.mpr (tst_setWidth x y)
    exact decide_not.trans (congrArg (!·) htst)
  | _ => exact absurd hs (by decide)

/-- The pass decides a branch as the emitted code does exactly when `CondOk` holds. -/
theorem evalCond_eq_iff {ty : IrType} (hty : ty = .i32 ∨ ty = .i64) (c : Cond) (a b : BitVec 64) :
    evalCond a b c ty = runCond c (low ty a) (low ty b) ↔ CondOk c ty a b := by
  unfold CondOk
  split_ifs with hconst hs
  · rcases hconst with rfl | rfl
    · exact true_eq_decide_iff
    · exact false_eq_decide_iff.trans not_not
  · obtain ⟨hs, rfl⟩ := hs
    have hcases : c = .lt ∨ c = .ge ∨ c = .le ∨ c = .gt := by simpa [isSigned, or_assoc] using hs
    simp only [evalCond, and_typeMask]
    rcases hcases with rfl | rfl | rfl | rfl
    · exact slt_32_iff _ _
    · exact (sle_32_iff _ _).trans eq_comm
    · exact sle_32_iff _ _
    · exact (slt_32_iff _ _).trans eq_comm
  · refine iff_of_true ?_ trivial
    by_cases hsigned : isSigned c = true
    · have h64 : ty = .i64 := hty.resolve_left fun h32 => hs ⟨hsigned, h32⟩
      subst h64
      have hcases : c = .lt ∨ c = .ge ∨ c = .le ∨ c = .gt := by simpa [isSigned, or_assoc] using hsigned
      simp only [evalCond, and_typeMask]
      rcases hcases with rfl | rfl | rfl | rfl <;> simp [runCond, isTst, fromTcg, Cc.compares, low, width]
    · exact evalCond_eq_runCond ty hconst (by simpa using hsigned) a b

end Branch

section Words

variable {st : OptState} {op : Op} {vals : TempIdx → BitVec 64}

/-- The table of constants lists constants under their type and value. -/
def ConstTable (ctx : Context) : Prop :=
  ∀ ty v c, ctx.constTable ty v = some c →
    (ctx.temps c).isConst = true ∧ (ctx.temps c).ty = ty ∧ (ctx.temps c).val = v

theorem value_newConst (vals : TempIdx → BitVec 64) {ctx : Context} (h : ConstTable ctx) (ty : IrType)
    (v : BitVec 64) :
    value (ctx.newConst ty v).1 vals (ctx.newConst ty v).2 = (low ty v).setWidth 64 := by
  unfold Context.newConst
  split
  · rename_i c hc
    obtain ⟨hconst, hty, hval⟩ := h ty v c hc
    rw [value, if_pos hconst, constValue, hty, hval]
  have htemp : Function.update ctx.temps ctx.nbTemps (Temp.newConst ty v) ctx.nbTemps = Temp.newConst ty v :=
    Function.update_self ..
  simp only [value, htemp]
  rfl

theorem newWord_replaceWithConst (h : ConstTable st.ctx) (dst : TempIdx) (val : BitVec 64) (ty : IrType) :
    newWord (replaceWithConst st op dst val ty) vals = some (val &&& typeMask ty) := by
  have hval := value_newConst vals h ty (val &&& typeMask ty)
  rw [low_and_typeMask, ← and_typeMask] at hval
  simpa [newWord, replaceWithConst, toMov] using hval

theorem newWord_applyRewrite (h : ConstTable st.ctx) (dst : TempIdx) (r : Rewrite) :
    newWord (applyRewrite st op dst r) vals = some (match r with
        | .const v => v &&& typeMask op.opType
        | .mov src => value st.ctx vals src
        | .neg src => -value st.ctx vals src) := by
  cases r with
  | const v => exact newWord_replaceWithConst h dst v op.opType
  | mov src => simp [applyRewrite, replaceWithMov, newWord, toMov]
  | neg src => simp [applyRewrite, newWord, toMov]

theorem newJump_applyRewrite (dst : TempIdx) (r : Rewrite) : newJump (applyRewrite st op dst r).2 = none := by
  cases r <;> rfl

/-- The operands are in their registers, and what the table says of them is right, at the width
they are read at. -/
structure Operands (st : OptState) (op : Op) (vals : TempIdx → BitVec 64) (iregs : List Reg) (cpu : Cpu) : Prop where
  held : ∀ i reg, iregs[i]? = some reg →
    low (argType op) (cpu.regs reg) = low (argType op) (value st.ctx vals (iarg op i))
  known : ∀ t ∈ op.iargs, (st.info t).isConst = true →
    low (argType op) (value st.ctx vals t) = low (argType op) (st.info t).val

/-- What was written in place of an operation is what its code computes. -/
def Agrees (st : OptState) (op : Op) (vals : TempIdx → BitVec 64) (oregs : List Reg) (cpu' : Cpu) : Prop :=
  (∀ w, newWord (foldOp st op) vals = some w →
    ∀ d ∈ oregs, low (resultType op) w = low (resultType op) (cpu'.regs d)) ∧
  ∀ j, newJump (foldOp st op).2 = some j → cpu'.jump = j

/-- A folded zero extension has a clean source where it works in place, and a folded branch compares
operands on which the pass and the emitted comparison agree. -/
def FoldOk (st : OptState) (op : Op) (oregs iregs : List Reg) (regs : Reg → BitVec 64) : Prop :=
  match op.opc with
  | .extUI32I64 => (st.info (op.args 1)).isConst = true → oregs = iregs → ∀ reg ∈ iregs, regs reg >>> 32 = 0#64
  | .brCond =>
    (st.info (op.args 0)).isConst = true → (st.info (op.args 1)).isConst = true →
      CondOk (condFromCarg (op.args 2)) op.opType (st.info (op.args 0)).val (st.info (op.args 1)).val
  | _ => True

theorem low_neg (ty : IrType) (x : BitVec 64) : low ty (-x) = -low ty x := BitVec.setWidth_neg_of_le (width_le ty)

end Words

section Agreement

variable {st : OptState} {op : Op} {vals : TempIdx → BitVec 64} {oregs iregs : List Reg} {cpu : Cpu}

theorem unary_agrees (hopc : isUnary op.opc = true) (hty : op.opType = .i32 ∨ op.opType = .i64)
    (htab : ConstTable st.ctx) (hregs : Satisfies (opConstraint op.opc) op.opc oregs iregs)
    (hops : Operands st op vals iregs cpu) : ∃ cpu', Runs op oregs iregs cpu cpu' ∧ Agrees st op vals oregs cpu' := by
  obtain ⟨d, s, cpu', rfl, rfl, hruns, hword⟩ := runs_unary cpu hty hopc hregs
  have hcases : op.opc = .neg ∨ op.opc = .not := by simpa [isUnary] using hopc
  have hext : isExt op.opc = false := by rcases hcases with h | h <;> rw [h] <;> rfl
  have harg : argType op = op.opType := by rcases hcases with h | h <;> simp [argType, h]
  have hres : resultType op = op.opType := by simp [resultType, hext]
  have hsrc : op.iargs = [op.args 1] := by rcases hcases with h | h <;> simp [Op.iargs, h, Opcode.info]
  have hheld : low op.opType (cpu.regs s) = low op.opType (value st.ctx vals (op.args 1)) := by
    have := hops.held 0 s rfl
    rw [harg] at this
    rcases hcases with h | h <;> simpa [iarg, h, Opcode.info] using this
  refine ⟨cpu', hruns, ?_⟩
  rw [Agrees, hres, foldOp, if_pos hopc]
  cases hconst : (st.info (op.args 1)).isConst with
  | true =>
    have hknown := hops.known (op.args 1) (by simp [hsrc]) hconst
    rw [harg] at hknown
    have hfold : foldUnary st op = replaceWithConst st op (op.args 0)
        ((if op.opc = .neg then 0#64 - (st.info (op.args 1)).val else ~~~(st.info (op.args 1)).val) &&&
          typeMask op.opType) op.opType := by
      simp [foldUnary, hconst]
    rw [hfold, newWord_replaceWithConst htab]
    refine ⟨?_, fun j hj => by cases hj⟩
    intro w hw d' hd'
    obtain rfl := List.mem_singleton.mp hd'
    obtain rfl := Option.some.inj hw
    rw [hheld, hknown, foldUnary_eq op.opType hopc] at hword
    rw [low_and_typeMask, low_and_typeMask]
    exact Option.some.inj hword
  | false =>
    have hfold : foldUnary st op = ({ st with info := invalidateOne st.info (op.args 0) }, op) := by
      simp [foldUnary, hconst]
    rw [hfold]
    rcases hcases with h | h
    · refine ⟨?_, fun j hj => by simp [newJump, h] at hj⟩
      intro w hw d' hd'
      obtain rfl := List.mem_singleton.mp hd'
      simp only [newWord, h, Option.some.injEq] at hw
      rw [h, unOp, hheld] at hword
      rw [← hw, low_neg]
      exact Option.some.inj hword
    · exact ⟨fun w hw => by simp [newWord, h] at hw, fun j hj => by simp [newJump, h] at hj⟩

theorem extValue_congr {opc : Opcode} (hopc : isExt opc = true) {x y : BitVec 64}
    (h32 : opc = .extI32I64 ∨ opc = .extUI32I64 → low .i32 x = low .i32 y)
    (h64 : opc = .extrlI64I32 ∨ opc = .extrhI64I32 → x = y) : extValue opc x = extValue opc y := by
  cases opc with
  | extI32I64 => exact congrArg (BitVec.signExtend 64) (h32 (.inl rfl))
  | extUI32I64 =>
    simp only [extValue, and_low32]
    exact congrArg (BitVec.setWidth 64) (h32 (.inr rfl))
  | extrlI64I32 => rw [h64 (.inl rfl)]
  | extrhI64I32 => rw [h64 (.inr rfl)]
  | _ => exact absurd hopc (by decide)

/-- A word is the zero extension of its lower half when its upper half is zero. -/
theorem eq_and_low32_iff (x : BitVec 64) : x &&& 0xFFFFFFFF#64 = x ↔ x >>> 32 = 0#64 := by
  rw [and_low32, eq_comm, eq_low_half_iff]

theorem low_i64_inj {x y : BitVec 64} : low .i64 x = low .i64 y ↔ x = y := by
  simp [low, width]

theorem Operands.extValue_eq (hopc : isExt op.opc = true) {s : Reg} (hops : Operands st op vals [s] cpu)
    (hconst : (st.info (op.args 1)).isConst = true) :
    extValue op.opc (st.info (op.args 1)).val = extValue op.opc (cpu.regs s) := by
  have hargs : op.iargs = [op.args 1] ∧ iarg op 0 = op.args 1 := by
    cases h : op.opc <;> rw [h] at hopc <;>
      first | exact absurd hopc (by decide) | exact ⟨by simp [Op.iargs, h, Opcode.info],
        by simp [iarg, h, Opcode.info]⟩
  have hlow : low (argType op) (st.info (op.args 1)).val = low (argType op) (cpu.regs s) := by
    rw [← hops.known (op.args 1) (by simp [hargs.1]) hconst, hops.held 0 s rfl, hargs.2]
  apply extValue_congr hopc
  · intro h
    have harg : argType op = .i32 := by rcases h with h | h <;> simp [argType, h]
    rwa [harg] at hlow
  intro h
  have harg : argType op = .i64 := by rcases h with h | h <;> simp [argType, h]
  rw [harg] at hlow
  exact low_i64_inj.mp hlow

theorem ext_agrees_iff (hopc : isExt op.opc = true) (htab : ConstTable st.ctx)
    (hregs : Satisfies (opConstraint op.opc) op.opc oregs iregs) (hops : Operands st op vals iregs cpu) :
    ∃ cpu', Runs op oregs iregs cpu cpu' ∧ (Agrees st op vals oregs cpu' ↔ FoldOk st op oregs iregs cpu.regs) := by
  obtain ⟨d, s, cpu', rfl, rfl, hruns, hword⟩ := runs_ext cpu hopc hregs
  have hun : isUnary op.opc = false := by
    cases h : op.opc <;> rw [h] at hopc <;> first | exact absurd hopc (by decide) | rfl
  refine ⟨cpu', hruns, ?_⟩
  rw [Agrees, resultType, if_pos hopc, foldOp, if_neg (by simp [hun]), if_pos hopc]
  cases hconst : (st.info (op.args 1)).isConst with
  | true =>
    have hfold : foldExt st op =
        replaceWithConst st op (op.args 0) (extValue op.opc (st.info (op.args 1)).val) (outType op.opc) := by
      simp [foldExt, hconst]
    rw [hfold, newWord_replaceWithConst htab, hops.extValue_eq hopc hconst]
    have hjump : newJump (replaceWithConst st op (op.args 0) (extValue op.opc (cpu.regs s)) (outType op.opc)).2 =
      none :=
      rfl
    simp only [hjump, Option.some.injEq, forall_eq', List.mem_singleton, forall_eq, low_and_typeMask, hword,
      reduceCtorEq, false_implies, implies_true, and_true]
    by_cases hin : op.opc = .extUI32I64
    · by_cases hds : d = s
      · rw [if_pos ⟨hin, hds⟩, hin]
        simp [FoldOk, hin, hds, hconst, outType, extValue, low_i64_inj, eq_and_low32_iff]
      · simp [FoldOk, hin, hds]
    · rw [if_neg fun h => hin h.1]
      refine iff_of_true rfl ?_
      cases h : op.opc <;> rw [h] at hopc <;>
        first | exact absurd hopc (by decide) | exact absurd h hin | simp [FoldOk, h]
  | false =>
    have hfold : foldExt st op = ({ st with info := invalidateOne st.info (op.args 0) }, op) := by
      simp [foldExt, hconst]
    rw [hfold]
    cases h : op.opc <;> rw [h] at hopc <;>
      first | exact absurd hopc (by decide) | simp [newWord, newJump, FoldOk, h, hconst]

/-- What a rewritten binary operation writes is what its code computes. -/
theorem binary_agrees (hopc : isBinary op.opc = true) (hty : op.opType = .i32 ∨ op.opType = .i64)
    (htab : ConstTable st.ctx) (hregs : Satisfies (opConstraint op.opc) op.opc oregs iregs)
    (hops : Operands st op vals iregs cpu) : ∃ cpu', Runs op oregs iregs cpu cpu' ∧ Agrees st op vals oregs cpu' := by
  obtain ⟨d, a, b, cpu', rfl, rfl, hruns, hword⟩ := runs_binary cpu hty hopc hregs
  refine ⟨cpu', hruns, ?_⟩
  have hkind : isUnary op.opc = false ∧ isExt op.opc = false ∧ newJump op = none ∧ argType op = op.opType ∧
      (∀ r : OptState, newWord (r, op) vals = none) ∧
      op.iargs = [op.args 1, op.args 2] ∧ iarg op 0 = op.args 1 ∧ iarg op 1 = op.args 2 := by
    cases h : op.opc <;> rw [h] at hopc <;>
      first
      | exact absurd hopc (by decide)
      | simp [newWord, newJump, argType, Op.iargs, iarg, h, Opcode.info, isUnary, isExt, List.range_succ]
  obtain ⟨hun, hext, hjump, harg, hnone, hiargs, ha, hb⟩ := hkind
  rw [Agrees, resultType, if_neg (by simp [hext]), foldOp, if_neg (by simp [hun]),
    if_neg (by simp [hext]), if_pos hopc, foldBinary]
  cases hr : binaryRewrite st.info op.opc (op.args 1) (op.args 2) op.opType with
  | none => simp [hnone, hjump]
  | some r =>
    rw [newWord_applyRewrite htab, newJump_applyRewrite]
    refine ⟨?_, by simp⟩
    intro w hw d' hd'
    obtain rfl := List.mem_singleton.mp hd'
    obtain rfl := Option.some.inj hw
    let word : TempIdx → BitVec 64 := fun t => if (st.info t).isConst then (st.info t).val else value st.ctx vals t
    have hlow (t : TempIdx) (ht : t = op.args 1 ∨ t = op.args 2) :
        low op.opType (word t) = low op.opType (value st.ctx vals t) := by
      by_cases hc : (st.info t).isConst = true
      · have hknown := hops.known t (by simpa [hiargs] using ht) hc
        rw [harg] at hknown
        rw [hknown]
        exact congrArg _ (if_pos hc)
      · exact congrArg _ (if_neg hc)
    have hsize : op.opType.sizeBits = width op.opType := by rcases hty with h | h <;> rw [h] <;> rfl
    have hsound := binaryRewrite_sound hsize (fun t ht => (if_pos ht : word t = _)) hr
    have hheld := hops.held
    rw [harg] at hheld
    rw [hlow _ (.inl rfl), hlow _ (.inr rfl), ← ha, ← hb, ← hheld 0 a rfl, ← hheld 1 b rfl, hword] at hsound
    rw [Option.some.inj hsound]
    have hreads := binaryRewrite_operand hr
    cases r with
    | const v => exact low_and_typeMask op.opType v
    | mov src => exact (hlow src hreads).symm
    | neg src =>
      rw [low_neg, Rewrite.meaning, hlow src hreads]

/-- A folded branch goes where its code goes exactly when its operands are among those both agree on. -/
theorem branch_agrees_iff (hopc : op.opc = .brCond) (hty : op.opType = .i32 ∨ op.opType = .i64)
    (hcond : ∃ c, op.args 2 = condCode c) (hregs : Satisfies (opConstraint op.opc) op.opc oregs iregs)
    (hops : Operands st op vals iregs cpu) (hj : cpu.jump = none) :
    ∃ cpu', Runs op oregs iregs cpu cpu' ∧ (Agrees st op vals oregs cpu' ↔ FoldOk st op oregs iregs cpu.regs) := by
  obtain ⟨c, hc⟩ := hcond
  obtain ⟨a, b, cpu', rfl, hruns, hjump⟩ := runs_branch cpu hty hopc hc hregs hj
  refine ⟨cpu', hruns, ?_⟩
  have hcarg : condFromCarg (op.args 2) = c := by rw [hc]; cases c <;> rfl
  have harg : argType op = op.opType := by simp [argType, hopc]
  have hiargs : op.iargs = [op.args 0, op.args 1] ∧ iarg op 0 = op.args 0 ∧ iarg op 1 = op.args 1 := by
    simp [Op.iargs, iarg, hopc, Opcode.info, List.range_succ]
  have hword : newWord (st, foldBrcond st.info op) vals = none := by
    simp only [newWord, foldBrcond]
    split_ifs <;> simp [hopc]
  rw [Agrees, foldOp, if_neg (by simp [hopc, isUnary]), if_neg (by simp [hopc, isExt]),
    if_neg (by simp [hopc, isBinary]), hword]
  simp only [FoldOk, hopc, hcarg, reduceCtorEq, false_implies, implies_true, true_and]
  by_cases hknown : (st.info (op.args 0)).isConst = true ∧ (st.info (op.args 1)).isConst = true
  · obtain ⟨ha, hb⟩ := hknown
    have hfold : newJump (foldBrcond st.info op) =
        some (if evalCond (st.info (op.args 0)).val (st.info (op.args 1)).val c op.opType then some (op.args 3)
          else none) := by
      simp only [foldBrcond, ha, hb, hcarg, Bool.true_eq_false, or_self, if_false]
      split_ifs <;> simp [newJump]
    have hx : low op.opType (cpu.regs a) = low op.opType (st.info (op.args 0)).val := by
      rw [← harg, hops.held 0 a rfl, hiargs.2.1, hops.known _ (by simp [hiargs.1]) ha]
    have hy : low op.opType (cpu.regs b) = low op.opType (st.info (op.args 1)).val := by
      rw [← harg, hops.held 1 b rfl, hiargs.2.2, hops.known _ (by simp [hiargs.1]) hb]
    rw [hfold, hjump, hx, hy]
    simp only [Option.some.injEq, forall_eq', ha, hb, forall_const]
    rw [← evalCond_eq_iff hty]
    cases evalCond (st.info (op.args 0)).val (st.info (op.args 1)).val c op.opType <;>
      cases runCond c (low op.opType (st.info (op.args 0)).val) (low op.opType (st.info (op.args 1)).val) <;> simp
  · have hsame : foldBrcond st.info op = op := by
      simp only [foldBrcond]
      rw [if_pos]
      by_contra hcon
      push Not at hcon
      exact hknown (by simpa using hcon)
    refine iff_of_true ?_ fun ha hb => absurd ⟨ha, hb⟩ hknown
    intro j hjj
    simp [hsame, newJump, hopc] at hjj

end Agreement

def signedLess : Op := .withArgs .brCond .i32 [0, 1, condCode .lt, 7]

/-- A table that knows two constants. -/
def knownPair (x y : BitVec 64) : OptState :=
  ⟨⟨fun t => .newConst .i32 (if t = 0 then x else y), 2, 0, fun _ _ => none, none, 0, 0⟩,
    fun t => ⟨true, if t = 0 then x else y, none⟩⟩

/-- A processor with two words in RAX and RDX. -/
def holding (x y : BitVec 64) : Cpu := ⟨fun reg => if reg = 0 then x else y, none, none⟩

theorem signedLess_satisfies : Satisfies (opConstraint signedLess.opc) signedLess.opc [] [0, 2] where
  outputs := rfl
  inputs := rfl
  input := by
    intro i reg h
    match i, h with
    | 0, h => obtain rfl := Option.some.inj h; decide
    | 1, h => obtain rfl := Option.some.inj h; decide
  aliased := fun k reg h => nomatch h
  output := fun k reg h => nomatch h
  newreg := fun k reg h => nomatch h
  distinct := List.nodup_nil

theorem signedLess_operands (x y : BitVec 64) (vals : TempIdx → BitVec 64) :
    Operands (knownPair x y) signedLess vals [0, 2] (holding x y) where
  held := by
    intro i reg h
    match i, h with
    | 0, h => obtain rfl := Option.some.inj h; exact (low_setWidth .i32 (low .i32 x)).symm
    | 1, h => obtain rfl := Option.some.inj h; exact (low_setWidth .i32 (low .i32 y)).symm
  known := fun t _ _ => low_setWidth .i32 (low .i32 (if t = 0 then x else y))

/-- For every operation the pass can fold, and whatever its operands are, the code of the operation
runs to its end, and what the pass writes in its place agrees with it exactly when `FoldOk` holds. -/
theorem folding_agrees_with_code (st : OptState) (op : Op) (vals : TempIdx → BitVec 64) (oregs iregs : List Reg)
    (cpu : Cpu) (hopc : isFoldable op.opc = true) (hty : op.opType = .i32 ∨ op.opType = .i64)
    (hcond : op.opc = .brCond → ∃ c, op.args 2 = condCode c) (htab : ConstTable st.ctx)
    (hregs : Satisfies (opConstraint op.opc) op.opc oregs iregs) (hops : Operands st op vals iregs cpu)
    (hj : cpu.jump = none) :
    ∃ cpu', Runs op oregs iregs cpu cpu' ∧ (Agrees st op vals oregs cpu' ↔ FoldOk st op oregs iregs cpu.regs) := by
  by_cases hbr : op.opc = .brCond
  · exact branch_agrees_iff hbr hty (hcond hbr) hregs hops hj
  by_cases hext : isExt op.opc = true
  · exact ext_agrees_iff hext htab hregs hops
  have hok : FoldOk st op oregs iregs cpu.regs := by
    cases h : op.opc <;> first | exact absurd h hbr | exact absurd (by rw [h]; rfl) hext | simp [FoldOk, h]
  have hmain : ∃ cpu', Runs op oregs iregs cpu cpu' ∧ Agrees st op vals oregs cpu' := by
    by_cases hun : isUnary op.opc = true
    · exact unary_agrees hun hty htab hregs hops
    · have hbin : isBinary op.opc = true := by simpa [isFoldable, hun, hext, hbr] using hopc
      exact binary_agrees hbin hty htab hregs hops
  obtain ⟨cpu', hruns, hagrees⟩ := hmain
  exact ⟨cpu', hruns, iff_of_true hagrees hok⟩

theorem folding_agrees_with_code_three_five : ∃ cpu', Runs signedLess [] [0, 2] (holding 3#64 5#64) cpu' ∧
      Agrees (knownPair 3#64 5#64) signedLess (fun _ => 0#64) [] cpu' := by
  obtain ⟨cpu', hruns, hiff⟩ := folding_agrees_with_code (knownPair 3#64 5#64) signedLess (fun _ => 0#64) [] [0, 2]
    (holding 3#64 5#64) rfl (.inl rfl) (fun _ => ⟨.lt, rfl⟩) (fun _ _ _ h => nomatch h) signedLess_satisfies
    (signedLess_operands _ _ _) rfl
  exact ⟨cpu', hruns, hiff.mpr fun _ _ => by decide⟩

/-- Minus one is less than zero; the pass compares the words without their sign and drops the branch. -/
theorem signed_branch_is_folded_wrong :
    ∃ cpu', Runs signedLess [] [0, 2] (holding 0xFFFFFFFF#64 0#64) cpu' ∧ cpu'.jump = some 7 ∧
      newJump (foldOp (knownPair 0xFFFFFFFF#64 0#64) signedLess).2 = some none ∧
      ¬Agrees (knownPair 0xFFFFFFFF#64 0#64) signedLess (fun _ => 0#64) [] cpu' := by
  obtain ⟨a, b, cpu', hregs, hruns, hjump⟩ := runs_branch (c := .lt) (holding 0xFFFFFFFF#64 0#64)
    (.inl rfl) (rfl : signedLess.opc = .brCond) rfl signedLess_satisfies rfl
  obtain ⟨rfl, rfl⟩ : (0 : Nat) = a ∧ 2 = b := by simpa using hregs
  have hseven : cpu'.jump = some 7 := by
    rw [hjump]
    decide
  have hfolded : newJump (foldOp (knownPair 0xFFFFFFFF#64 0#64) signedLess).2 = some none := by decide
  refine ⟨cpu', hruns, hseven, hfolded, fun hagrees => ?_⟩
  have := hagrees.2 none hfolded
  rw [hseven] at this
  cases this

end MachinaFoldAgree
