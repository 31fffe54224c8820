import Machina.IrGen

/-!
# Translating RISC-V instructions

The disassembly context with the temporaries of the guest registers, the access to
them that all translators share, and the exact meaning of the operations on pairs
of words and of the conditional move.
-/

namespace MachinaRvTrans

open MachinaFold (low_setWidth)
open MachinaIr MachinaIrSem MachinaIrGen MachinaOptimize MachinaOptimizeSound MachinaOptimizePaths MachinaCodegen

local instance neZero32 : NeZero 32 := ⟨by decide⟩

/-- The bit of a single-letter extension. -/
def misaM : BitVec 32 := 1#32 <<< 12
def misaA : BitVec 32 := 1#32 <<< 0

/-- The disassembly context: the extensions, the temporaries of the guest state, the current
pc and the addresses of the full-system helpers, zero for none. -/
structure RiscvDisasContext where
  misa : BitVec 32
  env : TempIdx
  gpr : Fin 32 → TempIdx
  pc : TempIdx
  loadRes : TempIdx
  loadVal : TempIdx
  pcNext : BitVec 64
  lrHelper : BitVec 64
  scHelper : BitVec 64
  amoHelper : BitVec 64

section

variable (tr : RiscvDisasContext)

def RiscvDisasContext.contains (ext : BitVec 32) : Bool := decide (tr.misa &&& ext = ext)

/-- Bail out if an extension is absent. -/
def requireExt (ext : BitVec 32) (body : Builder Bool) : Builder Bool :=
  if tr.contains ext then body else pure false

/-- Read a register; x0 yields a constant zero. -/
def gprOrZero (idx : Fin 32) : Builder TempIdx :=
  if idx = 0 then newConst .i64 0#64 else pure (tr.gpr idx)

/-- Write a register; writes to x0 are discarded. -/
def genSetGpr (rd : Fin 32) (val : TempIdx) : Builder Unit :=
  if rd ≠ 0 then genMov .i64 (tr.gpr rd) val else pure ()

/-- Write a register with the sign-extended low half of a word. -/
def genSetGprSx32 (rd : Fin 32) (val : TempIdx) : Builder Unit :=
  if rd ≠ 0 then genExtI32I64 (tr.gpr rd) val else pure ()

/-- The register fields of an R-type instruction. -/
structure ArgsR where
  rs2 : Fin 32
  rs1 : Fin 32
  rd : Fin 32
  deriving DecidableEq, Repr

end

/-- A translator in the middle of a block: the registers have distinct temporaries that are
not constants. -/
structure Session where
  tr : RiscvDisasContext
  ir : Gen
  consts : ConstsOk ir.ctx
  gpr_lt : ∀ i, tr.gpr i < ir.ctx.nbTemps
  gpr_temp : ∀ i, (ir.ctx.temps (tr.gpr i)).isConst = false
  gpr_inj : Function.Injective tr.gpr

/-- Register the env pointer, the 32 registers, the pc and the reservation, in this order. -/
def initTemps : List Temp :=
  .newFixed .i64 5 :: (List.range 32).map (fun i => .newGlobal .i64 0 (8 * i)) ++
    [.newGlobal .i64 0 512, .newGlobal .i64 0 528, .newGlobal .i64 0 536]

/-- The context after `init_disas_context`. -/
def initGen : Gen where
  ctx := {
    temps := fun t => initTemps.getD t (.newEbb .i64)
    nbTemps := initTemps.length
    nbGlobals := initTemps.length
    constTable := fun _ _ => none
    frameReg := none
    frameEnd := 0
    frameAllocEnd := 0 }
  ops := []

def initDisasContext (misa : BitVec 32) (pcNext lrHelper scHelper amoHelper : BitVec 64) : RiscvDisasContext where
  misa := misa
  env := 0
  gpr := fun i => i.val + 1
  pc := 33
  loadRes := 34
  loadVal := 35
  pcNext := pcNext
  lrHelper := lrHelper
  scHelper := scHelper
  amoHelper := amoHelper

theorem initTemps_not_const : initTemps.all (fun t => !t.isConst) = true := by decide +kernel

theorem initGen_not_const (t : TempIdx) : (initGen.ctx.temps t).isConst = false := by
  change (initTemps.getD t (.newEbb .i64)).isConst = false
  rw [List.getD_eq_getElem?_getD]
  cases h : initTemps[t]? with
  | none => rfl
  | some temp =>
    have hall := List.all_eq_true.mp initTemps_not_const temp (List.mem_of_getElem? h)
    simpa using hall

def Session.init (misa : BitVec 32) (pcNext lrHelper scHelper amoHelper : BitVec 64) : Session where
  tr := initDisasContext misa pcNext lrHelper scHelper amoHelper
  ir := initGen
  consts := {
    table := fun _ _ _ h => nomatch h
    fits := fun t _ h => nomatch (initGen_not_const t).symm.trans h }
  gpr_lt i := by
    have hlen : initGen.ctx.nbTemps = 36 := by decide +kernel
    have hi := i.isLt
    rw [hlen]
    change i.val + 1 < 36
    omega
  gpr_temp i := initGen_not_const _
  gpr_inj i j h := Fin.ext (Nat.succ.inj h)

section Registers

variable {W E β : Type} {sem : Sem W E} (s : Session) (σ : State W)

def Session.reg (i : Fin 32) : BitVec 64 := if i = 0 then 0#64 else value s.ir.ctx σ.vals (s.tr.gpr i)

/-- What is known while the translator of the next instruction runs. -/
abbrev Session.Knows (world : W) (l : List (TempIdx × BitVec 64)) : Gen → State W → Prop :=
  MachinaIrGen.Knows s.ir.ctx (value s.ir.ctx σ.vals) world l

/-- The instruction is translated, its code leaves the world as given, and of the temporaries
that existed before only the destination register changes. -/
def Session.Sets (rd : Fin 32) (w : BitVec 64) (world : W) (done : Bool) (g : Gen) (σ' : State W) : Prop :=
  done = true ∧ σ'.world = world ∧ ∀ t, t < s.ir.ctx.nbTemps →
    value g.ctx σ'.vals t = if rd ≠ 0 ∧ t = s.tr.gpr rd then w else value s.ir.ctx σ.vals t

variable {s σ} {world : W} {l : List (TempIdx × BitVec 64)} {g : Gen} {σ' : State W}
variable {post : β → Gen → State W → Prop}

theorem Emits.gprOrZero {i : Fin 32} {f : TempIdx → Builder β} (hk : s.Knows σ world l g σ')
    (h : ∀ t g', s.Knows σ world ((t, s.reg σ i) :: l) g' σ' → Emits sem (f t) g' σ' post) :
    Emits sem (gprOrZero s.tr i >>= f) g σ' post := by
  unfold MachinaRvTrans.gprOrZero Session.reg at *
  by_cases hi : i = 0
  · rw [if_pos hi]
    simp only [if_pos hi] at h
    exact Emits.newConst hk (by decide) fun c g' _ => h c g'
  rw [if_neg hi]
  simp only [if_neg hi] at h
  exact h _ _ (hk.cons_old (s.gpr_lt i))

theorem Session.sets_of_knows {rd : Fin 32} {w : BitVec 64} (hrd : rd ≠ 0)
    (hk : MachinaIrGen.Knows s.ir.ctx (Function.update (value s.ir.ctx σ.vals) (s.tr.gpr rd) w) world l g σ') :
    s.Sets σ rd w world true g σ' := by
  refine ⟨rfl, hk.world, fun t ht => (hk.old t ht).trans ?_⟩
  by_cases heq : t = s.tr.gpr rd
  · rw [heq, Function.update_self, if_pos ⟨hrd, rfl⟩]
  · rw [Function.update_of_ne heq, if_neg (fun h => heq h.2)]

section

variable (hk : s.Knows σ world l g σ')
include hk

theorem Session.sets_zero {w : BitVec 64} : s.Sets σ 0 w world true g σ' := by
  refine ⟨rfl, hk.world, fun t ht => ?_⟩
  rw [hk.old t ht, if_neg (fun h => h.1 rfl)]

/-- The last statement of a translator: a unary operation that writes the destination. -/
theorem Emits.setRegister {opc : Opcode} {rd : Fin 32} {v : TempIdx} {x w : BitVec 64}
    (hv : (v, x) ∈ l) (hinfo : opc.info.nbOargs = 1 ∧ opc.info.nbIargs = 1) (hw : arith opc .i64 [x] = some w) :
    Emits sem ((if rd ≠ 0 then emitUnary opc .i64 (s.tr.gpr rd) v else pure ()) >>= fun _ => pure true) g σ'
      (s.Sets σ rd w world) := by
  by_cases hrd : rd = 0
  · rw [if_neg (not_not_intro hrd)]
    exact Emits.pure hk.consts (hrd ▸ Session.sets_zero hk)
  rw [if_pos hrd]
  have hin : List.Forall₂ (fun t x => (t, x) ∈ l) (Op.withArgs opc .i64 [s.tr.gpr rd, v]).iargs [x] := by
    simp [Op.iargs, Op.withArgs, hinfo, hv]
  have hout : (Op.withArgs opc .i64 [s.tr.gpr rd, v]).oargs = [s.tr.gpr rd] := by
    simp [Op.oargs, Op.withArgs, hinfo]
  have hdoes : Does sem (instr (.withArgs opc .i64 [s.tr.gpr rd, v])) [x] world [w] world :=
    Or.inl ⟨w, hw, rfl, rfl⟩
  refine Emits.write hk hin hdoes hout (s.gpr_lt rd) (s.gpr_temp rd) (List.forall_mem_nil _) fun g' σ1 _ hk' => ?_
  exact Emits.pure hk'.consts (Session.sets_of_knows hrd hk')

theorem Emits.genSetGpr {rd : Fin 32} {v : TempIdx} {x : BitVec 64} (hv : (v, x) ∈ l) :
    Emits sem (genSetGpr s.tr rd v >>= fun _ => pure true) g σ' (s.Sets σ rd x world) :=
  Emits.setRegister hk hv ⟨rfl, rfl⟩ (by simp [arith, unOp, low, width])

theorem Emits.genSetGprSx32 {rd : Fin 32} {v : TempIdx} {x : BitVec 64} (hv : (v, x) ∈ l) :
    Emits sem (genSetGprSx32 s.tr rd v >>= fun _ => pure true) g σ'
      (s.Sets σ rd ((x.setWidth 32).signExtend 64) world) :=
  Emits.setRegister hk hv ⟨rfl, rfl⟩ (by simp [arith, unOp, extOp, low, width])

end

theorem Emits.requireExt {ext : BitVec 32} {body : Builder Bool} {g : Gen} {post : Bool → Gen → State W → Prop}
    (hext : s.tr.contains ext = true) (h : Emits sem body g σ post) :
    Emits sem (requireExt s.tr ext body) g σ post := by
  rw [MachinaRvTrans.requireExt, if_pos hext]
  exact h

end Registers

/-! ## The meaning of operations -/

section

def mulU2 {w : Nat} (x y : BitVec w) : List (BitVec w) :=
  [BitVec.ofNat w (x.toNat * y.toNat), BitVec.ofNat w (x.toNat * y.toNat / 2 ^ w)]

def mulS2 {w : Nat} (x y : BitVec w) : List (BitVec w) :=
  [BitVec.ofInt w (x.toInt * y.toInt), BitVec.ofInt w (x.toInt * y.toInt / 2 ^ w)]

/-- Quotient and remainder of a double-width dividend; there is none for the divisor zero, or
when the quotient does not fit. -/
def divU2 {w : Nat} (al ah b : BitVec w) : Option (List (BitVec w)) :=
  let dividend := ah.toNat * 2 ^ w + al.toNat
  if b = 0#w ∨ 2 ^ w ≤ dividend / b.toNat then none
  else some [BitVec.ofNat w (dividend / b.toNat), BitVec.ofNat w (dividend % b.toNat)]

/-- The operations with two outputs. -/
def wideOp {w : Nat} (opc : Opcode) : List (BitVec w) → Option (List (BitVec w))
  | [x, y] => if opc = .mulU2 then some (mulU2 x y) else if opc = .mulS2 then some (mulS2 x y) else none
  | [al, ah, b] => if opc = .divU2 then divU2 al ah b else none
  | _ => none

def movCond (ty : IrType) (cond : Cond) (c1 c2 v1 v2 : BitVec 64) : BitVec 64 :=
  (low ty (if condHolds cond (low ty c1) (low ty c2) then v1 else v2)).setWidth 64

variable {W E β : Type} (trap : E) (other : Sem W E)

/-- The effect of an operation with two outputs; without a result it leaves the block. -/
def wideEffect {w : Nat} (world : W) : Option (List (BitVec w)) → Effect W E
  | some outs => ⟨outs.map fun v => v.setWidth 64, world, none⟩
  | none => ⟨[], world, some trap⟩

/-- The exact meaning of wide arithmetic, conditional moves and barriers, over a meaning of
all other operations. -/
def exact : Sem W E := fun i xs world =>
  match i.opc with
  | .movCond =>
    ⟨[movCond i.opType (condFromCarg (i.cargs.getD 0 0)) (xs.getD 0 0#64) (xs.getD 1 0#64) (xs.getD 2 0#64)
        (xs.getD 3 0#64)], world, none⟩
  | .mb => ⟨[], world, none⟩
  | .mulU2 | .mulS2 | .divU2 => wideEffect trap world (wideOp i.opc (xs.map (low i.opType)))
  | _ => other i xs world

theorem arith_i64 {opc : Opcode} {x y w : BitVec 64} (h : binOp opc x y = some w) :
    arith opc .i64 [x, y] = some w := by
  change (binOp opc (x.setWidth 64) (y.setWidth 64)).map (fun r => r.setWidth 64) = some w
  rw [BitVec.setWidth_eq, BitVec.setWidth_eq, h, Option.map_some, BitVec.setWidth_eq]

theorem arith_extrl (x : BitVec 64) : arith .extrlI64I32 .i32 [x] = some ((x.setWidth 32).setWidth 64) := by
  simp [arith, unOp, extOp, low, width]

theorem movCond_word (ty : IrType) (cond : Cond) (c1 c2 v1 v2 : BitVec (width ty)) :
    movCond ty cond (c1.setWidth 64) (c2.setWidth 64) (v1.setWidth 64) (v2.setWidth 64) =
      (if condHolds cond c1 c2 then v1 else v2).setWidth 64 := by
  unfold movCond
  rw [low_setWidth, low_setWidth]
  cases condHolds cond c1 c2 with
  | true => exact congrArg (BitVec.setWidth 64) (low_setWidth ty v1)
  | false => exact congrArg (BitVec.setWidth 64) (low_setWidth ty v2)

theorem condFromCarg_condCode (c : Cond) : condFromCarg (condCode c) = c := by cases c <;> rfl

variable {trap other} {base : Context} {old : TempIdx → BitVec 64} {world : W} {l : List (TempIdx × BitVec 64)}
variable {g : Gen} {σ : State W} {post : β → Gen → State W → Prop}

variable (hk : Knows base old world l g σ)
include hk

theorem Emits.genMovcond {ty ty' : IrType} {c1 c2 v1 v2 : TempIdx} {x1 x2 y1 y2 : BitVec 64} {cond : Cond}
    {f : TempIdx → Builder β} (h1 : (c1, x1) ∈ l) (h2 : (c2, x2) ∈ l) (h3 : (v1, y1) ∈ l) (h4 : (v2, y2) ∈ l)
    (h : ∀ d g' σ', Knows base old world ((d, movCond ty cond x1 x2 y1 y2) :: l) g' σ' →
      Emits (exact trap other) (f d) g' σ' post) :
    Emits (exact trap other) (newTemp ty' >>= fun d => genMovcond ty d c1 c2 v1 v2 cond >>= fun _ => f d)
    g σ post := by
  have hin : ∀ d, List.Forall₂ (fun t x => (t, x) ∈ l)
      (Op.withArgs .movCond ty [d, c1, c2, v1, v2, condCode cond]).iargs [x1, x2, y1, y2] := fun d =>
    .cons h1 (.cons h2 (.cons h3 (.cons h4 .nil)))
  have hdoes : ∀ d, Does (exact trap other) (instr (.withArgs .movCond ty [d, c1, c2, v1, v2, condCode cond]))
      [x1, x2, y1, y2] world [movCond ty cond x1 x2 y1 y2] world := by
    intro d
    refine Or.inr ⟨rfl, ?_⟩
    change (⟨[movCond ty (condFromCarg (condCode cond)) x1 x2 y1 y2], world, none⟩ : Effect W E) = _
    rw [condFromCarg_condCode]
  exact Emits.fresh hk hin hdoes (fun _ => rfl) fun d g' σ' _ _ _ => h d g' σ'

omit hk in
theorem iargs_withArgs {opc : Opcode} {outs srcs : List TempIdx} (ty : IrType) (houts : opc.info.nbOargs = outs.length)
    (hlen : opc.info.nbIargs = srcs.length) : (Op.withArgs opc ty (outs ++ srcs)).iargs = srcs := by
  simp only [Op.iargs, Op.withArgs, houts, hlen]
  apply List.ext_getElem
  · simp
  · intro i h₁ h₂
    simp [List.getD_eq_getElem?_getD, Nat.add_comm outs.length, h₂]

/-- Allocate a temporary and emit the arithmetic operation that computes it. -/
theorem Emits.freshArith {opc : Opcode} {ty ty' : IrType} {srcs : List TempIdx} {xs : List (BitVec 64)} {w : BitVec 64}
    {sem : Sem W E} {f : TempIdx → Builder β} (hin : List.Forall₂ (fun t x => (t, x) ∈ l) srcs xs)
    (hinfo : opc.info.nbOargs = 1 ∧ opc.info.nbIargs = srcs.length) (hw : arith opc ty xs = some w)
    (h : ∀ d g' σ', Extends g.ctx g'.ctx → Local base g'.ctx d → (∀ p ∈ l, p.1 ≠ d) →
      Knows base old world ((d, w) :: l) g' σ' → Emits sem (f d) g' σ' post) :
    Emits sem (newTemp ty' >>= fun d => emitOp (.withArgs opc ty (d :: srcs)) >>= fun _ => f d) g σ post := by
  have hiargs (d : TempIdx) : (Op.withArgs opc ty ([d] ++ srcs)).iargs = srcs := iargs_withArgs ty hinfo.1 hinfo.2
  have hout (d : TempIdx) : (Op.withArgs opc ty (d :: srcs)).oargs = [d] := by simp [Op.oargs, Op.withArgs, hinfo]
  exact Emits.fresh hk (fun d => (hiargs d).symm ▸ hin) (fun _ => Or.inl ⟨w, hw, rfl, rfl⟩) hout h

/-- Allocate two temporaries and emit the wide operation that computes both. -/
theorem Emits.freshWide {opc : Opcode} {ty ty' ty'' : IrType} {srcs : List TempIdx} {xs : List (BitVec 64)}
    {w w' : BitVec (width ty)} {f : TempIdx → TempIdx → Builder β}
    (hopc : opc = .mulU2 ∨ opc = .mulS2 ∨ opc = .divU2) (hlen : srcs.length = opc.info.nbIargs)
    (hin : List.Forall₂ (fun t x => (t, x) ∈ l) srcs xs) (hw : wideOp opc (xs.map (low ty)) = some [w, w'])
    (h : ∀ d d' g' σ', Local base g'.ctx d' → (∀ p ∈ (d, w.setWidth 64) :: l, p.1 ≠ d') →
      Knows base old world ((d, w.setWidth 64) :: (d', w'.setWidth 64) :: l) g' σ' →
        Emits (exact trap other) (f d d') g' σ' post) :
    Emits (exact trap other) (newTemp ty' >>= fun d => newTemp ty'' >>= fun d' =>
      emitOp (.withArgs opc ty (d :: d' :: srcs)) >>= fun _ => f d d') g σ post := by
  have houts : opc.info.nbOargs = 2 := by rcases hopc with rfl | rfl | rfl <;> rfl
  have hiargs (d d' : TempIdx) : (Op.withArgs opc ty ([d, d'] ++ srcs)).iargs = srcs :=
    iargs_withArgs ty houts hlen.symm
  have hout : ∀ d d', (Op.withArgs opc ty (d :: d' :: srcs)).oargs = [d, d'] := by
    intro d d'
    rcases hopc with rfl | rfl | rfl <;> rfl
  have hdoes : ∀ d d', Does (exact trap other) (instr (.withArgs opc ty (d :: d' :: srcs))) xs world
      [w.setWidth 64, w'.setWidth 64] world := by
    intro d d'
    have harith : arith opc ty xs = none := by
      rcases hopc with rfl | rfl | rfl <;> rcases xs with _ | ⟨_, _ | ⟨_, _ | _⟩⟩ <;> rfl
    refine Or.inr ⟨harith, ?_⟩
    have hexact : exact trap other (instr (.withArgs opc ty (d :: d' :: srcs))) xs world =
        wideEffect trap world (wideOp opc (xs.map (low ty))) := by
      rcases hopc with rfl | rfl | rfl <;> rfl
    rw [hexact, hw]
    rfl
  exact Emits.fresh₂ hk (fun d d' => (hiargs d d').symm ▸ hin) hdoes hout h

end

end MachinaRvTrans
