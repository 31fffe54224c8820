import Machina.OptimizePaths
import Machina.Codegen

/-!
# Generating intermediate code

The builder functions that the instruction translators call: they allocate
temporaries, look up constants and append operations. `Emits` says what the
operations appended by a piece of translator do when they are executed, whatever
operations stand before and after them; its rules follow the translator statement
by statement and keep a list of temporaries with the words they hold.
-/

namespace MachinaIrGen

open MachinaIr MachinaIrSem MachinaOptimizeSound MachinaCodegen

/-- The translation context with the operations emitted so far. -/
structure Gen where
  ctx : Context
  ops : List Op

abbrev Builder := StateM Gen

/-- The context with one more temporary. -/
def pushTemp (ctx : Context) (ty : IrType) : Context :=
  { ctx with temps := Function.update ctx.temps ctx.nbTemps (.newEbb ty), nbTemps := ctx.nbTemps + 1 }

section

variable (ty : IrType)

def newTemp : Builder TempIdx := fun g => (g.ctx.nbTemps, { g with ctx := pushTemp g.ctx ty })

/-- Get or create a constant temporary. -/
def newConst (ty : IrType) (val : BitVec 64) : Builder TempIdx := fun g =>
  ((g.ctx.newConst ty val).2, { g with ctx := (g.ctx.newConst ty val).1 })

def emitOp (op : Op) : Builder Unit := fun g => ((), { g with ops := g.ops ++ [op] })

def emitBinary (opc : Opcode) (ty : IrType) (d a b : TempIdx) : Builder Unit := emitOp (.withArgs opc ty [d, a, b])
def emitUnary (opc : Opcode) (ty : IrType) (d s : TempIdx) : Builder Unit := emitOp (.withArgs opc ty [d, s])

def genAdd : IrType → TempIdx → TempIdx → TempIdx → Builder Unit := emitBinary .add
def genSub : IrType → TempIdx → TempIdx → TempIdx → Builder Unit := emitBinary .sub
def genMul : IrType → TempIdx → TempIdx → TempIdx → Builder Unit := emitBinary .mul
def genAnd : IrType → TempIdx → TempIdx → TempIdx → Builder Unit := emitBinary .and
def genOr : IrType → TempIdx → TempIdx → TempIdx → Builder Unit := emitBinary .or
def genXor : IrType → TempIdx → TempIdx → TempIdx → Builder Unit := emitBinary .xor
def genSar : IrType → TempIdx → TempIdx → TempIdx → Builder Unit := emitBinary .sar
def genMov : IrType → TempIdx → TempIdx → Builder Unit := emitUnary .mov
def genExtI32I64 : TempIdx → TempIdx → Builder Unit := emitUnary .extI32I64 .i64
def genExtU32I64 : TempIdx → TempIdx → Builder Unit := emitUnary .extUI32I64 .i64
def genExtrlI64I32 : TempIdx → TempIdx → Builder Unit := emitUnary .extrlI64I32 .i32

def genMuls2 (dl dh a b : TempIdx) : Builder Unit := emitOp (.withArgs .mulS2 ty [dl, dh, a, b])
def genMulu2 (dl dh a b : TempIdx) : Builder Unit := emitOp (.withArgs .mulU2 ty [dl, dh, a, b])

def genDivu2 (dl dh al ah b : TempIdx) : Builder Unit :=
  emitOp (.withArgs .divU2 ty [dl, dh, al, ah, b])

def genMovcond (d c1 c2 v1 v2 : TempIdx) (cond : Cond) : Builder Unit :=
  emitOp (.withArgs .movCond ty [d, c1, c2, v1, v2, condCode cond])

def genMb (barType : Nat) : Builder Unit := emitOp (.withArgs .mb .i64 [barType])

def genQemuLd (dst addr : TempIdx) (memop : Nat) : Builder Unit :=
  emitOp (.withArgs .qemuLd ty [dst, addr, memop])

def genQemuSt (val addr : TempIdx) (memop : Nat) : Builder Unit :=
  emitOp (.withArgs .qemuSt ty [val, addr, memop])

/-- A helper call has six argument slots, filled up with zero; the address is split in two. -/
def genCall (dst : TempIdx) (helper : BitVec 64) (args : List TempIdx) : Builder Unit := do
  let z ← newConst .i64 0#64
  emitOp (.withArgs .call .i64
    (dst :: (List.range 6).map (fun i => args.getD i z) ++
      [(helper.setWidth 32).toNat, ((helper >>> 32).setWidth 32).toNat]))

/-! ## What emitted operations do -/

end

section

variable {W E α β : Type} (sem : Sem W E)

theorem run_append (ctx : Context) (ops ops' : List Op) (σ σ' : State W) (h : run sem ctx ops σ = (σ', none)) :
    run sem ctx (ops ++ ops') σ = run sem ctx ops' σ' := by
  induction ops generalizing σ with
  | nil =>
    cases h
    rfl
  | cons op rest ih =>
    rw [run] at h
    rw [List.cons_append, run]
    cases hexec : exec sem ctx op σ with
    | mk σ1 exit =>
      rw [hexec] at h
      cases exit with
      | none => exact ih σ1 h
      | some e => cases h

/-- The operations that a piece of translator appends are executed from `σ` to their end,
in any context that extends the one left behind, and lead to `post`. -/
def Emits (m : Builder α) (g : Gen) (σ : State W) (post : α → Gen → State W → Prop) : Prop :=
  ∃ added σ', (m g).2.ops = g.ops ++ added ∧ Extends g.ctx (m g).2.ctx ∧ ConstsOk (m g).2.ctx ∧
    (∀ ctx', Extends (m g).2.ctx ctx' → run sem ctx' added σ = (σ', none)) ∧ post (m g).1 (m g).2 σ'

variable {sem}

theorem Emits.pure {g : Gen} {σ : State W} {post : α → Gen → State W → Prop} {a : α} (hg : ConstsOk g.ctx)
    (h : post a g σ) : Emits sem (Pure.pure a) g σ post :=
  ⟨[], σ, (List.append_nil _).symm, .refl _, hg, fun _ _ => rfl, h⟩

theorem Emits.imp {m : Builder α} {g : Gen} {σ : State W} {post post' : α → Gen → State W → Prop}
    (h : Emits sem m g σ post) (himp : ∀ a g' σ', post a g' σ' → post' a g' σ') : Emits sem m g σ post' := by
  obtain ⟨added, σ', hops, hext, hconsts, hrun, hpost⟩ := h
  exact ⟨added, σ', hops, hext, hconsts, hrun, himp _ _ _ hpost⟩

theorem Emits.bind {m : Builder α} {f : α → Builder β} {g : Gen} {σ : State W} {post : β → Gen → State W → Prop}
    (h : Emits sem m g σ fun a g' σ' => Emits sem (f a) g' σ' post) : Emits sem (m >>= f) g σ post := by
  obtain ⟨added, σ1, hops, hext, _, hrun, added', σ2, hops', hext', hconsts', hrun', hpost⟩ := h
  refine ⟨added ++ added', σ2, ?_, hext.trans hext', hconsts', fun ctx' hctx => ?_, hpost⟩
  · rw [← List.append_assoc, ← hops]
    exact hops'
  · rw [run_append sem ctx' added added' σ σ1 (hrun ctx' (hext'.trans hctx))]
    exact hrun' ctx' hctx

/-- What is known while a translator runs: the temporaries of the context `base` it started
in hold the words `old`, the world is `world`, and the listed temporaries hold the listed words. -/
structure Knows (base : Context) (old : TempIdx → BitVec 64) (world : W) (l : List (TempIdx × BitVec 64))
    (g : Gen) (σ : State W) : Prop where
  consts : ConstsOk g.ctx
  ext : Extends base g.ctx
  old : ∀ t, t < base.nbTemps → value g.ctx σ.vals t = old t
  world : σ.world = world
  listed : ∀ p ∈ l, p.1 < g.ctx.nbTemps ∧ value g.ctx σ.vals p.1 = p.2

variable {base : Context} {old : TempIdx → BitVec 64} {world : W} {l : List (TempIdx × BitVec 64)}
variable {g : Gen} {σ : State W} {post : β → Gen → State W → Prop}

theorem Knows.start (hg : ConstsOk g.ctx) (σ : State W) : Knows g.ctx (value g.ctx σ.vals) σ.world [] g σ :=
  ⟨hg, .refl _, fun _ _ => rfl, rfl, List.forall_mem_nil _⟩

/-- Nothing is forgotten when the context grows. -/
theorem Knows.extend {ctx' : Context} (h : Knows base old world l g σ) (hext : Extends g.ctx ctx')
    (hconsts : ConstsOk ctx') : Knows base old world l { g with ctx := ctx' } σ where
  consts := hconsts
  ext := h.ext.trans hext
  old t ht := (hext.value (ht.trans_le h.ext.le) _).trans (h.old t ht)
  world := h.world
  listed p hp := ⟨(h.listed p hp).1.trans_le hext.le, (hext.value (h.listed p hp).1 _).trans (h.listed p hp).2⟩

theorem Knows.cons (h : Knows base old world l g σ) {t : TempIdx} {w : BitVec 64} (ht : t < g.ctx.nbTemps)
    (hw : value g.ctx σ.vals t = w) : Knows base old world ((t, w) :: l) g σ :=
  ⟨h.consts, h.ext, h.old, h.world, List.forall_mem_cons.mpr ⟨⟨ht, hw⟩, h.listed⟩⟩

/-- A temporary that existed at the start can be listed at any time. -/
theorem Knows.cons_old (h : Knows base old world l g σ) {t : TempIdx} (ht : t < base.nbTemps) :
    Knows base old world ((t, old t) :: l) g σ :=
  h.cons (ht.trans_le h.ext.le) (h.old t ht)

theorem Emits.newConst {ty : IrType} {v : BitVec 64} {f : TempIdx → Builder β}
    (hk : Knows base old world l g σ) (hv : Fits ty v)
    (h : ∀ c g', Extends g.ctx g'.ctx → Knows base old world ((c, v) :: l) g' σ → Emits sem (f c) g' σ post) :
    Emits sem (newConst ty v >>= f) g σ post := by
  have hc := newConst_spec hk.consts hv
  apply Emits.bind
  refine ⟨[], σ, (List.append_nil _).symm, hc.extends', hc.consts, fun _ _ => rfl, ?_⟩
  apply h _ _ hc.extends'
  exact (hk.extend hc.extends' hc.consts).cons hc.lt (hc.value σ.vals)

/-- A local temporary of the translator: newer than the start, and not a constant. -/
structure Local (base ctx : Context) (d : TempIdx) : Prop where
  ge : base.nbTemps ≤ d
  lt : d < ctx.nbTemps
  temp : (ctx.temps d).isConst = false

theorem Local.extend {d : TempIdx} {ctx ctx' : Context} (h : Local base ctx d) (hext : Extends ctx ctx') :
    Local base ctx' d where
  ge := h.ge
  lt := h.lt.trans_le hext.le
  temp := by rw [hext.temps d h.lt, h.temp]

theorem pushTemp_extends (ctx : Context) (ty : IrType) : Extends ctx (pushTemp ctx ty) :=
  ⟨Nat.le_succ _, fun _ ht => Function.update_of_ne ht.ne _ _⟩

theorem pushTemp_new (ctx : Context) (ty : IrType) : (pushTemp ctx ty).temps ctx.nbTemps = .newEbb ty :=
  Function.update_self ..

theorem pushTemp_consts {ctx : Context} (ty : IrType) (h : ConstsOk ctx) : ConstsOk (pushTemp ctx ty) where
  table ty' v c hc := by
    obtain ⟨hlt, hconst⟩ := h.table ty' v c hc
    rw [(pushTemp_extends ctx ty).temps c hlt]
    exact ⟨hlt.trans (Nat.lt_succ_self _), hconst⟩
  fits t ht hconst := by
    rcases Nat.lt_succ_iff_lt_or_eq.mp ht with hlt | rfl
    · rw [(pushTemp_extends ctx ty).temps t hlt] at hconst ⊢
      exact h.fits t hlt hconst
    · rw [pushTemp_new] at hconst
      cases hconst

/-- A new temporary is none of those listed; it is listed with the word it happens to hold. -/
theorem Emits.newTemp {ty : IrType} {f : TempIdx → Builder β} (hk : Knows base old world l g σ)
    (h : ∀ d g', Extends g.ctx g'.ctx → Local base g'.ctx d → (∀ p ∈ l, p.1 ≠ d) →
      Knows base old world ((d, σ.vals d) :: l) g' σ → Emits sem (f d) g' σ post) :
    Emits sem (newTemp ty >>= f) g σ post := by
  have hext := pushTemp_extends g.ctx ty
  have hconsts := pushTemp_consts ty hk.consts
  have htemp : ((pushTemp g.ctx ty).temps g.ctx.nbTemps).isConst = false := by
    rw [pushTemp_new]
    rfl
  apply Emits.bind
  refine ⟨[], σ, (List.append_nil _).symm, hext, hconsts, fun _ _ => rfl, ?_⟩
  refine h _ _ hext ⟨hk.ext.le, Nat.lt_succ_self _, htemp⟩ (fun p hp => (hk.listed p hp).1.ne) ?_
  refine (hk.extend hext hconsts).cons (Nat.lt_succ_self _) ?_
  exact if_neg (ne_true_of_eq_false htemp)

/-- What an operation does with given inputs: it computes, or the semantics says what it does. -/
def Does (sem : Sem W E) (i : Instr) (inputs : List (BitVec 64)) (world : W) (outputs : List (BitVec 64))
    (world' : W) : Prop :=
  (∃ v, arith i.opc i.opType inputs = some v ∧ outputs = [v] ∧ world' = world) ∨
    (arith i.opc i.opType inputs = none ∧ sem i inputs world = ⟨outputs, world', none⟩)

theorem exec_of_does {op : Op} {inputs outputs : List (BitVec 64)} {world' : W}
    (h : Does sem (instr op) inputs σ.world outputs world') :
    ∃ σ', σ'.vals = setOutputs σ.vals op.oargs outputs ∧ σ'.world = world' ∧
      ∀ ctx, op.iargs.map (value ctx σ.vals) = inputs → exec sem ctx op σ = (σ', none) := by
  obtain ⟨v, harith, rfl, rfl⟩ | ⟨harith, heff⟩ := h
  · refine ⟨{ σ with vals := setOutputs σ.vals op.oargs [v] }, rfl, rfl, fun ctx hin => ?_⟩
    have harith' : arith op.opc op.opType inputs = some v := harith
    simp [exec, hin, harith']
  refine ⟨⟨setOutputs σ.vals op.oargs outputs, world',
    if accessesMemory op.opc then σ.trace ++ [⟨instr op, inputs⟩] else σ.trace⟩, rfl, rfl, fun ctx hin => ?_⟩
  have harith' : arith op.opc op.opType inputs = none := harith
  simp [exec, hin, harith', heff]

theorem value_setOutputs_of_mem {ctx : Context} {ds : List TempIdx} {ws : List (BitVec 64)} {d : TempIdx}
    {w : BitVec 64} (vals : TempIdx → BitVec 64) (hnodup : ds.Nodup) (hd : (ctx.temps d).isConst = false)
    (h : (d, w) ∈ ds.zip ws) : value ctx (setOutputs vals ds ws) d = w := by
  induction ds generalizing ws vals with
  | nil => cases h
  | cons d' ds ih =>
    cases ws with
    | nil => cases h
    | cons w' ws =>
      obtain ⟨hnot, hrest⟩ := List.nodup_cons.mp hnodup
      rw [setOutputs]
      rcases List.mem_cons.mp h with heq | hmem
      · cases heq
        rw [value_setOutputs ws hnot, value_update_self hd]
      · exact ih _ hrest hmem

variable (hk : Knows base old world l g σ)
include hk

/-- The outputs of an operation are listed, and what is listed of other temporaries stays. -/
theorem Knows.outputs {σ' : State W} {world' : W} {ds : List TempIdx} {ws : List (BitVec 64)}
    {l' : List (TempIdx × BitVec 64)} (hds : ∀ d ∈ ds, Local base g.ctx d)
    (hnodup : ds.Nodup) (hkeep : ∀ p ∈ l', p ∈ l ∧ p.1 ∉ ds) (hvals : σ'.vals = setOutputs σ.vals ds ws)
    (hworld : σ'.world = world') : Knows base old world' (ds.zip ws ++ l') g σ' where
  consts := hk.consts
  ext := hk.ext
  old t ht := by
    have hnot : t ∉ ds := fun hmem => Nat.not_lt.mpr (hds t hmem).ge ht
    rw [hvals, value_setOutputs ws hnot]
    exact hk.old t ht
  world := hworld
  listed p hp := by
    rw [hvals]
    rcases List.mem_append.mp hp with hout | hkept
    · have hlocal := hds p.1 (List.of_mem_zip hout).1
      exact ⟨hlocal.lt, value_setOutputs_of_mem σ.vals hnodup hlocal.temp hout⟩
    obtain ⟨hmem, hnot⟩ := hkeep p hkept
    rw [value_setOutputs ws hnot]
    exact hk.listed p hmem

/-- The state after one operation whose inputs are listed. -/
theorem Knows.exec {op : Op} {inputs outputs : List (BitVec 64)} {world' : W}
    (hin : List.Forall₂ (fun t x => (t, x) ∈ l) op.iargs inputs)
    (hdoes : Does sem (instr op) inputs world outputs world') :
    ∃ σ', σ'.vals = setOutputs σ.vals op.oargs outputs ∧ σ'.world = world' ∧
      ∀ ctx', Extends g.ctx ctx' → run sem ctx' [op] σ = (σ', none) := by
  rw [← hk.world] at hdoes
  obtain ⟨σ', hvals, hworld, hexec⟩ := exec_of_does hdoes
  refine ⟨σ', hvals, hworld, fun ctx' hctx => ?_⟩
  have hlisted : List.Forall₂ (fun t x => value ctx' σ.vals t = x) op.iargs inputs := by
    apply hin.imp
    intro t x htx
    obtain ⟨hlt, hval⟩ := hk.listed _ htx
    exact (hctx.value hlt _).trans hval
  have hequal := List.forall₂_map_left_iff.mpr hlisted
  rw [List.forall₂_eq_eq_eq] at hequal
  rw [run, hexec ctx' hequal]
  rfl

theorem Emits.op {op : Op} {inputs outputs : List (BitVec 64)} {world' : W} {f : Unit → Builder β}
    {l' : List (TempIdx × BitVec 64)} (hin : List.Forall₂ (fun t x => (t, x) ∈ l) op.iargs inputs)
    (hdoes : Does sem (instr op) inputs world outputs world') (hout : ∀ d ∈ op.oargs, Local base g.ctx d)
    (hnodup : op.oargs.Nodup) (hkeep : ∀ p ∈ l', p ∈ l ∧ p.1 ∉ op.oargs)
    (h : ∀ g' σ', Extends g.ctx g'.ctx → Knows base old world' (op.oargs.zip outputs ++ l') g' σ' →
      Emits sem (f ()) g' σ' post) : Emits sem (emitOp op >>= f) g σ post := by
  obtain ⟨σ', hvals, hworld, hrun⟩ := hk.exec hin hdoes
  have hk' := hk.outputs hout hnodup hkeep hvals hworld
  apply Emits.bind
  refine ⟨[op], σ', rfl, .refl _, hk.consts, hrun, ?_⟩
  exact h _ _ (.refl _) ⟨hk'.consts, hk'.ext, hk'.old, hk'.world, hk'.listed⟩

/-- Allocate a temporary and emit the operation that computes it. -/
theorem Emits.fresh {ty : IrType} {op : TempIdx → Op} {inputs : List (BitVec 64)} {w : BitVec 64} {world' : W}
    {f : TempIdx → Builder β} (hin : ∀ d, List.Forall₂ (fun t x => (t, x) ∈ l) (op d).iargs inputs)
    (hdoes : ∀ d, Does sem (instr (op d)) inputs world [w] world') (hout : ∀ d, (op d).oargs = [d])
    (h : ∀ d g' σ', Extends g.ctx g'.ctx → Local base g'.ctx d → (∀ p ∈ l, p.1 ≠ d) →
      Knows base old world' ((d, w) :: l) g' σ' → Emits sem (f d) g' σ' post) :
    Emits sem (MachinaIrGen.newTemp ty >>= fun d => emitOp (op d) >>= fun _ => f d) g σ post := by
  apply Emits.newTemp hk
  intro d g1 hext1 hd hfresh hk1
  have hin1 := (hin d).imp fun _ _ => List.mem_cons_of_mem (d, σ.vals d)
  have hlocal : ∀ t ∈ (op d).oargs, Local base g1.ctx t := by
    rw [hout]
    exact fun t ht => List.mem_singleton.mp ht ▸ hd
  have hnodup : (op d).oargs.Nodup := by
    rw [hout]
    exact List.nodup_singleton d
  have hkeep : ∀ p ∈ l, p ∈ (d, σ.vals d) :: l ∧ p.1 ∉ (op d).oargs := by
    intro p hp
    rw [hout]
    exact ⟨List.mem_cons_of_mem _ hp, fun hmem => hfresh p hp (List.mem_singleton.mp hmem)⟩
  apply Emits.op hk1 hin1 (hdoes d) hlocal hnodup hkeep
  intro g2 σ2 hext hk2
  rw [hout] at hk2
  exact h d g2 σ2 (hext1.trans hext) (hd.extend hext) hfresh hk2

/-- Allocate two temporaries and emit the operation that computes both. -/
theorem Emits.fresh₂ {ty ty' : IrType} {op : TempIdx → TempIdx → Op} {inputs : List (BitVec 64)} {w w' : BitVec 64}
    {f : TempIdx → TempIdx → Builder β} (hin : ∀ d d', List.Forall₂ (fun t x => (t, x) ∈ l) (op d d').iargs inputs)
    (hdoes : ∀ d d', Does sem (instr (op d d')) inputs world [w, w'] world) (hout : ∀ d d', (op d d').oargs = [d, d'])
    (h : ∀ d d' g' σ', Local base g'.ctx d' → (∀ p ∈ (d, w) :: l, p.1 ≠ d') →
      Knows base old world ((d, w) :: (d', w') :: l) g' σ' → Emits sem (f d d') g' σ' post) :
    Emits sem (MachinaIrGen.newTemp ty >>= fun d => MachinaIrGen.newTemp ty' >>= fun d' =>
      emitOp (op d d') >>= fun _ => f d d') g σ post := by
  apply Emits.newTemp hk
  intro d g1 _ hd hfresh hk1
  apply Emits.newTemp hk1
  intro d' g2 hext2 hd' hfresh' hk2
  have hne : d ≠ d' := hfresh' (d, σ.vals d) (List.mem_cons_self ..)
  have hin2 := (hin d d').imp fun _ _ hmem =>
    List.mem_cons_of_mem (d', σ.vals d') (List.mem_cons_of_mem (d, σ.vals d) hmem)
  have hlocal : ∀ t ∈ (op d d').oargs, Local base g2.ctx t := by
    rw [hout]
    exact List.forall_mem_cons.mpr ⟨hd.extend hext2, fun t ht => List.mem_singleton.mp ht ▸ hd'⟩
  have hnodup : (op d d').oargs.Nodup := by
    rw [hout]
    exact List.nodup_cons.mpr ⟨fun hmem => hne (List.mem_singleton.mp hmem), List.nodup_singleton d'⟩
  have hkeep : ∀ p ∈ l, p ∈ (d', σ.vals d') :: (d, σ.vals d) :: l ∧ p.1 ∉ (op d d').oargs := by
    intro p hp
    rw [hout]
    refine ⟨List.mem_cons_of_mem _ (List.mem_cons_of_mem _ hp), fun hmem => ?_⟩
    rcases List.mem_cons.mp hmem with heq | hmem'
    · exact hfresh p hp heq
    · exact hfresh' p (List.mem_cons_of_mem _ hp) (List.mem_singleton.mp hmem')
  apply Emits.op hk2 hin2 (hdoes d d') hlocal hnodup hkeep
  intro g3 σ3 hext3 hk3
  rw [hout] at hk3
  refine h d d' g3 σ3 (hd'.extend hext3) (fun p hp => ?_) hk3
  rcases List.mem_cons.mp hp with rfl | hmem
  · exact hne
  · exact hfresh' p (List.mem_cons_of_mem _ hmem)

/-- Emit an operation that writes a temporary that existed at the start. -/
theorem Emits.write {op : Op} {inputs : List (BitVec 64)} {w : BitVec 64} {world' : W} {t : TempIdx}
    {f : Unit → Builder β} {l' : List (TempIdx × BitVec 64)}
    (hin : List.Forall₂ (fun t x => (t, x) ∈ l) op.iargs inputs)
    (hdoes : Does sem (instr op) inputs world [w] world') (hout : op.oargs = [t]) (ht : t < base.nbTemps)
    (hbase : (base.temps t).isConst = false) (hkeep : ∀ p ∈ l', p ∈ l ∧ p.1 ≠ t)
    (h : ∀ g' σ', Extends g.ctx g'.ctx → Knows base (Function.update old t w) world' l' g' σ' →
      Emits sem (f ()) g' σ' post) : Emits sem (emitOp op >>= f) g σ post := by
  obtain ⟨σ', hvals, hworld, hrun⟩ := hk.exec hin hdoes
  rw [hout] at hvals
  have htemp : (g.ctx.temps t).isConst = false := by rw [hk.ext.temps t ht, hbase]
  have hvals' : σ'.vals = Function.update σ.vals t w := hvals
  apply Emits.bind
  refine ⟨[op], σ', rfl, .refl _, hk.consts, hrun, h _ _ (.refl _) ⟨hk.consts, hk.ext, ?_, hworld, ?_⟩⟩
  · intro t' ht'
    change value g.ctx σ'.vals t' = _
    rw [hvals']
    by_cases heq : t' = t
    · rw [heq, value_update_self htemp, Function.update_self]
    · rw [value_update_of_ne heq, Function.update_of_ne heq, hk.old t' ht']
  · intro p hp
    obtain ⟨hmem, hne⟩ := hkeep p hp
    rw [hvals', value_update_of_ne hne]
    exact hk.listed p hmem

end

end MachinaIrGen
