import Machina.OptimizeSound
import Machina.Runs

/-!
# Known constants and the paths through a block

A block with labels, branches and helper calls is executed as a path through the
indices of its operations. The table of the pass belongs to an index, not to a
path: its constants are right on every path that never jumps to a label with
constants the branch does not know, and never calls a helper that may write a
global the table calls constant.
-/

namespace MachinaOptimizePaths

open MachinaIr MachinaIrSem MachinaOptimize MachinaOptimizeSound MachinaRuns

def condHolds {w : Nat} (cond : Cond) (x y : BitVec w) : Bool :=
  match cond with
  | .always => true
  | .never => false
  | .eq => decide (x = y)
  | .ne => decide (x ≠ y)
  | .lt => x.slt y
  | .ge => y.sle x
  | .le => x.sle y
  | .gt => y.slt x
  | .ltu => x.ult y
  | .geu => y.ule x
  | .leu => x.ule y
  | .gtu => y.ult x
  | .tstEq => decide (x &&& y = 0#w)
  | .tstNe => decide (x &&& y ≠ 0#w)

def branchLabel (op : Op) : Option Nat :=
  match op.opc with
  | .br => some (op.args 0)
  | .brCond => some (op.args 3)
  | .brCond2I32 => some (op.args 5)
  | _ => none

/-- Whether a branch with these inputs is taken. -/
def branchTaken (op : Op) (inputs : List (BitVec 64)) : Bool :=
  match op.opc, inputs with
  | .br, _ => true
  | .brCond, [x, y] => condHolds (condFromCarg (op.args 2)) (low op.opType x) (low op.opType y)
  | .brCond2I32, [al, ah, bl, bh] =>
    condHolds (condFromCarg (op.args 4)) (ah.setWidth 32 ++ al.setWidth 32) (bh.setWidth 32 ++ bl.setWidth 32)
  | _, _ => false

def labelIndex (ops : List Op) (label : Nat) : Option Nat :=
  ops.findIdx? fun op => decide (op.opc = .setLabel ∧ op.args 0 = label)

/-- How a path goes on. -/
inductive Flow where
  | next | jump | call
  deriving DecidableEq, Repr

abbrev Config (W : Type) := Nat × State W

section Paths

variable {W E : Type} (sem : Sem W E) (mayWrite : Op → TempIdx → Bool) (ctx : Context) (ops : List Op)

def taken (op : Op) (σ : State W) : Bool := branchTaken op (op.iargs.map (value ctx σ.vals))

/-- One step of a path. A helper returns any outputs and changes any of the globals it may write. -/
inductive PathStep : Config W → Flow → Config W → Prop where
  | next {i : Nat} {σ σ' : State W} {op : Op} (hop : ops[i]? = some op) (hcall : op.opc ≠ .call)
      (hnot : taken ctx op σ = false) (hexec : exec sem ctx op σ = (σ', none)) : PathStep (i, σ) .next (i + 1, σ')
  | jump {i j label : Nat} {σ : State W} {op : Op} (hop : ops[i]? = some op) (htaken : taken ctx op σ = true)
      (hlabel : branchLabel op = some label) (hindex : labelIndex ops label = some j) :
      PathStep (i, σ) .jump (j, σ)
  | call {i : Nat} {σ σ' : State W} {op : Op} (hop : ops[i]? = some op) (hcall : op.opc = .call)
      (hframe : ∀ t, t ∉ op.oargs → ((ctx.temps t).kind = .global → mayWrite op t = false) → σ'.vals t = σ.vals t) :
      PathStep (i, σ) .call (i + 1, σ')

/-- The state of the pass when it comes to the operation at an index. -/
def tableAt (i : Nat) : OptState := (optimizeOps ⟨ctx, seedInfo ctx⟩ (ops.take i)).1

/-- The stale records of copies at an index. -/
def staleAt : Nat → TempIdx → Bool
  | 0 => fun _ => false
  | i + 1 =>
    match ops[i]? with
    | some op => staleAfter (tableAt ctx ops (i + 1)).info op.oargs (staleAt i)
    | none => staleAt i

/-- What the pass needs of a step: what it needs of an operation; at a jump, that the constants it
knows at the label are known at the branch; at a call, that it calls no global constant that the
helper may write. -/
def PathOk (c : Config W) : Flow → Prop
  | .next => ∀ op ∈ ops[c.1]?, StepOk ctx (tableAt ctx ops c.1).info (staleAt ctx ops c.1) c.2.vals op
  | .jump =>
    ∀ op ∈ ops[c.1]?, ∀ label ∈ branchLabel op, ∀ j ∈ labelIndex ops label, ∀ t < (tableAt ctx ops j).ctx.nbTemps,
      ((tableAt ctx ops j).ctx.temps t).isConst = false → ((tableAt ctx ops j).info t).isConst = true →
        ((tableAt ctx ops c.1).info t).isConst = true ∧
          ((tableAt ctx ops c.1).info t).val = ((tableAt ctx ops j).info t).val
  | .call =>
    ∀ op ∈ ops[c.1]?, ∀ t < (tableAt ctx ops c.1).ctx.nbTemps, t ∉ op.oargs → (ctx.temps t).kind = .global →
      mayWrite op t = true → ((tableAt ctx ops c.1).info t).isConst = false

end Paths

/-- The temporary holds the word, truncated to its type. -/
def Holds (ctx : Context) (vals : TempIdx → BitVec 64) (t : TempIdx) (v : BitVec 64) : Prop :=
  low (ctx.temps t).ty (value ctx vals t) = low (ctx.temps t).ty v

instance (ctx : Context) (vals : TempIdx → BitVec 64) (t : TempIdx) (v : BitVec 64) : Decidable (Holds ctx vals t v) :=
  inferInstanceAs (Decidable (_ = _))

theorem optimizeOps_append (st : OptState) (xs ys : List Op) :
    (optimizeOps st (xs ++ ys)).1 = (optimizeOps (optimizeOps st xs).1 ys).1 := by
  induction xs generalizing st with
  | nil => rfl
  | cons op rest ih => exact ih _

section Table

variable {ctx : Context} {ops : List Op}

theorem tableAt_succ {i : Nat} {op : Op} (h : ops[i]? = some op) :
    tableAt ctx ops (i + 1) = (optimizeOp (tableAt ctx ops i) op).1 := by
  rw [tableAt, List.take_add_one, h, optimizeOps_append]
  rfl

theorem staleAt_succ {i : Nat} {op : Op} (h : ops[i]? = some op) :
    staleAt ctx ops (i + 1) = staleAfter (tableAt ctx ops (i + 1)).info op.oargs (staleAt ctx ops i) := by
  rw [staleAt, h]

variable (hctx : ConstsOk ctx) (hops : ∀ op ∈ ops, OpOk ctx op)

include hctx hops

theorem tableAt_keeps (i : Nat) : Extends ctx (tableAt ctx ops i).ctx ∧ StateOk (tableAt ctx ops i) :=
  optimizeOps_keeps (stateOk_seedInfo hctx) (.refl ctx) fun op hmem => hops op (List.mem_of_mem_take hmem)

theorem tableAt_extends {i j : Nat} (h : i ≤ j) : Extends (tableAt ctx ops i).ctx (tableAt ctx ops j).ctx := by
  have htake : (ops.take j).take i = ops.take i := by rw [List.take_take, Nat.min_eq_left h]
  have hsplit : tableAt ctx ops j = (optimizeOps (tableAt ctx ops i) ((ops.take j).drop i)).1 := by
    rw [tableAt, tableAt, ← optimizeOps_append, ← htake, List.take_append_drop]
  obtain ⟨hext, hok⟩ := tableAt_keeps hctx hops i
  rw [hsplit]
  exact (optimizeOps_keeps hok hext fun op hmem => hops op (List.mem_of_mem_take (List.mem_of_mem_drop hmem))).1

theorem tableAt_temps {i j : Nat} {t : TempIdx} (hi : t < (tableAt ctx ops i).ctx.nbTemps)
    (hj : t < (tableAt ctx ops j).ctx.nbTemps) :
    (tableAt ctx ops j).ctx.temps t = (tableAt ctx ops i).ctx.temps t := by
  rcases Nat.le_total i j with hij | hij
  · exact (tableAt_extends hctx hops hij).temps t hi
  · exact ((tableAt_extends hctx hops hij).temps t hj).symm

end Table

/-- A table without copies has no stale ones. -/
theorem agrees_of_no_copies {ctx : Context} {info : Info} {vals : TempIdx → BitVec 64}
    (hconst : ∀ t, (info t).isConst = true → value ctx vals t = (info t).val) (hcopy : ∀ t, (info t).copyOf = none)
    (stale : TempIdx → Bool) : Agrees ctx info stale vals :=
  ⟨hconst, fun t s hts => absurd hts (by simp [hcopy])⟩

theorem optimizeOp_brCond {st : OptState} {op : Op} (h : op.opc = .brCond) : (optimizeOp st op).1 = st := by
  have hb : isBoundary .brCond = false := rfl
  have hs : isSkipped .brCond = false := by decide
  simp [optimizeOp, h, hb, hs, isUnary, isExt, isBinary]

theorem optimizeOp_boundary {st : OptState} {op : Op} (h : isBoundary op.opc = true) :
    (optimizeOp st op).1 = { st with info := resetCopies (invalidateOutputs st.ctx st.info op.oargs) } := by
  rw [optimizeOp, if_pos h]

theorem staleAfter_nil (info : Info) (stale : TempIdx → Bool) : staleAfter info [] stale = stale := by
  funext t
  simp [staleAfter]

theorem labelIndex_spec {ops : List Op} {label j : Nat} (h : labelIndex ops label = some j) :
    ∃ op, ops[j]? = some op ∧ op.opc = .setLabel := by
  obtain ⟨hlt, hset, -⟩ := List.findIdx?_eq_some_iff_getElem.mp h
  exact ⟨ops[j], List.getElem?_eq_getElem hlt, (of_decide_eq_true hset).1⟩

section Invariant

variable {W E : Type} {sem : Sem W E} {mayWrite : Op → TempIdx → Bool} {ctx : Context} {ops : List Op}

/-- At every index the table is right about the state; at a label its copies need not be. -/
def Inv (ctx : Context) (ops : List Op) (c : Config W) : Prop :=
  Agrees (tableAt ctx ops c.1).ctx (tableAt ctx ops c.1).info (staleAt ctx ops c.1) c.2.vals ∨
    (∃ op, ops[c.1]? = some op ∧ op.opc = .setLabel) ∧
      Agrees (tableAt ctx ops c.1).ctx (tableAt ctx ops c.1).info (fun _ => true) c.2.vals

theorem Inv.const {c : Config W} (h : Inv ctx ops c) {t : TempIdx}
    (ht : ((tableAt ctx ops c.1).info t).isConst = true) :
    value (tableAt ctx ops c.1).ctx c.2.vals t = ((tableAt ctx ops c.1).info t).val :=
  h.elim (fun h => h.const t ht) fun h => h.2.const t ht

variable (hctx : ConstsOk ctx) (hops : ∀ op ∈ ops, OpOk ctx op)

include hctx hops

theorem inv_next {i : Nat} {σ σ' : State W} {op : Op} (h : Inv ctx ops (i, σ)) (hop : ops[i]? = some op)
    (hok : StepOk ctx (tableAt ctx ops i).info (staleAt ctx ops i) σ.vals op)
    (hexec : (exec sem ctx op σ).1 = σ') : Inv ctx ops (i + 1, σ') := by
  obtain ⟨hext, hst⟩ := tableAt_keeps hctx hops i
  have hopOk := hops op (List.mem_of_getElem? hop)
  have hvals := exec_extends sem hext hopOk.inputs σ
  subst hexec
  left
  rcases h with hagrees | ⟨⟨op', hop', hset⟩, hagrees⟩
  · by_cases hbr : op.opc = .brCond
    · have hout : op.oargs = [] := by simp [Op.oargs, hbr, Opcode.info]
      obtain ⟨vs, hvs⟩ := exec_vals sem ctx op σ
      rw [staleAt_succ hop, hout, staleAfter_nil, tableAt_succ hop, optimizeOp_brCond hbr, hvs, hout]
      exact hagrees
    · have hsim : Simulates sem (tableAt ctx ops i) (staleAt ctx ops i) op σ (optimizeOp (tableAt ctx ops i) op) :=
        optimizeOp_simulates hagrees hst (hopOk.extends hext) (hok.extends hext hopOk) hbr
      rw [staleAt_succ hop, tableAt_succ hop, ← hvals]
      exact hsim.agrees
  · obtain rfl : op' = op := Option.some.inj (hop'.symm.trans hop)
    have hboundary : isBoundary op'.opc = true := by rw [hset]; rfl
    have hfree : StepOk (tableAt ctx ops i).ctx (tableAt ctx ops i).info (fun _ => true) σ.vals op' :=
      ⟨fun hr => absurd hr (by simp [rewrites, hboundary]), fun hmov => absurd (hset.symm.trans hmov) (by decide)⟩
    have hsim : Simulates sem (tableAt ctx ops i) (fun _ => true) op' σ (optimizeOp (tableAt ctx ops i) op') :=
      optimizeOp_simulates hagrees hst (hopOk.extends hext) hfree (by rw [hset]; decide)
    rw [tableAt_succ hop, ← hvals]
    refine agrees_of_no_copies hsim.agrees.const (fun t => ?_) _
    rw [optimizeOp_boundary hboundary]
    rfl

theorem inv_jump {i j : Nat} {σ : State W} {op : Op} {label : Nat} (h : Inv ctx ops (i, σ)) (hop : ops[i]? = some op)
    (hlabel : branchLabel op = some label) (hindex : labelIndex ops label = some j)
    (hok : PathOk mayWrite ctx ops (i, σ) .jump) : Inv ctx ops (j, σ) := by
  refine .inr ⟨labelIndex_spec hindex, fun t ht => ?_, fun t s _ hstale => absurd hstale (by simp)⟩
  obtain ⟨hlt, hval⟩ := (tableAt_keeps hctx hops j).2.table.const t ht
  cases hconst : ((tableAt ctx ops j).ctx.temps t).isConst with
  | true => rw [value, if_pos hconst, hval hconst]
  | false =>
    obtain ⟨hknown, heq⟩ := hok op hop label hlabel j hindex t hlt hconst ht
    have hlt' := ((tableAt_keeps hctx hops i).2.table.const t hknown).1
    rw [value, tableAt_temps hctx hops hlt' hlt, ← value, h.const hknown]
    exact heq

theorem inv_call {i : Nat} {σ σ' : State W} {op : Op} (h : Inv ctx ops (i, σ)) (hop : ops[i]? = some op)
    (hcall : op.opc = .call)
    (hframe : ∀ t, t ∉ op.oargs → ((ctx.temps t).kind = .global → mayWrite op t = false) → σ'.vals t = σ.vals t)
    (hok : PathOk mayWrite ctx ops (i, σ) .call) : Inv ctx ops (i + 1, σ') := by
  obtain ⟨hext, hst⟩ := tableAt_keeps hctx hops i
  have hopOk := (hops op (List.mem_of_getElem? hop)).extends hext
  left
  rw [tableAt_succ hop, optimizeOp_boundary (by rw [hcall]; rfl)]
  refine agrees_of_no_copies (fun t ht => ?_) (fun _ => rfl) _
  have hforget := forgets_invalidateOutputs (tableAt ctx ops i).ctx op.oargs (tableAt ctx ops i).info t
  obtain ⟨hold, hval⟩ := hforget.const ht
  have hlt := (hst.table.const t hold).1
  have hout : t ∉ op.oargs := fun hmem =>
    absurd ht (by simp [resetCopies, (blank_invalidateOutputs hmem (hopOk.outputs t hmem).2 _).1])
  have hkept : σ'.vals t = σ.vals t := hframe t hout fun hglobal => by
    by_contra hwrite
    exact absurd hold (by simp [hok op hop t hlt hout hglobal (by simpa using hwrite)])
  rw [value, hkept, ← value, h.const hold]
  exact hval.symm

theorem inv_step {c c' : Config W} {e : Flow} (h : Inv ctx ops c) (hok : PathOk mayWrite ctx ops c e)
    (hstep : PathStep sem mayWrite ctx ops c e c') : Inv ctx ops c' := by
  cases hstep with
  | next hop hcall hnot hexec => exact inv_next hctx hops h hop (hok _ hop) (congrArg Prod.fst hexec)
  | jump hop htaken hlabel hindex => exact inv_jump hctx hops h hop hlabel hindex hok
  | call hop hcall hframe => exact inv_call hctx hops h hop hcall hframe hok

end Invariant

/-- On every path whose steps all meet what the pass needs, a temporary the table calls constant
holds that constant. -/
theorem constants_of_run {W E : Type} (sem : Sem W E) (mayWrite : Op → TempIdx → Bool) {ctx : Context} {ops : List Op}
    (hctx : ConstsOk ctx) (hops : ∀ op ∈ ops, OpOk ctx op) {i : Nat} {σ σ' : State W} {es : List Flow}
    (hrun : Run (guarded (PathOk mayWrite ctx ops) (PathStep sem mayWrite ctx ops)) (0, σ) es (i, σ')) (t : TempIdx)
    (ht : ((tableAt ctx ops i).info t).isConst = true) :
    Holds (tableAt ctx ops i).ctx σ'.vals t ((tableAt ctx ops i).info t).val := by
  have hinv : Inv ctx ops (i, σ') :=
    hrun.invariant (I := Inv ctx ops) (fun _ _ _ hstep h => inv_step hctx hops h hstep.1 hstep.2)
      (.inl (agrees_seedInfo hctx _ _))
  rw [Holds, hinv.const ht]

/-- A call that returns into `dst`, with the constant as all its arguments. -/
def callOp (dst : TempIdx) : Op := .withArgs .call .i64 [dst, 4, 4, 4, 4, 4, 4, 0, 0]

/-- A constant that is known on both ways to the label, and a call that overwrites a global that is
not known. -/
def knownBlock : List Op :=
  [.withArgs .mov .i64 [3, 4], .withArgs .brCond .i64 [1, 2, 8, 0], .withArgs .setLabel .i64 [0], callOp 2]

/-- A constant that is known on one way to the label only. -/
def joinBlock : List Op :=
  [.withArgs .brCond .i64 [1, 2, 8, 0], .withArgs .mov .i64 [3, 4], .withArgs .setLabel .i64 [0],
    .withArgs .mov .i64 [2, 3]]

/-- A global that is known before a call. -/
def helperBlock : List Op := [.withArgs .mov .i64 [1, 4], callOp 3, .withArgs .mov .i64 [2, 1]]

def anyGlobal : Op → TempIdx → Bool := fun _ _ => true

section Blocks

variable {W : Type} (mayWrite : Op → TempIdx → Bool) (ctx : Context) (ops : List Op)

instance (c : Config W) : Decidable (PathOk mayWrite ctx ops c .next) :=
  inferInstanceAs (Decidable (∀ op ∈ ops[c.1]?, _))

instance (c : Config W) : Decidable (PathOk mayWrite ctx ops c .jump) :=
  inferInstanceAs (Decidable (∀ op ∈ ops[c.1]?, ∀ label ∈ branchLabel op, ∀ j ∈ labelIndex ops label, _))

instance (c : Config W) : Decidable (PathOk mayWrite ctx ops c .call) :=
  inferInstanceAs (Decidable (∀ op ∈ ops[c.1]?, ∀ t < (tableAt ctx ops c.1).ctx.nbTemps, _))

end Blocks

/-- The state after the move of the constant into the local. -/
def fiveState : State Unit := ⟨Function.update sevenState.vals 3 5#64, (), []⟩

theorem constants_of_run_knownBlock :
    Holds (tableAt smallContext knownBlock 4).ctx (Function.update fiveState.vals 2 9#64) 3 5#64 := by
  have hrun : Run (guarded (PathOk anyGlobal smallContext knownBlock)
      (PathStep exitSem anyGlobal smallContext knownBlock)) (0, sevenState) [.next, .jump, .next, .call]
      (4, ⟨Function.update fiveState.vals 2 9#64, (), []⟩) := by
    refine .cons (t := (1, fiveState)) ⟨by decide, .next rfl (by decide) (by decide) rfl⟩ ?_
    refine .cons (t := (2, fiveState)) ⟨by decide, .jump rfl (by decide) rfl rfl⟩ ?_
    refine .cons (t := (3, fiveState)) ⟨by decide, .next rfl (by decide) (by decide) rfl⟩ ?_
    refine .cons ⟨by decide, .call rfl rfl fun t ht _ => ?_⟩ (.nil _)
    exact Function.update_of_ne (fun h => ht (by rw [h]; decide)) _ _
  exact constants_of_run exitSem anyGlobal constsOk_smallContext (by decide) hrun 3 (by decide)

/-- A constant learned on one path survives a label reached from another, and a constant for a
global survives a call that overwrites it. -/
theorem constants_survive :
    (∃ σ, Run (PathStep exitSem anyGlobal smallContext joinBlock) (0, sevenState) [.jump, .next] (3, σ) ∧
      ((tableAt smallContext joinBlock 3).info 3).isConst = true ∧
      ¬Holds (tableAt smallContext joinBlock 3).ctx σ.vals 3 ((tableAt smallContext joinBlock 3).info 3).val) ∧
    ∃ σ, Run (PathStep exitSem anyGlobal smallContext helperBlock) (0, sevenState) [.next, .call] (2, σ) ∧
      ((tableAt smallContext helperBlock 2).info 1).isConst = true ∧
      ¬Holds (tableAt smallContext helperBlock 2).ctx σ.vals 1 ((tableAt smallContext helperBlock 2).info 1).val := by
  refine ⟨⟨sevenState, ?_, by decide, by decide⟩, ⟨sevenState, ?_, by decide, by decide⟩⟩
  · refine .cons (t := (2, sevenState)) (.jump rfl (by decide) rfl rfl) ?_
    exact .cons (.next rfl (by decide) (by decide) rfl) (.nil _)
  · refine .cons (t := (1, ⟨Function.update sevenState.vals 1 5#64, (), []⟩))
      (.next rfl (by decide) (by decide) rfl) ?_
    refine .cons (.call rfl rfl fun t _ hkeep => ?_) (.nil _)
    refine (Function.update_of_ne (fun h => ?_) _ _).symm
    exact absurd (hkeep (by rw [h]; decide)) (by simp [anyGlobal])

end MachinaOptimizePaths
