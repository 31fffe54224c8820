import Machina.Fold

/-!
# The optimizer and the meaning of a block

The table of the pass says which temporaries are known constants and which are
copies of which. A record of a copy is stale once its source was redefined without
the record being dropped, which happens when the source becomes the destination of
a move or of a folded operation. As long as no rewritten operation reads a stale
record, and moves at 32 bits move words of 32 bits, every rewritten operation does
what the original one does.
-/

namespace MachinaOptimizeSound

open MachinaIr MachinaIrSem MachinaOptimize MachinaFold

variable {v : BitVec 64} {ctx ctx' : Context} {info info' : Info} {ty : IrType} {op op' : Op} {opc : Opcode}
    {t : TempIdx} {vals : TempIdx → BitVec 64} {stale : TempIdx → Bool} {i : TempInfo}

/-- A context that has more constants. -/
structure Extends (ctx ctx' : Context) : Prop where
  le : ctx.nbTemps ≤ ctx'.nbTemps
  temps : ∀ t, t < ctx.nbTemps → ctx'.temps t = ctx.temps t

theorem Extends.refl (ctx : Context) : Extends ctx ctx := ⟨Nat.le_refl _, fun _ _ => rfl⟩

theorem Extends.trans {a b c : Context} (hab : Extends a b) (hbc : Extends b c) : Extends a c :=
  ⟨hab.le.trans hbc.le, fun t ht => (hbc.temps t (ht.trans_le hab.le)).trans (hab.temps t ht)⟩

theorem Extends.value (h : Extends ctx ctx') (ht : t < ctx.nbTemps)
    (vals : TempIdx → BitVec 64) : value ctx' vals t = value ctx vals t := by
  rw [MachinaIrSem.value, MachinaIrSem.value, h.temps t ht]

/-- The table of constants lists constants under their type and value, and every constant
fits its type. -/
structure ConstsOk (ctx : Context) : Prop where
  table : ∀ ty v c, ctx.constTable ty v = some c →
    c < ctx.nbTemps ∧ (ctx.temps c).isConst = true ∧ (ctx.temps c).val = v
  fits : ∀ t, t < ctx.nbTemps → (ctx.temps t).isConst = true → constValue (ctx.temps t) = (ctx.temps t).val

def Fits (ty : IrType) (v : BitVec 64) : Prop := v &&& typeMask ty = v

instance (ty : IrType) (v : BitVec 64) : Decidable (Fits ty v) := inferInstanceAs (Decidable (_ = _))

theorem fits_and_typeMask (ty : IrType) (v : BitVec 64) : Fits ty (v &&& typeMask ty) := by
  rw [Fits, BitVec.and_assoc, BitVec.and_self]

theorem Fits.low (h : Fits ty v) : (low ty v).setWidth 64 = v := by
  rw [← and_typeMask]
  exact h

theorem newConst_extends (ctx : Context) (ty : IrType) (v : BitVec 64) : Extends ctx (ctx.newConst ty v).1 := by
  unfold Context.newConst
  split
  · exact .refl ctx
  · exact ⟨Nat.le_succ _, fun t ht => Function.update_of_ne ht.ne _ _⟩

/-- What the constant returned by `newConst` is. -/
structure NewConst (ctx ctx' : Context) (c : TempIdx) (v : BitVec 64) : Prop where
  extends' : Extends ctx ctx'
  consts : ConstsOk ctx'
  lt : c < ctx'.nbTemps
  isConst : (ctx'.temps c).isConst = true
  val : (ctx'.temps c).val = v

theorem newConst_spec (h : ConstsOk ctx) (hv : Fits ty v) :
    NewConst ctx (ctx.newConst ty v).1 (ctx.newConst ty v).2 v := by
  have hext := newConst_extends ctx ty v
  revert hext
  unfold Context.newConst
  split
  · rename_i c hc
    obtain ⟨hlt, hconst, hval⟩ := h.table ty v c hc
    exact fun hext => ⟨hext, h, hlt, hconst, hval⟩
  refine fun hext => ⟨hext, ⟨?_, ?_⟩, Nat.lt_succ_self _, ?_, ?_⟩
  · intro ty' v' c hc
    dsimp only at hc ⊢
    split at hc
    · rename_i heq
      obtain rfl := Option.some.inj hc
      simp [Temp.newConst, Temp.isConst, heq.2]
    obtain ⟨hlt, hconst⟩ := h.table ty' v' c hc
    rw [Function.update_of_ne hlt.ne]
    exact ⟨hlt.trans (Nat.lt_succ_self _), hconst⟩
  · intro t ht hconst
    dsimp only at hconst ⊢
    rcases Nat.lt_succ_iff_lt_or_eq.mp ht with hlt | rfl
    · rw [Function.update_of_ne hlt.ne] at hconst ⊢
      exact h.fits t hlt hconst
    · rw [Function.update_self]
      exact hv.low
  · simp [Temp.newConst, Temp.isConst]
  · simp [Temp.newConst]

theorem NewConst.value {c : TempIdx} (h : NewConst ctx ctx' c v)
    (vals : TempIdx → BitVec 64) : value ctx' vals c = v := by
  rw [MachinaIrSem.value, if_pos h.isConst, h.consts.fits c h.lt h.isConst, h.val]

/-- What the table lists: temporaries that exist, and constants under their value. -/
structure TableOk (ctx : Context) (info : Info) : Prop where
  const : ∀ t, (info t).isConst = true →
    t < ctx.nbTemps ∧ ((ctx.temps t).isConst = true → constValue (ctx.temps t) = (info t).val)
  range : ∀ t s, (info t).copyOf = some s → t < ctx.nbTemps ∧ s < ctx.nbTemps

/-- What the table says is right in a state, except for the stale records of copies. -/
structure Agrees (ctx : Context) (info : Info) (stale : TempIdx → Bool) (vals : TempIdx → BitVec 64) : Prop where
  const : ∀ t, (info t).isConst = true → value ctx vals t = (info t).val
  copy : ∀ t s, (info t).copyOf = some s → stale t = false → value ctx vals t = value ctx vals s

/-- Which records of copies are stale after an operation that left the table `info`: those of
sources the operation redefined, unless the copy was redefined itself. -/
def staleAfter (info : Info) (outs : List TempIdx) (stale : TempIdx → Bool) : TempIdx → Bool := fun t =>
  decide (t ∉ outs) && (stale t || outs.any fun d => decide ((info t).copyOf = some d))

/-- The second record says at most what the first one says. -/
structure Forgets (i i' : TempInfo) : Prop where
  const : i'.isConst = true → i.isConst = true ∧ i'.val = i.val
  copy : ∀ s, i'.copyOf = some s → i.copyOf = some s

theorem Forgets.refl (i : TempInfo) : Forgets i i := ⟨fun h => ⟨h, rfl⟩, fun _ h => h⟩

theorem Forgets.trans {a b c : TempInfo} (hab : Forgets a b) (hbc : Forgets b c) : Forgets a c :=
  ⟨fun h => ⟨(hab.const (hbc.const h).1).1, (hbc.const h).2.trans (hab.const (hbc.const h).1).2⟩,
    fun s h => hab.copy s (hbc.copy s h)⟩

/-- The record of a redefined temporary is right about the new words. -/
structure RecordOk (ctx : Context) (vals : TempIdx → BitVec 64) (t : TempIdx) (i : TempInfo) : Prop where
  const : i.isConst = true → value ctx vals t = i.val
  copy : ∀ s, i.copyOf = some s → value ctx vals t = value ctx vals s

/-- One operation: what is not an output is forgotten or kept, what is an output is recorded
correctly. -/
theorem Agrees.step {vals' : TempIdx → BitVec 64} {outs : List TempIdx} (h : Agrees ctx info stale vals)
    (hvals : ∀ t, t ∉ outs → value ctx vals' t = value ctx vals t)
    (hkeep : ∀ t, t ∉ outs → Forgets (info t) (info' t)) (hout : ∀ t ∈ outs, RecordOk ctx vals' t (info' t)) :
    Agrees ctx info' (staleAfter info' outs stale) vals' := by
  refine ⟨fun t hconst => ?_, fun t s hcopy hfresh => ?_⟩
  · by_cases ht : t ∈ outs
    · exact (hout t ht).const hconst
    · obtain ⟨hold, hval⟩ := (hkeep t ht).const hconst
      rw [hvals t ht, hval]
      exact h.const t hold
  · by_cases ht : t ∈ outs
    · exact (hout t ht).copy s hcopy
    · simp only [staleAfter, ht, not_false_eq_true, decide_true, Bool.true_and, Bool.or_eq_false_iff,
        List.any_eq_false, decide_eq_true_eq] at hfresh
      have hs : s ∉ outs := fun hs => hfresh.2 s hs hcopy
      rw [hvals t ht, hvals s hs]
      exact h.copy t s ((hkeep t ht).copy s hcopy) hfresh.1

section NewConst

variable {ctx ctx' : Context} {info : Info} {c : TempIdx} {v : BitVec 64}

theorem copyOf_update (info : Info) (c : TempIdx) (v : BitVec 64) (t : TempIdx) :
    (Function.update info c { info c with isConst := true, val := v } t).copyOf = (info t).copyOf := by
  by_cases ht : t = c
  · rw [ht, Function.update_self]
  · rw [Function.update_of_ne ht]

theorem TableOk.newConst (h : TableOk ctx info) (hc : NewConst ctx ctx' c v) :
    TableOk ctx' (Function.update info c { info c with isConst := true, val := v }) := by
  have hle := hc.extends'.le
  refine ⟨fun t ht => ?_, fun t s hts => ?_⟩
  · by_cases htc : t = c
    · rw [htc, Function.update_self]
      exact ⟨hc.lt, fun _ => (hc.consts.fits c hc.lt hc.isConst).trans hc.val⟩
    · rw [Function.update_of_ne htc] at ht ⊢
      obtain ⟨hlt, hval⟩ := h.const t ht
      rw [hc.extends'.temps t hlt]
      exact ⟨hlt.trans_le hle, hval⟩
  · rw [copyOf_update] at hts
    obtain ⟨ht, hs⟩ := h.range t s hts
    exact ⟨ht.trans_le hle, hs.trans_le hle⟩

theorem Agrees.newConst (h : Agrees ctx info stale vals) (htable : TableOk ctx info) (hc : NewConst ctx ctx' c v) :
    Agrees ctx' (Function.update info c { info c with isConst := true, val := v }) stale vals := by
  refine ⟨fun t hconst => ?_, fun t s hts hfresh => ?_⟩
  · by_cases ht : t = c
    · rw [ht, Function.update_self]
      exact hc.value vals
    · rw [Function.update_of_ne ht] at hconst ⊢
      rw [hc.extends'.value (htable.const t hconst).1]
      exact h.const t hconst
  · rw [copyOf_update] at hts
    obtain ⟨ht, hs⟩ := htable.range t s hts
    rw [hc.extends'.value ht, hc.extends'.value hs]
    exact h.copy t s hts hfresh

end NewConst

def Blank (i : TempInfo) : Prop := i.isConst = false ∧ i.copyOf = none

theorem Blank.recordOk (h : Blank i) (ctx : Context) (vals : TempIdx → BitVec 64) (t : TempIdx) :
    RecordOk ctx vals t i :=
  ⟨fun hc => absurd hc (by simp [h.1]), fun s hs => absurd hs (by simp [h.2])⟩

theorem Blank.forgets {i' : TempInfo} (h : Blank i) (hf : Forgets i i') : Blank i' := by
  refine ⟨?_, ?_⟩
  · by_contra hc
    exact absurd (hf.const (by simpa using hc)).1 (by simp [h.1])
  · by_contra hc
    obtain ⟨s, hs⟩ := Option.ne_none_iff_exists'.mp hc
    exact absurd (hf.copy s hs) (by simp [h.2])

theorem forgets_invalidateOne (info : Info) (d t : TempIdx) : Forgets (info t) (invalidateOne info d t) := by
  unfold invalidateOne
  split
  · exact ⟨fun h => absurd h (by simp), fun s h => absurd h (by simp)⟩
  split
  · exact ⟨fun h => ⟨h, rfl⟩, fun s h => absurd h (by simp)⟩
  · exact .refl _

theorem blank_invalidateOne (info : Info) (d : TempIdx) : Blank (invalidateOne info d d) := by
  simp [Blank, invalidateOne]

theorem forgets_invalidateOutputs (ctx : Context) (outs : List TempIdx) (info : Info) (t : TempIdx) :
    Forgets (info t) (invalidateOutputs ctx info outs t) := by
  induction outs generalizing info with
  | nil => exact .refl _
  | cons d outs ih =>
    refine .trans ?_ (ih _)
    split
    · exact .refl _
    · exact forgets_invalidateOne info d t

theorem blank_invalidateOutputs {outs : List TempIdx} (ht : t ∈ outs)
    (hconst : (ctx.temps t).isConst = false) (info : Info) : Blank (invalidateOutputs ctx info outs t) := by
  induction outs generalizing info with
  | nil => exact absurd ht List.not_mem_nil
  | cons d outs ih =>
    rw [invalidateOutputs]
    rcases List.mem_cons.mp ht with rfl | hmem
    · rw [hconst]
      exact (blank_invalidateOne info t).forgets (forgets_invalidateOutputs ctx outs _ t)
    · exact ih hmem _

theorem forgets_resetCopies (info : Info) (t : TempIdx) : Forgets (info t) (resetCopies info t) :=
  ⟨fun h => ⟨h, rfl⟩, fun s h => absurd h (by simp [resetCopies])⟩

/-- A well-formed operation: its temporaries exist, it writes no constant, arithmetic is on
integers and conversions carry the type they produce. -/
structure OpOk (ctx : Context) (op : Op) : Prop where
  inputs : ∀ t ∈ op.iargs, t < ctx.nbTemps
  outputs : ∀ t ∈ op.oargs, t < ctx.nbTemps ∧ (ctx.temps t).isConst = false
  integer : isBinary op.opc = true → op.opType = .i32 ∨ op.opType = .i64
  conversion : isExt op.opc = true → op.opType = outType op.opc

/-- The temporary an input is replaced by. -/
def source (info : Info) (t : TempIdx) : TempIdx := (info t).copyOf.getD t

/-- The operations whose inputs the pass replaces. -/
def rewrites (opc : Opcode) : Bool := !isBoundary opc && !isSkipped opc

/-- What the pass needs of an operation in a state: a rewritten operation reads no stale record
of a copy, and a move of an unknown word moves a word that fits its type. -/
structure StepOk (ctx : Context) (info : Info) (stale : TempIdx → Bool) (vals : TempIdx → BitVec 64) (op : Op) :
    Prop where
  fresh : rewrites op.opc = true → ∀ t ∈ op.iargs, (info t).copyOf ≠ none → stale t = false
  fits : op.opc = .mov → (info (source info (op.args 1))).isConst = false →
    Fits op.opType (value ctx vals (op.args 1))

section Propagate

variable (info : Info) (op : Op)

@[simp] theorem propagate_opc : (propagate info op).opc = op.opc := rfl
@[simp] theorem propagate_opType : (propagate info op).opType = op.opType := rfl
theorem propagate_args_of_lt {i : Nat} (h : i < op.opc.info.nbOargs) : (propagate info op).args i = op.args i :=
  if_neg fun hi => absurd hi.1 (by omega)

theorem propagate_args_input {i : Nat} (h : i < op.opc.info.nbIargs) :
    (propagate info op).args (op.opc.info.nbOargs + i) = source info (op.args (op.opc.info.nbOargs + i)) :=
  if_pos ⟨by omega, by omega⟩

@[simp] theorem propagate_oargs : (propagate info op).oargs = op.oargs :=
  List.map_congr_left fun _ hi => propagate_args_of_lt info op (List.mem_range.mp hi)

@[simp] theorem propagate_iargs : (propagate info op).iargs = op.iargs.map (source info) := by
  rw [Op.iargs, Op.iargs, List.map_map]
  exact List.map_congr_left fun _ hi => propagate_args_input info op (List.mem_range.mp hi)

@[simp] theorem instr_propagate : instr (propagate info op) = instr op := by
  have hcargs : (propagate info op).cargs = op.cargs :=
    List.map_congr_left fun _ _ => if_neg fun hi => absurd hi.2 (by simp)
  simp only [instr, hcargs]
  rfl

end Propagate

theorem oargs_single (h : op.opc.info.nbOargs = 1) : op.oargs = [op.args 0] := by
  simp [Op.oargs, h]

theorem iargs_single (ho : op.opc.info.nbOargs = 1) (hi : op.opc.info.nbIargs = 1) : op.iargs = [op.args 1] := by
  simp [Op.iargs, ho, hi]

theorem iargs_pair (ho : op.opc.info.nbOargs = 1) (hi : op.opc.info.nbIargs = 2) :
    op.iargs = [op.args 1, op.args 2] := by
  simp [Op.iargs, ho, hi, List.range_succ]

theorem TableOk.source_lt (h : TableOk ctx info) (ht : t < ctx.nbTemps) : source info t < ctx.nbTemps := by
  unfold source
  cases hc : (info t).copyOf with
  | none => exact ht
  | some s => exact (h.range t s hc).2

theorem Agrees.value_source (h : Agrees ctx info stale vals) (ht : (info t).copyOf ≠ none → stale t = false) :
    value ctx vals (source info t) = value ctx vals t := by
  unfold source
  cases hc : (info t).copyOf with
  | none => rfl
  | some s => exact (h.copy t s hc (ht (by simp [hc]))).symm

theorem OpOk.propagate (hop : OpOk ctx op) (h : TableOk ctx info) : OpOk ctx (propagate info op) := by
  refine ⟨fun t ht => ?_, ?_, hop.integer, hop.conversion⟩
  · rw [propagate_iargs] at ht
    obtain ⟨u, hu, rfl⟩ := List.mem_map.mp ht
    exact h.source_lt (hop.inputs u hu)
  · rw [propagate_oargs]
    exact hop.outputs

theorem OpOk.extends (h : OpOk ctx op) (hext : Extends ctx ctx') : OpOk ctx' op := by
  refine ⟨fun t ht => (h.inputs t ht).trans_le hext.le, fun t ht => ?_, h.integer, h.conversion⟩
  obtain ⟨hlt, hconst⟩ := h.outputs t ht
  exact ⟨hlt.trans_le hext.le, by rw [hext.temps t hlt]; exact hconst⟩

theorem OpOk.output (hop : OpOk ctx op) (ho : op.opc.info.nbOargs = 1) :
    op.args 0 < ctx.nbTemps ∧ (ctx.temps (op.args 0)).isConst = false :=
  hop.outputs _ (by rw [oargs_single ho]; exact List.mem_singleton_self _)

section Exec

variable {W E : Type} {sem : Sem W E} {ctx : Context} {op : Op} {σ : State W}

/-- Replacing copies does not change what an operation does. -/
theorem exec_propagate (h : ∀ t ∈ op.iargs, value ctx σ.vals (source info t) = value ctx σ.vals t) :
    exec sem ctx (propagate info op) σ = exec sem ctx op σ := by
  have hinputs : (propagate info op).iargs.map (value ctx σ.vals) = op.iargs.map (value ctx σ.vals) := by
    rw [propagate_iargs, List.map_map]
    exact List.map_congr_left h
  simp only [exec, hinputs, instr_propagate, propagate_oargs, propagate_opc, propagate_opType]

theorem exec_arith {w : BitVec 64} (ho : op.opc.info.nbOargs = 1)
    (h : arith op.opc op.opType (op.iargs.map (value ctx σ.vals)) = some w) :
    exec sem ctx op σ = ({ σ with vals := Function.update σ.vals (op.args 0) w }, none) := by
  simp [exec, h, oargs_single ho, setOutputs]

theorem exec_mov (h : op.opc = .mov) : exec sem ctx op σ = ({ σ with
      vals := Function.update σ.vals (op.args 0) (value ctx σ.vals (op.args 1) &&& typeMask op.opType) }, none) := by
  have ho : op.opc.info.nbOargs = 1 := by rw [h]; rfl
  have hi : op.opc.info.nbIargs = 1 := by rw [h]; rfl
  refine exec_arith ho ?_
  rw [iargs_single ho hi, h, and_typeMask]
  rfl

theorem exec_toMov (dst src : TempIdx) : exec sem ctx (toMov op dst src) σ = ({ σ with
      vals := Function.update σ.vals dst (value ctx σ.vals src &&& typeMask op.opType) }, none) :=
  exec_mov rfl

end Exec

structure StateOk (st : OptState) : Prop where
  consts : ConstsOk st.ctx
  table : TableOk st.ctx st.info

/-- An iteration adds constants at most and keeps the state of the pass well formed. -/
structure Keeps (st : OptState) (r : OptState × Op) : Prop where
  extends' : Extends st.ctx r.1.ctx
  ok : StateOk r.1
  inputs : ∀ t ∈ r.2.iargs, t < r.1.ctx.nbTemps

section Keeps

variable {st : OptState} {op : Op}

theorem TableOk.forget (h : TableOk ctx info) (hkeep : ∀ t, Forgets (info t) (info' t)) : TableOk ctx info' := by
  refine ⟨fun t hconst => ?_, fun t s hcopy => h.range t s ((hkeep t).copy s hcopy)⟩
  obtain ⟨hold, hval⟩ := (hkeep t).const hconst
  rw [hval]
  exact h.const t hold

theorem TableOk.record {d : TempIdx} (h : TableOk ctx info)
    (hd : d < ctx.nbTemps ∧ (ctx.temps d).isConst = false) (hi : ∀ s, i.copyOf = some s → s < ctx.nbTemps) :
    TableOk ctx (Function.update info d i) := by
  refine ⟨fun t ht => ?_, fun t s hts => ?_⟩
  · by_cases htd : t = d
    · rw [htd]
      exact ⟨hd.1, fun hc => absurd hc (by simp [hd.2])⟩
    · rw [Function.update_of_ne htd] at ht ⊢
      exact h.const t ht
  · by_cases htd : t = d
    · rw [htd, Function.update_self] at hts
      rw [htd]
      exact ⟨hd.1, hi s hts⟩
    · rw [Function.update_of_ne htd] at hts
      exact h.range t s hts

theorem keeps_of_forgets (h : StateOk st) (hin : ∀ t ∈ op'.iargs, t < st.ctx.nbTemps)
    (hkeep : ∀ t, Forgets (st.info t) (info' t)) : Keeps st ({ st with info := info' }, op') :=
  ⟨.refl _, ⟨h.consts, h.table.forget hkeep⟩, hin⟩

theorem keeps_of_invalidateOne (h : StateOk st) (hin : ∀ t ∈ op'.iargs, t < st.ctx.nbTemps)
    (d : TempIdx) : Keeps st ({ st with info := invalidateOne st.info d }, op') :=
  keeps_of_forgets h hin (forgets_invalidateOne st.info d)

theorem toMov_iargs (op : Op) (dst src : TempIdx) : (toMov op dst src).iargs = [src] := by
  rw [iargs_single rfl rfl]
  rfl

theorem replaceWithConst_keeps {val : BitVec 64} (h : StateOk st) (hop : OpOk st.ctx op)
    (ho : op.opc.info.nbOargs = 1) : Keeps st (replaceWithConst st op (op.args 0) val ty) := by
  have hc := newConst_spec h.consts (fits_and_typeMask ty val)
  have hdst := (hop.extends hc.extends').output ho
  refine ⟨hc.extends', ⟨hc.consts, (h.table.newConst hc).record hdst fun s hs => absurd hs (by simp)⟩, ?_⟩
  intro t ht
  obtain rfl := List.mem_singleton.mp (toMov_iargs op (op.args 0) _ ▸ ht)
  exact hc.lt

theorem foldMov_keeps (h : StateOk st) (hop : OpOk st.ctx op) (hopc : op.opc = .mov) : Keeps st (foldMov st op) := by
  have ho : op.opc.info.nbOargs = 1 := by rw [hopc]; rfl
  have hsrc : op.args 1 < st.ctx.nbTemps :=
    hop.inputs _ (by rw [iargs_single ho (by rw [hopc]; rfl)]; exact List.mem_singleton_self _)
  refine ⟨.refl _, ⟨h.consts, ?_⟩, hop.inputs⟩
  unfold foldMov
  dsimp only
  split
  · exact h.table.record (hop.output ho) fun s hs => absurd hs (by simp)
  rename_i hconst
  rw [setCopy, if_neg hconst]
  exact h.table.record (hop.output ho) fun s hs => Option.some.inj hs ▸ hsrc

theorem isUnary_args (h : isUnary opc = true) : opc.info.nbOargs = 1 ∧ opc.info.nbIargs = 1 := by
  cases opc <;> first | exact absurd h (by decide) | exact ⟨rfl, rfl⟩

theorem isExt_args (h : isExt opc = true) : opc.info.nbOargs = 1 ∧ opc.info.nbIargs = 1 := by
  cases opc <;> first | exact absurd h (by decide) | exact ⟨rfl, rfl⟩

theorem isBinary_args (h : isBinary opc = true) : opc.info.nbOargs = 1 ∧ opc.info.nbIargs = 2 := by
  cases opc <;> first | exact absurd h (by decide) | exact ⟨rfl, rfl⟩

section

variable (h : StateOk st) (hop : OpOk st.ctx op)
include h hop

theorem foldUnary_keeps (hopc : isUnary op.opc = true) : Keeps st (foldUnary st op) := by
  unfold foldUnary
  dsimp only
  split
  · exact keeps_of_invalidateOne h hop.inputs _
  · exact replaceWithConst_keeps h hop (isUnary_args hopc).1

theorem foldExt_keeps (hopc : isExt op.opc = true) : Keeps st (foldExt st op) := by
  unfold foldExt
  dsimp only
  split
  · exact keeps_of_invalidateOne h hop.inputs _
  · exact replaceWithConst_keeps h hop (isExt_args hopc).1

theorem foldBinary_keeps (hopc : isBinary op.opc = true) : Keeps st (foldBinary st op) := by
  have hargs := isBinary_args hopc
  have hin := hop.inputs
  rw [iargs_pair hargs.1 hargs.2] at hin
  unfold foldBinary
  split
  · rename_i r hr
    have hsrc := binaryRewrite_operand hr
    cases r with
    | const v => exact replaceWithConst_keeps h hop hargs.1
    | mov src =>
      refine keeps_of_invalidateOne h ?_ _
      rw [toMov_iargs]
      exact fun t ht => List.mem_singleton.mp ht ▸ hin src (by rcases hsrc with rfl | rfl <;> simp)
    | neg src =>
      refine keeps_of_invalidateOne h ?_ _
      rw [iargs_single rfl rfl]
      exact fun t ht => List.mem_singleton.mp ht ▸ hin src (by rcases hsrc with rfl | rfl <;> simp)
  · exact keeps_of_invalidateOne h hop.inputs _

end

/-- A branch reads what it read before or nothing. -/
theorem foldBrcond_inputs (info : Info) {op : Op} {n : Nat} (h : ∀ t ∈ op.iargs, t < n) :
    ∀ t ∈ (foldBrcond info op).iargs, t < n := by
  unfold foldBrcond
  dsimp only
  split_ifs
  · exact h
  · exact fun t ht => absurd ht (by simp [Op.iargs, Opcode.info])
  · exact fun t ht => absurd ht (by simp [Op.iargs, Opcode.info])

theorem optimizeOp_keeps (h : StateOk st) (hop : OpOk st.ctx op) : Keeps st (optimizeOp st op) := by
  have hop' := hop.propagate h.table
  have hforget := forgets_invalidateOutputs st.ctx op.oargs st.info
  unfold optimizeOp
  dsimp only
  split_ifs with hboundary hskipped hmov hunary hext hbinary
  · exact keeps_of_forgets h hop.inputs fun t => (hforget t).trans (forgets_resetCopies _ t)
  · exact keeps_of_forgets h hop.inputs hforget
  · exact foldMov_keeps h hop' hmov
  · exact foldUnary_keeps h hop' hunary
  · exact foldExt_keeps h hop' hext
  · exact foldBinary_keeps h hop' hbinary
  · exact ⟨.refl _, h, foldBrcond_inputs st.info hop'.inputs⟩
  · exact keeps_of_forgets h hop'.inputs (propagate_oargs st.info op ▸ hforget)

end Keeps

section Step

variable {W E : Type} {sem : Sem W E} {st : OptState} {stale : TempIdx → Bool} {op : Op} {σ : State W}

/-- The rewritten operation does what the original one does, and the new table is right about
the state after it. -/
structure Simulates (sem : Sem W E) (st : OptState) (stale : TempIdx → Bool) (op : Op) (σ : State W)
    (r : OptState × Op) : Prop where
  exec : exec sem r.1.ctx r.2 σ = exec sem st.ctx op σ
  agrees : Agrees r.1.ctx r.1.info (staleAfter r.1.info op.oargs stale) (MachinaIrSem.exec sem st.ctx op σ).1.vals

/-- The operation is kept or its inputs are replaced, and nothing new is recorded. -/
theorem simulates_of_forgets (h : Agrees st.ctx st.info stale σ.vals)
    (hexec : exec sem st.ctx op' σ = exec sem st.ctx op σ) (hkeep : ∀ t, Forgets (st.info t) (info' t))
    (hblank : ∀ t ∈ op.oargs, Blank (info' t)) : Simulates sem st stale op σ ({ st with info := info' }, op') := by
  obtain ⟨vs, hvs⟩ := exec_vals sem st.ctx op σ
  refine ⟨hexec, ?_⟩
  rw [hvs]
  exact h.step (fun t ht => value_setOutputs vs ht) (fun t _ => hkeep t)
    fun t ht => (hblank t ht).recordOk st.ctx _ t

theorem simulates_of_invalidateOne (h : Agrees st.ctx st.info stale σ.vals)
    (ho : op.opc.info.nbOargs = 1) (hexec : exec sem st.ctx op' σ = exec sem st.ctx op σ) :
    Simulates sem st stale op σ ({ st with info := invalidateOne st.info (op.args 0) }, op') := by
  refine simulates_of_forgets h hexec (forgets_invalidateOne st.info _) fun t ht => ?_
  rw [oargs_single ho, List.mem_singleton] at ht
  rw [ht]
  exact blank_invalidateOne _ _

theorem simulates_of_record {w : BitVec 64} (h : Agrees ctx' info' stale σ.vals) (ho : op.opc.info.nbOargs = 1)
    (hexec : exec sem st.ctx op σ = ({ σ with vals := Function.update σ.vals (op.args 0) w }, none))
    (hexec' : exec sem ctx' op' σ = ({ σ with vals := Function.update σ.vals (op.args 0) w }, none))
    (hrec : RecordOk ctx' (Function.update σ.vals (op.args 0) w) (op.args 0) i) :
    Simulates sem st stale op σ (⟨ctx', Function.update info' (op.args 0) i⟩, op') := by
  refine ⟨hexec'.trans hexec.symm, ?_⟩
  rw [hexec]
  refine h.step (fun t ht => ?_) (fun t ht => ?_) (fun t ht => ?_) <;>
    rw [oargs_single ho, List.mem_singleton] at ht <;> dsimp only
  · exact value_update_of_ne ht w
  · rw [Function.update_of_ne ht]
    exact .refl _
  · rw [ht, Function.update_self]
    exact hrec

/-- A move records the constant or the copy. -/
theorem foldMov_simulates (h : Agrees st.ctx st.info stale σ.vals) (hop : OpOk st.ctx op) (hopc : op.opc = .mov)
    (hfits : (st.info (op.args 1)).isConst = false → Fits op.opType (value st.ctx σ.vals (op.args 1))) :
    Simulates sem st stale op σ (foldMov st op) := by
  have ho : op.opc.info.nbOargs = 1 := by rw [hopc]; rfl
  have hdst := (hop.output ho).2
  unfold foldMov
  dsimp only
  split
  · rename_i hconst
    refine simulates_of_record h ho (exec_mov hopc) (exec_mov hopc) ⟨fun _ => ?_, ?_⟩
    · rw [value_update_self hdst, h.const _ hconst]
    · exact fun s hs => absurd hs (by simp)
  · rename_i hconst
    have hfit := hfits (by simpa using hconst)
    rw [setCopy, if_neg hconst]
    refine simulates_of_record h ho (exec_mov hopc) (exec_mov hopc) ⟨fun hc => absurd hc (by simp), fun s hs => ?_⟩
    obtain rfl := Option.some.inj hs
    by_cases heq : op.args 1 = op.args 0
    · rw [heq]
    · rw [value_update_self hdst, value_update_of_ne heq]
      exact hfit

section

variable (h : Agrees st.ctx st.info stale σ.vals) (hst : StateOk st) (hop : OpOk st.ctx op)
include h hst hop

/-- The operation is replaced by a move of its value. -/
theorem replaceWithConst_simulates {val : BitVec 64} (ho : op.opc.info.nbOargs = 1)
    (hval : arith op.opc op.opType (op.iargs.map (value st.ctx σ.vals)) = some (val &&& typeMask op.opType)) :
    Simulates sem st stale op σ (replaceWithConst st op (op.args 0) val op.opType) := by
  have hfit := fits_and_typeMask op.opType val
  have hc := newConst_spec hst.consts hfit
  have hdst := ((hop.extends hc.extends').output ho).2
  unfold replaceWithConst
  dsimp only
  generalize st.ctx.newConst op.opType (val &&& typeMask op.opType) = p at hc hdst ⊢
  refine simulates_of_record (h.newConst hst.table hc) ho (exec_arith ho hval) ?_ ⟨fun _ => ?_, ?_⟩
  · rw [exec_toMov, hc.value σ.vals, hfit]
  · exact value_update_self hdst _
  · exact fun s hs => absurd hs (by simp)

theorem foldUnary_simulates (hopc : isUnary op.opc = true) : Simulates sem st stale op σ (foldUnary st op) := by
  have hargs := isUnary_args hopc
  unfold foldUnary
  dsimp only
  split
  · exact simulates_of_invalidateOne h hargs.1 rfl
  rename_i hconst
  refine replaceWithConst_simulates h hst hop hargs.1 ?_
  rw [iargs_single hargs.1 hargs.2, fits_and_typeMask, and_typeMask, ← h.const _ (by simpa using hconst)]
  simp [arith, foldUnary_eq op.opType hopc]

theorem foldExt_simulates (hopc : isExt op.opc = true) : Simulates sem st stale op σ (foldExt st op) := by
  have hargs := isExt_args hopc
  unfold foldExt
  dsimp only
  split
  · exact simulates_of_invalidateOne h hargs.1 rfl
  rename_i hconst
  rw [← hop.conversion hopc]
  refine replaceWithConst_simulates h hst hop hargs.1 ?_
  rw [iargs_single hargs.1 hargs.2, and_typeMask, ← h.const _ (by simpa using hconst)]
  simp [arith, unOp_of_isExt hopc, extOp_eq hopc]

/-- What a binary operation is replaced by does the same. -/
theorem foldBinary_simulates (hopc : isBinary op.opc = true) : Simulates sem st stale op σ (foldBinary st op) := by
  have hargs := isBinary_args hopc
  have hty : op.opType.sizeBits = width op.opType := by
    rcases hop.integer hopc with hi | hi <;> rw [hi] <;> rfl
  unfold foldBinary
  split
  · rename_i r hr
    have hsem : binOp op.opc (low op.opType (value st.ctx σ.vals (op.args 1)))
        (low op.opType (value st.ctx σ.vals (op.args 2))) =
        some (Rewrite.meaning op.opType (value st.ctx σ.vals) r) :=
      binaryRewrite_sound hty h.const hr
    have harith : arith op.opc op.opType (op.iargs.map (value st.ctx σ.vals)) =
        some ((Rewrite.meaning op.opType (value st.ctx σ.vals) r).setWidth 64) := by
      rw [iargs_pair hargs.1 hargs.2]
      simp [arith, hsem]
    cases r with
    | const v =>
      exact replaceWithConst_simulates h hst hop hargs.1 (harith.trans (by rw [and_typeMask]; rfl))
    | mov src =>
      refine simulates_of_invalidateOne h hargs.1 ?_
      rw [exec_toMov, exec_arith hargs.1 harith, and_typeMask]
      rfl
    | neg src =>
      refine simulates_of_invalidateOne h hargs.1 ?_
      rw [exec_arith hargs.1 harith]
      exact exec_arith rfl rfl
  · exact simulates_of_invalidateOne h hargs.1 rfl

end

theorem Simulates.of_exec {r : OptState × Op} (h : Simulates sem st stale op' σ r)
    (hexec : MachinaIrSem.exec sem st.ctx op' σ = MachinaIrSem.exec sem st.ctx op σ) (hout : op'.oargs = op.oargs) :
    Simulates sem st stale op σ r := by
  refine ⟨h.exec.trans hexec, ?_⟩
  rw [← hexec, ← hout]
  exact h.agrees

theorem optimizeOp_simulates (h : Agrees st.ctx st.info stale σ.vals) (hst : StateOk st) (hop : OpOk st.ctx op)
    (hok : StepOk st.ctx st.info stale σ.vals op) (hbr : op.opc ≠ .brCond) :
    Simulates sem st stale op σ (optimizeOp st op) := by
  have hblank (info : Info) (t : TempIdx) (ht : t ∈ op.oargs) : Blank (invalidateOutputs st.ctx info op.oargs t) :=
    blank_invalidateOutputs ht (hop.outputs t ht).2 info
  have hforget := forgets_invalidateOutputs st.ctx op.oargs st.info
  have hop' := hop.propagate hst.table
  have hout := propagate_oargs st.info op
  have hfresh (hb : ¬isBoundary op.opc = true) (hs : ¬isSkipped op.opc = true) (t : TempIdx) (ht : t ∈ op.iargs) :
      value st.ctx σ.vals (source st.info t) = value st.ctx σ.vals t :=
    h.value_source (hok.fresh (by simp [rewrites, hb, hs]) t ht)
  unfold optimizeOp
  dsimp only
  split_ifs with hboundary hskipped hmov hunary hext hbinary hbrcond
  · exact simulates_of_forgets h rfl (fun t => (hforget t).trans (forgets_resetCopies _ t))
      fun t ht => (hblank _ t ht).forgets (forgets_resetCopies _ t)
  · exact simulates_of_forgets h rfl hforget (hblank _)
  · refine (foldMov_simulates h hop' hmov fun hunknown => ?_).of_exec (exec_propagate (hfresh hboundary hskipped)) hout
    have hargs : op.opc.info = ⟨1, 1, 0, [.int, .notPresent]⟩ := by
      rw [propagate_opc] at hmov
      rw [hmov]
      rfl
    have hsrc : (propagate st.info op).args 1 = source st.info (op.args 1) := by
      have := propagate_args_input st.info op (show 0 < op.opc.info.nbIargs by rw [hargs]; decide)
      simpa only [hargs] using this
    rw [hsrc] at hunknown ⊢
    rw [hfresh hboundary hskipped _ (by
      rw [iargs_single (by rw [hargs]) (by rw [hargs])]
      exact List.mem_singleton_self _)]
    exact hok.fits hmov hunknown
  · exact (foldUnary_simulates h hst hop' hunary).of_exec (exec_propagate (hfresh hboundary hskipped)) hout
  · exact (foldExt_simulates h hst hop' hext).of_exec (exec_propagate (hfresh hboundary hskipped)) hout
  · exact (foldBinary_simulates h hst hop' hbinary).of_exec (exec_propagate (hfresh hboundary hskipped)) hout
  · exact absurd hbrcond hbr
  · exact (simulates_of_forgets h rfl (hout ▸ hforget) (hout ▸ hblank _)).of_exec
      (exec_propagate (hfresh hboundary hskipped)) hout

end Step

section Block

variable {W E : Type} (sem : Sem W E)

/-- Every operation the block executes meets what the pass needs of it. -/
def BlockOk (ctx : Context) : OptState → (TempIdx → Bool) → List Op → State W → Prop
  | _, _, [], _ => True
  | st, stale, op :: rest, σ =>
    StepOk ctx st.info stale σ.vals op ∧
      match exec sem ctx op σ with
      | (σ', none) =>
        BlockOk ctx (optimizeOp st op).1 (staleAfter (optimizeOp st op).1.info op.oargs stale) rest σ'
      | (_, some _) => True

theorem StepOk.extends (h : StepOk ctx info stale vals op) (hext : Extends ctx ctx') (hop : OpOk ctx op) :
    StepOk ctx' info stale vals op := by
  refine ⟨h.fresh, fun hmov hunknown => ?_⟩
  have hlt : op.args 1 < ctx.nbTemps :=
    hop.inputs _ (by rw [iargs_single (by rw [hmov]; rfl) (by rw [hmov]; rfl)]; exact List.mem_singleton_self _)
  rw [hext.value hlt]
  exact h.fits hmov hunknown

theorem exec_extends (hext : Extends ctx ctx') (hin : ∀ t ∈ op.iargs, t < ctx.nbTemps)
    (σ : State W) : exec sem ctx' op σ = exec sem ctx op σ :=
  exec_congr sem (fun t ht => hext.temps t (hin t ht)) σ

theorem optimizeOps_keeps {st : OptState} {ops : List Op} (h : StateOk st) (hext : Extends ctx st.ctx)
    (hops : ∀ op ∈ ops, OpOk ctx op) : Extends st.ctx (optimizeOps st ops).1.ctx ∧ StateOk (optimizeOps st ops).1 := by
  induction ops generalizing st with
  | nil => exact ⟨.refl _, h⟩
  | cons op rest ih =>
    have hkeep := optimizeOp_keeps h ((hops op List.mem_cons_self).extends hext)
    obtain ⟨hrest, hok⟩ :=
      ih hkeep.ok (hext.trans hkeep.extends') fun op' hmem => hops op' (List.mem_cons_of_mem _ hmem)
    exact ⟨hkeep.extends'.trans hrest, hok⟩

variable {sem}

theorem optimizeOps_run {final : Context} {st : OptState} {ops : List Op} {σ : State W}
    (h : Agrees st.ctx st.info stale σ.vals) (hst : StateOk st) (hext : Extends ctx st.ctx)
    (hops : ∀ op ∈ ops, OpOk ctx op) (hbr : ∀ op ∈ ops, op.opc ≠ .brCond) (hok : BlockOk sem ctx st stale ops σ)
    (hfinal : Extends (optimizeOps st ops).1.ctx final) :
    run sem final (optimizeOps st ops).2 σ = run sem ctx ops σ := by
  induction ops generalizing st stale σ with
  | nil => rfl
  | cons op rest ih =>
    have hop := hops op List.mem_cons_self
    have hrestOps (op' : Op) (hmem : op' ∈ rest) : OpOk ctx op' := hops op' (List.mem_cons_of_mem _ hmem)
    obtain ⟨hstep, hrest⟩ := hok
    have hsim : Simulates sem st stale op σ (optimizeOp st op) :=
      optimizeOp_simulates h hst (hop.extends hext) (hstep.extends hext hop) (hbr op List.mem_cons_self)
    have hkeep := optimizeOp_keeps hst (hop.extends hext)
    have hext' := hext.trans hkeep.extends'
    have horig := exec_extends sem hext hop.inputs σ
    have hlater := (optimizeOps_keeps hkeep.ok hext' hrestOps).1.trans hfinal
    have hnew : exec sem final (optimizeOp st op).2 σ = exec sem ctx op σ :=
      (exec_extends sem hlater hkeep.inputs σ).trans (hsim.exec.trans horig)
    have hagrees := hsim.agrees
    rw [horig] at hagrees
    simp only [optimizeOps, run, hnew]
    cases hres : exec sem ctx op σ with
    | mk σ' e =>
      rw [hres] at hrest hagrees
      cases e with
      | some e => rfl
      | none =>
        exact ih hagrees hkeep.ok hext' hrestOps (fun op' hmem => hbr op' (List.mem_cons_of_mem _ hmem)) hrest hfinal

theorem seedInfo_copyOf (ctx : Context) (t : TempIdx) : (seedInfo ctx t).copyOf = none := by
  unfold seedInfo
  split <;> rfl

theorem seedInfo_const (h : (seedInfo ctx t).isConst = true) :
    t < ctx.nbTemps ∧ (ctx.temps t).isConst = true ∧ (seedInfo ctx t).val = (ctx.temps t).val := by
  unfold seedInfo at h ⊢
  split at h
  · rename_i hc
    rw [if_pos hc]
    exact ⟨hc.1, hc.2, rfl⟩
  · exact absurd h (by simp [TempInfo.unknown])

/-- At the start of the pass the table lists the constants. -/
theorem stateOk_seedInfo (hctx : ConstsOk ctx) : StateOk ⟨ctx, seedInfo ctx⟩ := by
  refine ⟨hctx, fun t ht => ?_, fun t s hts => absurd hts (by simp [seedInfo_copyOf])⟩
  obtain ⟨hlt, hconst, hval⟩ := seedInfo_const ht
  exact ⟨hlt, fun _ => (hctx.fits t hlt hconst).trans hval.symm⟩

theorem agrees_seedInfo (hctx : ConstsOk ctx) (stale : TempIdx → Bool) (vals : TempIdx → BitVec 64) :
    Agrees ctx (seedInfo ctx) stale vals := by
  refine ⟨fun t ht => ?_, fun t s hts => absurd hts (by simp [seedInfo_copyOf])⟩
  obtain ⟨hlt, hconst, hval⟩ := seedInfo_const ht
  rw [value, if_pos hconst, hctx.fits t hlt hconst, hval]

/-- The operations a straight-line block may contain. -/
def isStraight : Opcode → Bool
  | .setLabel | .br | .brCond | .call => false
  | _ => true

/-- The optimized block ends in the same state, with the same accesses and the same exit. -/
theorem optimize_preserves (sem : Sem W E) {ctx : Context} (hctx : ConstsOk ctx) {ops : List Op}
    (hops : ∀ op ∈ ops, OpOk ctx op ∧ isStraight op.opc = true) {σ : State W}
    (hok : BlockOk sem ctx ⟨ctx, seedInfo ctx⟩ (fun _ => false) ops σ) :
    run sem (optimize ctx ops).1 (optimize ctx ops).2 σ = run sem ctx ops σ := by
  refine optimizeOps_run (agrees_seedInfo hctx _ σ.vals) (stateOk_seedInfo hctx) (.refl ctx)
    (fun op hmem => (hops op hmem).1) (fun op hmem hbr => ?_) hok (.refl _)
  have hstraight := (hops op hmem).2
  rw [hbr] at hstraight
  exact absurd hstraight (by decide)

end Block

/-- The fixed pointer to the CPU, two globals, a local and the constant 5. -/
def smallContext : Context where
  temps := fun t =>
    [Temp.newFixed .i64 5, .newGlobal .i64 0 0, .newGlobal .i64 0 8, .newTb .i64, .newConst .i64 5#64].getD t
      (.newTb .i64)
  nbTemps := 5
  nbGlobals := 3
  constTable := fun ty v => if ty = .i64 ∧ v = 5#64 then some 4 else none
  frameReg := none
  frameEnd := 0
  frameAllocEnd := 0

/-- A semantics in which only the exits do something. -/
def exitSem : Sem Unit Nat := fun i _ w => ⟨[], w, if i.opc = .exitTb then i.cargs.head? else none⟩

def sevenState : State Unit := ⟨fun _ => 7#64, (), []⟩

/-- Copy the first global, add 5 and store the sum in the second global. -/
def copyBlock : List Op :=
  [.withArgs .mov .i64 [3, 1], .withArgs .add .i64 [2, 3, 4], .withArgs .exitTb .i64 [0]]

/-- Copy the first global, overwrite it with 5 and store the copy in the second global. -/
def staleBlock : List Op :=
  [.withArgs .mov .i64 [3, 1], .withArgs .mov .i64 [1, 4], .withArgs .mov .i64 [2, 3], .withArgs .exitTb .i64 [0]]

theorem constsOk_smallContext : ConstsOk smallContext := by
  refine ⟨fun ty v c hc => ?_, by decide⟩
  dsimp only [smallContext] at hc
  split at hc
  · rename_i h
    obtain rfl := Option.some.inj hc
    rw [h.2]
    decide
  · cases hc

instance (ctx : Context) (op : Op) : Decidable (OpOk ctx op) :=
  decidable_of_iff ((∀ t ∈ op.iargs, t < ctx.nbTemps) ∧
      (∀ t ∈ op.oargs, t < ctx.nbTemps ∧ (ctx.temps t).isConst = false) ∧
      (isBinary op.opc = true → op.opType = .i32 ∨ op.opType = .i64) ∧
      (isExt op.opc = true → op.opType = outType op.opc))
    ⟨fun h => ⟨h.1, h.2.1, h.2.2.1, h.2.2.2⟩, fun h => ⟨h.inputs, h.outputs, h.integer, h.conversion⟩⟩

instance (ctx : Context) (info : Info) (stale : TempIdx → Bool) (vals : TempIdx → BitVec 64) (op : Op) :
    Decidable (StepOk ctx info stale vals op) :=
  decidable_of_iff ((rewrites op.opc = true → ∀ t ∈ op.iargs, (info t).copyOf ≠ none → stale t = false) ∧
      (op.opc = .mov → (info (source info (op.args 1))).isConst = false →
        Fits op.opType (value ctx vals (op.args 1))))
    ⟨fun h => ⟨h.1, h.2⟩, fun h => ⟨h.fresh, h.fits⟩⟩

theorem optimize_preserves_copyBlock :
    run exitSem (optimize smallContext copyBlock).1 (optimize smallContext copyBlock).2 sevenState =
      run exitSem smallContext copyBlock sevenState :=
  optimize_preserves exitSem constsOk_smallContext (by decide)
    ⟨by decide, ⟨by decide, ⟨by decide, trivial⟩⟩⟩

/-- The copy is read from the overwritten global. -/
theorem optimize_reads_stale_copy : (∀ op ∈ staleBlock, OpOk smallContext op ∧ isStraight op.opc = true) ∧
      (run exitSem smallContext staleBlock sevenState).1.vals 2 = 7#64 ∧
      (run exitSem (optimize smallContext staleBlock).1 (optimize smallContext staleBlock).2 sevenState).1.vals 2 =
        5#64 := by
  decide

end MachinaOptimizeSound
