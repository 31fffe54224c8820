import Machina.Codegen
import Machina.RegallocValues

/-!
# The registers an operation gets

The registers that are handed to the backend meet the constraints of the opcode when
no temporary is used for two inputs with different constraints, an output is an input
only where it takes over the register of that input, and the inputs whose register is
taken over die. The inputs are loaded one after another, then the outputs are placed.
-/

namespace MachinaRegallocRegs

open MachinaBits MachinaIr MachinaIrSem MachinaRegalloc MachinaRegallocOwn MachinaRegallocValues MachinaHost
open MachinaCodegen MachinaRuns
open Function (update update_of_ne update_self)
open List (append_assoc append_nil)

variable {st st' : Alloc} {ins : Inputs} {n : Nat} {r reg : Reg} {t : TempIdx}

section Table

/-- A set with five registers that are always allocatable. -/
def Wide (s : RegSet) : Prop := ∀ r ∈ [3, 6, 7, 8, 9], s.contains r = true

instance (s : RegSet) : Decidable (Wide s) := inferInstanceAs (Decidable (∀ r ∈ [3, 6, 7, 8, 9], s.contains r = true))

/-- The set an output gets its register from. -/
def outSet (ct : OpConstraint) (nbOargs k : Nat) : RegSet :=
  if (ct k).oalias then (ct (nbOargs + (ct k).aliasIndex)).regs else (ct k).regs

/-- Inputs can be loaded without taking the register of an earlier input. -/
def InputShape (ct : OpConstraint) (nbOargs nbIargs : Nat) : Prop :=
  ∀ i < nbIargs, i ≤ 4 ∧ Wide (ct (nbOargs + i)).regs ∨
    ∀ j < i, (ct (nbOargs + i)).regs.intersect (ct (nbOargs + j)).regs = 0#64

/-- Outputs that take over a register come first and take over different ones. -/
def OutputShape (ct : OpConstraint) (nbOargs nbIargs : Nat) : Prop :=
  ∀ k < nbOargs, ((ct k).oalias = true → (ct k).newreg = false ∧ (ct k).aliasIndex < nbIargs ∧ nbIargs ≤ 4) ∧
    ((ct k).newreg = true → Wide (ct k).regs ∧ nbIargs ≤ 4) ∧
    (outSet ct nbOargs k = 0#64 ∨
      ∀ j < k, (ct j).oalias = true ∧ (outSet ct nbOargs k).intersect (outSet ct nbOargs j) = 0#64)

theorem inputShape_opConstraint (opc : Opcode) : InputShape (opConstraint opc) opc.info.nbOargs opc.info.nbIargs := by
  unfold InputShape
  cases opc <;> decide

theorem outputShape_opConstraint (opc : Opcode) :
    OutputShape (opConstraint opc) opc.info.nbOargs opc.info.nbIargs := by
  unfold OutputShape
  cases opc <;> decide

/-- A set with five registers has one that four others do not cover. -/
theorem exists_allowed {s forbidden : RegSet} {regs : Nat → Reg} (hs : Wide s) (hn : n ≤ 4)
    (hforb : ∀ c, forbidden.contains c = true → ∃ j < n, regs j = c) :
    ∃ c, s.contains c = true ∧ allocatableRegs.contains c = true ∧ forbidden.contains c = false := by
  by_contra hcon
  push Not at hcon
  have hsub : ({3, 6, 7, 8, 9} : Finset Nat) ⊆ (Finset.range n).image regs := by
    intro c hc
    have hmem : c ∈ [3, 6, 7, 8, 9] := by simpa using hc
    have halloc : ∀ r ∈ [3, 6, 7, 8, 9], allocatableRegs.contains r = true := by decide
    obtain ⟨j, hj, heq⟩ := hforb c (by simpa using hcon c (hs c hmem) (halloc c hmem))
    exact Finset.mem_image.mpr ⟨j, Finset.mem_range.mpr hj, heq⟩
  have hcard := Finset.card_le_card hsub
  have himage := Finset.card_image_le (s := Finset.range n) (f := regs)
  rw [Finset.card_range] at himage
  rw [show ({3, 6, 7, 8, 9} : Finset Nat).card = 5 by decide] at hcard
  omega

theorem disjoint_sets {s s' : RegSet} (h : s.intersect s' = 0#64) (hr : s.contains r = true) :
    s'.contains r = false := by
  have hboth : (s.intersect s').contains r = false := by rw [h, contains_empty]
  rw [contains_intersect, hr, Bool.true_and] at hboth
  exact hboth

end Table

section Inputs

variable (op : Op) (ct : OpConstraint) (words : TempIdx → BitVec 64) (fp : BitVec 64) (st₀ : Alloc) (h : Host)

/-- A temporary that is used for two inputs has the same constraint at both. -/
def SameSets : Prop :=
  ∀ i < op.opc.info.nbIargs, ∀ j < op.opc.info.nbIargs, iarg op i = iarg op j →
    (ct (op.opc.info.nbOargs + i)).regs = (ct (op.opc.info.nbOargs + j)).regs

instance : Decidable (SameSets op ct) := by
  unfold SameSets
  infer_instance

/-- After the first `n` inputs are loaded. -/
structure InputsAt (n : Nat) (st : Alloc) (ins : Inputs) : Prop where
  code : ∃ code, st.code = st₀.code ++ code ∧ Sound words fp st (h.run code)
  kind : ∀ u, (st.temp u).kind = (st₀.temp u).kind
  ty : ∀ u, (st.temp u).ty = (st₀.temp u).ty
  pinned : Pinned st ins.allocated
  placed : ∀ j < n, ∃ r, place st (iarg op j) = some r ∧ ins.allocated.contains r = true ∧
    (ct (op.opc.info.nbOargs + j)).regs.contains r = true
  used : ∀ c, ins.allocated.contains c = true → ∃ j < n, ins.regs j = c
  fits : ∀ j < n, (ct (op.opc.info.nbOargs + j)).regs.contains (ins.regs j) = true
  reusable : ∀ j < n, ins.reusable j = reusableInput op ct st₀ j

variable {op ct words fp st₀ h}

theorem reusableInput_congr (hkind : ∀ u, (st'.temp u).kind = (st.temp u).kind) (i : Nat) :
    reusableInput op ct st' i = reusableInput op ct st i := by
  simp [reusableInput, Temp.isGlobalOrFixed, Temp.isConst, hkind]

theorem loadInput_cases {ins' : Inputs} (hload : loadInput op ct (st, ins) n = some (st', ins')) :
    ∃ reg preferred, tempLoadTo st (iarg op n) (ct (op.opc.info.nbOargs + n)).regs ins.allocated preferred =
        some (reg, st') ∧ ins'.regs = update ins.regs n reg ∧ ins'.allocated = ins.allocated.set reg ∧
      ins'.reusable = update ins.reusable n (reusableInput op ct st n) := by
  obtain ⟨⟨reg, st₁⟩, hto, heq⟩ := Option.bind_eq_some_iff.mp hload
  cases heq
  exact ⟨reg, _, hto, rfl, rfl, rfl⟩

theorem loadInput_step (hshape : InputShape ct op.opc.info.nbOargs op.opc.info.nbIargs) (hsets : SameSets op ct)
    (hn : n < op.opc.info.nbIargs) {ins' : Inputs}
    (hat : InputsAt op ct words fp st₀ h n st ins) (hload : loadInput op ct (st, ins) n = some (st', ins')) :
    InputsAt op ct words fp st₀ h (n + 1) st' ins' := by
  obtain ⟨reg, preferred, hto, hregs, halloc, hreuse⟩ := loadInput_cases hload
  obtain ⟨code, hcode, hsound⟩ := hat.code
  have hl := tempLoadTo_sound hsound hat.pinned (fun r hr ha => ?_) hto
  · obtain ⟨code', hcode', hsound'⟩ := hl.code
    refine ⟨⟨code ++ code', by rw [hcode', hcode, append_assoc], by rw [run_append]; exact hsound'⟩,
      fun u => (hl.evolves.kind u).trans (hat.kind u), fun u => (hl.evolves.ty u).trans (hat.ty u), halloc ▸ hl.pinned,
      fun j hj => ?_, fun c hc => ?_, fun j hj => ?_, fun j hj => ?_⟩
    · by_cases hsame : iarg op j = iarg op n
      · refine ⟨reg, hsame ▸ hl.place, ?_, ?_⟩
        · simp [halloc, contains_set, lt_of_contains hl.required]
        · rw [hsets j (by omega) n hn hsame]
          exact hl.required
      · have hjn : j ≠ n := fun heq => hsame (heq ▸ rfl)
        obtain ⟨r, hr, hused, hfit⟩ := hat.placed j (by omega)
        exact ⟨r, hl.keeps _ hsame r hr hused, by simp [halloc, contains_set, hused], hfit⟩
    · rw [halloc, contains_set, Bool.or_eq_true, decide_eq_true_eq] at hc
      rw [hregs]
      rcases hc with hc | ⟨-, rfl⟩
      · obtain ⟨j, hj, heq⟩ := hat.used c hc
        exact ⟨j, by omega, (update_of_ne (by omega) _ _).trans heq⟩
      · exact ⟨n, by omega, update_self _ _ _⟩
    · rw [hregs]
      by_cases hjn : j = n
      · rw [hjn, update_self]
        exact hl.required
      · rw [update_of_ne hjn]
        exact hat.fits j (by omega)
    · rw [hreuse]
      by_cases hjn : j = n
      · rw [hjn, update_self]
        exact reusableInput_congr hat.kind n
      · rw [update_of_ne hjn]
        exact hat.reusable j (by omega)
  · rw [hsound.allocatable] at ha ⊢
    rcases hshape n hn with ⟨hle, hwide⟩ | hdisj
    · exact exists_allowed hwide hle hat.used
    refine ⟨r, hr, ha, ?_⟩
    by_contra hused
    obtain ⟨j, hj, rfl⟩ := hat.used r (by simpa using hused)
    have hfits := hat.fits j hj
    rw [disjoint_sets (hdisj j hj) hr] at hfits
    cases hfits

/-- After the registers of the inputs are read again, they are the ones the inputs are in. -/
structure InputsLoaded (op : Op) (ct : OpConstraint) (st₀ st : Alloc) (ins : Inputs) : Prop where
  ty : ∀ u, (st.temp u).ty = (st₀.temp u).ty
  placed : ∀ i < op.opc.info.nbIargs, place st (iarg op i) = some (ins.regs i)
  fits : ∀ i < op.opc.info.nbIargs, (ct (op.opc.info.nbOargs + i)).regs.contains (ins.regs i) = true
  used : ∀ c, ins.allocated.contains c = true → ∃ i < op.opc.info.nbIargs, ins.regs i = c
  all : ∀ i < op.opc.info.nbIargs, ins.allocated.contains (ins.regs i) = true
  reusable : ∀ i < op.opc.info.nbIargs, ins.reusable i = reusableInput op ct st₀ i

theorem refreshInput_reg (hval : (st.temp (iarg op n)).valType = .reg)
    (hr : (st.temp (iarg op n)).reg = some r) : refreshInput op st ins n =
      some { ins with regs := update ins.regs n r, allocated := ins.allocated.set r } := by
  simp [refreshInput, hval, hr]

/-- The inputs of an operation are in registers that meet their constraints. -/
theorem loadInputs_spec (hshape : InputShape ct op.opc.info.nbOargs op.opc.info.nbIargs) (hsets : SameSets op ct)
    (hsound : Sound words fp st₀ h) (hpinned : Pinned st₀ 0#64) (hload : loadInputs op ct st₀ = some (st, ins)) :
    InputsLoaded op ct st₀ st ins ∧ ∃ code, st.code = st₀.code ++ code ∧ Sound words fp st (h.run code) := by
  obtain ⟨⟨st₁, ins1⟩, hinputs, hload⟩ := Option.bind_eq_some_iff.mp hload
  obtain ⟨ins2, hrefresh, heq⟩ := Option.bind_eq_some_iff.mp hload
  cases heq
  have hat : InputsAt op ct words fp st₀ h op.opc.info.nbIargs st ins1 :=
    foldlM_range (I := fun n s => InputsAt op ct words fp st₀ h n s.1 s.2)
      (fun i hi s t hs ht => loadInput_step hshape hsets hi hs ht)
      ⟨⟨[], (append_nil _).symm, hsound⟩, fun _ => rfl, fun _ => rfl, hpinned, nofun,
        fun c hc => by simp [Inputs.none] at hc, nofun, nofun⟩ hinputs
  obtain ⟨code, hcode, hsound'⟩ := hat.code
  have hregs := foldlM_range
    (I := fun n (ins : Inputs) =>
      (∀ i < n, place st (iarg op i) = some (ins.regs i) ∧ ins.allocated.contains (ins.regs i) = true) ∧
      (∀ c, ins.allocated.contains c = true → ∃ i < n, ins.regs i = c) ∧ ins.reusable = ins1.reusable)
    (fun i hi s t hs ht => ?_) ?_ hrefresh
  · obtain ⟨hplaced, hused, hreuse⟩ := hregs
    refine ⟨⟨hat.ty, fun i hi => (hplaced i hi).1, fun i hi => ?_, hused, fun i hi => (hplaced i hi).2,
      fun i hi => by rw [hreuse]; exact hat.reusable i hi⟩, code, hcode, hsound'⟩
    obtain ⟨r, hr, -, hfit⟩ := hat.placed i hi
    obtain rfl := Option.some.inj (hr.symm.trans (hplaced i hi).1)
    exact hfit
  · obtain ⟨hplaced, hused, hreuse⟩ := hs
    obtain ⟨r, hr, -, hfit⟩ := hat.placed i hi
    have hval : (st.temp (iarg op i)).valType = .reg := (hsound'.own.loc _).mpr (by rw [hr]; exact nofun)
    rw [refreshInput_reg hval hr] at ht
    obtain rfl := Option.some.inj ht
    refine ⟨fun j hj => ?_, fun c hc => ?_, hreuse⟩
    · dsimp only
      by_cases hji : j = i
      · rw [hji, update_self]
        exact ⟨hr, by simp [contains_set, lt_of_contains hfit]⟩
      rw [update_of_ne hji]
      obtain ⟨hpl, hin⟩ := hplaced j (by omega)
      exact ⟨hpl, by simp [contains_set, hin]⟩
    · rw [contains_set, Bool.or_eq_true, decide_eq_true_eq] at hc
      rcases hc with hc | ⟨-, rfl⟩
      · obtain ⟨j, hj, heq⟩ := hused c hc
        exact ⟨j, by omega, (update_of_ne (by omega) _ _).trans heq⟩
      · exact ⟨i, by omega, update_self _ _ _⟩
  · exact ⟨nofun, fun c hc => absurd hc (by simp), rfl⟩

end Inputs

section Outputs

/-- Temporaries keep their place or go to memory, and the code changes no register. -/
structure Quiet (st st' : Alloc) : Prop where
  allocatable : st'.allocatable = st.allocatable
  temp : ∀ u, st'.temp u = st.temp u ∨ (st'.temp u).valType = .mem
  code : ∃ code, st'.code = st.code ++ code ∧ ∀ h : Host, (h.run code).regs = h.regs

theorem tempSync_stores (hsync : tempSync st t = some st') :
    ∃ code, st'.code = st.code ++ code ∧ ∀ h : Host, (h.run code).regs = h.regs := by
  unfold tempSync at hsync
  dsimp only at hsync
  split at hsync
  · cases hsync
    exact ⟨[], (append_nil _).symm, fun _ => rfl⟩
  split at hsync
  · cases hsync
    exact ⟨[], (append_nil _).symm, fun _ => rfl⟩
  · obtain ⟨baseReg, -, hsync⟩ := Option.bind_eq_some_iff.mp hsync
    cases hsync
    exact ⟨_, rfl, fun _ => rfl⟩
  · split at hsync
    · obtain ⟨frameReg, -, hsync⟩ := Option.bind_eq_some_iff.mp hsync
      cases hsync
      exact ⟨_, rfl, fun _ => rfl⟩
    · cases hsync
      exact ⟨[], (append_nil _).symm, fun _ => rfl⟩

theorem evictReg_quiet (he : evictReg st reg = some st') : Quiet st st' := by
  have htemp : st'.allocatable = st.allocatable ∧ ∀ u, st'.temp u = st.temp u ∨ (st'.temp u).valType = .mem := by
    rcases evictReg_like he with ⟨-, rfl⟩ | ⟨t, x, -, -, hv, -, -, hl⟩
    · exact ⟨rfl, fun _ => .inl rfl⟩
    refine ⟨hl.allocatable, fun u => ?_⟩
    rw [hl.temp]
    by_cases hu : u = t
    · right
      rw [hu]
      exact (congrArg Temp.valType (temp_setTemp_self st t x)).trans hv
    · exact .inl (temp_setTemp_of_ne hu)
  refine ⟨htemp.1, htemp.2, ?_⟩
  rcases evictReg_cases he with ⟨-, rfl⟩ | ⟨t, st₁, -, -, hsync, rfl⟩ | ⟨t, ctx, offset, frame, -, -, -, -, rfl⟩
  · exact ⟨[], (append_nil _).symm, fun _ => rfl⟩
  · obtain ⟨code, hcode, hregs⟩ := tempSync_stores hsync
    exact ⟨code, hcode, hregs⟩
  · exact ⟨_, rfl, fun _ => rfl⟩

theorem regAlloc_quiet {required forbidden preferred : RegSet}
    (ha : regAlloc st required forbidden preferred = some (reg, st')) : Quiet st st' := by
  obtain ⟨-, -, ⟨-, rfl⟩ | he, -⟩ := regAlloc_picks ha
  · exact ⟨rfl, fun _ => .inl rfl, [], (append_nil _).symm, fun _ => rfl⟩
  · exact evictReg_quiet he

variable (op : Op) (ct : OpConstraint) (st₀ : Alloc)

/-- An output is an input only where it takes over the register of that input. -/
def OutputsApart : Prop :=
  ∀ k < op.opc.info.nbOargs, (∀ i < op.opc.info.nbIargs, iarg op i ≠ op.args k) ∨
    (ct k).oalias = true ∧ op.args k = iarg op (ct k).aliasIndex

instance : Decidable (OutputsApart op ct) := by
  unfold OutputsApart
  infer_instance

/-- Where an output takes over the register of an input, the input dies or is the output itself. -/
def TakenOver : Prop :=
  ∀ k < op.opc.info.nbOargs, (ct k).oalias = true →
    reusableInput op ct st₀ (ct k).aliasIndex = true ∨ op.args k = iarg op (ct k).aliasIndex

instance : Decidable (TakenOver op ct st₀) := by
  unfold TakenOver
  infer_instance

/-- After the first `n` outputs have their registers. -/
structure OutputsAt (st₁ : Alloc) (ins : Inputs) (n : Nat) (st : Alloc) (outs : Outputs) : Prop where
  allocatable : st.allocatable = st₁.allocatable
  inputs : ∀ i < op.opc.info.nbIargs, (st.temp (iarg op i)).valType = .reg →
    (st.temp (iarg op i)).reg = some (ins.regs i)
  code : ∃ code, st.code = st₁.code ++ code ∧ ∀ h : Host, ∀ i < op.opc.info.nbIargs,
    (h.run code).regs (ins.regs i) = h.regs (ins.regs i)
  used : ∀ c, outs.allocated.contains c = true ↔ ∃ j < n, outs.regs j = c
  aliased : ∀ j < n, (ct j).oalias = true → outs.regs j = ins.regs (ct j).aliasIndex
  fits : ∀ j < n, (outSet ct op.opc.info.nbOargs j).contains (outs.regs j) = true
  newreg : ∀ j < n, (ct j).newreg = true → ∀ i < op.opc.info.nbIargs, outs.regs j ≠ ins.regs i
  distinct : ∀ j < n, ∀ k < j, outs.regs j ≠ outs.regs k

variable {op ct st₀} {st₁ st st' : Alloc} {ins : Inputs} {outs outs' : Outputs} {n : Nat} {reg : Reg}

section

variable (hat : OutputsAt op ct st₁ ins n st outs) (hshape : OutputShape ct op.opc.info.nbOargs op.opc.info.nbIargs)
    (hn : n < op.opc.info.nbOargs)
include hat hshape hn

/-- The earlier outputs took over registers of inputs. -/
theorem OutputsAt.used_input
    (hloaded : InputsLoaded op ct st₀ st₁ ins) (hset : (outSet ct op.opc.info.nbOargs n).contains reg = true) {c : Reg}
    (hc : (ins.allocated.union outs.allocated).contains c = true) : ∃ i < op.opc.info.nbIargs, ins.regs i = c := by
  rw [contains_union, Bool.or_eq_true] at hc
  rcases hc with hc | hc
  · exact hloaded.used c hc
  obtain ⟨j, hj, rfl⟩ := (hat.used c).mp hc
  rcases (hshape n hn).2.2 with hempty | hearlier
  · rw [hempty, contains_empty] at hset
    cases hset
  · obtain ⟨halias, -⟩ := hearlier j hj
    exact ⟨_, ((hshape j (by omega)).1 halias).2.1, (hat.aliased j hj halias).symm⟩

/-- Registers of different outputs come from sets without a common register. -/
theorem OutputsAt.fresh
    (hset : (outSet ct op.opc.info.nbOargs n).contains reg = true) : ∀ j < n, reg ≠ outs.regs j := by
  rintro j hj rfl
  rcases (hshape n hn).2.2 with hempty | hearlier
  · rw [hempty, contains_empty] at hset
    cases hset
  have hfits := hat.fits j hj
  rw [disjoint_sets (hearlier j hj).2 hset] at hfits
  cases hfits

end

/-- What choosing the register of an output gives. -/
structure Chosen (op : Op) (ct : OpConstraint) (ins : Inputs) (n : Nat) (st : Alloc) (reg : Reg)
    (st' : Alloc) : Prop where
  allocatable : st'.allocatable = st.allocatable
  fits : (outSet ct op.opc.info.nbOargs n).contains reg = true
  aliased : (ct n).oalias = true → reg = ins.regs (ct n).aliasIndex
  newreg : (ct n).newreg = true → ∀ i < op.opc.info.nbIargs, reg ≠ ins.regs i
  temp : ∀ u, u = op.args n ∨ st'.temp u = st.temp u ∨ (st'.temp u).valType = .mem
  code : ∃ code, st'.code = st.code ++ code ∧ ∀ h : Host, ∀ i < op.opc.info.nbIargs,
    (h.run code).regs (ins.regs i) = h.regs (ins.regs i)

theorem wide_allocatable : Wide allocatableRegs := by decide

variable (hat : OutputsAt op ct st₁ ins n st outs) (hshape : OutputShape ct op.opc.info.nbOargs op.opc.info.nbIargs)
    (hn : n < op.opc.info.nbOargs) (hloaded : InputsLoaded op ct st₀ st₁ ins)
    (halloc : st₁.allocatable = allocatableRegs)
include hat hshape hn hloaded halloc

theorem outputReg_spec (htaken : TakenOver op ct st₀)
    (hout : outputReg op ct st ins outs n = some (reg, st')) : Chosen op ct ins n st reg st' := by
  have hall : st.allocatable = allocatableRegs := hat.allocatable.trans halloc
  unfold outputReg at hout
  dsimp only at hout
  split at hout
  · rename_i halias
    obtain ⟨hnew, hai, hfew⟩ := (hshape n hn).1 halias
    have hset : (outSet ct op.opc.info.nbOargs n).contains (ins.regs (ct n).aliasIndex) = true := by
      rw [outSet, if_pos halias]
      exact hloaded.fits _ hai
    split at hout
    · cases hout
      exact ⟨rfl, hset, fun _ => rfl, fun hc => absurd (hnew.symm.trans hc) nofun, fun _ => .inr (.inl rfl), [],
        (append_nil _).symm, fun _ _ _ => rfl⟩
    rename_i hreuse
    rw [hloaded.reusable _ hai] at hreuse
    have hdst := (htaken n hn halias).resolve_left hreuse
    obtain ⟨⟨copy, st₂⟩, ha, hout⟩ := Option.bind_eq_some_iff.mp hout
    cases hout
    have hquiet := regAlloc_quiet ha
    have hcopy : ∀ i < op.opc.info.nbIargs, ins.regs i ≠ copy := by
      obtain ⟨c, hc1, hc2, hc3⟩ := exists_allowed wide_allocatable hfew
        (fun c hc => hat.used_input hshape hn hloaded hset hc)
      have hallowed := (regAlloc_picks ha).2.2.2 c (by rw [hall]; exact hc1) (by rw [hall]; exact hc2) hc3
      rintro i hi rfl
      rw [contains_union, hloaded.all i hi, Bool.true_or] at hallowed
      cases hallowed
    refine ⟨hquiet.allocatable, hset, fun _ => rfl, fun hc => absurd (hnew.symm.trans hc) nofun, fun u => ?_, ?_⟩
    · by_cases hu : u = op.args n
      · exact .inl hu
      · rw [hdst] at hu
        have htemp := hquiet.temp u
        rw [← temp_setTemp_of_ne hu] at htemp
        exact .inr htemp
    · obtain ⟨code, hcode, hregs⟩ := hquiet.code
      refine ⟨code ++ [.mov (st.temp (iarg op (ct n).aliasIndex)).ty copy (ins.regs (ct n).aliasIndex)], ?_,
        fun h i hi => ?_⟩
      · rw [← append_assoc, ← hcode]
        rfl
      · rw [run_append]
        exact (step_mov_other _ _ _ (hcopy i hi)).trans (congrFun (hregs h) _)
  · rename_i halias
    have hnoalias : (ct n).oalias = true → reg = ins.regs (ct n).aliasIndex := fun hc => absurd hc halias
    have hchosen {forbidden : RegSet} (ha : regAlloc st (ct n).regs forbidden 0#64 = some (reg, st'))
        (hnew : (ct n).newreg = true → ∀ i < op.opc.info.nbIargs, reg ≠ ins.regs i) :
        Chosen op ct ins n st reg st' := by
      have hquiet := regAlloc_quiet ha
      obtain ⟨code, hcode, hregs⟩ := hquiet.code
      refine ⟨hquiet.allocatable, ?_, hnoalias, hnew, fun u => .inr (hquiet.temp u), code, hcode,
        fun h i _ => congrFun (hregs h) _⟩
      rw [outSet, if_neg halias]
      exact (regAlloc_picks ha).1
    split at hout
    · rename_i hnew
      refine hchosen hout ?_
      rintro - i hi rfl
      obtain ⟨hwide, hfew⟩ := (hshape n hn).2.1 hnew
      have hset : (outSet ct op.opc.info.nbOargs n).contains (ins.regs i) = true := by
        rw [outSet, if_neg halias]
        exact (regAlloc_picks hout).1
      obtain ⟨c, hc1, hc2, hc3⟩ := exists_allowed hwide hfew (fun c hc => hat.used_input hshape hn hloaded hset hc)
      have hallowed := (regAlloc_picks hout).2.2.2 c hc1 (by rw [hall]; exact hc2) hc3
      rw [contains_union, hloaded.all i hi, Bool.true_or] at hallowed
      cases hallowed
    · rename_i hnew
      exact hchosen hout fun hc => absurd hc hnew

/-- One more output has its register. -/
theorem assignOutput_step (hapart : OutputsApart op ct) (htaken : TakenOver op ct st₀)
    (hassign : assignOutput op ct ins (st, outs) n = some (st', outs')) :
    OutputsAt op ct st₁ ins (n + 1) st' outs' := by
  obtain ⟨⟨reg, st₂⟩, hout, heq⟩ := Option.bind_eq_some_iff.mp hassign
  cases heq
  have hch := outputReg_spec hat hshape hn hloaded halloc htaken hout
  obtain ⟨code, hcode, hregs⟩ := hat.code
  obtain ⟨code', hcode', hregs'⟩ := hch.code
  have hfresh := hat.fresh hshape hn hch.fits
  have hlast (j : Nat) (hj : j < n + 1) : j = n ∨ j < n := by omega
  have hold (j : Nat) (hj : j < n) : update outs.regs n reg j = outs.regs j :=
    update_of_ne (Nat.ne_of_lt hj) _ _
  refine ⟨hch.allocatable.trans hat.allocatable, fun i hi hval => ?_,
    ⟨code ++ code', ?_, fun h i hi => ?_⟩, fun c => ?_,
    fun j hj ha => ?_, fun j hj => ?_, fun j hj hnew => ?_, fun j hj k hk => ?_⟩
  · by_cases hdst : iarg op i = op.args n
    · obtain ⟨halias, hai⟩ := (hapart n hn).resolve_left fun hne => hne i hi hdst
      have hplace := hloaded.placed _ ((hshape n hn).1 halias).2.1
      rw [← hai, ← hdst, hloaded.placed i hi] at hplace
      rw [hplace, ← hch.aliased halias, hdst]
      exact congrArg Temp.reg (temp_setTemp_self _ _ _)
    · rw [temp_setTemp_of_ne hdst] at hval ⊢
      rcases (hch.temp (iarg op i)).resolve_left hdst with hsame | hmem
      · rw [show ((st₂.assign reg (op.args n)).temp (iarg op i)) = st.temp (iarg op i) from hsame] at hval ⊢
        exact hat.inputs i hi hval
      · exact absurd (hmem.symm.trans hval) nofun
  · rw [← append_assoc, ← hcode]
    exact hcode'
  · rw [run_append, hregs' _ i hi, hregs h i hi]
  · rw [contains_set, Bool.or_eq_true, decide_eq_true_eq, hat.used]
    constructor
    · rintro (⟨j, hj, heq⟩ | ⟨-, rfl⟩)
      · exact ⟨j, by omega, (hold j hj).trans heq⟩
      · exact ⟨n, by omega, update_self _ _ _⟩
    · rintro ⟨j, hj, rfl⟩
      dsimp only
      rcases hlast j hj with rfl | hj
      · exact .inr (by rw [update_self]; exact ⟨lt_of_contains hch.fits, rfl⟩)
      · exact .inl ⟨j, hj, (hold j hj).symm⟩
  · dsimp only
    rcases hlast j hj with rfl | hj
    · rw [update_self]
      exact hch.aliased ha
    · rw [hold j hj]
      exact hat.aliased j hj ha
  · dsimp only
    rcases hlast j hj with rfl | hj
    · rw [update_self]
      exact hch.fits
    · rw [hold j hj]
      exact hat.fits j hj
  · dsimp only
    rcases hlast j hj with rfl | hj
    · rw [update_self]
      exact hch.newreg hnew
    · rw [hold j hj]
      exact hat.newreg j hj hnew
  · dsimp only
    rcases hlast j hj with rfl | hj
    · rw [update_self, hold k hk]
      exact hfresh k hk
    · rw [hold j hj, hold k (by omega)]
      exact hat.distinct j hj k hk

end Outputs

section Main

/-- The conditions under which an operation gets the registers its constraints ask for. -/
structure Placeable (op : Op) (st : Alloc) : Prop where
  sets : SameSets op (opConstraint op.opc)
  outputs : OutputsApart op (opConstraint op.opc)
  taken : TakenOver op (opConstraint op.opc) st

/-- The registers the backend is given for the outputs. -/
def outputRegs (op : Op) (outs : Outputs) : List Reg := (List.range op.opc.info.nbOargs).map outs.regs

/-- The registers the backend is given for the inputs. -/
def inputRegs (op : Op) (st : Alloc) (ins : Inputs) : List Reg :=
  (List.range op.opc.info.nbIargs).map (finalInputReg op st ins)

theorem getElem?_range_map {f : Nat → Reg} {i : Nat} (h : ((List.range n).map f)[i]? = some reg) :
    i < n ∧ f i = reg := by
  have hi : i < n := by
    by_contra hge
    rw [List.getElem?_eq_none (by simpa using hge)] at h
    cases h
  rw [List.getElem?_map, List.getElem?_range hi] at h
  exact ⟨hi, Option.some.inj h⟩

/-- An environment in RBP, a global at its start, the constant 5 and unused locals. -/
def smallTemps : TempIdx → Temp
  | 0 => .newFixed .i64 5
  | 1 => .newGlobal .i64 0 0
  | 2 => .newConst .i64 5#64
  | _ => .newEbb .i64

def smallAlloc : Alloc where
  ctx := ⟨smallTemps, 4, 2, fun _ _ => none, none, 0, 0⟩
  regToTemp := fun r => if r = 5 then some 0 else none
  freeRegs := allocatableRegs
  allocatable := allocatableRegs
  code := []

def smallWords : TempIdx → BitVec 64 := fun t => if t = 2 then 5#64 else 0#64

def smallHost : Host := ⟨fun r => if r = 2 then 1#64 else 0#64, fun _ => 0#8⟩

theorem smallAlloc_slot {a : BitVec 64} (h : slot smallWords 0#64 (smallAlloc.temp t) = some a) : t = 1 :=
  match t with
  | 1 => rfl
  | 0 | 2 | _ + 3 => nomatch h

theorem smallAlloc_place (h : place smallAlloc t = some r) : t = 0 ∧ r = 5 :=
  match t with
  | 0 => ⟨rfl, (Option.some.inj h).symm⟩
  | 1 | 2 | _ + 3 => nomatch h

theorem smallAlloc_owned : Owned smallAlloc := by
  refine ⟨⟨fun r t hown => .inl ?_, fun t r hpl => .inl ?_⟩, fun t => ?_, fun r => ?_⟩
  · by_cases hr : r = 5
    · subst hr
      obtain rfl := Option.some.inj hown
      rfl
    · exact absurd (hown.symm.trans (if_neg hr)) nofun
  · obtain ⟨rfl, rfl⟩ := smallAlloc_place hpl
    rfl
  · match t with
    | 0 => exact ⟨fun _ => nofun, fun _ => rfl⟩
    | 1 | 2 | _ + 3 => exact ⟨nofun, fun h => absurd rfl h⟩
  · refine ⟨fun hfree => ⟨hfree, if_neg ?_⟩, fun h => h.1⟩
    rintro rfl
    exact absurd hfree (by decide)

theorem smallAlloc_layout : Layout smallWords 0#64 smallAlloc := by
  refine ⟨fun t u a b htu ha hb => ?_, fun t a ha i n hn hlo hhi => ?_, by decide, fun t b hb => ?_, fun t ht => ?_⟩
  · exact absurd ((smallAlloc_slot ha).trans (smallAlloc_slot hb).symm) htu
  · have hlo' : (0 : Int) ≤ i := hlo
    have hhi' : i + n ≤ 0 := hhi
    omega
  · match t with
    | 1 =>
      obtain rfl := Option.some.inj hb
      exact ⟨rfl, rfl, rfl⟩
    | 0 | 2 | _ + 3 => exact nomatch hb
  · match t with
    | 1 => exact nofun
    | 0 | 2 | _ + 3 => exact nomatch ht

theorem smallAlloc_sound : Sound smallWords 0#64 smallAlloc smallHost := by
  refine ⟨smallAlloc_owned, smallAlloc_layout, ⟨fun t => ?_, nofun⟩, rfl, nofun⟩
  match t with
  | 0 => exact ⟨fun r hr => by obtain rfl := Option.some.inj hr; rfl, nofun, nofun, nofun⟩
  | 1 => exact ⟨nofun, nofun, fun _ => nofun, fun a ha _ _ => by obtain rfl := Option.some.inj ha; rfl⟩
  | 2 => exact ⟨nofun, fun _ => rfl, nofun, nofun⟩
  | _ + 3 => exact ⟨nofun, nofun, nofun, nofun⟩

theorem smallAlloc_pinned : Pinned smallAlloc 0#64 := by
  intro t r _ hr ha
  obtain ⟨-, rfl⟩ := smallAlloc_place hr
  exact absurd ha (by decide)

/-- Add the global and the constant into the given temporary. -/
def addTo (t : TempIdx) : Op := .withArgs .add .i64 [t, 1, 2]

end Main

end MachinaRegallocRegs
