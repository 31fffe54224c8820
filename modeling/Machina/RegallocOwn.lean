import Machina.Pairing
import Machina.Regalloc
import Machina.Runs

/-!
# Register ownership

The owner of each register and the register of each temporary are inverse to each
other, and the free registers are the allocatable ones without an owner. Every
part of the allocator keeps this, except where an output is given a register while
it still holds another one.
-/

namespace MachinaRegallocOwn

open MachinaBits MachinaIr MachinaRegalloc MachinaPairing
open Function (update_self update_of_ne update)

section Sets

variable (s s' : RegSet) (reg i : Reg)

theorem contains_eq : s.contains reg = s.getLsbD reg := by
  by_cases h : reg < 64
  · exact has_bit s h
  have hbit : (bit reg : BitVec 64) = 0#64 := by
    apply BitVec.eq_of_getLsbD_eq
    intro i hi
    rw [getLsbD_bit]
    simp [h]
  rw [RegSet.contains, hbit, BitVec.getLsbD_of_ge s reg (Nat.le_of_not_lt h)]
  simp [has]

theorem lt_of_contains {s : RegSet} {reg : Reg} (h : s.contains reg = true) : reg < 64 := by
  rw [contains_eq] at h
  exact BitVec.lt_of_getLsbD h

theorem contains_of_ge {i : Reg} (h : ¬i < 64) : s.contains i = false := by
  by_contra hc
  exact h (lt_of_contains (by simpa using hc))

@[simp] theorem contains_clear : (s.clear reg).contains i = (s.contains i && decide (i ≠ reg)) := by
  by_cases hi : i < 64
  · simp only [contains_eq, RegSet.clear, BitVec.getLsbD_and, BitVec.getLsbD_not, getLsbD_bit]
    by_cases h : i = reg
    · subst h
      simp [hi]
    · simp [hi, h, Ne.symm h]
  · simp [contains_of_ge _ hi]

theorem contains_set : (s.set reg).contains i = (s.contains i || decide (reg < 64 ∧ i = reg)) := by
  simp only [contains_eq, RegSet.set, BitVec.getLsbD_or, getLsbD_bit]
  by_cases h : i = reg
  · simp [h]
  · simp [h, Ne.symm h]

@[simp] theorem contains_union : (s.union s').contains i = (s.contains i || s'.contains i) := by
  simp [contains_eq, RegSet.union]

@[simp] theorem contains_intersect : (s.intersect s').contains i = (s.contains i && s'.contains i) := by
  simp [contains_eq, RegSet.intersect]

@[simp] theorem contains_subtract : (s.subtract s').contains i = (s.contains i && !s'.contains i) := by
  by_cases hi : i < 64
  · simp [contains_eq, RegSet.subtract, hi]
  · simp [contains_of_ge _ hi]

@[simp] theorem contains_empty : RegSet.contains 0#64 i = false := by
  simp [contains_eq]

theorem contains_of_first {s : RegSet} {reg : Reg} (h : s.first = some reg) : s.contains reg = true :=
  List.find?_some h

theorem first_none {s : RegSet} (h : s.first = none) (reg : Reg) : s.contains reg = false := by
  by_cases hr : reg < 64
  · simpa using List.find?_eq_none.mp h reg (List.mem_range.mpr hr)
  · exact contains_of_ge s hr

end Sets

def place (st : Alloc) (t : TempIdx) : Option Reg := (st.temp t).reg

/-- Ownership, up to stale owners and up to inputs whose register an output took over. -/
structure Own (st : Alloc) (stale displaced : TempIdx → Prop) : Prop where
  paired : Paired st.regToTemp (place st) stale displaced
  loc : ∀ t, (st.temp t).valType = .reg ↔ place st t ≠ none
  free : ∀ reg, st.freeRegs.contains reg = true ↔ st.allocatable.contains reg = true ∧ st.regToTemp reg = none

section Primitives

variable {st : Alloc} {S D : TempIdx → Prop} {t : TempIdx} {reg : Reg} {x : Temp}

@[simp] theorem temp_setTemp_self (st : Alloc) (t : TempIdx) (x : Temp) : (st.setTemp t x).temp t = x :=
  update_self _ _ _

theorem temp_setTemp_of_ne {u : TempIdx} (h : u ≠ t) : (st.setTemp t x).temp u = st.temp u :=
  update_of_ne h _ _

theorem place_setTemp : place (st.setTemp t x) = update (place st) t x.reg := by
  funext u
  by_cases h : u = t
  · subst h
    simp [place]
  · rw [update_of_ne h, place, temp_setTemp_of_ne h, place]

theorem loc_setTemp (h : ∀ t, (st.temp t).valType = .reg ↔ place st t ≠ none) (hx : x.valType = .reg ↔ x.reg ≠ none)
    (u : TempIdx) : ((st.setTemp t x).temp u).valType = .reg ↔ place (st.setTemp t x) u ≠ none := by
  by_cases hu : u = t
  · subst hu
    rw [place, temp_setTemp_self]
    exact hx
  · rw [place, temp_setTemp_of_ne hu]
    exact h u

section

variable (h : ∀ reg, st.freeRegs.contains reg = true ↔ st.allocatable.contains reg = true ∧ st.regToTemp reg = none)
    (i : Reg)
include h i

theorem free_freeReg : (st.freeReg reg).freeRegs.contains i = true ↔
      (st.freeReg reg).allocatable.contains i = true ∧ (st.freeReg reg).regToTemp i = none := by
  simp only [Alloc.freeReg]
  by_cases hi : i = reg
  · subst hi
    rw [update_self]
    split
    · rename_i ha
      simp [contains_set, ha, lt_of_contains ha]
    · rename_i ha
      simp [h, ha]
  · rw [update_of_ne hi]
    split
    · simp [contains_set, hi, h]
    · exact h i

theorem free_assign : (st.assign reg t).freeRegs.contains i = true ↔
      (st.assign reg t).allocatable.contains i = true ∧ (st.assign reg t).regToTemp i = none := by
  simp only [Alloc.assign, contains_clear]
  by_cases hi : i = reg
  · simp [hi]
  · simp [hi, h]

end

theorem Own.release (h : Own st S D) (hreg : st.regToTemp reg = some t) (hx : x.reg = none) (hv : x.valType ≠ .reg) :
    Own ((st.setTemp t x).freeReg reg) S D := by
  refine ⟨?_, loc_setTemp h.loc (by simp [hx, hv]), free_freeReg h.free⟩
  have hplace : place ((st.setTemp t x).freeReg reg) = update (place st) t none := by
    rw [← hx, ← place_setTemp]
    rfl
  rw [hplace]
  exact h.paired.release hreg

theorem Own.give (h : Own st S D) (hreg : st.regToTemp reg = none) (ht : place st t = none ∨ S t)
    (hx : x.reg = some reg) (hv : x.valType = .reg) : Own ((st.assign reg t).setTemp t x) S D := by
  refine ⟨?_, loc_setTemp h.loc (by simp [hx, hv]), free_assign h.free⟩
  rw [place_setTemp, hx]
  exact h.paired.give hreg ht

theorem Own.move (h : Own st S D) {cur : Reg} (hcur : st.regToTemp cur = some t) (hreg : st.regToTemp reg = none)
    (hx : x.reg = some reg) (hv : x.valType = .reg) : Own (((st.freeReg cur).assign reg t).setTemp t x) S D := by
  have hne : reg ≠ cur := fun he => by simp [he, hcur] at hreg
  have hrelease : Own ((st.setTemp t (toDead (st.temp t))).freeReg cur) S D := h.release hcur rfl nofun
  have hgive : Own ((((st.setTemp t (toDead (st.temp t))).freeReg cur).assign reg t).setTemp t x) S D :=
    hrelease.give ((update_of_ne hne _ _).trans hreg)
      (.inl (by simp [place, Alloc.freeReg, Alloc.temp, Alloc.setTemp, toDead])) hx hv
  refine ⟨?_, loc_setTemp h.loc (by simp [hx, hv]), hgive.free⟩
  have hplace := hgive.paired
  rw [place_setTemp] at hplace ⊢
  have hidem : update (place (((st.setTemp t (toDead (st.temp t))).freeReg cur).assign reg t)) t x.reg =
      update (place ((st.freeReg cur).assign reg t)) t x.reg := by
    change update (place (st.setTemp t (toDead (st.temp t)))) t x.reg = update (place st) t x.reg
    rw [place_setTemp, Function.update_idem]
  rw [hidem] at hplace
  exact hplace

theorem Own.emit (h : Own st S D) (c : HostOp) : Own (st.emit c) S D := ⟨h.paired, h.loc, h.free⟩

end Primitives

/-- Two states that differ in the code and the stack frame at most. -/
structure Like (st st' : Alloc) : Prop where
  temp : st'.temp = st.temp
  regToTemp : st'.regToTemp = st.regToTemp
  freeRegs : st'.freeRegs = st.freeRegs
  allocatable : st'.allocatable = st.allocatable
  nbGlobals : st'.ctx.nbGlobals = st.ctx.nbGlobals
  nbTemps : st'.ctx.nbTemps = st.ctx.nbTemps

theorem Like.refl (st : Alloc) : Like st st := ⟨rfl, rfl, rfl, rfl, rfl, rfl⟩

theorem Like.place {st st' : Alloc} (h : Like st st') : place st' = place st := by
  funext t
  rw [MachinaRegallocOwn.place, MachinaRegallocOwn.place, h.temp]

theorem Own.like {st st' : Alloc} {S D : TempIdx → Prop} (h : Own st S D) (hl : Like st st') : Own st' S D := by
  refine ⟨?_, ?_, ?_⟩
  · rw [hl.regToTemp, hl.place]
    exact h.paired
  · rw [hl.temp, hl.place]
    exact h.loc
  · rw [hl.regToTemp, hl.freeRegs, hl.allocatable]
    exact h.free

/-- How the allocator may change a state: kinds and tables stay, temporaries outside `T` keep their
register or lose it, and registers that are not allocatable get no new owner. -/
structure Evolves (T : TempIdx → Prop) (st st' : Alloc) : Prop where
  kind : ∀ u, (st'.temp u).kind = (st.temp u).kind
  ty : ∀ u, (st'.temp u).ty = (st.temp u).ty
  nbGlobals : st'.ctx.nbGlobals = st.ctx.nbGlobals
  nbTemps : st'.ctx.nbTemps = st.ctx.nbTemps
  allocatable : st'.allocatable = st.allocatable
  place : ∀ u, ¬T u → place st' u = place st u ∨ place st' u = none
  idle : ∀ reg, st.allocatable.contains reg = false → st.regToTemp reg = none → st'.regToTemp reg = none

section Evolves

variable {st st' st'' : Alloc} {T T' : TempIdx → Prop} {t : TempIdx} {reg : Reg} {x : Temp}

theorem Evolves.refl (T : TempIdx → Prop) (st : Alloc) : Evolves T st st :=
  ⟨fun _ => rfl, fun _ => rfl, rfl, rfl, rfl, fun _ _ => .inl rfl, fun _ _ h => h⟩

theorem Evolves.trans (h : Evolves T st st') (h' : Evolves T st' st'') : Evolves T st st'' := by
  refine ⟨fun u => (h'.kind u).trans (h.kind u), fun u => (h'.ty u).trans (h.ty u), h'.nbGlobals.trans h.nbGlobals,
    h'.nbTemps.trans h.nbTemps, h'.allocatable.trans h.allocatable, fun u hu => ?_, fun reg ha hn => ?_⟩
  · rcases h'.place u hu with h1 | h1
    · rw [h1]
      exact h.place u hu
    · exact .inr h1
  · exact h'.idle reg (by rw [h.allocatable]; exact ha) (h.idle reg ha hn)

theorem Evolves.of_like (T : TempIdx → Prop) (h : Like st st') : Evolves T st st' :=
  ⟨fun u => by rw [h.temp], fun u => by rw [h.temp], h.nbGlobals, h.nbTemps, h.allocatable,
    fun u _ => .inl (by rw [h.place]), fun reg _ hn => by rw [h.regToTemp]; exact hn⟩

theorem evolves_setTemp (hk : x.kind = (st.temp t).kind) (hty : x.ty = (st.temp t).ty)
    (hx : T t ∨ x.reg = place st t ∨ x.reg = none) : Evolves T st (st.setTemp t x) := by
  refine ⟨fun u => ?_, fun u => ?_, rfl, rfl, rfl, fun u hu => ?_, fun _ _ h => h⟩
  · by_cases h : u = t
    · subst h
      rw [temp_setTemp_self, hk]
    · rw [temp_setTemp_of_ne h]
  · by_cases h : u = t
    · subst h
      rw [temp_setTemp_self, hty]
    · rw [temp_setTemp_of_ne h]
  · rw [place_setTemp]
    by_cases h : u = t
    · subst h
      rw [update_self]
      exact hx.resolve_left hu
    · rw [update_of_ne h]
      exact .inl rfl

theorem evolves_freeReg : Evolves T st (st.freeReg reg) := by
  refine ⟨fun _ => rfl, fun _ => rfl, rfl, rfl, rfl, fun _ _ => .inl rfl, fun i _ hn => ?_⟩
  by_cases h : i = reg
  · rw [h]
    exact update_self _ _ _
  · exact (update_of_ne h _ _).trans hn

theorem Evolves.isFixed (h : Evolves T st st') (u : TempIdx) : (st'.temp u).isFixed = (st.temp u).isFixed := by
  simp [Temp.isFixed, h.kind]

end Evolves

section Functions

variable {st st' : Alloc} {S D : TempIdx → Prop} {t : TempIdx} {reg : Reg}

theorem tempSync_like (h : tempSync st t = some st') : Like st st' := by
  unfold tempSync at h
  dsimp only at h
  split at h
  · cases h
    exact .refl _
  split at h
  · cases h
    exact .refl _
  · obtain ⟨base, -, h⟩ := Option.bind_eq_some_iff.mp h
    cases h
    exact ⟨rfl, rfl, rfl, rfl, rfl, rfl⟩
  · split at h
    · obtain ⟨frame, -, h⟩ := Option.bind_eq_some_iff.mp h
      cases h
      exact ⟨rfl, rfl, rfl, rfl, rfl, rfl⟩
    · cases h
      exact .refl _

theorem allocTempFrame_spec {ctx ctx' : Context} {offset : Int} (h : allocTempFrame ctx t = some (ctx', offset)) :
    ctx'.temps = update ctx.temps t { ctx.temps t with memAllocated := true, memOffset := offset } ∧
      ctx'.nbGlobals = ctx.nbGlobals ∧ ctx'.nbTemps = ctx.nbTemps ∧ ctx'.frameReg = ctx.frameReg := by
  unfold allocTempFrame at h
  dsimp only at h
  split at h
  · rename_i hm
    cases h
    refine ⟨?_, rfl, rfl, rfl⟩
    conv_lhs => rw [← Function.update_eq_self t ctx.temps]
    rw [← hm]
  · split at h
    · cases h
      exact ⟨rfl, rfl, rfl, rfl⟩
    · cases h

/-- Eviction: a global is synced, a local is spilled. -/
theorem evictReg_cases (h : evictReg st reg = some st') : st.regToTemp reg = none ∧ st' = st ∨
      (∃ t st1, st.regToTemp reg = some t ∧ (st.temp t).isGlobalOrFixed = true ∧ tempSync st t = some st1 ∧
        st' = (st1.setTemp t (toMem (st1.temp t))).freeReg reg) ∨
      ∃ t ctx offset frame, st.regToTemp reg = some t ∧ (st.temp t).isGlobalOrFixed = false ∧
        allocTempFrame st.ctx t = some (ctx, offset) ∧ ctx.frameReg = some frame ∧
        st' = (({ st with ctx := ctx }.emit (.st (st.temp t).ty reg frame offset)).freeReg reg).setTemp t
          (toMem (ctx.temps t)) := by
  unfold evictReg at h
  split at h
  · rename_i hnone
    cases h
    exact .inl ⟨hnone, rfl⟩
  rename_i t hown
  right
  split at h
  · rename_i hg
    obtain ⟨st1, hsync, h⟩ := Option.bind_eq_some_iff.mp h
    cases h
    exact .inl ⟨t, st1, hown, hg, hsync, rfl⟩
  · rename_i hg
    obtain ⟨⟨ctx, offset⟩, hslot, h⟩ := Option.bind_eq_some_iff.mp h
    obtain ⟨frame, hframe, h⟩ := Option.bind_eq_some_iff.mp h
    cases h
    exact .inr ⟨t, ctx, offset, frame, hown, by simpa using hg, hslot, hframe, rfl⟩

/-- What eviction does to the owner: it has no register any more. -/
theorem evictReg_like (h : evictReg st reg = some st') : st.regToTemp reg = none ∧ st' = st ∨
      ∃ t x, st.regToTemp reg = some t ∧ x.reg = none ∧ x.valType = .mem ∧ x.kind = (st.temp t).kind ∧
        x.ty = (st.temp t).ty ∧ Like ((st.setTemp t x).freeReg reg) st' := by
  rcases evictReg_cases h with hnone | ⟨t, st1, hown, -, hsync, rfl⟩ | ⟨t, ctx, offset, frame, hown, -, hslot, -, rfl⟩
  · exact .inl hnone
  · right
    have hl := tempSync_like hsync
    refine ⟨t, toMem (st.temp t), hown, rfl, rfl, rfl, rfl, ?_⟩
    refine ⟨?_, ?_, ?_, hl.allocatable, hl.nbGlobals, hl.nbTemps⟩
    · rw [hl.temp]
      exact congrArg (fun f => update f t _) hl.temp
    · exact congrArg (fun f => update f reg none) hl.regToTemp
    · simp only [Alloc.freeReg, Alloc.setTemp, hl.freeRegs, hl.allocatable]
      rfl
  · right
    obtain ⟨htemps, hg, ht, -⟩ := allocTempFrame_spec hslot
    refine ⟨t, toMem (ctx.temps t), hown, rfl, rfl, by simp [toMem, htemps, Alloc.temp],
      by simp [toMem, htemps, Alloc.temp], ?_⟩
    refine ⟨?_, rfl, rfl, rfl, hg, ht⟩
    change update ctx.temps t _ = update st.ctx.temps t _
    rw [htemps, Function.update_idem]

/-- After an eviction nobody owns the register; all others keep what they had. -/
theorem evictReg_own (h : Own st S D) (he : evictReg st reg = some st') :
    Own st' S D ∧ st'.regToTemp = update st.regToTemp reg none ∧ Evolves (fun _ => False) st st' ∧
      ∀ u, st.regToTemp reg ≠ some u → st'.temp u = st.temp u := by
  rcases evictReg_like he with ⟨hnone, rfl⟩ | ⟨t, x, hown, hx, hv, hk, hty, hl⟩
  · exact ⟨h, by rw [← hnone, Function.update_eq_self], .refl _ _, fun _ _ => rfl⟩
  refine ⟨(h.release hown hx (by simp [hv])).like hl, by rw [hl.regToTemp]; rfl, ?_, fun u hu => ?_⟩
  · exact ((evolves_setTemp hk hty (.inr (.inr hx))).trans evolves_freeReg).trans (.of_like _ hl)
  · have hne : u ≠ t := fun heq => hu (heq ▸ hown)
    rw [hl.temp]
    exact temp_setTemp_of_ne hne

/-- An allocated register meets the constraint and is free or evicted; it is forbidden only when
all others are. -/
theorem regAlloc_picks {required forbidden preferred : RegSet}
    (ha : regAlloc st required forbidden preferred = some (reg, st')) :
    required.contains reg = true ∧ st.allocatable.contains reg = true ∧
      (st.freeRegs.contains reg = true ∧ st' = st ∨ evictReg st reg = some st') ∧
      ∀ c, required.contains c = true → st.allocatable.contains c = true → forbidden.contains c = false →
        forbidden.contains reg = false := by
  unfold regAlloc at ha
  dsimp only at ha
  split at ha
  · rename_i hf
    cases ha
    have hc := contains_of_first hf
    simp only [contains_intersect, contains_subtract, Bool.and_eq_true, Bool.not_eq_true'] at hc
    exact ⟨hc.1.1.1.1, hc.1.1.1.2, .inl ⟨hc.1.2, rfl⟩, fun _ _ _ _ => hc.1.1.2⟩
  split at ha
  · rename_i hf
    cases ha
    have hc := contains_of_first hf
    simp only [contains_intersect, contains_subtract, Bool.and_eq_true, Bool.not_eq_true'] at hc
    exact ⟨hc.1.1.1, hc.1.1.2, .inl ⟨hc.2, rfl⟩, fun _ _ _ _ => hc.1.2⟩
  split at ha
  · rename_i hf
    obtain ⟨st1, he, heq⟩ := Option.map_eq_some_iff.mp ha
    cases heq
    have hc := contains_of_first hf
    simp only [contains_intersect, contains_subtract, Bool.and_eq_true, Bool.not_eq_true'] at hc
    exact ⟨hc.1.1, hc.1.2, .inr he, fun _ _ _ _ => hc.2⟩
  · rename_i hf
    obtain ⟨r', hforced, ha⟩ := Option.bind_eq_some_iff.mp ha
    obtain ⟨st1, he, ha⟩ := Option.bind_eq_some_iff.mp ha
    cases ha
    have hc := contains_of_first hforced
    simp only [contains_intersect, Bool.and_eq_true] at hc
    refine ⟨hc.1, hc.2, .inr he, fun c hreq hall hforb => ?_⟩
    have hnone := first_none hf c
    simp [hreq, hall, hforb] at hnone

/-- Where the free registers have no owner, the allocated register is the evicted one. -/
theorem regAlloc_evicts {required forbidden preferred : RegSet} (h : Own st S D)
    (ha : regAlloc st required forbidden preferred = some (reg, st')) : evictReg st reg = some st' := by
  obtain ⟨-, -, ⟨hfree, rfl⟩ | he, -⟩ := regAlloc_picks ha
  · rw [evictReg, ((h.free reg).mp hfree).2]
  · exact he

end Functions

end MachinaRegallocOwn
