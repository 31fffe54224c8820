import Machina.Host
import Machina.RegallocOwn

/-!
# Where the words of the temporaries are

A state of the allocator says where the word of each temporary is: in a register, in
memory, or nowhere because it is a constant. A machine holds the words when it agrees
with that. Evicting a register and loading a temporary keep the agreement, as long as
the memory of the temporaries does not overlap and no fixed temporary is evicted.
-/

namespace MachinaRegallocValues

open MachinaBits MachinaByteMem MachinaIr MachinaIrSem MachinaFold MachinaRegalloc MachinaRegallocOwn MachinaHost
open Function (update_self update_of_ne)

section Relation

variable (words : TempIdx → BitVec 64) (fp : BitVec 64)

/-- The address of the memory of a temporary: relative to a base for globals, to the stack frame for locals. -/
def slot (x : Temp) : Option (BitVec 64) :=
  match x.memBase with
  | some base => some (words base + BitVec.ofInt 64 x.memOffset)
  | none => if x.memAllocated then some (fp + BitVec.ofInt 64 x.memOffset) else none

/-- The memory of the temporaries and the rest of the stack frame do not overlap. -/
structure Layout (st : Alloc) : Prop where
  apart : ∀ t u a b, t ≠ u → slot words fp (st.temp t) = some a → slot words fp (st.temp u) = some b →
    Apart a (bytes (st.temp t).ty) b (bytes (st.temp u).ty)
  room : ∀ t a, slot words fp (st.temp t) = some a → ∀ (i : Int) (n : Nat), 0 < n → st.ctx.frameAllocEnd ≤ i →
    i + n ≤ st.ctx.frameEnd → Apart a (bytes (st.temp t).ty) (fp + BitVec.ofInt 64 i) n
  frame : st.ctx.frameEnd ≤ st.ctx.frameAllocEnd + 2 ^ 64
  base : ∀ t b, (st.temp t).memBase = some b →
    (st.temp t).kind = .global ∧ (st.temp b).isFixed = true ∧ (st.temp b).ty = .i64
  global : ∀ t, (st.temp t).kind = .global → slot words fp (st.temp t) ≠ none

/-- The machine has the word `w` where the temporary says. -/
structure Stored (x : Temp) (w : BitVec 64) (h : Host) : Prop where
  reg : ∀ reg, x.reg = some reg → low x.ty (h.regs reg) = low x.ty w
  const : x.valType = .const → low x.ty x.val = low x.ty w
  home : x.valType = .mem → slot words fp x ≠ none
  saved : ∀ a, slot words fp x = some a → x.valType ≠ .dead → x.valType = .mem ∨ x.memCoherent = true →
    low x.ty (read h.mem a (bytes x.ty)) = low x.ty w

/-- The machine agrees with the allocator about all words. -/
structure Holds (st : Alloc) (h : Host) : Prop where
  stored : ∀ t, Stored words fp (st.temp t) (words t) h
  frame : ∀ reg, st.ctx.frameReg = some reg → h.regs reg = fp

/-- Each register has at most one owner, and the registers without one are free. -/
abbrev Owned (st : Alloc) : Prop := Own st (fun _ => False) fun _ => False

/-- A state of the allocator together with a machine that agrees with it. -/
structure Sound (st : Alloc) (h : Host) : Prop where
  own : Owned st
  layout : Layout words fp st
  holds : Holds words fp st h
  allocatable : st.allocatable = allocatableRegs
  frame : ∀ reg, st.ctx.frameReg = some reg → st.allocatable.contains reg = false

/-- Fixed temporaries are only in registers that may not be evicted. -/
def Pinned (st : Alloc) (forbidden : RegSet) : Prop :=
  ∀ t reg, (st.temp t).isFixed = true → (st.temp t).reg = some reg → st.allocatable.contains reg = true →
    forbidden.contains reg = true

end Relation

section Layout

variable {words : TempIdx → BitVec 64} {fp : BitVec 64} {st st' : Alloc} {t : TempIdx} {x y : Temp}

/-- Two temporaries of the same kind with the same memory. -/
structure SameMem (x y : Temp) : Prop where
  ty : y.ty = x.ty
  kind : y.kind = x.kind
  memBase : y.memBase = x.memBase
  memOffset : y.memOffset = x.memOffset
  memAllocated : y.memAllocated = x.memAllocated

theorem SameMem.refl (x : Temp) : SameMem x x := ⟨rfl, rfl, rfl, rfl, rfl⟩

theorem SameMem.slot_eq (h : SameMem x y) : slot words fp y = slot words fp x := by
  rw [slot, slot, h.memBase, h.memOffset, h.memAllocated]

theorem SameMem.isFixed (h : SameMem x y) : y.isFixed = x.isFixed := by
  rw [Temp.isFixed, Temp.isFixed, h.kind]

theorem Layout.congr (h : Layout words fp st) (hmem : ∀ u, SameMem (st.temp u) (st'.temp u))
    (hend : st'.ctx.frameEnd = st.ctx.frameEnd) (halloc : st'.ctx.frameAllocEnd = st.ctx.frameAllocEnd) :
    Layout words fp st' := by
  refine ⟨fun t u a b htu ha hb => ?_, fun t a ha i n hn hlo hhi => ?_, ?_, fun t b hb => ?_, fun t ht => ?_⟩
  · rw [(hmem t).slot_eq] at ha
    rw [(hmem u).slot_eq] at hb
    rw [(hmem t).ty, (hmem u).ty]
    exact h.apart t u a b htu ha hb
  · rw [(hmem t).slot_eq] at ha
    rw [halloc] at hlo
    rw [hend] at hhi
    rw [(hmem t).ty]
    exact h.room t a ha i n hn hlo hhi
  · rw [hend, halloc]
    exact h.frame
  · rw [(hmem t).memBase] at hb
    rw [(hmem t).kind, (hmem b).isFixed, (hmem b).ty]
    exact h.base t b hb
  · rw [(hmem t).kind] at ht
    rw [(hmem t).slot_eq]
    exact h.global t ht

theorem sameMem_update {f : TempIdx → Temp} (h : SameMem (f t) x) (u : TempIdx) :
    SameMem (f u) (Function.update f t x u) := by
  by_cases hu : u = t
  · subst hu
    rwa [update_self]
  · rw [update_of_ne hu]
    exact .refl _

end Layout

section Machine

variable {words : TempIdx → BitVec 64} {fp : BitVec 64} {st st' : Alloc} {h h' : Host} {t : TempIdx} {x : Temp}

theorem Stored.of_regs {w : BitVec 64} (hx : Stored words fp x w h) (hmem : h'.mem = h.mem)
    (hreg : ∀ reg, x.reg = some reg → h'.regs reg = h.regs reg) : Stored words fp x w h' :=
  ⟨fun reg hr => by rw [hreg reg hr]; exact hx.reg reg hr, hx.const, hx.home,
    fun a ha hd hc => by rw [hmem]; exact hx.saved a ha hd hc⟩

/-- One temporary changes, the machine may change where no other temporary looks. -/
theorem Holds.update (hh : Holds words fp st h) (htemp : st'.temp = Function.update st.temp t x)
    (hframe : st'.ctx.frameReg = st.ctx.frameReg) (hx : Stored words fp x (words t) h')
    (hother : ∀ u, u ≠ t → Stored words fp (st.temp u) (words u) h')
    (hreg : ∀ reg, st.ctx.frameReg = some reg → h'.regs reg = h.regs reg) : Holds words fp st' h' := by
  refine ⟨fun u => ?_, fun reg hr => ?_⟩
  · rw [htemp]
    by_cases hu : u = t
    · subst hu
      rwa [update_self]
    · rw [update_of_ne hu]
      exact hother u hu
  · rw [hframe] at hr
    rw [hreg reg hr]
    exact hh.frame reg hr

theorem Stored.of_write {w v a : BitVec 64} {n : Nat} (hx : Stored words fp x w h)
    (hapart : ∀ b, slot words fp x = some b → Apart a n b (bytes x.ty)) :
    Stored words fp x w { h with mem := write h.mem a n v } := by
  refine ⟨hx.reg, hx.const, hx.home, fun b hb hd hc => ?_⟩
  rw [read_write_apart h.mem v (hapart b hb)]
  exact hx.saved b hb hd hc

/-- The word of a temporary is stored to its memory, and its register is given up. -/
theorem Holds.spill (hh : Holds words fp st h) (htemp : st'.temp = Function.update st.temp t x)
    (hframe : st'.ctx.frameReg = st.ctx.frameReg) {reg : Reg} {a : BitVec 64} (hreg : (st.temp t).reg = some reg)
    (hty : x.ty = (st.temp t).ty) (hx : x.reg = none) (hv : x.valType = .mem) (ha : slot words fp x = some a)
    (hapart : ∀ u, u ≠ t → ∀ b, slot words fp (st.temp u) = some b → Apart a (bytes x.ty) b (bytes (st.temp u).ty)) :
    Holds words fp st' { h with mem := write h.mem a (bytes x.ty) (h.regs reg) } := by
  refine hh.update htemp hframe ⟨?_, ?_, ?_, ?_⟩ (fun u hu => (hh.stored u).of_write (hapart u hu)) fun _ _ => rfl
  · intro r hr
    rw [hx] at hr
    cases hr
  · intro hc
    rw [hv] at hc
    cases hc
  · intro _ hnone
    rw [ha] at hnone
    cases hnone
  intro b hb _ _
  obtain rfl := Option.some.inj (ha.symm.trans hb)
  rw [low_read_write, hty]
  exact (hh.stored t).reg reg hreg

/-- A temporary whose memory has its word gives up its register. -/
theorem Holds.forget (hh : Holds words fp st h) (htemp : st'.temp = Function.update st.temp t (toMem (st.temp t)))
    (hframe : st'.ctx.frameReg = st.ctx.frameReg) (hslot : slot words fp (st.temp t) ≠ none)
    (hd : (st.temp t).valType ≠ .dead) (hc : (st.temp t).memCoherent = true) : Holds words fp st' h := by
  refine hh.update htemp hframe ⟨?_, ?_, fun _ => hslot, ?_⟩ (fun u _ => hh.stored u) fun _ _ => rfl
  · intro r hr
    cases hr
  · intro hconst
    cases hconst
  · intro b hb _ _
    exact (hh.stored t).saved b hb hd (.inr hc)

end Machine

section Evict

variable {words : TempIdx → BitVec 64} {fp : BitVec 64} {st st' : Alloc} {h : Host} {t : TempIdx} {reg : Reg}

/-- The memory of a global is where its base register says. -/
theorem slot_of_base (hl : Layout words fp st) (hh : Holds words fp st h) {base : TempIdx}
    (hbase : (st.temp t).memBase = some base) (hreg : (st.temp base).reg = some reg) :
    slot words fp (st.temp t) = some (h.regs reg + BitVec.ofInt 64 (st.temp t).memOffset) := by
  obtain ⟨-, -, hty⟩ := hl.base t base hbase
  have hword := (hh.stored base).reg reg hreg
  rw [hty] at hword
  rw [slot, hbase, show h.regs reg = words base by simpa [low, width] using hword]

/-- The memory of a local is where the frame register says. -/
theorem slot_of_frame (hh : Holds words fp st h) (hbase : (st.temp t).memBase = none)
    (hm : (st.temp t).memAllocated = true) (hreg : st.ctx.frameReg = some reg) :
    slot words fp (st.temp t) = some (h.regs reg + BitVec.ofInt 64 (st.temp t).memOffset) := by
  rw [slot, hbase, hh.frame reg hreg]
  exact if_pos hm

/-- Syncing a temporary that is in a register: nothing, or one store to its memory. -/
theorem tempSync_store (hl : Layout words fp st) (hh : Holds words fp st h) (hreg : (st.temp t).reg = some reg)
    {a : BitVec 64} (ha : slot words fp (st.temp t) = some a) (hsync : tempSync st t = some st') :
    (st.temp t).memCoherent = true ∧ st' = st ∨
      ∃ base offset, h.regs base + BitVec.ofInt 64 offset = a ∧
      st' = st.emit (.st (st.temp t).ty reg base offset) := by
  unfold tempSync at hsync
  dsimp only at hsync
  split at hsync
  · rename_i hc
    cases hsync
    exact .inl ⟨hc, rfl⟩
  right
  split at hsync
  · rename_i hnone
    rw [hreg] at hnone
    cases hnone
  · rename_i r base hr hbase
    obtain rfl := Option.some.inj (hreg.symm.trans hr)
    obtain ⟨baseReg, hbaseReg, hsync⟩ := Option.bind_eq_some_iff.mp hsync
    cases hsync
    exact ⟨baseReg, _, Option.some.inj ((slot_of_base hl hh hbase hbaseReg).symm.trans ha), rfl⟩
  · rename_i r hr hbase
    obtain rfl := Option.some.inj (hreg.symm.trans hr)
    split at hsync
    · rename_i hm
      obtain ⟨frameReg, hframe, hsync⟩ := Option.bind_eq_some_iff.mp hsync
      cases hsync
      exact ⟨frameReg, _, Option.some.inj ((slot_of_frame hh hbase hm hframe).symm.trans ha), rfl⟩
    · rename_i hm
      rw [slot, hbase] at ha
      exact absurd (ha.symm.trans (if_neg hm)) nofun

theorem le_align (ty : IrType) (i : Int) : i ≤ (i + ty.sizeBytes - 1) / ty.sizeBytes * ty.sizeBytes := by
  cases ty <;> simp only [IrType.sizeBytes, IrType.sizeBits] <;> omega

/-- A stack slot: the one there is, or a new one from the room in the frame. -/
theorem allocTempFrame_cases {ctx ctx' : Context} {offset : Int} (h : allocTempFrame ctx t = some (ctx', offset)) :
    (ctx.temps t).memAllocated = true ∧ ctx' = ctx ∧ offset = (ctx.temps t).memOffset ∨
      (ctx.temps t).memAllocated = false ∧ ctx.frameAllocEnd ≤ offset ∧
        offset + (ctx.temps t).ty.sizeBytes ≤ ctx.frameEnd ∧ ctx' = { ctx with
          frameAllocEnd := offset + (ctx.temps t).ty.sizeBytes
          temps := Function.update ctx.temps t { ctx.temps t with memAllocated := true, memOffset := offset } } := by
  unfold allocTempFrame at h
  dsimp only at h
  split at h
  · rename_i hm
    cases h
    exact .inl ⟨hm, rfl, rfl⟩
  rename_i hm
  split at h
  · rename_i hfit
    cases h
    exact .inr ⟨by simpa using hm, le_align _ _, hfit, rfl⟩
  · cases h

theorem Layout.newSlot (hl : Layout words fp st) {x : Temp} {offset : Int}
    (htemp : st'.temp = Function.update st.temp t x) (hend : st'.ctx.frameEnd = st.ctx.frameEnd)
    (halloc : st'.ctx.frameAllocEnd = offset + (st.temp t).ty.sizeBytes) (hlo : st.ctx.frameAllocEnd ≤ offset)
    (hhi : offset + (st.temp t).ty.sizeBytes ≤ st.ctx.frameEnd) (hty : x.ty = (st.temp t).ty)
    (hkind : x.kind = (st.temp t).kind) (hbase : x.memBase = none)
    (hx : slot words fp x = some (fp + BitVec.ofInt 64 offset)) :
    Layout words fp st' := by
  have hpos := bytes_pos (st.temp t).ty
  have hsize := bytes_le_size (st.temp t).ty
  have hfit : offset + bytes (st.temp t).ty ≤ st.ctx.frameEnd := by omega
  have hself : st'.temp t = x := by rw [htemp, update_self]
  have hother (u : TempIdx) (hu : u ≠ t) : st'.temp u = st.temp u := by rw [htemp, update_of_ne hu]
  have hkinds (u : TempIdx) : (st'.temp u).kind = (st.temp u).kind ∧ (st'.temp u).ty = (st.temp u).ty := by
    by_cases hu : u = t
    · rw [hu, hself]
      exact ⟨hkind, hty⟩
    · rw [hother u hu]
      exact ⟨rfl, rfl⟩
  refine ⟨fun u v a b huv ha hb => ?_, fun u a ha i n hn hi hi' => ?_, ?_, fun u b hb => ?_, fun u hu => ?_⟩
  · rw [(hkinds u).2, (hkinds v).2]
    by_cases hu : u = t
    · subst hu
      rw [hself, hx] at ha
      rw [hother v (Ne.symm huv)] at hb
      obtain rfl := Option.some.inj ha
      exact (hl.room v b hb offset _ hpos hlo hfit).symm
    · rw [hother u hu] at ha
      by_cases hv : v = t
      · subst hv
        rw [hself, hx] at hb
        obtain rfl := Option.some.inj hb
        exact hl.room u a ha offset _ hpos hlo hfit
      · rw [hother v hv] at hb
        exact hl.apart u v a b huv ha hb
  · rw [halloc] at hi
    rw [hend] at hi'
    rw [(hkinds u).2]
    by_cases hu : u = t
    · subst hu
      rw [hself, hx] at ha
      obtain rfl := Option.some.inj ha
      have hframe := hl.frame
      exact apart_of_offset fp (by omega) (by omega) hpos hn
    · rw [hother u hu] at ha
      exact hl.room u a ha i n hn (by omega) hi'
  · rw [hend, halloc]
    have hframe := hl.frame
    omega
  · have hb' : (st.temp u).memBase = some b := by
      by_cases hu : u = t
      · rw [hu, hself, hbase] at hb
        cases hb
      · rwa [hother u hu] at hb
    rw [(hkinds u).1, Temp.isFixed, (hkinds b).1, (hkinds b).2]
    exact hl.base u b hb'
  · by_cases hut : u = t
    · rw [hut, hself, hx]
      exact Option.some_ne_none _
    · rw [(hkinds u).1] at hu
      rw [hother u hut]
      exact hl.global u hu

theorem sameMem_toMem (x : Temp) : SameMem x (toMem x) := ⟨rfl, rfl, rfl, rfl, rfl⟩

/-- The occupant of an evicted register that is not pinned is a global or a local. -/
theorem kind_of_owner (hs : Sound words fp st h) {forbidden : RegSet} (hp : Pinned st forbidden)
    (hreg : forbidden.contains reg = false) (ha : st.allocatable.contains reg = true)
    (hown : st.regToTemp reg = some t) : (st.temp t).reg = some reg ∧ (st.temp t).isFixed = false := by
  have hplace : (st.temp t).reg = some reg := (hs.own.paired.owns reg t hown).resolve_right id
  refine ⟨hplace, ?_⟩
  by_contra hfixed
  rw [hp t reg (by simpa using hfixed) hplace ha] at hreg
  cases hreg

/-- An eviction stores the word of the occupant and changes no register. -/
theorem evictReg_sound (hs : Sound words fp st h) {forbidden : RegSet} (hp : Pinned st forbidden)
    (hreg : forbidden.contains reg = false) (ha : st.allocatable.contains reg = true)
    (he : evictReg st reg = some st') :
    ∃ code, st'.code = st.code ++ code ∧ (h.run code).regs = h.regs ∧ Sound words fp st' (h.run code) := by
  obtain ⟨hown', -, hev, -⟩ := evictReg_own hs.own he
  have halloc : st'.allocatable = allocatableRegs := hev.allocatable.trans hs.allocatable
  rcases evictReg_cases he with ⟨-, rfl⟩ | ⟨t, st1, hown, hg, hsync, rfl⟩ | ⟨t, ctx, offset, frame, hown, hg,
    hslot, hframe, rfl⟩
  · exact ⟨[], (List.append_nil _).symm, rfl, hs⟩
  · obtain ⟨hplace, hfixed⟩ := kind_of_owner hs hp hreg ha hown
    have hkind : (st.temp t).kind = .global := by
      simpa [Temp.isGlobalOrFixed, show (st.temp t).kind ≠ .fixed by simpa [Temp.isFixed] using hfixed] using hg
    obtain ⟨a, hslot⟩ := Option.ne_none_iff_exists'.mp (hs.layout.global t hkind)
    have hval : (st.temp t).valType = .reg := (hs.own.loc t).mpr (by rw [place, hplace]; exact Option.some_ne_none _)
    rcases tempSync_store hs.layout hs.holds hplace hslot hsync with ⟨hc, rfl⟩ | ⟨base, off, haddr, rfl⟩
    · refine ⟨[], (List.append_nil _).symm, rfl, hown', ?_, ?_, halloc, hs.frame⟩
      · exact hs.layout.congr (sameMem_update (sameMem_toMem _)) rfl rfl
      · exact hs.holds.forget rfl rfl (by rw [hslot]; exact Option.some_ne_none _) (by rw [hval]; decide) hc
    refine ⟨[.st (st.temp t).ty reg base off], rfl, rfl, hown', ?_, ?_, halloc, hs.frame⟩
    · exact hs.layout.congr (sameMem_update (sameMem_toMem _)) rfl rfl
    · have happly (st'' : Alloc) (htemp : st''.temp = Function.update st.temp t (toMem (st.temp t)))
          (hframe : st''.ctx.frameReg = st.ctx.frameReg) := hs.holds.spill htemp hframe hplace rfl rfl rfl hslot
        fun u hu b hb => hs.layout.apart t u a b (Ne.symm hu) hslot hb
      rw [← haddr] at happly
      exact happly _ rfl rfl
  · obtain ⟨hplace, hfixed⟩ := kind_of_owner hs hp hreg ha hown
    have hglobal : (st.temp t).kind ≠ .global := by
      intro hk
      rw [Temp.isGlobalOrFixed, hk] at hg
      cases hg
    have hbase : (st.temp t).memBase = none := by
      by_contra hb
      obtain ⟨b, hb⟩ := Option.ne_none_iff_exists'.mp hb
      exact hglobal (hs.layout.base t b hb).1
    have hslotOf (x : Temp) (hx : x.memBase = none) (hm : x.memAllocated = true) :
        slot words fp x = some (fp + BitVec.ofInt 64 x.memOffset) := by
      rw [slot, hx]
      exact if_pos hm
    refine ⟨[.st (st.temp t).ty reg frame offset], rfl, rfl, ?_⟩
    rcases allocTempFrame_cases hslot with ⟨hm, rfl, rfl⟩ | ⟨hm, hlo, hhi, rfl⟩
    · have hsl := hslotOf (st.temp t) hbase hm
      refine ⟨hown', hs.layout.congr (sameMem_update (sameMem_toMem _)) rfl rfl, ?_, halloc, hs.frame⟩
      have happly (st'' : Alloc) (htemp : st''.temp = Function.update st.temp t (toMem (st.temp t)))
          (hfr : st''.ctx.frameReg = st.ctx.frameReg) := hs.holds.spill htemp hfr hplace rfl rfl rfl hsl
        fun u hu b hb => hs.layout.apart t u _ b (Ne.symm hu) hsl hb
      obtain rfl := hs.holds.frame frame hframe
      exact happly _ rfl rfl
    · let x : Temp := { st.temp t with memAllocated := true, memOffset := offset }
      have hsl := hslotOf (toMem x) hbase rfl
      have htemps (st'' : Alloc) (h'' : st''.temp = Function.update (Function.update st.temp t x) t
          (toMem (Function.update st.temp t x t))) : st''.temp = Function.update st.temp t (toMem x) := by
        rw [h'', Function.update_idem, update_self]
      have hpos := bytes_pos (st.temp t).ty
      have hsize := bytes_le_size (st.temp t).ty
      have hhi' : offset + (st.temp t).ty.sizeBytes ≤ st.ctx.frameEnd := hhi
      refine ⟨hown', ?_, ?_, halloc, hs.frame⟩
      · exact hs.layout.newSlot (htemps _ rfl) rfl rfl hlo hhi rfl rfl hbase hsl
      · have happly (st'' : Alloc) (htemp : st''.temp = Function.update st.temp t (toMem x))
            (hfr : st''.ctx.frameReg = st.ctx.frameReg) := hs.holds.spill htemp hfr hplace rfl rfl rfl hsl
          fun u hu b hb => (hs.layout.room u b hb offset _ hpos hlo (by omega)).symm
        obtain rfl := hs.holds.frame frame hframe
        exact happly _ (htemps _ rfl) rfl

end Evict

section Load

variable {words : TempIdx → BitVec 64} {fp : BitVec 64} {st st' : Alloc} {h : Host} {t : TempIdx} {reg : Reg}
  {required forbidden preferred : RegSet}

theorem Pinned.evolves (hp : Pinned st forbidden) (hev : Evolves (fun _ => False) st st') : Pinned st' forbidden := by
  intro u r hfixed hr ha
  rw [hev.isFixed] at hfixed
  rw [hev.allocatable] at ha
  rcases hev.place u id with heq | hnone
  · exact hp u r hfixed (heq.symm.trans hr) ha
  · rw [place, hr] at hnone
    cases hnone

/-- What an allocation gives: a register nobody owns, from the set asked for. -/
structure Allocated (words : TempIdx → BitVec 64) (fp : BitVec 64) (st : Alloc) (h : Host)
    (required forbidden : RegSet)
    (reg : Reg) (st' : Alloc) : Prop where
  required : required.contains reg = true
  allocatable : st.allocatable.contains reg = true
  allowed : forbidden.contains reg = false
  idle : st'.regToTemp reg = none
  evolves : Evolves (fun _ => False) st st'
  pinned : Pinned st' forbidden
  same : ∀ u, place st u ≠ some reg → st'.temp u = st.temp u
  code : ∃ code, st'.code = st.code ++ code ∧ (h.run code).regs = h.regs ∧ Sound words fp st' (h.run code)

theorem regAlloc_sound (hs : Sound words fp st h) (hp : Pinned st forbidden)
    (hc : ∃ c, required.contains c = true ∧ st.allocatable.contains c = true ∧ forbidden.contains c = false)
    (ha : regAlloc st required forbidden preferred = some (reg, st')) :
    Allocated words fp st h required forbidden reg st' := by
  obtain ⟨hreq, halloc, -, hallowed⟩ := regAlloc_picks ha
  obtain ⟨c, hc1, hc2, hc3⟩ := hc
  have he := regAlloc_evicts hs.own ha
  obtain ⟨-, hidle, hev, hsame⟩ := evictReg_own hs.own he
  refine ⟨hreq, halloc, hallowed c hc1 hc2 hc3, by rw [hidle, update_self], hev, hp.evolves hev, fun u hu => ?_,
    evictReg_sound hs hp (hallowed c hc1 hc2 hc3) halloc he⟩
  exact hsame u fun hown => hu ((hs.own.paired.owns reg u hown).resolve_right id)

/-- A register that nobody owns may be written. -/
theorem Sound.write_idle (hs : Sound words fp st h) (hidle : st.regToTemp reg = none)
    (ha : st.allocatable.contains reg = true) {h' : Host} (hmem : h'.mem = h.mem)
    (hregs : ∀ r, r ≠ reg → h'.regs r = h.regs r) (u : TempIdx) : Stored words fp (st.temp u) (words u) h' ∧
      ∀ r, st.ctx.frameReg = some r → h'.regs r = h.regs r := by
  refine ⟨(hs.holds.stored u).of_regs hmem fun r hr => hregs r ?_, fun r hr => hregs r ?_⟩
  · rintro rfl
    rw [(hs.own.paired.owned u r hr).resolve_right id] at hidle
    cases hidle
  · rintro rfl
    rw [hs.frame r hr] at ha
    cases ha

/-- What loading a temporary gives: it is in a register of the set asked for, and what is in forbidden
registers stays. -/
structure Loaded (words : TempIdx → BitVec 64) (fp : BitVec 64) (st : Alloc) (h : Host) (t : TempIdx)
    (required forbidden : RegSet) (reg : Reg) (st' : Alloc) : Prop where
  place : place st' t = some reg
  required : required.contains reg = true
  allowed : forbidden.contains reg = false
  evolves : Evolves (fun u => u = t) st st'
  keeps : ∀ u, u ≠ t → ∀ r, MachinaRegallocOwn.place st u = some r → forbidden.contains r = true →
    MachinaRegallocOwn.place st' u = some r
  pinned : Pinned st' (forbidden.set reg)
  code : ∃ code, st'.code = st.code ++ code ∧ Sound words fp st' (h.run code)

theorem Pinned.mono (hp : Pinned st forbidden) : Pinned st (forbidden.set reg) := by
  intro u r hfixed hr ha
  rw [contains_set, hp u r hfixed hr ha, Bool.true_or]

/-- The temporary is put into the allocated register by one host operation. -/
theorem Allocated.load {st1 : Alloc} (hal : Allocated words fp st h required forbidden reg st1) {x : Temp} {c : HostOp}
    (htemp : st'.temp = Function.update st1.temp t x) (hctx : st'.ctx = { st1.ctx with temps := st'.temp })
    (hset : st'.allocatable = st1.allocatable) (hcode : st'.code = st1.code ++ [c]) (hown : Owned st')
    (hidle : ∀ r, st.allocatable.contains r = false → st1.regToTemp r = none → st'.regToTemp r = none)
    (hsame : SameMem (st1.temp t) x) (hx : x.reg = some reg)
    (hmachine : ∀ h1 : Host, Sound words fp st1 h1 → h1.regs = h.regs →
      (h1.step c).mem = h1.mem ∧ (∀ r, r ≠ reg → (h1.step c).regs r = h1.regs r) ∧
      Stored words fp x (words t) (h1.step c)) :
    Loaded words fp st h t required forbidden reg st' := by
  have hplace : place st' = Function.update (place st1) t (some reg) := by
    funext u
    by_cases hu : u = t
    · rw [place, htemp, hu, update_self, update_self, hx]
    · rw [place, htemp, update_of_ne hu, update_of_ne hu, place]
  have hmem' (u : TempIdx) : SameMem (st1.temp u) (st'.temp u) := by
    rw [htemp]
    exact sameMem_update hsame u
  obtain ⟨code, hcode1, hregs, hsound⟩ := hal.code
  obtain ⟨hmem, hothers, hstored⟩ := hmachine _ hsound hregs
  have hidle1 := hsound.write_idle hal.idle (hal.evolves.allocatable ▸ hal.allocatable) hmem hothers
  refine ⟨by rw [hplace, update_self], hal.required, hal.allowed, ?_, fun u hu r hr hf => ?_, ?_,
    code ++ [c], by rw [hcode, hcode1, List.append_assoc], hown, ?_, ?_, by rw [hset]; exact hsound.allocatable, ?_⟩
  · refine ⟨fun u => (hmem' u).kind.trans (hal.evolves.kind u), fun u => (hmem' u).ty.trans (hal.evolves.ty u), ?_, ?_,
      hset.trans hal.evolves.allocatable, fun u hu => ?_, fun r hr hn => hidle r hr (hal.evolves.idle r hr hn)⟩
    · rw [hctx]
      exact hal.evolves.nbGlobals
    · rw [hctx]
      exact hal.evolves.nbTemps
    · rw [hplace, update_of_ne hu]
      exact hal.evolves.place u id
  · have hne : place st u ≠ some reg := by
      intro heq
      obtain rfl := Option.some.inj (hr.symm.trans heq)
      rw [hal.allowed] at hf
      cases hf
    rw [hplace, update_of_ne hu, place, hal.same u hne]
    exact hr
  · intro u r hfixed hr ha
    by_cases hu : u = t
    · subst hu
      obtain rfl : reg = r := by
        have := congrFun hplace u
        rw [update_self, place, hr] at this
        exact (Option.some.inj this).symm
      rw [contains_set, decide_eq_true ⟨lt_of_contains hal.required, rfl⟩, Bool.or_true]
    · have hpin := hal.pinned u r
      rw [htemp, update_of_ne hu] at hfixed hr
      rw [hset] at ha
      rw [contains_set, hpin hfixed hr ha, Bool.true_or]
  · exact hsound.layout.congr hmem' (by rw [hctx]) (by rw [hctx])
  · rw [run_append]
    refine hsound.holds.update htemp (by rw [hctx]) hstored (fun u _ => (hidle1 u).1) (hidle1 t).2
  · intro r hr
    rw [hset]
    exact hsound.frame r (by rw [hctx] at hr; exact hr)

theorem tempLoadTo_reg {cur : Reg} (hs : Sound words fp st h) (hp : Pinned st forbidden)
    (hc : ∃ c, required.contains c = true ∧ st.allocatable.contains c = true ∧ forbidden.contains c = false)
    (hcur : (st.temp t).reg = some cur) (hne : ¬(required.contains cur = true ∧ forbidden.contains cur = false))
    {st1 : Alloc} (ha : regAlloc st required forbidden preferred = some (reg, st1)) :
    Loaded words fp st h t required forbidden reg
      ((((st1.emit (.mov (st.temp t).ty reg cur)).freeReg cur).assign reg t).setTemp t
        { st1.temp t with reg := some reg }) := by
  have hal := regAlloc_sound hs hp hc ha
  have hreg : reg ≠ cur := by
    rintro rfl
    exact hne ⟨hal.required, hal.allowed⟩
  have htemp : st1.temp t = st.temp t :=
    hal.same t fun heq => hreg (Option.some.inj (heq.symm.trans hcur))
  have hval : (st.temp t).valType = .reg := (hs.own.loc t).mpr (by rw [place, hcur]; exact Option.some_ne_none _)
  obtain ⟨code, -, -, hsound⟩ := hal.code
  have hcur1 : (st1.temp t).reg = some cur := by rw [htemp, hcur]
  have hown := hsound.own.move ((hsound.own.paired.owned t cur hcur1).resolve_right id) hal.idle
    (x := { st1.temp t with reg := some reg }) rfl (by rw [htemp]; exact hval)
  refine hal.load (c := .mov (st.temp t).ty reg cur) rfl rfl rfl rfl (hown.emit _) ?_ ⟨rfl, rfl, rfl, rfl, rfl⟩ rfl ?_
  · intro r hr hn
    have hrreg : r ≠ reg := by
      rintro rfl
      rw [hal.allocatable] at hr
      cases hr
    change Function.update (Function.update st1.regToTemp cur none) reg (some t) r = none
    rw [update_of_ne hrreg]
    by_cases hrc : r = cur
    · rw [hrc, update_self]
    · rw [update_of_ne hrc, hn]
  · intro h1 hs1 _
    have hstored := hs1.holds.stored t
    refine ⟨rfl, fun r hr => step_mov_other h1 _ cur hr, fun r hr => ?_, hstored.const, hstored.home, hstored.saved⟩
    obtain rfl := Option.some.inj hr
    rw [← htemp]
    exact (low_step_mov h1 _ reg cur).trans (hstored.reg cur hcur1)

/-- A temporary without a register is loaded by one host operation. -/
theorem Allocated.give {st1 : Alloc} (hal : Allocated words fp st h required forbidden reg st1) {x : Temp} {c : HostOp}
    (hnone : place st1 t = none) (hsame : SameMem (st1.temp t) x) (hx : x.reg = some reg) (hv : x.valType = .reg)
    (hmachine : ∀ h1 : Host, Sound words fp st1 h1 → h1.regs = h.regs →
      (h1.step c).mem = h1.mem ∧ (∀ r, r ≠ reg → (h1.step c).regs r = h1.regs r) ∧
      Stored words fp x (words t) (h1.step c)) :
    Loaded words fp st h t required forbidden reg (((st1.assign reg t).emit c).setTemp t x) := by
  obtain ⟨code, -, -, hsound⟩ := hal.code
  have hown : Owned ((st1.assign reg t).setTemp t x) := hsound.own.give hal.idle (.inl hnone) hx hv
  refine hal.load (c := c) rfl rfl rfl rfl (hown.emit _) (fun r hr hn => ?_) hsame hx hmachine
  have hne : r ≠ reg := by
    rintro rfl
    rw [hal.allocatable] at hr
    cases hr
  exact (update_of_ne hne _ _).trans hn

theorem tempLoadTo_mem {st1 : Alloc} (hal : Allocated words fp st h required forbidden reg st1)
    (hmem : (st1.temp t).valType = .mem) (hnone : place st1 t = none) {base : Reg}
    (hbase : ∀ h1 : Host, Sound words fp st1 h1 → slot words fp (st1.temp t) =
      some (h1.regs base + BitVec.ofInt 64 (st1.temp t).memOffset)) : Loaded words fp st h t required forbidden reg
      (((st1.assign reg t).emit (.ld (st1.temp t).ty reg base (st1.temp t).memOffset)).setTemp t
        { inReg (st1.temp t) reg with memCoherent := true }) := by
  refine hal.give hnone ⟨rfl, rfl, rfl, rfl, rfl⟩ rfl rfl fun h1 hs1 _ => ?_
  have hslot := hbase h1 hs1
  have hsaved := (hs1.holds.stored t).saved _ hslot (by rw [hmem]; exact nofun) (.inl hmem)
  refine ⟨rfl, fun r hr => update_of_ne hr _ _, fun r hr => ?_, nofun, nofun, fun a ha _ _ => ?_⟩
  · obtain rfl := Option.some.inj hr
    refine Eq.trans ?_ hsaved
    exact congrArg (low (st1.temp t).ty) (update_self _ _ _)
  · obtain rfl := Option.some.inj (hslot.symm.trans ha)
    exact hsaved

/-- Loading a temporary into a register keeps the machine in agreement with the allocator. -/
theorem tempLoadTo_sound (hs : Sound words fp st h) (hp : Pinned st forbidden)
    (hc : ∀ r, required.contains r = true → st.allocatable.contains r = true →
      ∃ c, required.contains c = true ∧ st.allocatable.contains c = true ∧ forbidden.contains c = false)
    (hload : tempLoadTo st t required forbidden preferred = some (reg, st')) :
    Loaded words fp st h t required forbidden reg st' := by
  have hcand {r : Reg} {st1 : Alloc} (ha : regAlloc st required forbidden preferred = some (r, st1)) :=
    hc r (regAlloc_picks ha).1 (regAlloc_picks ha).2.1
  have hsame {r : Reg} {st1 : Alloc} (ha : regAlloc st required forbidden preferred = some (r, st1))
      (hval : (st.temp t).valType ≠ .reg) : st1.temp t = st.temp t ∧ place st1 t = none := by
    have hnone : place st t = none := by
      by_contra hcon
      exact hval ((hs.own.loc t).mpr hcon)
    have htemp := (regAlloc_sound hs hp (hcand ha) ha).same t (by simp [hnone])
    exact ⟨htemp, by rw [place, htemp]; exact hnone⟩
  unfold tempLoadTo at hload
  dsimp only at hload
  split at hload
  · obtain ⟨cur, hcur, hload⟩ := Option.bind_eq_some_iff.mp hload
    split at hload
    · rename_i hok
      cases hload
      rw [Bool.and_eq_true, Bool.not_eq_true'] at hok
      exact ⟨hcur, hok.1, hok.2, .refl _ _, fun u _ r hr _ => hr, hp.mono, [], (List.append_nil _).symm, hs⟩
    · rename_i hok
      rw [Bool.and_eq_true, Bool.not_eq_true'] at hok
      obtain ⟨⟨dst, st1⟩, ha, hload⟩ := Option.bind_eq_some_iff.mp hload
      cases hload
      exact tempLoadTo_reg hs hp (hcand ha) hcur hok ha
  · rename_i hconst
    obtain ⟨⟨dst, st1⟩, ha, hload⟩ := Option.bind_eq_some_iff.mp hload
    cases hload
    obtain ⟨htemp, hnone⟩ := hsame ha (by rw [hconst]; decide)
    refine (regAlloc_sound hs hp (hcand ha) ha).give hnone ⟨rfl, rfl, rfl, rfl, rfl⟩ rfl rfl ?_
    intro h1 hs1 _
    have hstored := hs1.holds.stored t
    have hval : (st1.temp t).valType = .const := by rw [htemp, hconst]
    refine ⟨rfl, fun r hr => update_of_ne hr _ _, fun r hr => ?_, by simp [inReg], by simp [inReg],
      fun a hslot _ hcoh => ?_⟩
    · obtain rfl := Option.some.inj hr
      have hlow := low_setWidth (st.temp t).ty (low (st.temp t).ty (st.temp t).val)
      rw [← htemp] at hlow ⊢
      refine Eq.trans ?_ (hlow.trans (hstored.const hval))
      exact congrArg (low (st1.temp t).ty) (update_self _ _ _)
    · exact hstored.saved a hslot (by rw [hval]; decide) (.inr (hcoh.resolve_left (by simp [inReg])))
  · rename_i hmem
    obtain ⟨⟨dst, st1⟩, ha, hload⟩ := Option.bind_eq_some_iff.mp hload
    obtain ⟨htemp, hnone⟩ := hsame ha (by rw [hmem]; decide)
    have hal := regAlloc_sound hs hp (hcand ha) ha
    rw [← htemp] at hload hmem
    split at hload
    · rename_i base hbase
      obtain ⟨baseReg, hbaseReg, hload⟩ := Option.bind_eq_some_iff.mp hload
      cases hload
      exact tempLoadTo_mem hal hmem hnone fun h1 hs1 => slot_of_base hs1.layout hs1.holds hbase hbaseReg
    · rename_i hbase
      split at hload
      · rename_i hm
        obtain ⟨frameReg, hframe, hload⟩ := Option.bind_eq_some_iff.mp hload
        cases hload
        exact tempLoadTo_mem hal hmem hnone fun h1 hs1 => slot_of_frame hs1.holds hbase hm hframe
      · rename_i hm
        obtain ⟨code, -, -, hsound⟩ := hal.code
        have hhome := (hsound.holds.stored t).home hmem
        rw [slot, hbase] at hhome
        exact absurd (if_neg hm) hhome
  · cases hload

end Load

end MachinaRegallocValues
