import Machina.EmitterRun
import Machina.Regalloc

/-!
# Machine code for bit fields and width changes

The bytes the x86-64 backend emits for extraction, sign extraction and deposit of the
low bits of a register and for the conversions between 32 and 64 bits, executed as
machine code. A byte register is one of the high bytes unless there is a REX prefix.
-/

namespace MachinaBitField

open MachinaIr (Opcode)
open MachinaBits MachinaByteReader MachinaEmitter MachinaX64Decode MachinaX64Run MachinaEmitterDecode
  MachinaEmitterRun

section

variable (opc : Opcode)

/-- The code of the bit field operations and width changes; a panic of the sources is `none`. -/
def tcgOutOp (rexw : Bool) (oregs iregs : List Reg) (cargs : List Nat) : Option Bytes :=
  match opc, oregs, iregs, cargs with
  | .extUI32I64, [d], [s], [] | .extrlI64I32, [d], [s], [] => some (if d ≠ s then emitMovRr false d s else [])
  | .extract, [d], [s], [ofs, len] =>
    if ofs ≠ 0 then none
    else if len = 8 then some (emitMovzx opcMovzbl d s)
    else if len = 16 then some (emitMovzx opcMovzwl d s)
    else if len = 32 then some (emitMovRr false d s)
    else none
  | .sExtract, [d], [s], [ofs, len] =>
    if ofs ≠ 0 then none
    else if len = 8 then some (emitMovsx (if rexw then opcMovsbl ||| pRexw else opcMovsbl) d s)
    else if len = 16 then some (emitMovsx (if rexw then opcMovswl ||| pRexw else opcMovswl) d s)
    else if len = 32 then some (emitMovsx opcMovslq d s)
    else none
  | .deposit, [d], [_, src], [ofs, len] =>
    if ofs ≠ 0 then none
    else if len = 8 then some (emitModrm (opcMovbEvGv ||| pRexbR ||| pRexbRm) src d)
    else if len = 16 then some (emitModrm (pData16 ||| opcMovlEvGv) src d)
    else none
  | _, _, _, _ => none

/-- The lengths an operation is emitted for. -/
def Supported : Opcode → Nat → Prop
  | .extract, len | .sExtract, len => len = 8 ∨ len = 16 ∨ len = 32
  | .deposit, len => len = 8 ∨ len = 16
  | .extUI32I64, len | .extrlI64I32, len => len = 32
  | _, _ => False

/-- The input registers: a deposit has the old destination as its first one. -/
def inputs (d s : Reg) : List Reg := if opc = .deposit then [d, s] else [s]

def consts (len : Nat) : List Nat :=
  if opc = .extUI32I64 ∨ opc = .extrlI64I32 then [] else [0, len]

/-- What the destination is to hold: the low `len` bits of the source, zero extended, sign extended to the size of
the operation, or in the place of the low bits of the old destination. -/
def Leaves (rexw : Bool) (len : Nat) (old src new : BitVec 64) : Prop :=
  match opc with
  | .sExtract => new.setWidth (MachinaX86.opSize rexw) = (src.setWidth len).signExtend (MachinaX86.opSize rexw)
  | .deposit => new.setWidth len = src.setWidth len ∧ new >>> len = old >>> len
  | _ => new = (src.setWidth len).setWidth 64

/-- The emitted code runs to its end, leaves the field in the destination and changes no other register. -/
def MovesField (rexw : Bool) (d s : Reg) (len : Nat) (cpu : Cpu) : Prop :=
  ∃ code cpu', tcgOutOp opc rexw [d] (inputs opc d s) (consts opc len) = some code ∧
    (∀ call, run call code cpu = some (.fell cpu')) ∧
    Leaves opc rexw len (cpu.regs (gpr d)) (cpu.regs (gpr s)) (cpu'.regs (gpr d)) ∧
    ∀ r, r ≠ gpr d → cpu'.regs r = cpu.regs r

def allocatable (r : Reg) : Bool := MachinaRegalloc.allocatableRegs.contains r.num.toNat

/-- The register whose high byte has the number of the low byte of RSI or RDI. -/
def highTwin : Reg → Reg
  | .rdi => .rbx
  | _ => .rdx

/-- A conversion in place finds the upper half clear, and a byte that is read without REX prefix from RSI or RDI is
also the one in DH or BH. -/
def FieldOk (rexw : Bool) (d s : Reg) (len : Nat) (cpu : Cpu) : Prop :=
  (opc = .extUI32I64 ∨ opc = .extrlI64I32 → d = s → cpu.regs (gpr s) >>> 32 = 0#64) ∧
  (len = 8 → opc = .extract ∨ (opc = .sExtract ∧ rexw = false) → s = .rsi ∨ s = .rdi → d.needsRex = false →
    (cpu.regs (gpr (highTwin s)) >>> 8).setWidth 8 = (cpu.regs (gpr s)).setWidth 8)

/-! ### What the code leaves -/

end

variable {opc : Opcode} {rexw : Bool} {d s : Reg} {len : Nat} {cpu : Cpu}

/-- Code that only writes the destination moves the field exactly when what it writes is right. -/
theorem movesField_iff {code : Bytes} {v : BitVec 64}
    (hcode : tcgOutOp opc rexw [d] (inputs opc d s) (consts opc len) = some code)
    (hrun : ∀ call, run call code cpu = some (.fell (cpu.setReg (gpr d) v))) :
    MovesField opc rexw d s len cpu ↔ Leaves opc rexw len (cpu.regs (gpr d)) (cpu.regs (gpr s)) v := by
  constructor
  · rintro ⟨code', cpu', hcode', hrun', hleaves, _⟩
    rw [hcode] at hcode'
    cases hcode'
    have hsame := (hrun fun _ _ => none).symm.trans (hrun' fun _ _ => none)
    cases hsame
    simpa [Cpu.setReg] using hleaves
  · intro hleaves
    refine ⟨code, cpu.setReg (gpr d) v, hcode, hrun, ?_, fun r hr => ?_⟩
    · simpa [Cpu.setReg] using hleaves
    · simp [Cpu.setReg, hr]

theorem moves_of_insn {w : BitVec 32} {a b : Reg} {insn : Insn} {v : BitVec 64}
    (hdec : ∀ rest, decode (emitModrm w a b ++ rest) = some (insn, rest))
    (hcode : tcgOutOp opc rexw [d] (inputs opc d s) (consts opc len) = some (emitModrm w a b))
    (hexec : ∀ call, exec call insn cpu = some (cpu.setReg (gpr d) v, .next)) :
    MovesField opc rexw d s len cpu ↔ Leaves opc rexw len (cpu.regs (gpr d)) (cpu.regs (gpr s)) v :=
  movesField_iff hcode fun call => run_single (by simpa using hdec []) (hexec call)

theorem signExtend_inj {m n : Nat} (h : m ≤ n) {x y : BitVec m} : x.signExtend n = y.signExtend n ↔ x = y := by
  constructor
  · intro heq
    have hback := congrArg (BitVec.setWidth m) heq
    rwa [setWidth_signExtend h, setWidth_signExtend h] at hback
  · rintro rfl
    rfl

/-- The place a byte is read from, for an opcode word without the byte flags. -/
theorem regPlace_source {w : BitVec 32} (hr : has w pRexbR = false) (hrm : has w pRexbRm = false)
    (hs : allocatable s = true) : (opHead w d.num s.num 0).regPlace .byte (gpr s) =
      if has w pRexw = false ∧ d.needsRex = false ∧ (s = .rsi ∨ s = .rdi) then .high (gpr (highTwin s))
      else .low (gpr s) := by
  have hneeds : d.needsRex = false ↔ ¬8 ≤ d.num := by rw [Reg.needsRex, decide_eq_false_iff_not]
  have hrange : 4 ≤ s.num ∧ ¬8 ≤ s.num ↔ s = .rsi ∨ s = .rdi := by
    revert hs
    cases s <;> decide
  have htwin : s = .rsi ∨ s = .rdi → gpr s - 4#4 = gpr (highTwin s) := by
    cases s <;> decide
  have hnone : (opHead w d.num s.num 0).rex = none ∧ 4 ≤ s.num ∧ ¬8 ≤ s.num ↔
      has w pRexw = false ∧ d.needsRex = false ∧ (s = .rsi ∨ s = .rdi) := by
    rw [opHead_rex, opRex_eq_none_iff, hneeds, ← hrange, hr, hrm]
    have hzero : ¬(8 : UInt8) ≤ 0 := by decide
    simp only [hzero, not_false_eq_true, Bool.false_eq_true, false_and, true_and, and_true]
    tauto
  rw [regPlace_byte]
  by_cases hcond : has w pRexw = false ∧ d.needsRex = false ∧ (s = .rsi ∨ s = .rdi)
  · rw [if_pos (hnone.mpr hcond), if_pos hcond, htwin hcond.2.2]
  · rw [if_neg (mt hnone.mp hcond), if_neg hcond]

/-- The byte that a byte-to-word move reads is the low byte of the source unless the high byte of another register
stands for it. -/
theorem get_source_iff {w : BitVec 32} (hr : has w pRexbR = false) (hrm : has w pRexbRm = false)
    (hs : allocatable s = true) :
    cpu.get .byte ((opHead w d.num s.num 0).regPlace .byte (gpr s)) = (cpu.regs (gpr s)).setWidth 8 ↔
      (has w pRexw = false → s = .rsi ∨ s = .rdi → d.needsRex = false →
        (cpu.regs (gpr (highTwin s)) >>> 8).setWidth 8 = (cpu.regs (gpr s)).setWidth 8) := by
  rw [regPlace_source hr hrm hs]
  by_cases hcond : has w pRexw = false ∧ d.needsRex = false ∧ (s = .rsi ∨ s = .rdi)
  · rw [if_pos hcond]
    exact ⟨fun heq _ _ _ => heq, fun himp => himp hcond.1 hcond.2.2 hcond.2.1⟩
  · rw [if_neg hcond]
    exact ⟨fun _ hw hsrc hd => absurd ⟨hw, hd, hsrc⟩ hcond, fun _ => rfl⟩

theorem zero_extended_iff {n : Nat} (hn : n ≤ 32) (v : BitVec n) (src : BitVec 64) :
    (v.setWidth 32).setWidth 64 = (src.setWidth n).setWidth 64 ↔ v = src.setWidth n := by
  rw [BitVec.setWidth_setWidth (by omega), setWidth_inj (by omega)]

theorem extract_iff (hs : allocatable s = true) (hlen : Supported .extract len) :
    MovesField .extract rexw d s len cpu ↔ FieldOk .extract rexw d s len cpu := by
  have hnot (l : Nat) (hl : l ≠ 8) : FieldOk .extract rexw d s l cpu := ⟨by simp, fun h8 => absurd h8 hl⟩
  obtain rfl | rfl | rfl := hlen
  · rw [moves_of_insn (Extends.zeroByte.decode_reg d s) rfl fun _ => rfl]
    refine (zero_extended_iff (by decide) _ _).trans ((get_source_iff (by decide) (by decide) hs).trans ?_)
    exact ⟨fun himp => ⟨by simp, fun _ _ => himp (by decide)⟩, fun hok _ => hok.2 rfl (.inl rfl)⟩
  · rw [moves_of_insn (Extends.zeroWord.decode_reg d s) rfl fun _ => rfl]
    exact iff_of_true ((zero_extended_iff (by decide) _ _).mpr rfl) (hnot 16 (by decide))
  have hdec := decode_mov (by decide : IsOpcode (opcMovlEvGv ||| rexwFlag false)) (by decide) (by decide)
    (by decide) s d
  rw [moves_of_insn hdec rfl fun _ => rfl]
  exact iff_of_true rfl (hnot 32 (by decide))

theorem sign_extended_iff {n m : Nat} (hn : n ≤ m) (hm : m ≤ 64) (v : BitVec n) (src : BitVec 64) :
    ((v.signExtend m).setWidth 64).setWidth m = (src.setWidth n).signExtend m ↔ v = src.setWidth n := by
  rw [BitVec.setWidth_setWidth_of_le _ hm, BitVec.setWidth_eq, signExtend_inj hn]

theorem sExtract_iff (hs : allocatable s = true) (hlen : Supported .sExtract len) :
    MovesField .sExtract rexw d s len cpu ↔ FieldOk .sExtract rexw d s len cpu := by
  have hnot (l : Nat) (hl : l ≠ 8) : FieldOk .sExtract rexw d s l cpu := ⟨by simp, fun h8 => absurd h8 hl⟩
  obtain rfl | rfl | rfl := hlen
  · cases rexw with
    | true =>
      rw [moves_of_insn ((Extends.signByte true).decode_reg d s) rfl fun _ => rfl]
      refine (sign_extended_iff (by decide) (by decide) _ _).trans
        ((get_source_iff (by decide) (by decide) hs).trans ?_)
      exact iff_of_true (fun hw => absurd hw (by decide)) ⟨by simp, by simp⟩
    | false =>
      rw [moves_of_insn ((Extends.signByte false).decode_reg d s) rfl fun _ => rfl]
      refine (sign_extended_iff (by decide) (by decide) _ _).trans
        ((get_source_iff (by decide) (by decide) hs).trans ?_)
      exact ⟨fun himp => ⟨by simp, fun _ _ => himp (by decide)⟩, fun hok _ => hok.2 rfl (.inr ⟨rfl, rfl⟩)⟩
  · refine iff_of_true ?_ (hnot 16 (by decide))
    cases rexw with
    | true =>
      rw [moves_of_insn ((Extends.signWord true).decode_reg d s) rfl fun _ => rfl]
      exact (sign_extended_iff (by decide) (by decide) _ _).mpr rfl
    | false =>
      rw [moves_of_insn ((Extends.signWord false).decode_reg d s) rfl fun _ => rfl]
      exact (sign_extended_iff (by decide) (by decide) _ _).mpr rfl
  · refine iff_of_true ?_ (hnot 32 (by decide))
    rw [moves_of_insn (Extends.signLong.decode_reg d s) rfl fun _ => rfl]
    cases rexw with
    | true => exact (sign_extended_iff (by decide) (by decide) _ _).mpr rfl
    | false =>
      have hlow := setWidth_signExtend (show 32 ≤ 64 by decide) ((cpu.regs (gpr s)).setWidth 32)
      exact hlow.trans (BitVec.signExtend_eq _).symm

theorem merge_spec {n : Nat} (hn : n ≤ 64) (old : BitVec 64) (v : BitVec n) :
    ((old >>> n <<< n) ||| v.setWidth 64).setWidth n = v ∧
    ((old >>> n <<< n) ||| v.setWidth 64) >>> n = old >>> n := by
  constructor
  · apply BitVec.eq_of_getLsbD_eq
    intro i hi
    have hi64 : i < 64 := by omega
    simp [hi, hi64]
  · apply BitVec.eq_of_getLsbD_eq
    intro i hi
    by_cases hin : n + i < 64
    · simp [hin]
    · have hold : old.getLsbD (n + i) = false := BitVec.getLsbD_of_ge _ _ (by omega)
      simp [hin, hold]

theorem deposit_iff (hlen : Supported .deposit len) :
    MovesField .deposit rexw d s len cpu ↔ FieldOk .deposit rexw d s len cpu := by
  refine iff_of_true ?_ ⟨by simp, by simp⟩
  obtain rfl | rfl := hlen
  · have hdec := decode_movb (by decide : IsOpcode (opcMovbEvGv ||| pRexbR ||| pRexbRm)) (by decide) (by decide)
      (by decide) (by decide) (by decide) s d
    rw [moves_of_insn hdec rfl fun _ => rfl]
    exact merge_spec (by decide) _ _
  · have hdec := decode_mov (by decide : IsOpcode (pData16 ||| opcMovlEvGv)) (by decide) (by decide) (by decide) s d
    rw [moves_of_insn hdec rfl fun _ => rfl]
    exact merge_spec (by decide) _ _

/-- The conversions: in place they emit nothing. -/
theorem convert_iff (hopc : opc = .extUI32I64 ∨ opc = .extrlI64I32) :
    MovesField opc rexw d s 32 cpu ↔ FieldOk opc rexw d s 32 cpu := by
  have hok : FieldOk opc rexw d s 32 cpu ↔ (d = s → cpu.regs (gpr s) >>> 32 = 0#64) :=
    ⟨fun hok => hok.1 hopc, fun himp => ⟨fun _ => himp, by simp⟩⟩
  have hcode : tcgOutOp opc rexw [d] (inputs opc d s) (consts opc 32) =
      some (if d ≠ s then emitMovRr false d s else []) := by
    obtain rfl | rfl := hopc <;> rfl
  have hleaves (v : BitVec 64) : Leaves opc rexw 32 (cpu.regs (gpr d)) (cpu.regs (gpr s)) v ↔
      v = ((cpu.regs (gpr s)).setWidth 32).setWidth 64 := by
    obtain rfl | rfl := hopc <;> rfl
  rw [hok]
  by_cases hds : d = s
  · subst hds
    rw [if_neg (not_not.mpr rfl)] at hcode
    have hrun (call : BitVec 64 → Cpu → Option Cpu) :
        run call [] cpu = some (.fell (cpu.setReg (gpr d) (cpu.regs (gpr d)))) := by
      rw [run_nil, Cpu.setReg, Function.update_eq_self]
    rw [movesField_iff hcode hrun, hleaves, eq_low_half_iff]
    exact ⟨fun hzero _ => hzero, fun himp => himp rfl⟩
  · rw [if_pos hds] at hcode
    have hdec := decode_mov (by decide : IsOpcode (opcMovlEvGv ||| rexwFlag false)) (by decide) (by decide)
      (by decide) s d
    rw [moves_of_insn hdec hcode fun _ => rfl, hleaves]
    exact iff_of_true rfl fun heq => absurd heq hds

/-- The operations on bit fields and the width changes. -/
def isFieldOp (opc : Opcode) : Prop :=
  opc = .extract ∨ opc = .sExtract ∨ opc = .deposit ∨ opc = .extUI32I64 ∨ opc = .extrlI64I32

/-- From an allocatable register to any register and for every supported length the code leaves the field in the
destination exactly when the input is not one of the two kinds the backend gets wrong. -/
theorem bit_field_code_iff (hopc : isFieldOp opc) (hlen : Supported opc len) (hs : allocatable s = true) :
    MovesField opc rexw d s len cpu ↔ FieldOk opc rexw d s len cpu := by
  obtain rfl | rfl | rfl | hconv := hopc
  · exact extract_iff hs hlen
  · exact sExtract_iff hs hlen
  · exact deposit_iff hlen
  have h32 : len = 32 := by
    obtain rfl | rfl := hconv <;> exact hlen
  rw [h32]
  exact convert_iff hconv

/-- Registers that hold their own number, with all bits set from bit 8 on. -/
def numbered : Cpu := ⟨fun r => r.setWidth 64 ||| 0xFFFFFFFFFFFFFF00#64, none, fun _ => 0#8⟩

/-- A byte of RSI to RAX leaves DH, which is not the low byte of RSI; a conversion in place leaves the upper half. -/
theorem byte_of_rsi_and_conversion_in_place :
    ¬MovesField .extract true .rax .rsi 8 numbered ∧ ¬MovesField .sExtract false .rax .rsi 8 numbered ∧
      ¬MovesField .extUI32I64 true .rax .rax 32 numbered := by
  rw [extract_iff (by decide) (.inl rfl), sExtract_iff (by decide) (.inl rfl), convert_iff (.inl rfl)]
  refine ⟨fun h => ?_, fun h => ?_, fun h => ?_⟩
  · exact absurd (h.2 rfl (.inl rfl) (.inl rfl) (by decide)) (by decide)
  · exact absurd (h.2 rfl (.inr ⟨rfl, rfl⟩) (.inl rfl) (by decide)) (by decide)
  · exact absurd (h.1 (.inl rfl) rfl) (by decide)

/-- A byte of RSI to R8, where a REX prefix is there. -/
theorem byte_of_rsi_to_r8 : MovesField .extract true .r8 .rsi 8 numbered := by
  have hok : FieldOk .extract true .r8 .rsi 8 numbered := ⟨by simp, fun _ _ _ hneeds => absurd hneeds (by decide)⟩
  exact (bit_field_code_iff (.inl rfl) (.inl rfl) (by decide)).mpr hok

end MachinaBitField
