import Machina.EmitterDecode
import Machina.X64Run

/-!
# What emitted instructions decode to

Each function of the emitter appends one instruction; here is how the moves and
extensions between registers are decoded, whatever code follows.
-/

namespace MachinaEmitterRun

open MachinaBits MachinaByteReader MachinaEmitter MachinaX64Decode MachinaEmitterDecode

variable {opc : BitVec 32} {signed : Bool} {narrow : Width}

/-! ### Moves between registers and memory -/

/-- The form of the moves between a register and an operand of 16 bits or more. -/
theorem form_mov (hrep : (opLegacy opc).rep = none) (hmap : opMap opc = .one)
    (hop : opByte opc = 0x89 ∨ opByte opc = 0x8B) (r rm : UInt8) :
    form (opHead opc r rm 0) = some (.modRm 0 fun reg rm' _ =>
      ((opHead opc r rm 0).rmPlace (opHead opc r rm 0).size rm').map fun p =>
        if opByte opc = 0x89 then .mov (opHead opc r rm 0).size p
          ((opHead opc r rm 0).regPlace (opHead opc r rm 0).size reg)
        else .mov (opHead opc r rm 0).size ((opHead opc r rm 0).regPlace (opHead opc r rm 0).size reg) p) := by
  rcases hop with hop | hop <;> simp [form, formOne, opHead, hrep, hmap, hop]

theorem regPlace_size (opc : BitVec 32) (r rm index : UInt8) (reg : Gpr) :
    (opHead opc r rm index).regPlace (opHead opc r rm index).size reg = .low reg := by
  have hsize : (opHead opc r rm index).size ≠ .byte := by
    rw [opHead_size, opSize]
    split_ifs <;> decide
  rw [Head.regPlace, if_neg fun hbyte => hsize hbyte.1]

theorem regPlace_byte (hd : Head) (r : Reg) :
    hd.regPlace .byte (gpr r) =
      if hd.rex = none ∧ 4 ≤ r.num ∧ ¬8 ≤ r.num then .high (gpr r - 4#4) else .low (gpr r) := by
  have hlow : 4 ≤ (gpr r).toNat ↔ 4 ≤ r.num := by cases r <;> decide
  have hhigh : (gpr r).toNat < 8 ↔ ¬8 ≤ r.num := by cases r <;> decide
  simp [Head.regPlace, hlow, hhigh]

theorem form_movb (hrep : (opLegacy opc).rep = none) (hmap : opMap opc = .one)
    (hop : opByte opc = 0x88) (r rm : UInt8) : form (opHead opc r rm 0) = some (.modRm 0 fun reg rm' _ =>
      ((opHead opc r rm 0).rmPlace .byte rm').map fun dst =>
        .mov .byte dst ((opHead opc r rm 0).regPlace .byte reg)) := by
  simp [form, formOne, opHead, hrep, hmap, hop]

/-- The byte flag for the register field makes the source a low byte. -/
theorem regPlace_of_rexbR (hr : has opc pRexbR = true) (src : Reg) (rm : UInt8) :
    (opHead opc src.num rm 0).regPlace .byte (gpr src) = .low (gpr src) := by
  rw [regPlace_byte, if_neg]
  rintro ⟨hnone, hfour, _⟩
  exact ((opRex_eq_none_iff ..).mp hnone).2.2.2.2.1 ⟨hr, hfour⟩

/-! ### Moves between registers -/

theorem decode_mov (h : IsOpcode opc) (hrep : (opLegacy opc).rep = none) (hmap : opMap opc = .one)
    (hop : opByte opc = 0x89) (src dst : Reg) (rest : Bytes) : decode (emitModrm opc src dst ++ rest) =
      some (.mov (opSize opc) (.low (gpr dst)) (.low (gpr src)), rest) := by
  have hdec := decode_emitModrm h [] rest src dst (form_mov hrep hmap (.inl hop) _ _) (takeNumber_zero rest) rfl
  simpa only [if_pos hop, regPlace_size, List.nil_append, ← opHead_size opc src.num dst.num 0] using hdec

theorem decode_movb (h : IsOpcode opc) (hrep : (opLegacy opc).rep = none) (hmap : opMap opc = .one)
    (hop : opByte opc = 0x88) (hr : has opc pRexbR = true) (hrm : has opc pRexbRm = true) (src dst : Reg)
    (rest : Bytes) :
    decode (emitModrm opc src dst ++ rest) = some (.mov .byte (.low (gpr dst)) (.low (gpr src)), rest) := by
  have hdec := decode_emitModrm h [] rest src dst (form_movb hrep hmap hop _ _) (takeNumber_zero rest) rfl
  have hdst : (opHead opc src.num dst.num 0).regPlace .byte (gpr dst) = .low (gpr dst) := by
    rw [regPlace_byte, if_neg]
    rintro ⟨hnone, hfour, _⟩
    exact ((opRex_eq_none_iff ..).mp hnone).2.2.2.2.2 ⟨hrm, hfour⟩
  rw [regPlace_of_rexbR hr, hdst] at hdec
  exact hdec

/-! ### Extensions -/

/-- MOVZX, MOVSX and MOVSXD by the size of their source. -/
inductive Extends : BitVec 32 → Bool → Width → Prop
  | zeroByte : Extends opcMovzbl false .byte
  | zeroWord : Extends opcMovzwl false .word
  | signByte (rexw : Bool) : Extends (opcMovsbl ||| rexwFlag rexw) true .byte
  | signWord (rexw : Bool) : Extends (opcMovswl ||| rexwFlag rexw) true .word
  | signLong : Extends opcMovslq true .long

variable (h : Extends opc signed narrow)
include h

theorem Extends.isOpcode : IsOpcode opc := by
  cases h with
  | signByte rexw | signWord rexw => cases rexw <;> decide
  | zeroByte | zeroWord | signLong => decide

theorem Extends.form (r rm : UInt8) :
    form (opHead opc r rm 0) = some (.modRm 0 fun reg rm' _ => ((opHead opc r rm 0).rmPlace narrow rm').map fun src =>
      .extend signed (opHead opc r rm 0).size narrow reg src) := by
  have hext {opc : BitVec 32} {signed : Bool} {narrow : Width} (hrep : (opLegacy opc).rep = none)
      (hmap : opMap opc = .ext0F) (hop : (narrow, opByte opc) = (.byte, if signed then 0xBE else 0xB6) ∨
        (narrow, opByte opc) = (.word, if signed then 0xBF else 0xB7)) :
      MachinaX64Decode.form (opHead opc r rm 0) = some (.modRm 0 fun reg rm' _ =>
        ((opHead opc r rm 0).rmPlace narrow rm').map fun src =>
          .extend signed (opHead opc r rm 0).size narrow reg src) := by
    rcases hop with hop | hop <;> obtain ⟨rfl, hbyte⟩ := Prod.mk.inj hop <;> cases signed <;>
      simp [MachinaX64Decode.form, form0F, opHead, hrep, hmap, hbyte]
  cases h with
  | zeroByte | zeroWord => exact hext (by decide) (by decide) (by decide)
  | signByte rexw | signWord rexw => cases rexw <;> exact hext (by decide) (by decide) (by decide)
  | signLong =>
    have hrep : (opLegacy opcMovslq).rep = none := by decide
    have hmap : opMap opcMovslq = .one := by decide
    have hop : opByte opcMovslq = 0x63 := by decide
    simp [MachinaX64Decode.form, formOne, opHead, hrep, hmap, hop]

theorem Extends.decode_reg (dst src : Reg) (rest : Bytes) :
    decode (emitModrm opc dst src ++ rest) = some (.extend signed (opSize opc) narrow (gpr dst)
      ((opHead opc dst.num src.num 0).regPlace narrow (gpr src)), rest) := by
  rw [← opHead_size opc dst.num src.num 0]
  exact decode_emitModrm h.isOpcode [] rest dst src (h.form _ _) (takeNumber_zero rest) rfl

end MachinaEmitterRun
