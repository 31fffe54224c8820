import Machina.Emitter
import Machina.X64Decode

/-!
# Decoding what the emitter emits

The bytes of an opcode are read back as its prefixes, REX bits and map, and the bytes
of a memory operand as its register field and its address. Nothing is left over.
-/

namespace MachinaEmitterDecode

open MachinaBits MachinaByteReader MachinaEmitter MachinaX64Decode
open List (nil_append append_assoc cons_append)
open Option (map_some bind_eq_bind bind_some)

/-! ### The opcode -/

def opMap (opc : BitVec 32) : OpMap :=
  if has opc pExt38 then .ext0F38 else if has opc pExt3a then .ext0F3A else if has opc pExt then .ext0F else .one

def opByte (opc : BitVec 32) : UInt8 := ⟨opc.setWidth 8⟩

/-- The low byte is an opcode of its map, not a prefix or an escape. -/
def IsOpcode (opc : BitVec 32) : Prop :=
  (opMap opc = .one → isPlain (opByte opc) = true) ∧
    (opMap opc = .ext0F → opByte opc ≠ 0x38 ∧ opByte opc ≠ 0x3A)

instance (opc : BitVec 32) : Decidable (IsOpcode opc) := inferInstanceAs (Decidable (_ ∧ _))

section

variable (opc : BitVec 32)

def opLegacy : Legacy :=
  ⟨has opc pData16, if has opc pSimdf3 then some .f3 else if has opc pSimdf2 then some .f2 else none⟩

section

variable (r rm index : UInt8)

/-- The REX bits of an instruction that has the prefix. -/
def fields : Rex :=
  ⟨has opc pRexw, decide (8 ≤ r), decide (8 ≤ index), decide (8 ≤ rm)⟩

def opRex : Option Rex :=
  if rexBits opc r rm index ≠ 0 then some (fields opc r rm index) else none

def opHead : Head :=
  ⟨opLegacy opc, opRex opc r rm index, opMap opc, opByte opc⟩

@[simp] theorem opHead_rex : (opHead opc r rm index).rex = opRex opc r rm index := rfl

/-- The REX bits in terms of what asks for them. -/
def rexOf (w r x b forceR forceRm : Bool) : UInt8 :=
  let rex : UInt8 := if w then 0x08 else 0
  let rex := if r then rex ||| 0x04 else rex
  let rex := if x then rex ||| 0x02 else rex
  let rex := if b then rex ||| 0x01 else rex
  let rex := if forceR && rex == 0 then 0x40 else rex
  if forceRm && rex == 0 then 0x40 else rex

theorem rexBits_eq :
    rexBits opc r rm index = rexOf (has opc pRexw) (decide (8 ≤ r)) (decide (8 ≤ index)) (decide (8 ≤ rm))
      (has opc pRexbR && decide (4 ≤ r)) (has opc pRexbRm && decide (4 ≤ rm)) := by
  simp [rexBits, rexOf, and_assoc]

end

theorem rexOf_spec : ∀ w r x b forceR forceRm : Bool, if rexOf w r x b forceR forceRm ≠ 0 then
      isRex (0x40 ||| rexOf w r x b forceR forceRm) = true ∧
        Rex.ofByte (0x40 ||| rexOf w r x b forceR forceRm) = ⟨w, r, x, b⟩
    else (⟨w, r, x, b⟩ : Rex) = ⟨false, false, false, false⟩ := by
  decide

/-- A REX prefix that is emitted is read as one, and none is missing. -/
theorem rexBits_spec (r rm index : UInt8) : if rexBits opc r rm index ≠ 0 then
      isRex (0x40 ||| rexBits opc r rm index) = true ∧
        Rex.ofByte (0x40 ||| rexBits opc r rm index) = fields opc r rm index
    else fields opc r rm index = ⟨false, false, false, false⟩ := by
  rw [rexBits_eq]
  exact rexOf_spec _ _ _ _ _ _

theorem rexOf_eq_zero_iff : ∀ w r x b forceR forceRm : Bool, rexOf w r x b forceR forceRm = 0 ↔
    w = false ∧ r = false ∧ x = false ∧ b = false ∧ forceR = false ∧ forceRm = false := by
  decide

/-- Without a REX prefix no register number needs its fourth bit. -/
theorem opRex_getD (r rm index : UInt8) :
    (opRex opc r rm index).getD ⟨false, false, false, false⟩ = fields opc r rm index := by
  have hspec := rexBits_spec opc r rm index
  rw [opRex]
  by_cases hrex : rexBits opc r rm index = 0
  · rw [if_neg (not_not.mpr hrex)] at hspec ⊢
    exact hspec.symm
  · rw [if_pos hrex]
    rfl

theorem takeRex_emit (r rm index : UInt8) (b : UInt8) (rest : Bytes) (hb : isRex b = false) :
    takeRex ((if rexBits opc r rm index ≠ 0 then [0x40 ||| rexBits opc r rm index] else []) ++ b :: rest) =
      (opRex opc r rm index, b :: rest) := by
  have hspec := rexBits_spec opc r rm index
  rw [opRex]
  by_cases hrex : rexBits opc r rm index = 0
  · rw [if_neg (not_not.mpr hrex), if_neg (not_not.mpr hrex), nil_append, takeRex, if_neg (by simp [hb])]
  · rw [if_pos hrex] at hspec
    rw [if_pos hrex, if_pos hrex, List.singleton_append, takeRex, if_pos hspec.1, hspec.2]

/-- A byte that ends the legacy prefixes. -/
def EndsLegacy (b : UInt8) : Prop := b ≠ 0x66 ∧ b ≠ 0xF2 ∧ b ≠ 0xF3

theorem endsLegacy_of_isRex {b : UInt8} (h : isRex b = true) : EndsLegacy b := by
  refine ⟨?_, ?_, ?_⟩ <;>
  · rintro rfl
    exact absurd h (by decide)

theorem takeLegacy_emit {b : UInt8} (h : EndsLegacy b) (rest : Bytes) :
    takeLegacy ⟨false, none⟩ ((if has opc pData16 then [0x66] else []) ++
      ((if has opc pSimdf3 then [0xF3] else if has opc pSimdf2 then [0xF2] else []) ++ b :: rest)) =
      (opLegacy opc, b :: rest) := by
  simp only [opLegacy]
  cases has opc pData16 <;> cases has opc pSimdf3 <;> cases has opc pSimdf2 <;>
    simp [takeLegacy, h.1, h.2.1, h.2.2]

/-- What stands between the prefixes and the operands. -/
def emitMap : Bytes :=
  (if has opc (pExt ||| pExt38 ||| pExt3a) then
    0x0F :: (if has opc pExt38 then [0x38] else if has opc pExt3a then [0x3A] else [])
  else []) ++ [opByte opc]

theorem takeOpcode_emit {opc : BitVec 32} (h : IsOpcode opc) (rest : Bytes) :
    takeOpcode (emitMap opc ++ rest) = some ((opMap opc, opByte opc), rest) := by
  simp only [IsOpcode, opMap] at h
  simp only [emitMap, opMap, has_or]
  cases h38 : has opc pExt38 with
  | true => simp [takeOpcode]
  | false =>
    cases h3a : has opc pExt3a with
    | true => simp [takeOpcode]
    | false =>
      cases hext : has opc pExt with
      | true =>
        have hne : opByte opc ≠ 0x38 ∧ opByte opc ≠ 0x3A := h.2 (by simp [h38, h3a, hext])
        simp [takeOpcode, hne]
      | false =>
        have hplain : isPlain (opByte opc) = true := h.1 (by simp [h38, h3a, hext])
        have hne : opByte opc ≠ 0x0F := by
          intro heq
          rw [heq] at hplain
          exact absurd hplain (by decide)
        simp [takeOpcode, hne, hplain]

/-- The first byte of the opcode is not a prefix. -/
theorem emitMap_first {opc : BitVec 32} (h : IsOpcode opc) :
    ∃ b rest, emitMap opc = b :: rest ∧ EndsLegacy b ∧ isRex b = false := by
  simp only [IsOpcode, opMap] at h
  simp only [emitMap, has_or]
  cases he : has opc pExt || has opc pExt38 || has opc pExt3a with
  | true => exact ⟨0x0F, _, rfl, ⟨by decide, by decide, by decide⟩, by decide⟩
  | false =>
    simp only [Bool.or_eq_false_iff] at he
    have hplain : isPlain (opByte opc) = true := h.1 (by simp [he])
    simp only [isPlain, Bool.and_eq_true, Bool.not_eq_true'] at hplain
    refine ⟨opByte opc, [], rfl, ⟨?_, ?_, ?_⟩, hplain.1⟩ <;>
    · intro heq
      rw [heq] at hplain
      exact absurd hplain.2 (by decide)

theorem takeHead_emitOpc3 {opc : BitVec 32} (h : IsOpcode opc) (r rm index : UInt8) (rest : Bytes) :
    takeHead (emitOpc3 opc r rm index ++ rest) = some (opHead opc r rm index, rest) := by
  obtain ⟨b, tail, hmap, hb, hnorex⟩ := emitMap_first h
  have hemit : emitOpc3 opc r rm index ++ rest = (if has opc pData16 then [0x66] else []) ++
      ((if has opc pSimdf3 then [0xF3] else if has opc pSimdf2 then [0xF2] else []) ++
        ((if rexBits opc r rm index ≠ 0 then [0x40 ||| rexBits opc r rm index] else []) ++
          (emitMap opc ++ rest))) := by
    simp [emitOpc3, emitMap, opByte]
  have hfirst : ∃ c after, (if rexBits opc r rm index ≠ 0 then [0x40 ||| rexBits opc r rm index] else []) ++
      (emitMap opc ++ rest) = c :: after ∧ EndsLegacy c := by
    have hspec := rexBits_spec opc r rm index
    by_cases hrex : rexBits opc r rm index = 0
    · rw [if_neg (not_not.mpr hrex), hmap]
      exact ⟨b, tail ++ rest, rfl, hb⟩
    · rw [if_pos hrex] at hspec ⊢
      exact ⟨_, _, rfl, endsLegacy_of_isRex hspec.1⟩
  obtain ⟨c, after, hc, hlegacy⟩ := hfirst
  have hrex := takeRex_emit opc r rm index b (tail ++ rest) hnorex
  rw [← cons_append, ← hmap] at hrex
  rw [takeHead, hemit, hc, takeLegacy_emit opc hlegacy, ← hc]
  simp only [hrex, takeOpcode_emit h, map_some, opHead]

/-- There is no REX prefix exactly when nothing asks for one. -/
theorem opRex_eq_none_iff (r rm index : UInt8) : opRex opc r rm index = none ↔
    has opc pRexw = false ∧ ¬8 ≤ r ∧ ¬8 ≤ index ∧ ¬8 ≤ rm ∧
      ¬(has opc pRexbR = true ∧ 4 ≤ r) ∧ ¬(has opc pRexbRm = true ∧ 4 ≤ rm) := by
  have hzero : opRex opc r rm index = none ↔ rexBits opc r rm index = 0 := by
    rw [opRex]
    by_cases hrex : rexBits opc r rm index = 0 <;> simp [hrex]
  rw [hzero, rexBits_eq, rexOf_eq_zero_iff]
  simp

/-! ### Memory operands -/

def gpr (r : Reg) : Gpr := r.num.toBitVec.setWidth 4

def field3 (r : Reg) : BitVec 3 := (gpr r).setWidth 3

theorem cons_field3 (r : Reg) : BitVec.cons (decide (8 ≤ r.num)) (field3 r) = gpr r := by
  cases r <;> decide

/-- A ModRM or SIB byte with its three fields. -/
def fieldByte (m : BitVec 2) (a b : BitVec 3) : UInt8 := ⟨m ++ a ++ b⟩

theorem fieldByte_mode : ∀ (m : BitVec 2) (a b : BitVec 3), (fieldByte m a b).toBitVec.extractLsb' 6 2 = m := by
  decide

theorem fieldByte_middle : ∀ (m : BitVec 2) (a b : BitVec 3), (fieldByte m a b).toBitVec.extractLsb' 3 3 = a := by
  decide

theorem fieldByte_low : ∀ (m : BitVec 2) (a b : BitVec 3), (fieldByte m a b).toBitVec.extractLsb' 0 3 = b := by
  decide

theorem takeNumber_zero (bytes : Bytes) : takeNumber 0 bytes = some (0#64, bytes) := by
  simp [takeNumber, leValue]

theorem takeNumber_leBytes {n v : Nat} (hv : v < 256 ^ n) (rest : Bytes) :
    takeNumber n (leBytes n v ++ rest) = some ((BitVec.ofNat (8 * n) v).signExtend 64, rest) := by
  have htake : (leBytes n v ++ rest).take n = leBytes n v := List.take_left' (length_leBytes n v)
  have hdrop : (leBytes n v ++ rest).drop n = rest := List.drop_left' (length_leBytes n v)
  rw [takeNumber, if_neg (by simp), htake, hdrop, leValue_leBytes hv]

theorem takeNumber_emitU32 (v : BitVec 32) (rest : Bytes) :
    takeNumber 4 (emitU32 v ++ rest) = some (v.signExtend 64, rest) := by
  rw [emitU32, takeNumber_leBytes v.isLt, BitVec.ofNat_toNat, BitVec.setWidth_eq]

theorem takeNumber_emitU8 (v : BitVec 8) (rest : Bytes) :
    takeNumber 1 (emitU8 ⟨v⟩ ++ rest) = some (v.signExtend 64, rest) := by
  have hbytes : emitU8 ⟨v⟩ = leBytes 1 v.toNat := by
    simp [emitU8, leBytes, UInt8.ofNat]
  rw [hbytes, takeNumber_leBytes v.isLt, BitVec.ofNat_toNat, BitVec.setWidth_eq]

theorem setWidth_signExtend {m n : Nat} (h : m ≤ n) (x : BitVec m) : (x.signExtend n).setWidth m = x := by
  apply BitVec.eq_of_getLsbD_eq
  intro i hi
  have hin : i < n := by omega
  simp [BitVec.getElem_signExtend, hi, hin]

theorem signExtend_of_isDisp8 {offset : BitVec 32} (h : isDisp8 offset) :
    (offset.setWidth 8).signExtend 64 = offset.signExtend 64 := by
  obtain ⟨hlo, hhi⟩ := h
  have hbound := offset.isLt
  apply BitVec.eq_of_toInt_eq
  rw [BitVec.toInt_signExtend_of_le (by decide), BitVec.toInt_signExtend_of_le (by decide), BitVec.toInt_setWidth,
    Int.bmod_def]
  rw [BitVec.toInt_eq_toNat_cond] at hlo hhi ⊢
  omega

end

section Operand

variable {rex : Option Rex} {R : Rex} (hR : rex.getD ⟨false, false, false, false⟩ = R) (m : BitVec 2) (a b : BitVec 3)
include hR

theorem takeModRm_base (hm : m ≠ 3#2) (hb : b ≠ 4#3) (h5 : ¬(b = 5#3 ∧ m = 0#2)) (bytes : Bytes) :
    takeModRm rex (fieldByte m a b :: bytes) = (takeNumber (dispBytes m false) bytes).map fun (disp, rest) =>
      ((BitVec.cons R.r a, .mem ⟨some (BitVec.cons R.b b), none, disp⟩), rest) := by
  simp only [takeModRm, fieldByte_mode, fieldByte_middle, fieldByte_low, hR]
  rw [if_neg hm, if_neg hb, if_neg h5]

theorem takeModRm_sib (hm : m ≠ 3#2) (s : BitVec 2) (x : BitVec 3) (h5 : ¬(b = 5#3 ∧ m = 0#2)) (bytes : Bytes) :
    takeModRm rex (fieldByte m a 4#3 :: fieldByte s x b :: bytes) =
      (takeNumber (dispBytes m false) bytes).map fun (disp, rest) =>
        ((BitVec.cons R.r a, .mem ⟨some (BitVec.cons R.b b),
          if BitVec.cons R.x x = 4#4 then none else some (BitVec.cons R.x x, s), disp⟩), rest) := by
  have hbase : (b == 5#3 && m == 0#2) = false := by
    rw [Bool.eq_false_iff]
    simpa using h5
  simp only [takeModRm, takeSib, fieldByte_mode, fieldByte_middle, fieldByte_low, hR, hbase]
  rw [if_neg hm, if_pos trivial, Option.map_map]
  rfl

end Operand

/-! ### The bytes of an operand by their fields -/

theorem low3_eq (r : Reg) : r.low3 = ⟨(field3 r).setWidth 8⟩ := by
  cases r <;> decide

theorem low3_eq_four (r : Reg) : r.low3 = 4 ↔ field3 r = 4#3 := by
  cases r <;> decide

theorem low3_eq_five (r : Reg) : r.low3 = 5 ↔ field3 r = 5#3 := by
  cases r <;> decide

/-- The three fields put together as the source does it. -/
theorem or_fields : ∀ (m : BitVec 2) (a b : BitVec 3),
    (⟨m.setWidth 8 <<< 6⟩ : UInt8) ||| ((⟨a.setWidth 8⟩ : UInt8) <<< 3) ||| ⟨b.setWidth 8⟩ = fieldByte m a b := by
  decide

theorem modrm_byte (m : BitVec 2) (r base : Reg) :
    (⟨m.setWidth 8 <<< 6⟩ : UInt8) ||| (r.low3 <<< 3) ||| base.low3 = fieldByte m (field3 r) (field3 base) := by
  rw [low3_eq, low3_eq, or_fields]

theorem modrm_byte_sib (m : BitVec 2) (r : Reg) :
    (⟨m ++ 4#6⟩ : UInt8) ||| (r.low3 <<< 3) = fieldByte m (field3 r) 4#3 := by
  have hall : ∀ (m : BitVec 2) (a : BitVec 3),
      (⟨m ++ 4#6⟩ : UInt8) ||| ((⟨a.setWidth 8⟩ : UInt8) <<< 3) = fieldByte m a 4#3 := by decide
  rw [low3_eq, hall]

/-- The mode of the ModRM byte for a displacement. -/
def dispMode (base : Reg) (offset : BitVec 32) : BitVec 2 :=
  if offset = 0#32 ∧ base.low3 ≠ 5 then 0#2 else if isDisp8 offset then 1#2 else 2#2

def dispField (base : Reg) (offset : BitVec 32) : Bytes :=
  if offset = 0#32 ∧ base.low3 ≠ 5 then [] else if isDisp8 offset then emitU8 ⟨offset.setWidth 8⟩ else emitU32 offset

theorem dispMode_ne_three (base : Reg) (offset : BitVec 32) : dispMode base offset ≠ 3#2 := by
  rw [dispMode]
  split_ifs <;> decide

/-- RBP and R13 are never used without a displacement. -/
theorem dispMode_five (base : Reg) (offset : BitVec 32) : ¬(field3 base = 5#3 ∧ dispMode base offset = 0#2) := by
  rintro ⟨hbase, hmode⟩
  rw [dispMode, if_neg (fun h => h.2 ((low3_eq_five base).mpr hbase))] at hmode
  split_ifs at hmode <;> exact absurd hmode (by decide)

theorem takeNumber_dispField (base : Reg) (offset : BitVec 32) (rest : Bytes) :
    takeNumber (dispBytes (dispMode base offset) false) (dispField base offset ++ rest) =
      some (offset.signExtend 64, rest) := by
  rw [dispMode, dispField]
  by_cases h0 : offset = 0#32 ∧ base.low3 ≠ 5
  · rw [if_pos h0, if_pos h0, nil_append, dispBytes, if_neg (by decide), if_neg (by decide),
      if_neg Bool.false_ne_true, takeNumber_zero, h0.1]
    rfl
  rw [if_neg h0, if_neg h0]
  by_cases h8 : isDisp8 offset
  · rw [if_pos h8, if_pos h8, dispBytes, if_pos rfl, takeNumber_emitU8, signExtend_of_isDisp8 h8]
  · rw [if_neg h8, if_neg h8, dispBytes, if_neg (by decide), if_pos rfl, takeNumber_emitU32]

theorem offsetOperand_eq (r base : Reg) (offset : BitVec 32) : offsetOperand r base offset = (if field3 base = 4#3 then
      [fieldByte (dispMode base offset) (field3 r) 4#3, fieldByte 0#2 4#3 (field3 base)]
    else [fieldByte (dispMode base offset) (field3 r) (field3 base)]) ++ dispField base offset := by
  have h0 : (r.low3 <<< 3) ||| base.low3 = fieldByte 0#2 (field3 r) (field3 base) := by
    rw [← modrm_byte, show (⟨(0#2).setWidth 8 <<< 6⟩ : UInt8) = 0 from rfl, UInt8.zero_or]
  have h0s : (r.low3 <<< 3) ||| 0x04 = fieldByte 0#2 (field3 r) 4#3 := by
    rw [← modrm_byte_sib, UInt8.or_comm]
    rfl
  simp only [offsetOperand, dispMode, dispField, low3_eq_four]
  by_cases hzero : offset = 0#32 ∧ base.low3 ≠ 5
  · simp only [if_pos hzero]
    split_ifs with hfour
    · rw [hfour, h0s]
      rfl
    · rw [h0, List.append_nil]
  · simp only [if_neg hzero]
    by_cases h8 : isDisp8 offset
    · simp only [if_pos h8]
      split_ifs with hfour
      · rw [hfour, ← modrm_byte_sib]
        rfl
      · rw [← modrm_byte]
        rfl
    · simp only [if_neg h8]
      split_ifs with hfour
      · rw [hfour, ← modrm_byte_sib]
        rfl
      · rw [← modrm_byte]
        rfl

theorem sibOperand_eq (r base index : Reg) (shift : UInt8) (offset : BitVec 32) :
    sibOperand r base index shift offset =
      [fieldByte (dispMode base offset) (field3 r) 4#3,
        fieldByte (shift.toBitVec.setWidth 2) (field3 index) (field3 base)] ++ dispField base offset := by
  have hsib : (shift <<< 6) ||| (index.low3 <<< 3) ||| base.low3 =
      fieldByte (shift.toBitVec.setWidth 2) (field3 index) (field3 base) := by
    have hscale : ∀ v : BitVec 8, (⟨v⟩ : UInt8) <<< 6 = ⟨(v.setWidth 2).setWidth 8 <<< 6⟩ := by decide
    rw [← modrm_byte, ← hscale]
  have h0s : (r.low3 <<< 3) ||| 0x04 = fieldByte 0#2 (field3 r) 4#3 := by
    rw [← modrm_byte_sib, UInt8.or_comm]
    rfl
  simp only [sibOperand, dispMode, dispField, hsib]
  split_ifs
  · rw [h0s, List.append_nil]
  · rw [← modrm_byte_sib]
    rfl
  · rw [← modrm_byte_sib]
    rfl

/-! ### Reading operands back -/

theorem takeModRm_offset (opc : BitVec 32) (r base : Reg) (offset : BitVec 32) (rest : Bytes) :
    takeModRm (opRex opc r.num base.num 0) (offsetOperand r base offset ++ rest) =
      some ((gpr r, .mem ⟨some (gpr base), none, offset.signExtend 64⟩), rest) := by
  have hR := opRex_getD opc r.num base.num 0
  rw [offsetOperand_eq, append_assoc]
  by_cases hfour : field3 base = 4#3
  · rw [if_pos hfour]
    simp only [cons_append, nil_append]
    rw [takeModRm_sib hR _ _ _ (dispMode_ne_three base offset) _ _ (dispMode_five base offset), takeNumber_dispField]
    have hnone : BitVec.cons (fields opc r.num base.num 0).x 4#3 = 4#4 := by
      rw [show (fields opc r.num base.num 0).x = false from rfl]
      rfl
    simp only [map_some, if_pos hnone]
    simp [fields, cons_field3]
  · rw [if_neg hfour]
    simp only [cons_append, nil_append]
    rw [takeModRm_base hR _ _ _ (dispMode_ne_three base offset) hfour (dispMode_five base offset),
      takeNumber_dispField]
    simp [fields, cons_field3]

theorem takeModRm_sibOperand (opc : BitVec 32) (r base index : Reg) (shift : UInt8) (hindex : index ≠ .rsp)
    (offset : BitVec 32) (rest : Bytes) :
    takeModRm (opRex opc r.num base.num index.num) (sibOperand r base index shift offset ++ rest) =
      some ((gpr r, .mem ⟨some (gpr base), some (gpr index, shift.toBitVec.setWidth 2), offset.signExtend 64⟩),
        rest) := by
  have hR := opRex_getD opc r.num base.num index.num
  have hnot : gpr index ≠ 4#4 := by
    intro h
    revert hindex h
    cases index <;> decide
  rw [sibOperand_eq, append_assoc]
  simp only [cons_append, nil_append]
  rw [takeModRm_sib hR _ _ _ (dispMode_ne_three base offset) _ _ (dispMode_five base offset), takeNumber_dispField]
  simp [fields, cons_field3, if_neg hnot]

theorem toNat_scale {shift : UInt8} (h : shift ≤ 3) : (shift.toBitVec.setWidth 2).toNat = shift.toNat := by
  have hle : shift.toNat ≤ 3 := UInt8.le_iff_toNat_le.mp h
  rw [BitVec.toNat_setWidth, UInt8.toNat_toBitVec]
  exact Nat.mod_eq_of_lt (by omega)

theorem shiftLeft_eq_mul (x : BitVec 64) (n : Nat) : x <<< n = x * BitVec.ofNat 64 (2 ^ n) := by
  apply BitVec.eq_of_toNat_eq
  rw [BitVec.toNat_shiftLeft, BitVec.toNat_mul, BitVec.toNat_ofNat, Nat.shiftLeft_eq, Nat.mul_mod_mod]

/-- An emitted memory operand is read back as the register and the address it was made for: the opcode with its
prefixes, the register field, base, index, scale and displacement, and nothing is left of the bytes. -/
theorem memory_operands_read_back {opc : BitVec 32} (h : IsOpcode opc) (r base : Reg) (offset : BitVec 32)
    (rest : Bytes) : (∃ a : Address, takeOperand (emitModrmOffset opc r base offset ++ rest) =
        some ((opHead opc r.num base.num 0, gpr r, .mem a), rest) ∧
      ∀ regs, a.value regs = regs (gpr base) + offset.signExtend 64) ∧
    ∀ (index : Reg) (shift : UInt8), index ≠ .rsp → shift ≤ 3 → ∃ bytes a,
      emitModrmSib opc r base index shift offset = some bytes ∧
      takeOperand (bytes ++ rest) = some ((opHead opc r.num base.num index.num, gpr r, .mem a), rest) ∧
      ∀ regs, a.value regs =
        regs (gpr base) + regs (gpr index) * BitVec.ofNat 64 (2 ^ shift.toNat) + offset.signExtend 64 := by
  constructor
  · refine ⟨⟨some (gpr base), none, offset.signExtend 64⟩, ?_, fun regs => ?_⟩
    · rw [emitModrmOffset, emitOpc, append_assoc, takeOperand, takeHead_emitOpc3 h]
      simp [takeModRm_offset]
    · simp [Address.value]
  · intro index shift hindex hshift
    refine ⟨emitOpc3 opc r.num base.num index.num ++ sibOperand r base index shift offset,
      ⟨some (gpr base), some (gpr index, shift.toBitVec.setWidth 2), offset.signExtend 64⟩, ?_, ?_, fun regs => ?_⟩
    · rw [emitModrmSib, if_neg (not_not.mpr hshift), if_neg hindex]
    · rw [append_assoc, takeOperand, takeHead_emitOpc3 h]
      simp [takeModRm_sibOperand opc r base index shift hindex]
    · simp [Address.value, shiftLeft_eq_mul, toNat_scale hshift]

/-- A 64-bit load to R9 from R13 with the lowest displacement of one byte, and with index R12 and scale 8. -/
theorem r13_and_r12_read_back :
    (∃ a : Address, takeOperand (emitModrmOffset (opcMovlGvEv ||| pRexw) .r9 .r13 (-128#32) ++ []) =
        some ((opHead (opcMovlGvEv ||| pRexw) 9 13 0, gpr .r9, .mem a), []) ∧
      ∀ regs, a.value regs = regs (gpr .r13) + (-128#32).signExtend 64) ∧
    ∃ bytes a, emitModrmSib (opcMovlGvEv ||| pRexw) .r9 .r13 .r12 3 (-128#32) = some bytes ∧
      takeOperand (bytes ++ []) = some ((opHead (opcMovlGvEv ||| pRexw) 9 13 12, gpr .r9, .mem a), []) ∧
      ∀ regs, a.value regs = regs (gpr .r13) + regs (gpr .r12) * BitVec.ofNat 64 (2 ^ 3) +
      (-128#32).signExtend 64 := by
  have hboth := memory_operands_read_back (by decide : IsOpcode (opcMovlGvEv ||| pRexw)) .r9 .r13 (-128#32) []
  exact ⟨hboth.1, hboth.2 .r12 3 (by decide) (by decide)⟩

/-- The opcode words the emitter uses with memory operands. -/
def memoryOpcodes : List (BitVec 32) :=
  let arith := fun op : ArithOp => ((op.code.toBitVec.setWidth 32) <<< 3 : BitVec 32)
  let ops : List ArithOp := [.add, .or, .adc, .sbb, .and, .sub, .xor, .cmp]
  [opcMovlGvEv, opcMovlGvEv ||| pRexw, opcMovlEvGv, opcMovlEvGv ||| pRexw, pData16 ||| opcMovlEvGv,
    opcMovbEvGv ||| pRexbR, opcLea, opcLea ||| pRexw, opcMovzbl, opcMovzwl, opcMovsbl, opcMovsbl ||| pRexw,
    opcMovswl, opcMovswl ||| pRexw, opcMovslq] ++
  ops.map (opcArithEvGv + arith ·) ++ ops.map (fun op => (opcArithEvGv + arith op) ||| pRexw) ++
  ops.map (opcArithGvEv + arith ·) ++ ops.map (fun op => (opcArithGvEv + arith op) ||| pRexw)

theorem isOpcode_memoryOpcodes {opc : BitVec 32} (h : opc ∈ memoryOpcodes) : IsOpcode opc := by
  have hall : memoryOpcodes.all (fun opc => decide (IsOpcode opc)) = true := by decide +kernel
  exact of_decide_eq_true (List.all_eq_true.mp hall opc h)

/-! ### Whole instructions -/

section

variable {opc : BitVec 32} (h : IsOpcode opc) {n : Nat} {build : Gpr → Rm → BitVec 64 → Option Insn} {insn : Insn}
  {imm : BitVec 64} (immBytes rest : Bytes)

theorem opHead_hasRexW (opc : BitVec 32) (r rm index : UInt8) : (opHead opc r rm index).hasRexW = has opc pRexw := by
  have hget := opRex_getD opc r rm index
  rw [Head.hasRexW, opHead]
  cases hrex : opRex opc r rm index with
  | none | some rex =>
    rw [hrex] at hget
    exact congrArg Rex.w hget

def opSize (opc : BitVec 32) : Width := if has opc pRexw then .quad else if has opc pData16 then .word else .long

theorem opHead_size (opc : BitVec 32) (r rm index : UInt8) : (opHead opc r rm index).size = opSize opc := by
  rw [Head.size, opHead_hasRexW]
  rfl

theorem takeModRm_reg (opc : BitVec 32) (r rm : Reg) (rest : Bytes) :
    takeModRm (opRex opc r.num rm.num 0) (((0xC0 : UInt8) ||| (r.low3 <<< 3) ||| rm.low3) :: rest) =
      some ((gpr r, .reg (gpr rm)), rest) := by
  rw [show (0xC0 : UInt8) = ⟨(3#2).setWidth 8 <<< 6⟩ from rfl, modrm_byte]
  simp [takeModRm, fieldByte_mode, fieldByte_middle, fieldByte_low, opRex_getD, fields, cons_field3]

include h

theorem decode_emitModrm (r rm : Reg) (hf : form (opHead opc r.num rm.num 0) = some (.modRm n build))
    (himm : takeNumber n (immBytes ++ rest) = some (imm, rest)) (hb : build (gpr r) (.reg (gpr rm)) imm = some insn) :
    decode (emitModrm opc r rm ++ (immBytes ++ rest)) = some (insn, rest) := by
  rw [emitModrm, emitOpc, append_assoc, decode, takeHead_emitOpc3 h]
  simp [hf, takeOperands, takeModRm_reg, himm, hb]

end

end MachinaEmitterDecode
