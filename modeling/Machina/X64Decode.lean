import Machina.ByteReader
import Machina.X86

/-!
# Decoding x86-64 machine code

Instructions of 64-bit mode are read byte by byte: legacy prefixes, an optional REX
prefix, the opcode with its escapes, ModRM, SIB, displacement and immediate. The rules
for operands hold for every opcode that has a ModRM byte; a table then gives the
meaning of the moves, arithmetic, shifts, jumps and calls of the fragment.
-/

namespace MachinaX64Decode

open MachinaByteReader (Bytes leBytes leValue)
open MachinaX86 (ArithOp ShiftOp Cc)

/-- A general-purpose register by its number. -/
abbrev Gpr := BitVec 4

inductive Rep where
  | f2 | f3
  deriving DecidableEq, Repr

structure Legacy where
  data16 : Bool
  rep : Option Rep
  deriving DecidableEq, Repr

structure Rex where
  w : Bool
  r : Bool
  x : Bool
  b : Bool
  deriving DecidableEq, Repr

inductive OpMap where
  | one | ext0F | ext0F38 | ext0F3A
  deriving DecidableEq, Repr

/-- What stands before the operands. -/
structure Head where
  legacy : Legacy
  rex : Option Rex
  map : OpMap
  opcode : UInt8
  deriving DecidableEq, Repr

def takeLegacy (p : Legacy) : Bytes → Legacy × Bytes
  | [] => (p, [])
  | b :: rest =>
    if b = 0x66 then takeLegacy { p with data16 := true } rest
    else if b = 0xF2 then takeLegacy { p with rep := some .f2 } rest
    else if b = 0xF3 then takeLegacy { p with rep := some .f3 } rest
    else (p, b :: rest)

/-- The bytes 40 to 4F are REX prefixes. -/
def isRex (b : UInt8) : Bool := b.toBitVec.extractLsb' 4 4 == 4#4

def Rex.ofByte (b : UInt8) : Rex :=
  ⟨b.toBitVec.getLsbD 3, b.toBitVec.getLsbD 2, b.toBitVec.getLsbD 1, b.toBitVec.getLsbD 0⟩

def takeRex : Bytes → Option Rex × Bytes
  | [] => (none, [])
  | b :: rest => if isRex b then (some (.ofByte b), rest) else (none, b :: rest)

/-- The legacy prefixes, the escape and the VEX and EVEX prefixes. -/
def prefixBytes : List UInt8 :=
  [0x26, 0x2E, 0x36, 0x3E, 0x64, 0x65, 0x66, 0x67, 0xF0, 0xF2, 0xF3, 0x0F, 0xC4, 0xC5, 0x62]

/-- The byte is an opcode of the one-byte map. -/
def isPlain (b : UInt8) : Bool := !isRex b && !prefixBytes.contains b

def takeOpcode : Bytes → Option ((OpMap × UInt8) × Bytes)
  | [] => none
  | b :: rest =>
    if b = 0x0F then
      match rest with
      | [] => none
      | c :: rest =>
        if c = 0x38 then rest.head?.map fun d => ((.ext0F38, d), rest.tail)
        else if c = 0x3A then rest.head?.map fun d => ((.ext0F3A, d), rest.tail)
        else some ((.ext0F, c), rest)
    else if isPlain b then some ((.one, b), rest)
    else none

def takeHead (bytes : Bytes) : Option (Head × Bytes) :=
  let (legacy, bytes) := takeLegacy ⟨false, none⟩ bytes
  let (rex, bytes) := takeRex bytes
  (takeOpcode bytes).map fun ((map, opcode), rest) => (⟨legacy, rex, map, opcode⟩, rest)

structure Address where
  base : Option Gpr
  index : Option (Gpr × BitVec 2)
  disp : BitVec 64
  deriving DecidableEq, Repr

def Address.value (a : Address) (regs : Gpr → BitVec 64) : BitVec 64 :=
  (a.base.elim 0#64 regs) + (a.index.elim 0#64 fun (i, scale) => regs i <<< scale.toNat) + a.disp

/-- The operand of the R/M field; `rip` is relative to the next instruction. -/
inductive Rm where
  | reg (r : Gpr)
  | mem (a : Address)
  | rip (disp : BitVec 64)
  deriving DecidableEq, Repr

def takeNumber (n : Nat) (bytes : Bytes) : Option (BitVec 64 × Bytes) :=
  if bytes.length < n then none
  else some ((BitVec.ofNat (8 * n) (leValue (bytes.take n))).signExtend 64, bytes.drop n)

/-- The bytes of the displacement after a ModRM byte with this mode. -/
def dispBytes (mode : BitVec 2) (noBase : Bool) : Nat :=
  if mode = 1#2 then 1 else if mode = 2#2 then 4 else if noBase then 4 else 0

/-- The SIB byte and the displacement. Index 4 without REX.X is no index; base 5 with mode 0 is no base. -/
def takeSib (rex : Rex) (mode : BitVec 2) : Bytes → Option (Address × Bytes)
  | [] => none
  | s :: rest =>
    let scale := s.toBitVec.extractLsb' 6 2
    let index := BitVec.cons rex.x (s.toBitVec.extractLsb' 3 3)
    let base := s.toBitVec.extractLsb' 0 3
    let noBase := base == 5#3 && mode == 0#2
    (takeNumber (dispBytes mode noBase) rest).map fun (disp, rest) =>
      (⟨if noBase then none else some (BitVec.cons rex.b base),
        if index = 4#4 then none else some (index, scale), disp⟩, rest)

/-- The ModRM byte with what belongs to it: the register field and the R/M operand. -/
def takeModRm (rex : Option Rex) : Bytes → Option ((Gpr × Rm) × Bytes)
  | [] => none
  | m :: rest =>
    let rex := rex.getD ⟨false, false, false, false⟩
    let mode := m.toBitVec.extractLsb' 6 2
    let reg := BitVec.cons rex.r (m.toBitVec.extractLsb' 3 3)
    let rm := m.toBitVec.extractLsb' 0 3
    if mode = 3#2 then some ((reg, .reg (BitVec.cons rex.b rm)), rest)
    else if rm = 4#3 then (takeSib rex mode rest).map fun (a, rest) => ((reg, .mem a), rest)
    else if rm = 5#3 ∧ mode = 0#2 then (takeNumber 4 rest).map fun (disp, rest) => ((reg, .rip disp), rest)
    else (takeNumber (dispBytes mode false) rest).map fun (disp, rest) =>
      ((reg, .mem ⟨some (BitVec.cons rex.b rm), none, disp⟩), rest)

/-- The operands of an instruction with a ModRM byte, whatever its opcode is. -/
def takeOperand (bytes : Bytes) : Option ((Head × Gpr × Rm) × Bytes) := do
  let (head, bytes) ← takeHead bytes
  let ((reg, rm), rest) ← takeModRm head.rex bytes
  some ((head, reg, rm), rest)

inductive Width where
  | byte | word | long | quad
  deriving DecidableEq, Repr

def Width.bits : Width → Nat
  | .byte => 8
  | .word => 16
  | .long => 32
  | .quad => 64

/-- Where an operand is: the low part of a register, one of AH, CH, DH and BH, or memory. -/
inductive Place where
  | low (r : Gpr)
  | high (r : Gpr)
  | mem (a : Address)
  deriving DecidableEq, Repr

inductive Insn where
  | mov (w : Width) (dst src : Place)
  | movImm (w : Width) (dst : Place) (imm : BitVec 64)
  | extend (signed : Bool) (w narrow : Width) (dst : Gpr) (src : Place)
  | arith (op : ArithOp) (w : Width) (dst src : Place)
  | arithImm (op : ArithOp) (w : Width) (dst : Place) (imm : BitVec 64)
  | shiftImm (op : ShiftOp) (w : Width) (dst : Place) (count : Nat)
  | imulImm (w : Width) (dst : Gpr) (src : Place) (imm : BitVec 64)
  | jcc (cc : Cc) (disp : BitVec 64)
  | jmp (disp : BitVec 64)
  | call (target : Place)
  deriving DecidableEq, Repr

namespace Head

def hasRexW (h : Head) : Bool := h.rex.any (·.w)

def size (h : Head) : Width := if h.hasRexW then .quad else if h.legacy.data16 then .word else .long

/-- Byte registers 4 to 7 are the high bytes of the first four registers unless a REX prefix is there. -/
def regPlace (h : Head) (w : Width) (r : Gpr) : Place :=
  if w = .byte ∧ h.rex = none ∧ 4 ≤ r.toNat ∧ r.toNat < 8 then .high (r - 4#4) else .low r

def rmPlace (h : Head) (w : Width) : Rm → Option Place
  | .reg r => some (h.regPlace w r)
  | .mem a => some (.mem a)
  | .rip _ => none

end Head

def arithOfCode : BitVec 3 → Option ArithOp
  | 0#3 => some .add
  | 1#3 => some .or
  | 4#3 => some .and
  | 5#3 => some .sub
  | 6#3 => some .xor
  | 7#3 => some .cmp
  | _ => none

def shiftOfCode : BitVec 3 → Option ShiftOp
  | 0#3 => some .rol
  | 1#3 => some .ror
  | 4#3 => some .shl
  | 5#3 => some .shr
  | 7#3 => some .sar
  | _ => none

def ccOfCode : BitVec 4 → Option Cc
  | 2#4 => some .b
  | 3#4 => some .ae
  | 4#4 => some .e
  | 5#4 => some .ne
  | 6#4 => some .be
  | 7#4 => some .a
  | 12#4 => some .l
  | 13#4 => some .ge
  | 14#4 => some .le
  | 15#4 => some .g
  | _ => none

/-- How the operands of an opcode are read: the bytes of the immediate and the instruction they make. -/
inductive Form where
  | modRm (imm : Nat) (build : Gpr → Rm → BitVec 64 → Option Insn)
  | plain (imm : Nat) (build : BitVec 64 → Option Insn)

/-- The opcode of the arithmetic instructions between register and R/M: operation, direction and full size. -/
def arithForm (h : Head) : Option Form := do
  let code := h.opcode.toBitVec
  let op ← arithOfCode (code.extractLsb' 3 3)
  let w := if code.getLsbD 0 then h.size else .byte
  some <| .modRm 0 fun reg rm _ => do
    let place ← h.rmPlace w rm
    let reg := h.regPlace w reg
    some (if code.getLsbD 1 then .arith op w reg place else .arith op w place reg)

/-- The low three bits of the register field select an operation in the groups. -/
def groupCode (reg : Gpr) : BitVec 3 := reg.setWidth 3

def formOne (h : Head) : Option Form :=
  let w := h.size
  let code := h.opcode.toBitVec
  if code.extractLsb' 6 2 = 0#2 ∧ code.getLsbD 2 = false then arithForm h
  else if h.opcode = 0x63 then
    some (.modRm 0 fun reg rm _ => (h.rmPlace .long rm).map fun src => .extend true w .long reg src)
  else if h.opcode = 0x69 ∨ h.opcode = 0x6B then
    some (.modRm (if h.opcode = 0x6B then 1 else 4) fun reg rm imm =>
      (h.rmPlace w rm).map fun src => .imulImm w reg src imm)
  else if h.opcode = 0x81 ∨ h.opcode = 0x83 then
    some (.modRm (if h.opcode = 0x83 then 1 else 4) fun reg rm imm => do
      some (.arithImm (← arithOfCode (groupCode reg)) w (← h.rmPlace w rm) imm))
  else if h.opcode = 0x88 then
    some (.modRm 0 fun reg rm _ => (h.rmPlace .byte rm).map fun dst => .mov .byte dst (h.regPlace .byte reg))
  else if h.opcode = 0x89 then
    some (.modRm 0 fun reg rm _ => (h.rmPlace w rm).map fun dst => .mov w dst (h.regPlace w reg))
  else if h.opcode = 0x8B then
    some (.modRm 0 fun reg rm _ => (h.rmPlace w rm).map fun src => .mov w (h.regPlace w reg) src)
  else if h.opcode = 0xC1 then
    some (.modRm 1 fun reg rm imm => do
      some (.shiftImm (← shiftOfCode (groupCode reg)) w (← h.rmPlace w rm) (imm.toNat % 256)))
  else if h.opcode = 0xD1 then
    some (.modRm 0 fun reg rm _ => do
      some (.shiftImm (← shiftOfCode (groupCode reg)) w (← h.rmPlace w rm) 1))
  else if h.opcode = 0xC7 then
    some (.modRm 4 fun reg rm imm =>
      if groupCode reg = 0#3 then (h.rmPlace w rm).map fun dst => .movImm w dst imm else none)
  else if code.extractLsb' 3 5 = 0x17#5 then
    some (.plain (if h.hasRexW then 8 else 4) fun imm =>
      some (.movImm w (.low (BitVec.cons (h.rex.any (·.b)) (code.extractLsb' 0 3))) imm))
  else if h.opcode = 0xE9 then some (.plain 4 fun disp => some (.jmp disp))
  else if h.opcode = 0xFF then
    some (.modRm 0 fun reg rm _ => if groupCode reg = 2#3 then (h.rmPlace .quad rm).map .call else none)
  else none

def form0F (h : Head) : Option Form :=
  let w := h.size
  let code := h.opcode.toBitVec
  if h.opcode = 0xB6 ∨ h.opcode = 0xBE then
    some (.modRm 0 fun reg rm _ => (h.rmPlace .byte rm).map fun src => .extend (h.opcode == 0xBE) w .byte reg src)
  else if h.opcode = 0xB7 ∨ h.opcode = 0xBF then
    some (.modRm 0 fun reg rm _ => (h.rmPlace .word rm).map fun src => .extend (h.opcode == 0xBF) w .word reg src)
  else if code.extractLsb' 4 4 = 8#4 then
    (ccOfCode (code.extractLsb' 0 4)).map fun cc => .plain 4 fun disp => some (.jcc cc disp)
  else none

/-- The form of an opcode without repeat prefix. -/
def form (h : Head) : Option Form :=
  if h.legacy.rep.isSome then none
  else match h.map with
    | .one => formOne h
    | .ext0F => form0F h
    | _ => none

def takeOperands : Form → Option Rex → Bytes → Option (Insn × Bytes)
  | .modRm imm build, rex, bytes => do
    let ((reg, rm), bytes) ← takeModRm rex bytes
    let (imm, bytes) ← takeNumber imm bytes
    let insn ← build reg rm imm
    some (insn, bytes)
  | .plain imm build, _, bytes => do
    let (imm, bytes) ← takeNumber imm bytes
    let insn ← build imm
    some (insn, bytes)

/-- The first instruction of the code, and what follows it. -/
def decode (bytes : Bytes) : Option (Insn × Bytes) := do
  let (head, bytes) ← takeHead bytes
  let form ← form head
  takeOperands form head.rex bytes

/-! ### What decoding consumes -/

theorem takeLegacy_length (p : Legacy) (bytes : Bytes) : (takeLegacy p bytes).2.length ≤ bytes.length := by
  induction bytes generalizing p with
  | nil => simp [takeLegacy]
  | cons b rest ih =>
    have hnext (q : Legacy) : (takeLegacy q rest).2.length ≤ (b :: rest).length := (ih q).trans (by simp)
    simp only [takeLegacy]
    split_ifs
    · exact hnext _
    · exact hnext _
    · exact hnext _
    · exact le_rfl

theorem takeRex_length (bytes : Bytes) : (takeRex bytes).2.length ≤ bytes.length := by
  cases bytes with
  | nil => simp [takeRex]
  | cons b rest =>
    simp only [takeRex]
    split_ifs <;> simp

variable {bytes rest : Bytes}

theorem takeOpcode_length {o : OpMap × UInt8} (h : takeOpcode bytes = some (o, rest)) :
    rest.length < bytes.length := by
  cases bytes with
  | nil => simp [takeOpcode] at h
  | cons b tail =>
    simp only [takeOpcode] at h
    split_ifs at h
    · cases tail with
      | nil => simp at h
      | cons c tail =>
        simp only at h
        split_ifs at h
        case neg =>
          cases h
          simp
        all_goals
          simp only [Option.map_eq_some_iff, Prod.mk.injEq] at h
          obtain ⟨_, _, _, rfl⟩ := h
          simp only [List.length_tail, List.length_cons]
          omega
    · cases h
      simp

theorem takeHead_length {h : Head} (hh : takeHead bytes = some (h, rest)) : rest.length < bytes.length := by
  simp only [takeHead, Option.map_eq_some_iff, Prod.mk.injEq] at hh
  obtain ⟨⟨o, rest'⟩, hop, _, rfl⟩ := hh
  have hopcode := takeOpcode_length hop
  have hrex := takeRex_length (takeLegacy ⟨false, none⟩ bytes).2
  have hlegacy := takeLegacy_length ⟨false, none⟩ bytes
  exact hopcode.trans_le (hrex.trans hlegacy)

theorem takeNumber_length {n : Nat} {v : BitVec 64} (h : takeNumber n bytes = some (v, rest)) :
    rest.length ≤ bytes.length := by
  simp only [takeNumber] at h
  split_ifs at h
  cases h
  simp

theorem takeSib_length {rex : Rex} {mode : BitVec 2} {a : Address}
    (h : takeSib rex mode bytes = some (a, rest)) : rest.length ≤ bytes.length := by
  cases bytes with
  | nil => simp [takeSib] at h
  | cons s tail =>
    simp only [takeSib, Option.map_eq_some_iff, Prod.mk.injEq] at h
    obtain ⟨⟨v, rest'⟩, hnum, _, rfl⟩ := h
    exact (takeNumber_length hnum).trans (by simp)

theorem takeModRm_length {rex : Option Rex} {m : Gpr × Rm}
    (h : takeModRm rex bytes = some (m, rest)) : rest.length ≤ bytes.length := by
  cases bytes with
  | nil => simp [takeModRm] at h
  | cons b tail =>
    simp only [takeModRm] at h
    split_ifs at h
    · cases h
      simp
    · simp only [Option.map_eq_some_iff, Prod.mk.injEq] at h
      obtain ⟨⟨a, rest'⟩, hsib, _, rfl⟩ := h
      exact (takeSib_length hsib).trans (by simp)
    all_goals
      simp only [Option.map_eq_some_iff, Prod.mk.injEq] at h
      obtain ⟨⟨v, rest'⟩, hnum, _, rfl⟩ := h
      exact (takeNumber_length hnum).trans (by simp)

theorem takeOperands_length {f : Form} {rex : Option Rex} {insn : Insn}
    (h : takeOperands f rex bytes = some (insn, rest)) : rest.length ≤ bytes.length := by
  cases f with
  | modRm imm build =>
    simp only [takeOperands, Option.bind_eq_bind, Option.bind_eq_some_iff, Option.some.injEq, Prod.mk.injEq] at h
    obtain ⟨⟨⟨reg, rm⟩, b1⟩, hmod, ⟨v, b2⟩, hnum, _, _, _, rfl⟩ := h
    exact (takeNumber_length hnum).trans (takeModRm_length hmod)
  | plain imm build =>
    simp only [takeOperands, Option.bind_eq_bind, Option.bind_eq_some_iff, Option.some.injEq, Prod.mk.injEq] at h
    obtain ⟨⟨v, b2⟩, hnum, _, _, _, rfl⟩ := h
    exact takeNumber_length hnum

/-- Every instruction has at least one byte. -/
theorem decode_length {insn : Insn} (h : decode bytes = some (insn, rest)) : rest.length < bytes.length := by
  simp only [decode, Option.bind_eq_bind, Option.bind_eq_some_iff] at h
  obtain ⟨⟨head, b1⟩, hhead, f, _, hops⟩ := h
  exact (takeOperands_length hops).trans_lt (takeHead_length hhead)

end MachinaX64Decode
