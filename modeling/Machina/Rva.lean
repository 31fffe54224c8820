import Machina.GuestRam

/-!
# Atomic instructions

The translators of the atomic memory operations, inline or through a helper. The
inline sequence and the helper leave the same word in memory, the one the
instruction set prescribes.
-/

namespace MachinaRva

open MachinaByteMem MachinaFullSystem MachinaTlb MachinaGuestRam
open MachinaIr MachinaIrSem MachinaIrGen MachinaRvTrans MachinaOptimizePaths

structure ArgsAtomic where
  aq : Bool
  rl : Bool
  rs2 : Fin 32
  rs1 : Fin 32
  rd : Fin 32
  deriving DecidableEq, Repr

def tcgMoAll : Nat := 0x0F
def tcgBarLdaq : Nat := 0x10
def tcgBarStrl : Nat := 0x20

/-- The number of an operation in a helper call. -/
def amoCode : AmoOp → BitVec 64
  | .swap => 0#64
  | .add => 1#64
  | .xor => 2#64
  | .and => 3#64
  | .or => 4#64
  | .min => 5#64
  | .max => 6#64
  | .minu => 7#64
  | .maxu => 8#64

/-- The minimum or maximum a condition selects. -/
def condAmo : Cond → AmoOp
  | .lt => .min
  | .gt => .max
  | .ltu => .minu
  | _ => .maxu

section Translators

variable (tr : RiscvDisasContext) (a : ArgsAtomic)

/-- The barrier before the access of a releasing instruction. -/
def genRelease : Builder Unit := if a.rl then genMb (tcgMoAll ||| tcgBarStrl) else pure ()

/-- The barrier after the access of an acquiring instruction. -/
def genAcquire : Builder Unit := if a.aq then genMb (tcgMoAll ||| tcgBarLdaq) else pure ()

def genSetPc : Builder Unit := do
  let pc ← newConst .i64 tr.pcNext
  genMov .i64 tr.pc pc

def genAmoHelper (addr : TempIdx) (op : AmoOp) (memop : Nat) : Builder Bool := do
  genSetPc tr
  let src2 ← gprOrZero tr a.rs2
  let size ← newConst .i64 (memopBytes memop)
  let code ← newConst .i64 (amoCode op)
  let old ← newTemp .i64
  genCall old tr.amoHelper [tr.env, addr, src2, size, code]
  genAcquire a
  genSetGpr tr a.rd old
  pure true

/-- AMO: read-modify-write (load, operation, store). Only sums and bitwise operations come here. -/
def genAmo (op : AmoOp) (memop : Nat) : Builder Bool := do
  let addr ← gprOrZero tr a.rs1
  genRelease a
  if tr.amoHelper ≠ 0#64 then genAmoHelper tr a addr op memop
  else
    let old ← newTemp .i64
    genQemuLd .i64 old addr memop
    let src2 ← gprOrZero tr a.rs2
    let new ← newTemp .i64
    match op with
    | .add => genAdd .i64 new old src2
    | .xor => genXor .i64 new old src2
    | .and => genAnd .i64 new old src2
    | .or => genOr .i64 new old src2
    | _ => pure ()
    genQemuSt .i64 new addr memop
    genAcquire a
    genSetGpr tr a.rd old
    pure true

/-- AMO swap: store rs2, return the old value. -/
def genAmoSwap (memop : Nat) : Builder Bool := do
  let addr ← gprOrZero tr a.rs1
  genRelease a
  if tr.amoHelper ≠ 0#64 then genAmoHelper tr a addr .swap memop
  else
    let old ← newTemp .i64
    genQemuLd .i64 old addr memop
    let src2 ← gprOrZero tr a.rs2
    genQemuSt .i64 src2 addr memop
    genAcquire a
    genSetGpr tr a.rd old
    pure true

/-- The source operand as it is compared: 32-bit forms extend its low half. -/
def genCmpSrc2 (cond : Cond) (memop : Nat) (src2 : TempIdx) : Builder TempIdx := do
  if memopBytes memop = 4#64 then
    let t ← newTemp .i64
    let t32 ← newTemp .i32
    genExtrlI64I32 t32 src2
    if cond = .lt ∨ cond = .gt then genExtI32I64 t t32 else genExtU32I64 t t32
    pure t
  else pure src2

/-- The loaded word as it is compared: unsigned 32-bit forms undo its sign extension. -/
def genCmpOld (cond : Cond) (memop : Nat) (old : TempIdx) : Builder TempIdx := do
  if memopBytes memop = 4#64 ∧ (cond = .ltu ∨ cond = .gtu) then
    let t ← newTemp .i64
    let t32 ← newTemp .i32
    genExtrlI64I32 t32 old
    genExtU32I64 t t32
    pure t
  else pure old

/-- AMO min/max: conditional select via movcond. -/
def genAmoMinmax (cond : Cond) (memop : Nat) : Builder Bool := do
  let addr ← gprOrZero tr a.rs1
  genRelease a
  if tr.amoHelper ≠ 0#64 then genAmoHelper tr a addr (condAmo cond) memop
  else
    let old ← newTemp .i64
    genQemuLd .i64 old addr memop
    let src2 ← gprOrZero tr a.rs2
    let cmpSrc2 ← genCmpSrc2 cond memop src2
    let cmpOld ← genCmpOld cond memop old
    let new ← newTemp .i64
    genMovcond .i64 new cmpOld cmpSrc2 old src2 cond
    genQemuSt .i64 new addr memop
    genAcquire a
    genSetGpr tr a.rd old
    pure true

def transAmoswapW : Builder Bool := requireExt tr misaA (genAmoSwap tr a memSl)
def transAmoaddW : Builder Bool := requireExt tr misaA (genAmo tr a .add memSl)
def transAmoxorW : Builder Bool := requireExt tr misaA (genAmo tr a .xor memSl)
def transAmoandW : Builder Bool := requireExt tr misaA (genAmo tr a .and memSl)
def transAmoorW : Builder Bool := requireExt tr misaA (genAmo tr a .or memSl)
def transAmominW : Builder Bool := requireExt tr misaA (genAmoMinmax tr a .lt memSl)
def transAmomaxW : Builder Bool := requireExt tr misaA (genAmoMinmax tr a .gt memSl)
def transAmominuW : Builder Bool := requireExt tr misaA (genAmoMinmax tr a .ltu memSl)
def transAmomaxuW : Builder Bool := requireExt tr misaA (genAmoMinmax tr a .gtu memSl)

def transAmoswapD : Builder Bool := requireExt tr misaA (genAmoSwap tr a memUq)
def transAmoaddD : Builder Bool := requireExt tr misaA (genAmo tr a .add memUq)
def transAmoxorD : Builder Bool := requireExt tr misaA (genAmo tr a .xor memUq)
def transAmoandD : Builder Bool := requireExt tr misaA (genAmo tr a .and memUq)
def transAmoorD : Builder Bool := requireExt tr misaA (genAmo tr a .or memUq)
def transAmominD : Builder Bool := requireExt tr misaA (genAmoMinmax tr a .lt memUq)
def transAmomaxD : Builder Bool := requireExt tr misaA (genAmoMinmax tr a .gt memUq)
def transAmominuD : Builder Bool := requireExt tr misaA (genAmoMinmax tr a .ltu memUq)
def transAmomaxuD : Builder Bool := requireExt tr misaA (genAmoMinmax tr a .gtu memUq)

/-- The translator of an atomic memory operation, on words or doublewords. -/
def translateAmo (word : Bool) : AmoOp → Builder Bool
  | .swap => if word then transAmoswapW tr a else transAmoswapD tr a
  | .add => if word then transAmoaddW tr a else transAmoaddD tr a
  | .xor => if word then transAmoxorW tr a else transAmoxorD tr a
  | .and => if word then transAmoandW tr a else transAmoandD tr a
  | .or => if word then transAmoorW tr a else transAmoorD tr a
  | .min => if word then transAmominW tr a else transAmominD tr a
  | .max => if word then transAmomaxW tr a else transAmomaxD tr a
  | .minu => if word then transAmominuW tr a else transAmominuD tr a
  | .maxu => if word then transAmomaxuW tr a else transAmomaxuD tr a

end Translators

/-! ## What the instruction set prescribes -/

/-- The word an operation leaves in memory. -/
def isaAmo {w : Nat} (op : AmoOp) (x y : BitVec w) : BitVec w :=
  match op with
  | .swap => y
  | .add => x + y
  | .xor => x ^^^ y
  | .and => x &&& y
  | .or => x ||| y
  | .min => if x.toInt ≤ y.toInt then x else y
  | .max => if y.toInt ≤ x.toInt then x else y
  | .minu => if x.toNat ≤ y.toNat then x else y
  | .maxu => if y.toNat ≤ x.toNat then x else y

/-- The same at the width of an instruction, on memory bytes and a register. -/
def isaStored (op : AmoOp) (word : Bool) (old val : BitVec 64) : BitVec 64 :=
  if word then (isaAmo op (old.setWidth 32) (val.setWidth 32)).setWidth 64 else isaAmo op old val

/-- What goes to the destination: the old word, sign-extended. -/
def isaLoaded (word : Bool) (old : BitVec 64) : BitVec 64 :=
  if word then (old.setWidth 32).signExtend 64 else old

def wordSize (word : Bool) : BitVec 64 := if word then 4#64 else 8#64

/-- The bytes at an address hold a word, and all other bytes are as before. -/
structure Leaves (mem mem' : Mem) (pa : BitVec 64) (n : Nat) (w : BitVec 64) : Prop where
  word : read mem' pa n = w
  others : ∀ x, n ≤ (x - pa).toNat → mem' x = mem x

theorem Leaves.unique {mem mem1 mem2 : Mem} {pa w : BitVec 64} {n : Nat} (hn : n ≤ 8) (h1 : Leaves mem mem1 pa n w)
    (h2 : Leaves mem mem2 pa n w) : mem1 = mem2 := by
  funext x
  by_cases hin : n ≤ (x - pa).toNat
  · rw [h1.others x hin, h2.others x hin]
  have hx : pa + BitVec.ofNat 64 (x - pa).toNat = x := by
    rw [BitVec.ofNat_toNat, BitVec.setWidth_eq, add_comm]
    exact BitVec.sub_add_cancel x pa
  have hbyte (m : Mem) (j : Nat) (hj : j < 8) :
      (read m pa n).getLsbD (8 * (x - pa).toNat + j) = (m x).getLsbD j := by
    rw [getLsbD_read _ _ _ _ hn, show (8 * (x - pa).toNat + j) / 8 = (x - pa).toNat by omega,
      show (8 * (x - pa).toNat + j) % 8 = j by omega, hx,
      decide_eq_true (show 8 * (x - pa).toNat + j < 8 * n by omega), Bool.true_and]
  apply BitVec.eq_of_getLsbD_eq
  intro j hj
  rw [← hbyte mem1 j hj, ← hbyte mem2 j hj, h1.word, h2.word]

section Words

/-- A stored word is read back without the bits above it. -/
theorem leaves_write (mem : Mem) (pa v : BitVec 64) {n : Nat} (hn : n ≤ 8) :
    Leaves mem (write mem pa n v) pa n ((v.setWidth (8 * n)).setWidth 64) where
  word := by
    apply BitVec.eq_of_getLsbD_eq
    intro j hj
    have hsame := congrArg (fun z => z.getLsbD j) (read_write_same mem pa v hn)
    simp only [BitVec.getLsbD_setWidth] at hsame ⊢
    rw [← hsame, getLsbD_read _ _ _ _ hn]
    by_cases hlt : j < 8 * n <;> simp [hj, hlt]
  others x hx := write_of_ge hx

def stored (word : Bool) (v : BitVec 64) : BitVec 64 := if word then (v.setWidth 32).setWidth 64 else v

/-- The helper's 32-bit forms only look at low halves. -/
theorem stored_amoResult (op : AmoOp) (word : Bool) (old val : BitVec 64) :
    stored word (amoResult op word old val) = isaStored op word old val := by
  cases word <;> cases op <;>
    simp [stored, amoResult, isaStored, isaAmo, BitVec.sle_eq_decide, BitVec.ule_eq_decide,
      apply_ite (BitVec.setWidth 32)]

theorem setWidth_isaLoaded (raw : BitVec 64) : (isaLoaded true raw).setWidth 32 = raw.setWidth 32 := by
  apply BitVec.eq_of_getLsbD_eq
  intro i hi
  simp [isaLoaded, BitVec.getLsbD_signExtend, hi]
  omega

/-- Sums and bitwise operations may be done on sign-extended words. -/
theorem stored_alu {op : AmoOp} (hop : op = .swap ∨ op = .add ∨ op = .xor ∨ op = .and ∨ op = .or) (word : Bool)
    (raw val : BitVec 64) : stored word (isaAmo op (isaLoaded word raw) val) = isaStored op word raw val := by
  cases word with
  | false => rfl
  | true =>
    have hlow := setWidth_isaLoaded raw
    rcases hop with rfl | rfl | rfl | rfl | rfl
    · rfl
    · simp [stored, isaStored, isaAmo, BitVec.setWidth_add _ _ (show 32 ≤ 64 by decide), hlow]
    all_goals simp [stored, isaStored, isaAmo, hlow]

/-- The conditions that minima and maxima are selected by. -/
def Selects (cond : Cond) : Prop := cond = .lt ∨ cond = .gt ∨ cond = .ltu ∨ cond = .gtu

/-- A word as it is compared: 32-bit forms extend its low half by the kind of the condition. -/
def compared (word : Bool) (cond : Cond) (v : BitVec 64) : BitVec 64 :=
  if word then if cond = .lt ∨ cond = .gt then (v.setWidth 32).signExtend 64 else (v.setWidth 32).setWidth 64 else v

/-- A strict comparison selects the same word: where it differs, both words are equal. -/
theorem select_isaAmo {w : Nat} {cond : Cond} (hcond : Selects cond) (x y : BitVec w) :
    (if condHolds cond x y then x else y) = isaAmo (condAmo cond) x y := by
  have hsigned (h : x.toInt = y.toInt) : x = y := BitVec.eq_of_toInt_eq h
  have hunsigned (h : x.toNat = y.toNat) : x = y := BitVec.eq_of_toNat_eq h
  rcases hcond with rfl | rfl | rfl | rfl <;>
    simp only [condHolds, condAmo, isaAmo, BitVec.slt_eq_decide, BitVec.ult_eq_decide, decide_eq_true_eq] <;>
    grind

theorem condHolds_compared {cond : Cond} (hcond : Selects cond) (x y : BitVec 64) :
    condHolds cond (compared true cond x) (compared true cond y) = condHolds cond (x.setWidth 32) (y.setWidth 32) := by
  have hint (v : BitVec 32) : (v.signExtend 64).toInt = v.toInt := BitVec.toInt_signExtend_of_le (by decide)
  have hnat (v : BitVec 32) : (v.setWidth 64).toNat = v.toNat := BitVec.toNat_setWidth_of_le (by decide)
  rcases hcond with rfl | rfl | rfl | rfl
  · simp [condHolds, compared, BitVec.slt_eq_decide, hint]
  · simp [condHolds, compared, BitVec.slt_eq_decide, hint]
  · simp [condHolds, compared, BitVec.ult_eq_decide, hnat]
  · simp [condHolds, compared, BitVec.ult_eq_decide, hnat]

/-- Minima and maxima may be selected among sign-extended words by the extended comparison. -/
theorem stored_minmax {cond : Cond} (hcond : Selects cond) (word : Bool) (raw val : BitVec 64) :
    stored word (movCond .i64 cond (compared word cond (isaLoaded word raw)) (compared word cond val)
      (isaLoaded word raw) val) = isaStored (condAmo cond) word raw val := by
  have hmove (c1 c2 v1 v2 : BitVec 64) : movCond .i64 cond c1 c2 v1 v2 = if condHolds cond c1 c2 then v1 else v2 := by
    simp [movCond, low, width]
  rw [hmove]
  cases word with
  | false => exact select_isaAmo hcond raw val
  | true =>
    rw [condHolds_compared hcond, setWidth_isaLoaded]
    simp only [stored, isaStored, if_true, apply_ite (BitVec.setWidth 32), setWidth_isaLoaded]
    rw [select_isaAmo hcond]

end Words

/-! ## What the inline sequence does -/

section

variable {W E β : Type} {M : GuestMemory W} {trap fault : E} {other : Sem W E} {s : Session} {σ : State W}
variable {a : ArgsAtomic} {base : Context} {old : TempIdx → BitVec 64} {world : W} {l : List (TempIdx × BitVec 64)}
variable {g : Gen} {σ' : State W} {post : β → Gen → State W → Prop}

theorem Emits.barrier {on : Bool} {bar : Nat} {f : Unit → Builder β} (hk : Knows base old world l g σ')
    (h : ∀ g' σ'', Knows base old world l g' σ'' → Emits (exact trap other) (f ()) g' σ'' post) :
    Emits (exact trap other) ((if on then genMb bar else pure ()) >>= f) g σ' post := by
  cases on with
  | false => exact h g σ' hk
  | true =>
    have hdoes : Does (exact trap other) (instr (.withArgs .mb .i64 [bar])) [] world [] world := Or.inr ⟨rfl, rfl⟩
    have hkeep : ∀ p ∈ l, p ∈ l ∧ p.1 ∉ (Op.withArgs .mb .i64 [bar]).oargs := fun p hp => ⟨hp, List.not_mem_nil⟩
    exact Emits.op hk .nil hdoes (List.forall_mem_nil _) List.nodup_nil hkeep fun g' σ'' _ => h g' σ''

/-- The low half of a word, extended, in a temporary allocated before that of the half. -/
theorem Emits.extendLow {opc : Opcode} {v : TempIdx} {x w : BitVec 64} {f : TempIdx → Builder β}
    (hk : Knows base old world l g σ') (hv : (v, x) ∈ l) (hinfo : opc.info.nbOargs = 1 ∧ opc.info.nbIargs = 1)
    (hw : arith opc .i64 [(x.setWidth 32).setWidth 64] = some w)
    (h : ∀ t g' σ'', Knows base old world ((t, w) :: l) g' σ'' → Emits (exact trap other) (f t) g' σ'' post) :
    Emits (exact trap other) (newTemp .i64 >>= fun t => newTemp .i32 >>= fun t32 => genExtrlI64I32 t32 v >>= fun _ =>
      emitUnary opc .i64 t t32 >>= fun _ => f t) g σ' post := by
  apply Emits.newTemp hk
  intro t g1 _ ht hfresh hk1
  apply Emits.freshArith hk1 (.cons (.tail _ hv) .nil) ⟨rfl, rfl⟩ (arith_extrl x)
  intro t32 g2 σ2 hext2 _ _ hk2
  have hin : List.Forall₂ (fun d y => (d, y) ∈ (t32, (x.setWidth 32).setWidth 64) :: (t, σ'.vals t) :: l)
      (Op.withArgs opc .i64 [t, t32]).iargs [(x.setWidth 32).setWidth 64] := by
    simp [Op.iargs, Op.withArgs, hinfo]
  have hout : (Op.withArgs opc .i64 [t, t32]).oargs = [t] := by simp [Op.oargs, Op.withArgs, hinfo]
  have hlocal : ∀ d ∈ (Op.withArgs opc .i64 [t, t32]).oargs, Local base g2.ctx d := by
    rw [hout]
    exact fun d hd => List.mem_singleton.mp hd ▸ ht.extend hext2
  have hnodup : (Op.withArgs opc .i64 [t, t32]).oargs.Nodup := by
    rw [hout]
    exact List.nodup_singleton t
  have hkeep : ∀ p ∈ l, p ∈ (t32, (x.setWidth 32).setWidth 64) :: (t, σ'.vals t) :: l ∧
      p.1 ∉ (Op.withArgs opc .i64 [t, t32]).oargs := by
    intro p hp
    rw [hout]
    exact ⟨.tail _ (.tail _ hp), fun hmem => hfresh p hp (List.mem_singleton.mp hmem)⟩
  apply Emits.op hk2 hin (Or.inl ⟨w, hw, rfl, rfl⟩) hlocal hnodup hkeep
  intro g3 σ3 _ hk3
  rw [hout] at hk3
  exact h t g3 σ3 hk3

/-- The memory operation of an atomic instruction. -/
def memopOf (word : Bool) : Nat := if word then memSl else memUq

theorem memopBytes_memopOf (word : Bool) : memopBytes (memopOf word) = wordSize word := by cases word <;> rfl

theorem memopExtend_memopOf (word : Bool) (v : BitVec 64) : memopExtend (memopOf word) v = isaLoaded word v := by
  have hbits : 8 * (memopBytes (memopOf true)).toNat = 32 := by decide
  cases word with
  | false =>
    rw [memopExtend, if_neg (show ¬ (memopOf false).testBit 2 = true by decide), isaLoaded, if_neg Bool.false_ne_true]
  | true =>
    rw [memopExtend, if_pos (show (memopOf true).testBit 2 = true by decide), isaLoaded, if_pos rfl, hbits]

theorem leaves_stored (mem : Mem) (pa v : BitVec 64) (word : Bool) :
    Leaves mem (write mem pa (accessBytes (wordSize word)) v) pa (accessBytes (wordSize word)) (stored word v) := by
  cases word with
  | false =>
    have h := leaves_write mem pa v (show 8 ≤ 8 by decide)
    rw [BitVec.setWidth_eq, BitVec.setWidth_eq] at h
    exact h
  | true => exact leaves_write mem pa v (show 4 ≤ 8 by decide)

variable (M s σ a) in
/-- The instruction is translated; its code leaves the prescribed word at the physical address,
the old word in the destination register, and everything else as before. -/
def AmoDone (op : AmoOp) (word : Bool) (pa : BitVec 64) (done : Bool) (g : Gen) (σ' : State W) : Prop :=
  let n := accessBytes (wordSize word)
  let raw := read (M.mem σ.world) pa n
  s.Sets σ a.rd (isaLoaded word raw) σ'.world done g σ' ∧
    Leaves (M.mem σ.world) (M.mem σ'.world) pa n (isaStored op word raw (s.reg σ a.rs2))

/-- The first statements, up to the operands. -/
theorem Emits.amoHead {word : Bool} {pa : BitVec 64} {viaHelper : TempIdx → Builder β}
    {rest : TempIdx → TempIdx → TempIdx → Builder β} (hinline : s.tr.amoHelper = 0#64)
    (hserves : M.Serves σ.world (s.reg σ a.rs1) (wordSize word) pa)
    (h : ∀ addr old src2 w1 g' σ', s.Knows σ w1 [(src2, s.reg σ a.rs2),
        (old, isaLoaded word (read (M.mem σ.world) pa (accessBytes (wordSize word)))), (addr, s.reg σ a.rs1)] g' σ' →
      (∀ val, ∃ w2, M.store w1 (s.reg σ a.rs1) val (wordSize word) = (w2, true) ∧
        M.mem w2 = write (M.mem σ.world) pa (accessBytes (wordSize word)) val) →
      Emits (exact trap (guest M fault other)) (rest addr old src2) g' σ' post) :
    Emits (exact trap (guest M fault other)) (gprOrZero s.tr a.rs1 >>= fun addr => genRelease a >>= fun _ =>
      if s.tr.amoHelper ≠ 0#64 then viaHelper addr else
        newTemp .i64 >>= fun old => genQemuLd .i64 old addr (memopOf word) >>= fun _ =>
          gprOrZero s.tr a.rs2 >>= fun src2 => rest addr old src2) s.ir σ post := by
  obtain ⟨w1, hload, hstore⟩ := hserves
  apply Emits.gprOrZero (Knows.start s.consts σ)
  intro addr g1 hk1
  apply Emits.barrier hk1
  intro g2 σ2 hk2
  rw [if_neg (not_not_intro hinline)]
  rw [← memopBytes_memopOf] at hload
  apply Emits.genQemuLd hk2 (.head _) hload
  intro old g3 σ3 hk3
  rw [memopExtend_memopOf, memopBytes_memopOf] at hk3
  apply Emits.gprOrZero hk3
  intro src2 g4 hk4
  exact h addr old src2 w1 g4 σ3 hk4 hstore

/-- The last statements: the store and the destination register. -/
theorem Emits.amoTail {op : AmoOp} {word : Bool} {pa v : BitVec 64} {addr new oldT : TempIdx} {w1 : W}
    (hk : s.Knows σ w1 l g σ') (haddr : (addr, s.reg σ a.rs1) ∈ l)
    (hold : (oldT, isaLoaded word (read (M.mem σ.world) pa (accessBytes (wordSize word)))) ∈ l) (hnew : (new, v) ∈ l)
    (hstore : ∀ val, ∃ w2, M.store w1 (s.reg σ a.rs1) val (wordSize word) = (w2, true) ∧
      M.mem w2 = write (M.mem σ.world) pa (accessBytes (wordSize word)) val) (hv : stored word v =
      isaStored op word (read (M.mem σ.world) pa (accessBytes (wordSize word))) (s.reg σ a.rs2)) :
    Emits (exact trap (guest M fault other)) (genQemuSt .i64 new addr (memopOf word) >>= fun _ =>
      genAcquire a >>= fun _ => genSetGpr s.tr a.rd oldT >>= fun _ => pure true) g σ'
      (AmoDone M s σ a op word pa) := by
  obtain ⟨w2, hst, hmem⟩ := hstore v
  rw [← memopBytes_memopOf] at hst
  apply Emits.genQemuSt hk hnew haddr hst
  intro g1 σ1 hk1
  apply Emits.barrier hk1
  intro g2 σ2 hk2
  have hset : Emits (exact trap (guest M fault other)) (genSetGpr s.tr a.rd oldT >>= fun _ => pure true) g2 σ2
      (s.Sets σ a.rd (isaLoaded word (read (M.mem σ.world) pa (accessBytes (wordSize word)))) w2) :=
    Emits.genSetGpr hk2 hold
  apply hset.imp
  intro done g3 σ3 hsets
  refine ⟨hsets.2.1 ▸ hsets, ?_⟩
  rw [hsets.2.1, hmem, ← hv]
  exact leaves_stored _ _ _ _

variable (M fault other trap s σ a) in
theorem emits_genAmoSwap {word : Bool} {pa : BitVec 64} (hinline : s.tr.amoHelper = 0#64)
    (hserves : M.Serves σ.world (s.reg σ a.rs1) (wordSize word) pa) :
    Emits (exact trap (guest M fault other)) (genAmoSwap s.tr a (memopOf word)) s.ir σ
      (AmoDone M s σ a .swap word pa) := by
  apply Emits.amoHead hinline hserves
  intro addr old src2 w1 g' σ' hk hstore
  exact Emits.amoTail hk (.tail _ (.tail _ (.head _))) (.tail _ (.head _)) (.head _) hstore
    (stored_alu (.inl rfl) word _ _)

variable (M fault other trap s σ a) in
theorem emits_genAmo {op : AmoOp} (hop : op = .add ∨ op = .xor ∨ op = .and ∨ op = .or) {word : Bool} {pa : BitVec 64}
    (hinline : s.tr.amoHelper = 0#64) (hserves : M.Serves σ.world (s.reg σ a.rs1) (wordSize word) pa) :
    Emits (exact trap (guest M fault other)) (genAmo s.tr a op (memopOf word)) s.ir σ
    (AmoDone M s σ a op word pa) := by
  apply Emits.amoHead hinline hserves
  intro addr old src2 w1 g' σ' hk hstore
  have halu := stored_alu (.inr hop) word (read (M.mem σ.world) pa (accessBytes (wordSize word))) (s.reg σ a.rs2)
  rcases hop with rfl | rfl | rfl | rfl
  all_goals
    apply Emits.freshArith hk (.cons (.tail _ (.head _)) (.cons (.head _) .nil)) ⟨rfl, rfl⟩ (arith_i64 rfl)
    intro new g'' σ'' _ _ _ hk'
    exact Emits.amoTail hk' (.tail _ (.tail _ (.tail _ (.head _)))) (.tail _ (.tail _ (.head _))) (.head _) hstore halu

theorem arith_ext (opc : Opcode) (hopc : opc = .extI32I64 ∨ opc = .extUI32I64) (x : BitVec 64) :
    arith opc .i64 [(x.setWidth 32).setWidth 64] =
      some (if opc = .extI32I64 then (x.setWidth 32).signExtend 64 else (x.setWidth 32).setWidth 64) := by
  rcases hopc with rfl | rfl <;> simp [arith, unOp, extOp, low, width]

theorem Emits.genCmpSrc2 {cond : Cond} {word : Bool} {src2 : TempIdx} {x : BitVec 64}
    {f : TempIdx → Builder β} (hk : Knows base old world l g σ') (hv : (src2, x) ∈ l)
    (h : ∀ t g' σ'', Knows base old world ((t, compared word cond x) :: l) g' σ'' →
      Emits (exact trap other) (f t) g' σ'' post) :
    Emits (exact trap other) (genCmpSrc2 cond (memopOf word) src2 >>= f) g σ' post := by
  rw [MachinaRva.genCmpSrc2, memopBytes_memopOf]
  cases word with
  | false => exact h src2 g σ' (hk.cons (hk.listed _ hv).1 (hk.listed _ hv).2)
  | true =>
    rw [if_pos (show wordSize true = 4#64 from rfl)]
    simp only [bind_assoc]
    by_cases hsigned : cond = .lt ∨ cond = .gt
    · simp only [if_pos hsigned, compared, if_true] at h ⊢
      exact Emits.extendLow hk hv ⟨rfl, rfl⟩ (arith_ext .extI32I64 (.inl rfl) x) h
    · simp only [if_neg hsigned, compared, if_true] at h ⊢
      exact Emits.extendLow hk hv ⟨rfl, rfl⟩ (arith_ext .extUI32I64 (.inr rfl) x) h

theorem compared_isaLoaded {cond : Cond} (hsigned : cond = .lt ∨ cond = .gt) (raw : BitVec 64) :
    compared true cond (isaLoaded true raw) = isaLoaded true raw := by
  rw [compared, if_pos rfl, if_pos hsigned, setWidth_isaLoaded]
  rfl

theorem Emits.genCmpOld {cond : Cond} (hcond : Selects cond) {word : Bool} {oldT : TempIdx} {raw : BitVec 64}
    {f : TempIdx → Builder β} (hk : Knows base old world l g σ') (hv : (oldT, isaLoaded word raw) ∈ l)
    (h : ∀ t g' σ'', Knows base old world ((t, compared word cond (isaLoaded word raw)) :: l) g' σ'' →
      Emits (exact trap other) (f t) g' σ'' post) :
    Emits (exact trap other) (genCmpOld cond (memopOf word) oldT >>= f) g σ' post := by
  have hkeep := hk.cons (hk.listed _ hv).1 (hk.listed _ hv).2
  rw [MachinaRva.genCmpOld, memopBytes_memopOf]
  cases word with
  | false =>
    rw [if_neg (fun hword => absurd hword.1 (by decide))]
    exact h oldT g σ' hkeep
  | true =>
    by_cases hsigned : cond = .lt ∨ cond = .gt
    · have hnot : ¬ (wordSize true = 4#64 ∧ (cond = .ltu ∨ cond = .gtu)) := by
        rcases hsigned with rfl | rfl <;> simp
      rw [if_neg hnot]
      rw [compared_isaLoaded hsigned] at h
      exact h oldT g σ' hkeep
    · have hunsigned : cond = .ltu ∨ cond = .gtu := by
        rcases hcond with rfl | rfl | hrest
        · exact absurd (.inl rfl) hsigned
        · exact absurd (.inr rfl) hsigned
        · exact hrest
      rw [if_pos ⟨rfl, hunsigned⟩]
      simp only [bind_assoc, pure_bind]
      simp only [compared, if_true, if_neg hsigned] at h
      exact Emits.extendLow hk hv ⟨rfl, rfl⟩ (arith_ext .extUI32I64 (.inr rfl) _) h

variable (M fault other trap s σ a) in
theorem emits_genAmoMinmax {cond : Cond} (hcond : Selects cond) {word : Bool} {pa : BitVec 64}
    (hinline : s.tr.amoHelper = 0#64) (hserves : M.Serves σ.world (s.reg σ a.rs1) (wordSize word) pa) :
    Emits (exact trap (guest M fault other)) (genAmoMinmax s.tr a cond (memopOf word)) s.ir σ
      (AmoDone M s σ a (condAmo cond) word pa) := by
  apply Emits.amoHead hinline hserves
  intro addr oldT src2 w1 g1 σ1 hk1 hstore
  apply Emits.genCmpSrc2 hk1 (.head _)
  intro cmpSrc2 g2 σ2 hk2
  apply Emits.genCmpOld hcond hk2 (.tail _ (.tail _ (.head _)))
  intro cmpOld g3 σ3 hk3
  apply Emits.genMovcond hk3 (.head _) (.tail _ (.head _)) (.tail _ (.tail _ (.tail _ (.head _))))
    (.tail _ (.tail _ (.head _)))
  intro new g4 σ4 hk4
  refine Emits.amoTail hk4 ?_ ?_ (.head _) hstore (stored_minmax hcond word _ _)
  · exact .tail _ (.tail _ (.tail _ (.tail _ (.tail _ (.head _)))))
  · exact .tail _ (.tail _ (.tail _ (.tail _ (.head _))))

variable (M fault other trap s σ a) in
/-- The inline sequence of every atomic memory operation, over any guest memory. -/
theorem emits_translateAmo (op : AmoOp) {word : Bool} {pa : BitVec 64} (hA : s.tr.contains misaA = true)
    (hinline : s.tr.amoHelper = 0#64) (hserves : M.Serves σ.world (s.reg σ a.rs1) (wordSize word) pa) :
    Emits (exact trap (guest M fault other)) (translateAmo s.tr a word op) s.ir σ (AmoDone M s σ a op word pa) := by
  have hswap := emits_genAmoSwap M trap fault other s σ a hinline hserves
  have halu {op : AmoOp} (hop : op = .add ∨ op = .xor ∨ op = .and ∨ op = .or) :=
    emits_genAmo M trap fault other s σ a hop hinline hserves
  have hminmax {cond : Cond} (hcond : Selects cond) :=
    emits_genAmoMinmax M trap fault other s σ a hcond hinline hserves
  cases word <;> cases op
  case false.swap | true.swap => exact Emits.requireExt hA hswap
  case false.add | true.add => exact Emits.requireExt hA (halu (.inl rfl))
  case false.xor | true.xor => exact Emits.requireExt hA (halu (.inr (.inl rfl)))
  case false.and | true.and => exact Emits.requireExt hA (halu (.inr (.inr (.inl rfl))))
  case false.or | true.or => exact Emits.requireExt hA (halu (.inr (.inr (.inr rfl))))
  case false.min | true.min => exact Emits.requireExt hA (hminmax (.inl rfl))
  case false.max | true.max => exact Emits.requireExt hA (hminmax (.inr (.inl rfl)))
  case false.minu | true.minu => exact Emits.requireExt hA (hminmax (.inr (.inr (.inl rfl))))
  case false.maxu | true.maxu => exact Emits.requireExt hA (hminmax (.inr (.inr (.inr rfl))))

variable {E : Type} (trap fault : E) (other : Sem Mem E) (s : Session) (σ : State Mem) (a : ArgsAtomic) in
/-- Without an MMU the inline sequence works on the bytes at the address itself. -/
theorem emits_translateAmo_flat (op : AmoOp) (word : Bool) (hA : s.tr.contains misaA = true)
    (hinline : s.tr.amoHelper = 0#64) :
    Emits (exact trap (guest flatMemory fault other)) (translateAmo s.tr a word op) s.ir σ
      (AmoDone flatMemory s σ a op word (s.reg σ a.rs1)) :=
  emits_translateAmo flatMemory trap fault other s σ a op hA hinline (flatMemory_serves ..)

/-- `amoadd.d x5, x6, (x7)`. -/
theorem emits_amoadd_flat :
    let s := Session.init misaA 0#64 0#64 0#64 0#64
    let σ : State Mem := ⟨fun _ => 3#64, fun _ => 1#8, []⟩
    Emits (exact () (guest flatMemory () fun _ _ mem => (⟨[], mem, none⟩ : Effect Mem Unit)))
      (transAmoaddD s.tr ⟨false, false, 6, 7, 5⟩) s.ir σ
      (AmoDone flatMemory s σ ⟨false, false, 6, 7, 5⟩ .add false 3#64) :=
  emits_translateAmo_flat () () _ (Session.init misaA 0#64 0#64 0#64 0#64) _ _ .add false (by decide) rfl

end

/-! ## The helper -/

theorem accessBytes_wordSize (word : Bool) : accessBytes (wordSize word) ≤ 8 := by cases word <;> decide

/-- The helper at a naturally aligned word of RAM. -/
theorem machinaAmoOp_leaves {sys : FullSystemCpu} {gva pa : BitVec 64} {word : Bool}
    (hram : RamWord sys gva (wordSize word) pa) (haligned : gva &&& (wordSize word - 1#64) = 0#64) (op : AmoOp)
    (val : BitVec 64) : (sys.machinaAmoOp gva val (wordSize word) (some op)).2 =
        some (isaLoaded word (read sys.mem pa (accessBytes (wordSize word)))) ∧
      Leaves sys.mem (sys.machinaAmoOp gva val (wordSize word) (some op)).1.mem pa (accessBytes (wordSize word))
        (isaStored op word (read sys.mem pa (accessBytes (wordSize word))) val) := by
  obtain ⟨sys', ht, hmem⟩ := hram.translates .write (by decide)
  have hbacked := (hram.translated ht hmem).backed
  have hsize : ¬ (wordSize word ≠ 4#64 ∧ wordSize word ≠ 8#64) := by cases word <;> decide
  have hword : decide (wordSize word = 4#64) = word := by cases word <;> rfl
  have hread : sys'.readAtomic pa (wordSize word) =
      isaLoaded word (read sys'.mem pa (accessBytes (wordSize word))) := by
    cases word <;> simp [FullSystemCpu.readAtomic, FullSystemCpu.readPhysSized, isaLoaded, wordSize]
  unfold FullSystemCpu.machinaAmoOp
  rw [if_neg hsize, if_neg (not_not_intro haligned), ht]
  simp only [hbacked, Bool.true_eq_false, if_false, hword, hread, FullSystemCpu.readPhysSized,
    FullSystemCpu.writePhysSized, hmem]
  refine ⟨trivial, ?_⟩
  rw [← stored_amoResult]
  exact leaves_stored _ _ _ _

section Agree

variable {E : Type} (trap fault : E) (other : Sem FullSystemCpu E) (s : Session) (σ : State FullSystemCpu)
  (a : ArgsAtomic)

/-- At every naturally aligned word of RAM the inline sequence and the helper leave the same
memory and the same word for the destination, those of the instruction set. -/
theorem amo_inline_agrees_with_helper (op : AmoOp) (word : Bool) (pa : BitVec 64) (hA : s.tr.contains misaA = true)
    (hinline : s.tr.amoHelper = 0#64) (haligned : s.reg σ a.rs1 &&& (wordSize word - 1#64) = 0#64)
    (hram : RamWord σ.world (s.reg σ a.rs1) (wordSize word) pa) :
    let raw := read σ.world.mem pa (accessBytes (wordSize word))
    let helper := σ.world.machinaAmoOp (s.reg σ a.rs1) (s.reg σ a.rs2) (wordSize word) (some op)
    Emits (exact trap (guest softMmu fault other)) (translateAmo s.tr a word op) s.ir σ (fun done g σ' =>
        s.Sets σ a.rd (isaLoaded word raw) σ'.world done g σ' ∧ σ'.world.mem = helper.1.mem) ∧
      helper.2 = some (isaLoaded word raw) ∧
      Leaves σ.world.mem helper.1.mem pa (accessBytes (wordSize word)) (isaStored op word raw (s.reg σ a.rs2)) := by
  intro raw helper
  obtain ⟨hresult, hleaves⟩ := machinaAmoOp_leaves hram haligned op (s.reg σ a.rs2)
  refine ⟨?_, hresult, hleaves⟩
  apply (emits_translateAmo softMmu trap fault other s σ a op hA hinline hram.serves).imp
  intro done g σ' hdone
  exact ⟨hdone.1, hdone.2.unique (accessBytes_wordSize word) hleaves⟩

/-- `amomaxu.w x5, x6, (x7)` in machine mode. -/
theorem amomaxu_word_at_reset :
    let s := Session.init misaA 0x80000000#64 0#64 0#64 0#64
    let σ : State FullSystemCpu := ⟨fun t => if t = 8 then 0x80001000#64 else 0xFFFFFFFF#64,
      ramSystem fun _ => 1#8, []⟩
    let helper := σ.world.machinaAmoOp 0x80001000#64 0xFFFFFFFF#64 4#64 (some .maxu)
    Emits (exact () (guest softMmu () fun _ _ world => (⟨[], world, none⟩ : Effect FullSystemCpu Unit)))
        (transAmomaxuW s.tr ⟨false, false, 6, 7, 5⟩) s.ir σ (fun done g σ' =>
          s.Sets σ 5 0x1010101#64 σ'.world done g σ' ∧ σ'.world.mem = helper.1.mem) ∧
      helper.2 = some 0x1010101#64 ∧ Leaves σ.world.mem helper.1.mem 0x80001000#64 4 0xFFFFFFFF#64 :=
  amo_inline_agrees_with_helper () () _ (Session.init misaA 0x80000000#64 0#64 0#64 0#64) _
    ⟨false, false, 6, 7, 5⟩ .maxu true 0x80001000#64 (by decide) rfl (by decide +kernel)
    (ramWord_ramSystem _ (by decide) (by decide))

end Agree

end MachinaRva
