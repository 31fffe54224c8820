import Machina.Ir

/-!
# Liveness analysis

One backward walk over the operations. It keeps the set of live temporaries and
notes in each operation which arguments are dead after it and which globals have to
be stored before they die. The notes are packed, two bits for each argument.
-/

namespace MachinaLiveness

open MachinaBits MachinaIr

section LifeData

def deadArg (n : Nat) : BitVec 32 := bit (n * 2)
def syncArg (n : Nat) : BitVec 32 := bit (n * 2 + 1)
section

variable (life : BitVec 32)

def isDead (n : Nat) : Bool := has life (deadArg n)
def isSync (n : Nat) : Bool := has life (syncArg n)
def setDead (n : Nat) : BitVec 32 := life ||| deadArg n
def setSync (n : Nat) : BitVec 32 := life ||| syncArg n

/-- The packed notes as the allocator reads them. -/
def lifeData : LifeData := ⟨isDead life, isSync life⟩

end

variable (life : BitVec 32) (m : Nat) {n : Nat}

theorem isDead_eq (hn : n < 16) : isDead life n = life.getLsbD (n * 2) := has_bit life (by omega)

theorem isSync_eq (hn : n < 16) : isSync life n = life.getLsbD (n * 2 + 1) := has_bit life (by omega)

theorem isDead_setDead (hn : n < 16) : isDead (setDead life m) n = (isDead life n || decide (n = m)) := by
  rw [isDead_eq _ hn, isDead_eq _ hn, setDead, deadArg, BitVec.getLsbD_or, getLsbD_bit]
  by_cases h : n = m
  · subst h
    simp [show n * 2 < 32 by omega]
  · simp [h, show ¬m * 2 = n * 2 by omega]

theorem isDead_setSync (hn : n < 16) : isDead (setSync life m) n = isDead life n := by
  rw [isDead_eq _ hn, isDead_eq _ hn, setSync, syncArg, BitVec.getLsbD_or, getLsbD_bit]
  simp [show ¬m * 2 + 1 = n * 2 by omega]

theorem isSync_setSync (hn : n < 16) : isSync (setSync life m) n = (isSync life n || decide (n = m)) := by
  rw [isSync_eq _ hn, isSync_eq _ hn, setSync, syncArg, BitVec.getLsbD_or, getLsbD_bit]
  by_cases h : n = m
  · subst h
    simp [show n * 2 + 1 < 32 by omega]
  · simp [h, Ne.symm h]

theorem isSync_setDead (hn : n < 16) : isSync (setDead life m) n = isSync life n := by
  rw [isSync_eq _ hn, isSync_eq _ hn, setDead, deadArg, BitVec.getLsbD_or, getLsbD_bit]
  simp [show ¬m * 2 = n * 2 + 1 by omega]

@[simp] theorem isDead_zero (n : Nat) : isDead 0#32 n = false := by
  simp [isDead, has]

end LifeData

section Walk

variable (ctx : Context)

/-- The walk's state inside one operation: the live temporaries and the notes so far. -/
abbrev Marks := (TempIdx → Bool) × BitVec 32

def liveGlobals (live : TempIdx → Bool) : TempIdx → Bool := fun t => decide (t < ctx.nbGlobals) || live t

def outputArg (op : Op) (s : Marks) (i : Nat) : Marks :=
  let t := op.args i
  let life := if t < ctx.nbTemps ∧ s.1 t = false then setDead s.2 i else s.2
  let live := if t < ctx.nbTemps then Function.update s.1 t false else s.1
  (live, life)

def inputArg (op : Op) (s : Marks) (i : Nat) : Marks :=
  let argPos := op.opc.info.nbOargs + i
  let t := op.args argPos
  if ctx.nbTemps ≤ t then s
  else
    let life :=
      if s.1 t = false then
        -- Last use; a global needs a sync before it dies.
        if (ctx.temps t).kind = .global then setSync (setDead s.2 argPos) argPos else setDead s.2 argPos
      else s.2
    (Function.update s.1 t true, life)

/-- The live temporaries at an operation, after the end of a block made all globals live. -/
def atOp (op : Op) (live : TempIdx → Bool) : TempIdx → Bool :=
  if op.opc.info.contains .bbEnd then liveGlobals ctx live else live

/-- One operation, given what is live after it. -/
def livenessOp (op : Op) (live : TempIdx → Bool) : (TempIdx → Bool) × Op :=
  let live := atOp ctx op live
  if op.opc = .nop ∨ op.opc = .insnStart then (live, op)
  else
    let s := (List.range op.opc.info.nbOargs).foldl (outputArg ctx op) (live, 0#32)
    let s := (List.range op.opc.info.nbIargs).foldl (inputArg ctx op) s
    (s.1, { op with life := lifeData s.2 })

/-- The walk from the end of the list. -/
def livenessOps : List Op → (TempIdx → Bool) × List Op
  | [] => (liveGlobals ctx fun _ => false, [])
  | op :: rest =>
    let r := livenessOps rest
    let r' := livenessOp ctx op r.1
    (r'.1, r'.2 :: r.2)

def livenessAnalysis (ops : List Op) : List Op := (livenessOps ctx ops).2

end Walk

section Args

variable {ctx : Context} {op : Op}

/-- The temporaries of the first `n` arguments from a position on. -/
def firstArgs (op : Op) (start n : Nat) : List TempIdx := (List.range n).map fun i => op.args (start + i)

theorem firstArgs_succ (op : Op) (start n : Nat) :
    firstArgs op start (n + 1) = firstArgs op start n ++ [op.args (start + n)] := by
  simp [firstArgs, List.range_succ]

theorem oargs_eq (op : Op) : op.oargs = firstArgs op 0 op.opc.info.nbOargs := by
  simp [Op.oargs, firstArgs]

theorem iargs_eq (op : Op) : op.iargs = firstArgs op op.opc.info.nbOargs op.opc.info.nbIargs := rfl

theorem and_decide_not_eq_false {b : Bool} {p : Prop} [Decidable p] : (b && decide ¬p) = false ↔ b = false ∨ p := by
  cases b <;> simp

theorem outputArg_live (s : Marks) (i : Nat) {t : TempIdx} (ht : t < ctx.nbTemps) :
    (outputArg ctx op s i).1 t = (s.1 t && decide (t ≠ op.args i)) := by
  simp only [outputArg]
  by_cases heq : t = op.args i
  · subst heq
    rw [if_pos ht]
    simp
  split_ifs
  · rw [Function.update_of_ne heq]
    simp [heq]
  · simp [heq]

theorem outputArg_dead (s : Marks) (i : Nat) {k : Nat} (hk : k < 16) : isDead (outputArg ctx op s i).2 k = true ↔
      isDead s.2 k = true ∨ (k = i ∧ op.args k < ctx.nbTemps ∧ s.1 (op.args k) = false) := by
  simp only [outputArg]
  split_ifs with h
  · rw [isDead_setDead _ _ hk, Bool.or_eq_true, decide_eq_true_iff]
    constructor
    · rintro (hd | rfl)
      · exact .inl hd
      · exact .inr ⟨rfl, h⟩
    · rintro (hd | ⟨rfl, -⟩)
      · exact .inl hd
      · exact .inr rfl
  · constructor
    · exact .inl
    · rintro (hd | ⟨rfl, hnew⟩)
      · exact hd
      · exact absurd hnew h

/-- The outputs kill what was live and are dead when nothing was. -/
theorem foldl_outputArg (live : TempIdx → Bool) (n : Nat) :
    let s := (List.range n).foldl (outputArg ctx op) (live, 0#32)
    (∀ t < ctx.nbTemps, s.1 t = (live t && decide (t ∉ firstArgs op 0 n))) ∧
    (∀ k < 16, isDead s.2 k = true ↔ k < n ∧ op.args k < ctx.nbTemps ∧
      (live (op.args k) = false ∨ op.args k ∈ firstArgs op 0 k)) := by
  induction n with
  | zero => simp [firstArgs]
  | succ n ih =>
    obtain ⟨ihLive, ihDead⟩ := ih
    simp only [List.range_succ, List.foldl_append, List.foldl_cons, List.foldl_nil]
    refine ⟨?_, ?_⟩
    · intro t ht
      rw [outputArg_live _ _ ht, ihLive t ht, firstArgs_succ, Nat.zero_add, Bool.and_assoc]
      simp
    · intro k hk
      rw [outputArg_dead _ _ hk, ihDead k hk]
      constructor
      · rintro (⟨hlt, h⟩ | ⟨rfl, ht, hlive⟩)
        · exact ⟨by omega, h⟩
        · rw [ihLive _ ht] at hlive
          exact ⟨by omega, ht, and_decide_not_eq_false.mp hlive⟩
      · rintro ⟨hlt, ht, h⟩
        by_cases hkn : k = n
        · subst hkn
          refine .inr ⟨rfl, ht, ?_⟩
          rw [ihLive _ ht]
          exact and_decide_not_eq_false.mpr h
        · exact .inl ⟨by omega, ht, h⟩

theorem inputArg_live (s : Marks) (i : Nat) {t : TempIdx} (ht : t < ctx.nbTemps) :
    (inputArg ctx op s i).1 t = (s.1 t || decide (t = op.args (op.opc.info.nbOargs + i))) := by
  simp only [inputArg]
  by_cases heq : t = op.args (op.opc.info.nbOargs + i)
  · subst heq
    rw [if_neg (Nat.not_le_of_lt ht)]
    simp
  by_cases hn : ctx.nbTemps ≤ op.args (op.opc.info.nbOargs + i)
  · rw [if_pos hn]
    simp [heq]
  · rw [if_neg hn]
    simp [heq]

theorem inputArg_dead (s : Marks) (i : Nat) {k : Nat} (hk : k < 16) : isDead (inputArg ctx op s i).2 k = true ↔
      isDead s.2 k = true ∨ (k = op.opc.info.nbOargs + i ∧ op.args k < ctx.nbTemps ∧ s.1 (op.args k) = false) := by
  simp only [inputArg]
  split_ifs with ht hlive hkind
  · constructor
    · exact .inl
    · rintro (hd | ⟨rfl, hlt, -⟩)
      · exact hd
      · exact absurd ht (Nat.not_le_of_lt hlt)
  · rw [isDead_setSync _ _ hk, isDead_setDead _ _ hk, Bool.or_eq_true, decide_eq_true_iff]
    refine or_congr_right ⟨?_, And.left⟩
    rintro rfl
    exact ⟨rfl, Nat.lt_of_not_le ht, hlive⟩
  · rw [isDead_setDead _ _ hk, Bool.or_eq_true, decide_eq_true_iff]
    refine or_congr_right ⟨?_, And.left⟩
    rintro rfl
    exact ⟨rfl, Nat.lt_of_not_le ht, hlive⟩
  · constructor
    · exact .inl
    · rintro (hd | ⟨rfl, -, hdead⟩)
      · exact hd
      · exact absurd hdead hlive

/-- A global input that dies gets its sync note, and no note is taken back. -/
theorem inputArg_sync (ctx : Context) (op : Op) (s : Marks) (i : Nat) {k : Nat} (hk : k < 16) :
    (isSync s.2 k = true → isSync (inputArg ctx op s i).2 k = true) ∧
    (k = op.opc.info.nbOargs + i → op.args k < ctx.nbTemps → s.1 (op.args k) = false →
      (ctx.temps (op.args k)).kind = .global → isSync (inputArg ctx op s i).2 k = true) := by
  simp only [inputArg]
  split_ifs with ht hlive hkind
  · exact ⟨id, fun hki hlt => absurd (hki ▸ ht) (Nat.not_le_of_lt hlt)⟩
  · rw [isSync_setSync _ _ hk, isSync_setDead _ _ hk]
    exact ⟨fun h => by simp [h], fun h _ _ _ => by simp [h]⟩
  · rw [isSync_setDead _ _ hk]
    exact ⟨id, fun hki _ _ hglobal => absurd (hki ▸ hglobal) hkind⟩
  · exact ⟨id, fun hki _ hdead => absurd (hki ▸ hdead) hlive⟩

/-- The inputs become live; an input is dead when it was not live before and no earlier input is the
same temporary. -/
theorem foldl_inputArg (s0 : Marks) (n : Nat) :
    let s := (List.range n).foldl (inputArg ctx op) s0
    let start := op.opc.info.nbOargs
    (∀ t < ctx.nbTemps, s.1 t = (s0.1 t || decide (t ∈ firstArgs op start n))) ∧
    (∀ k < 16, isDead s.2 k = true ↔ isDead s0.2 k = true ∨
      ∃ i < n, k = start + i ∧ op.args k < ctx.nbTemps ∧ s0.1 (op.args k) = false ∧
        op.args k ∉ firstArgs op start i) ∧
    (∀ k < 16, isDead s.2 k = true → isDead s0.2 k = true ∨
      ((ctx.temps (op.args k)).kind = .global → isSync s.2 k = true)) := by
  induction n with
  | zero => simp +contextual [firstArgs]
  | succ n ih =>
    obtain ⟨ihLive, ihDead, ihSync⟩ := ih
    simp only [List.range_succ, List.foldl_append, List.foldl_cons, List.foldl_nil]
    refine ⟨?_, ?_, ?_⟩
    · intro t ht
      rw [inputArg_live _ _ ht, ihLive t ht, firstArgs_succ, Bool.or_assoc]
      simp
    · intro k hk
      rw [inputArg_dead _ _ hk, ihDead k hk, or_assoc]
      refine or_congr_right ?_
      constructor
      · rintro (⟨i, hi, h⟩ | ⟨rfl, ht, hlive⟩)
        · exact ⟨i, by omega, h⟩
        · rw [ihLive _ ht] at hlive
          exact ⟨n, by omega, rfl, ht, by simpa using hlive⟩
      · rintro ⟨i, hi, hki, ht, hlive⟩
        by_cases hin : i = n
        · subst hin
          refine .inr ⟨hki, ht, ?_⟩
          rw [ihLive _ ht]
          simpa using hlive
        · exact .inl ⟨i, by omega, hki, ht, hlive⟩
    · intro k hk hdead
      obtain ⟨hkeep, hnew⟩ := inputArg_sync ctx op ((List.range n).foldl (inputArg ctx op) s0) n hk
      rcases (inputArg_dead _ _ hk).mp hdead with hold | ⟨hki, ht, hlive⟩
      · exact (ihSync k hk hold).imp_right fun h hglobal => hkeep (h hglobal)
      · exact .inr (hnew hki ht hlive)

theorem nbArgs_lt (opc : Opcode) : opc.info.nbOargs + opc.info.nbIargs < 16 := by
  cases opc <;> decide

/-- Operations that are skipped have no arguments. -/
theorem nbArgs_of_skipped {opc : Opcode} (h : opc = .nop ∨ opc = .insnStart) :
    opc.info.nbOargs = 0 ∧ opc.info.nbIargs = 0 := by
  rcases h with rfl | rfl <;> decide

end Args

section Op

variable (ctx : Context) (op : Op) (live : TempIdx → Bool)

theorem livenessOp_live {t : TempIdx} (ht : t < ctx.nbTemps) :
    (livenessOp ctx op live).1 t = (atOp ctx op live t && decide (t ∉ op.oargs) || decide (t ∈ op.iargs)) := by
  unfold livenessOp
  split_ifs with hskip
  · obtain ⟨ho, hi⟩ := nbArgs_of_skipped hskip
    simp [oargs_eq, iargs_eq, ho, hi, firstArgs]
  · rw [(foldl_inputArg _ _).1 t ht, (foldl_outputArg _ _).1 t ht, ← oargs_eq, ← iargs_eq]

theorem livenessOp_dead_output {k : Nat} (hk : k < op.opc.info.nbOargs) (ht : op.args k < ctx.nbTemps) :
    (livenessOp ctx op live).2.life.dead k = true ↔
      atOp ctx op live (op.args k) = false ∨ op.args k ∈ firstArgs op 0 k := by
  have hlt := nbArgs_lt op.opc
  unfold livenessOp
  split_ifs with hskip
  · have := (nbArgs_of_skipped hskip).1
    omega
  refine ((foldl_inputArg _ _).2.1 k (by omega)).trans ?_
  rw [(foldl_outputArg _ _).2 k (by omega)]
  constructor
  · rintro (⟨-, -, h⟩ | ⟨i, -, hki, -⟩)
    · exact h
    · omega
  · exact fun h => .inl ⟨hk, ht, h⟩

theorem livenessOp_dead_input {i : Nat} (hi : i < op.opc.info.nbIargs)
    (ht : op.args (op.opc.info.nbOargs + i) < ctx.nbTemps) :
    (livenessOp ctx op live).2.life.dead (op.opc.info.nbOargs + i) = true ↔
      (atOp ctx op live (op.args (op.opc.info.nbOargs + i)) = false ∨ op.args (op.opc.info.nbOargs + i) ∈ op.oargs) ∧
      op.args (op.opc.info.nbOargs + i) ∉ firstArgs op op.opc.info.nbOargs i := by
  have hlt := nbArgs_lt op.opc
  unfold livenessOp
  split_ifs with hskip
  · have := (nbArgs_of_skipped hskip).2
    omega
  refine ((foldl_inputArg _ _).2.1 (op.opc.info.nbOargs + i) (by omega)).trans ?_
  rw [(foldl_outputArg _ _).2 _ (by omega), (foldl_outputArg _ _).1 _ ht, ← oargs_eq]
  constructor
  · rintro (⟨hlt, -⟩ | ⟨j, -, hij, -, hlive, hfirst⟩)
    · omega
    · obtain rfl : j = i := by omega
      exact ⟨and_decide_not_eq_false.mp hlive, hfirst⟩
  · rintro ⟨hlive, hfirst⟩
    exact .inr ⟨i, hi, rfl, ht, and_decide_not_eq_false.mpr hlive, hfirst⟩

/-- A global input that is marked dead is marked to be synced. -/
theorem livenessOp_sync {i : Nat} (hi : i < op.opc.info.nbIargs)
    (hdead : (livenessOp ctx op live).2.life.dead (op.opc.info.nbOargs + i) = true)
    (hkind : (ctx.temps (op.args (op.opc.info.nbOargs + i))).kind = .global) :
    (livenessOp ctx op live).2.life.sync (op.opc.info.nbOargs + i) = true := by
  have hlt := nbArgs_lt op.opc
  unfold livenessOp at hdead ⊢
  split_ifs at hdead ⊢ with hskip
  · have := (nbArgs_of_skipped hskip).2
    omega
  rcases (foldl_inputArg _ _).2.2 (op.opc.info.nbOargs + i) (by omega) hdead with hout | hsync
  · rw [(foldl_outputArg _ _).2 _ (by omega)] at hout
    omega
  · exact hsync hkind

end Op

end MachinaLiveness
