import Machina.Liveness

/-!
# What the liveness notes say

The walk follows the list, not the branches. In list order its notes are exact; with
branches an argument can be marked dead although a jump over the next write leads to
a read. Repeated arguments, temporaries that are updated in place and temporaries
carried over the end of a block are the places where a note differs from the first
access in the rest of the block.
-/

namespace MachinaLivenessSpec

open MachinaIr MachinaLiveness

def endsBlock (op : Op) : Bool := op.opc.info.contains .bbEnd
def exits (op : Op) : Bool := op.opc.info.contains .bbExit

theorem endsBlock_of_exits {op : Op} (h : exits op = true) : endsBlock op = true := by
  unfold exits at h
  unfold endsBlock
  cases hopc : op.opc <;> rw [hopc] at h <;> first | exact absurd h (by decide) | rfl

theorem oargs_of_endsBlock {op : Op} (h : endsBlock op = true) : op.oargs = [] := by
  unfold endsBlock at h
  unfold Op.oargs
  cases hopc : op.opc <;> rw [hopc] at h <;> first | exact absurd h (by decide) | rfl

section ListOrder

/-- The list reads the temporary before it writes it. -/
def readBeforeWrite (t : TempIdx) : List Op → Bool
  | [] => false
  | op :: rest => decide (t ∈ op.iargs) || (decide (t ∉ op.oargs) && readBeforeWrite t rest)

/-- The operations up to the end of the first block. -/
def block : List Op → List Op
  | [] => []
  | op :: rest => if endsBlock op then [op] else op :: block rest

/-- The operations after `op` up to the end of its block. -/
def restOfBlock (op : Op) (post : List Op) : List Op := if endsBlock op then [] else block post

/-- The temporary is live before the list: read before it is written, or a global that a block end
or the end of the list still has to see. -/
def liveBefore (ctx : Context) (t : TempIdx) : List Op → Bool
  | [] => decide (t < ctx.nbGlobals)
  | op :: rest =>
    decide (t ∈ op.iargs) ||
      (decide (t ∉ op.oargs) && (decide (t < ctx.nbGlobals) && endsBlock op || liveBefore ctx t rest))

def liveAfter (ctx : Context) (t : TempIdx) (op : Op) (post : List Op) : Bool :=
  decide (t < ctx.nbGlobals) && endsBlock op || liveBefore ctx t post

theorem liveBefore_cons (ctx : Context) (t : TempIdx) (op : Op) (rest : List Op) : liveBefore ctx t (op :: rest) =
      (decide (t ∈ op.iargs) || (decide (t ∉ op.oargs) && liveAfter ctx t op rest)) := rfl

theorem liveBefore_of_not_global {ctx : Context} {t : TempIdx} (ht : ctx.nbGlobals ≤ t) (ops : List Op) :
    liveBefore ctx t ops = readBeforeWrite t ops := by
  have hg : decide (t < ctx.nbGlobals) = false := decide_eq_false (Nat.not_lt_of_le ht)
  induction ops with
  | nil => exact hg
  | cons op rest ih => rw [liveBefore, readBeforeWrite, ih, hg, Bool.false_and, Bool.false_or]

theorem readBeforeWrite_of_block {t : TempIdx} {ops : List Op} (h : readBeforeWrite t (block ops) = true) :
    readBeforeWrite t ops = true := by
  induction ops with
  | nil => exact h
  | cons op rest ih =>
    rw [block] at h
    split_ifs at h with hend
    · rw [readBeforeWrite, readBeforeWrite, Bool.and_false, Bool.or_false] at h
      rw [readBeforeWrite, h, Bool.true_or]
    · rw [readBeforeWrite, Bool.or_eq_true, Bool.and_eq_true] at h ⊢
      exact h.imp_right fun hrest => ⟨hrest.1, ih hrest.2⟩

theorem readBeforeWrite_of_restOfBlock {t : TempIdx} {op : Op} {post : List Op}
    (h : readBeforeWrite t (restOfBlock op post) = true) : readBeforeWrite t post = true := by
  unfold restOfBlock at h
  split_ifs at h
  · cases h
  · exact readBeforeWrite_of_block h

variable {ctx : Context} {t : TempIdx}

theorem atOp_eq (op : Op) (live : TempIdx → Bool) :
    atOp ctx op live t = (decide (t < ctx.nbGlobals) && endsBlock op || live t) := by
  unfold atOp endsBlock liveGlobals
  cases op.opc.info.contains .bbEnd <;> simp

theorem livenessOps_live (ht : t < ctx.nbTemps) (ops : List Op) :
    (livenessOps ctx ops).1 t = liveBefore ctx t ops := by
  induction ops with
  | nil => simp [livenessOps, liveGlobals, liveBefore]
  | cons op rest ih =>
    rw [livenessOps, liveBefore_cons]
    rw [livenessOp_live ctx op _ ht, atOp_eq, ih, ← liveAfter, Bool.or_comm, Bool.and_comm]

theorem atOp_livenessOps (ht : t < ctx.nbTemps) (op : Op) (post : List Op) :
    atOp ctx op (livenessOps ctx post).1 t = liveAfter ctx t op post := by
  rw [atOp_eq, livenessOps_live ht, liveAfter]

theorem livenessAnalysis_get (pre : List Op) (op : Op) (post : List Op) :
    (livenessAnalysis ctx (pre ++ op :: post))[pre.length]? = some (livenessOp ctx op (livenessOps ctx post).1).2 := by
  induction pre with
  | nil => rfl
  | cons o pre ih => exact ih

end ListOrder

section Branches

def jumpTarget (op : Op) : Option Nat :=
  match op.opc with
  | .br => some (op.args 0)
  | .brCond => some (op.args 3)
  | .brCond2I32 => some (op.args 5)
  | _ => none

/-- Whether control may reach the next operation. -/
def fallsThrough (opc : Opcode) : Bool :=
  match opc with
  | .br | .exitTb | .gotoPtr => false
  | _ => true

def atLabel (l : Nat) : List Op → Option (List Op)
  | [] => none
  | op :: rest => if op.opc = .setLabel ∧ op.args 0 = l then some (op :: rest) else atLabel l rest

variable (ctx : Context) (t : TempIdx)

/-- Some way through the list, with jumps to labels further on, reads the temporary before writing it.
The end of a block and an exit read all globals. -/
inductive ReadLater : List Op → Prop
  | done : t < ctx.nbGlobals → ReadLater []
  | reads {op : Op} {rest : List Op} : t ∈ op.iargs → ReadLater (op :: rest)
  | ends {op : Op} {rest : List Op} : t < ctx.nbGlobals → endsBlock op = true ∨ exits op = true →
      ReadLater (op :: rest)
  | next {op : Op} {rest : List Op} : t ∉ op.oargs → fallsThrough op.opc = true → ReadLater rest →
      ReadLater (op :: rest)
  | jump {op : Op} {rest suffix : List Op} {l : Nat} : t ∉ op.oargs → jumpTarget op = some l →
      atLabel l rest = some suffix → ReadLater suffix → ReadLater (op :: rest)

/-- The operation may jump to a place from which the temporary is read. -/
def LeadsToRead (op : Op) (post : List Op) : Prop :=
  ∃ l suffix, jumpTarget op = some l ∧ atLabel l post = some suffix ∧ ReadLater ctx t suffix

/-- The word the temporary has after an operation is read. -/
def ReadAfter (op : Op) (post : List Op) : Prop :=
  (t < ctx.nbGlobals ∧ (endsBlock op = true ∨ exits op = true)) ∨
  (fallsThrough op.opc = true ∧ ReadLater ctx t post) ∨ LeadsToRead ctx t op post

/-- The operation, or one that follows it before the temporary is written in list order, may jump to a
place from which the temporary is read. -/
def JumpsToRead (op : Op) : List Op → Prop
  | [] => LeadsToRead ctx t op []
  | op' :: rest =>
    LeadsToRead ctx t op (op' :: rest) ∨
      (fallsThrough op.opc = true ∧ t ∉ op'.oargs ∧ JumpsToRead op' rest)

variable {ctx t}

theorem ReadAfter.readLater {op : Op} {rest : List Op} (h : ReadAfter ctx t op rest) (ht : t ∉ op.oargs) :
    ReadLater ctx t (op :: rest) := by
  rcases h with ⟨hg, hends⟩ | ⟨hfalls, hrest⟩ | ⟨l, suffix, hl, hat, hread⟩
  · exact .ends hg hends
  · exact .next ht hfalls hrest
  · exact .jump ht hl hat hread

/-- Where list order says the temporary is not live, only a jump can lead to a read. -/
theorem readAfter_iff {op : Op} {post : List Op} (hdead : liveAfter ctx t op post = false) :
    ReadAfter ctx t op post ↔ JumpsToRead ctx t op post := by
  induction post generalizing op with
  | nil =>
    have hg : ¬t < ctx.nbGlobals := by
      intro hg
      simp [liveAfter, liveBefore, hg] at hdead
    constructor
    · rintro (⟨hlt, -⟩ | ⟨-, hread⟩ | hleads)
      · exact absurd hlt hg
      · cases hread with
        | done hlt => exact absurd hlt hg
      · exact hleads
    · exact fun h => .inr (.inr h)
  | cons op' rest ih =>
    rw [liveAfter, Bool.or_eq_false_iff, liveBefore_cons, Bool.or_eq_false_iff] at hdead
    obtain ⟨hend, hnotin, hkill⟩ := hdead
    have hin : t ∉ op'.iargs := by simpa using hnotin
    have hrest (ht : t ∉ op'.oargs) : liveAfter ctx t op' rest = false := by simpa [ht] using hkill
    have hnoend (hg : t < ctx.nbGlobals) (o : Op) (ho : endsBlock o = true ∨ exits o = true) : endsBlock o = true :=
      ho.elim id endsBlock_of_exits
    constructor
    · rintro (⟨hg, hends⟩ | ⟨hfalls, hread⟩ | hleads)
      · simp [hg, hnoend hg op hends] at hend
      · have hafter (ht : t ∉ op'.oargs) (h : ReadAfter ctx t op' rest) : JumpsToRead ctx t op (op' :: rest) :=
          .inr ⟨hfalls, ht, (ih (hrest ht)).mp h⟩
        cases hread with
        | reads h => exact absurd h hin
        | ends hg hends =>
          have hout := oargs_of_endsBlock (hnoend hg op' hends)
          exact hafter (by simp [hout]) (.inl ⟨hg, hends⟩)
        | next ht hf h => exact hafter ht (.inr (.inl ⟨hf, h⟩))
        | jump ht hl hat h => exact hafter ht (.inr (.inr ⟨_, _, hl, hat, h⟩))
      · exact .inl hleads
    · rintro (hleads | ⟨hfalls, ht, hjump⟩)
      · exact .inr (.inr hleads)
      · exact .inr (.inl ⟨hfalls, ((ih (hrest ht)).mpr hjump).readLater ht⟩)

end Branches

section Notes

variable (ctx : Context) (op : Op) (post : List Op)

def inputTemp (i : Nat) : TempIdx := op.args (op.opc.info.nbOargs + i)

/-- What the notes have to say about input `i`: a local is dead exactly when the rest of the block does
not read it first, a word that is read later is not dead, and a global that dies is synced. -/
def InputRight (life : LifeData) (i : Nat) : Prop :=
  let p := op.opc.info.nbOargs + i
  let t := inputTemp op i
  (ctx.nbGlobals ≤ t → (life.dead p = true ↔ readBeforeWrite t (restOfBlock op post) = false)) ∧
  (life.dead p = true → t ∉ op.oargs → ¬ReadAfter ctx t op post) ∧
  (life.dead p = true → (ctx.temps t).kind = .global → life.sync p = true)

/-- What the notes have to say about output `k`: it is dead only if its word is never read. -/
def OutputRight (life : LifeData) (k : Nat) : Prop :=
  life.dead k = true → (∀ k' < op.opc.info.nbOargs, k < k' → op.args k' ≠ op.args k) →
    ¬ReadAfter ctx (op.args k) op post

/-- All globals are live at an operation that ends a block or exits. -/
def GlobalsRight : Prop :=
  endsBlock op = true ∨ exits op = true → ∀ g < ctx.nbGlobals, (livenessOps ctx (op :: post)).1 g = true

/-- The input is the first one with its temporary, or the block reads it again; it is not an output as
well, or the block does not read it again; a local that the rest of the list reads first is read in the
rest of the block; and no jump over the next write leads to a read. -/
def InputOk (i : Nat) : Prop :=
  let t := inputTemp op i
  let again := readBeforeWrite t (restOfBlock op post)
  let repeated := t ∈ firstArgs op op.opc.info.nbOargs i
  (ctx.nbGlobals ≤ t →
    if repeated then again = true
    else if t ∈ op.oargs then again = false
    else readBeforeWrite t post = true → again = true) ∧
  (¬repeated → t ∉ op.oargs → liveAfter ctx t op post = false → ¬JumpsToRead ctx t op post)

/-- The last output with its temporary is the only one, or nothing reads it; and no jump over the next
write leads to a read. -/
def OutputOk (k : Nat) : Prop :=
  let t := op.args k
  (∀ k' < op.opc.info.nbOargs, k < k' → op.args k' ≠ t) →
    (t ∈ firstArgs op 0 k → ¬ReadAfter ctx t op post) ∧
    (liveAfter ctx t op post = false → ¬JumpsToRead ctx t op post)

variable {ctx op post}

theorem liveAfter_of_not_global {t : TempIdx} (ht : ctx.nbGlobals ≤ t) :
    liveAfter ctx t op post = readBeforeWrite t post := by
  have hg : decide (t < ctx.nbGlobals) = false := decide_eq_false (Nat.not_lt_of_le ht)
  rw [liveAfter, hg, liveBefore_of_not_global ht, Bool.false_and, Bool.false_or]

theorem input_dead_iff (post : List Op) {i : Nat} (hi : i < op.opc.info.nbIargs) (ht : inputTemp op i < ctx.nbTemps) :
    (livenessOp ctx op (livenessOps ctx post).1).2.life.dead (op.opc.info.nbOargs + i) = true ↔
      (liveAfter ctx (inputTemp op i) op post = false ∨ inputTemp op i ∈ op.oargs) ∧
      inputTemp op i ∉ firstArgs op op.opc.info.nbOargs i := by
  rw [← atOp_livenessOps ht]
  exact livenessOp_dead_input ctx op (livenessOps ctx post).1 hi ht

theorem input_right_iff {i : Nat} (hi : i < op.opc.info.nbIargs) (ht : inputTemp op i < ctx.nbTemps) :
    InputRight ctx op post (livenessOp ctx op (livenessOps ctx post).1).2.life i ↔ InputOk ctx op post i := by
  have hsync := livenessOp_sync ctx op (livenessOps ctx post).1 hi
  have hdead := input_dead_iff post hi ht
  unfold InputRight InputOk
  dsimp only
  rw [hdead]
  have hexact : ctx.nbGlobals ≤ inputTemp op i →
      (((liveAfter ctx (inputTemp op i) op post = false ∨ inputTemp op i ∈ op.oargs) ∧
          inputTemp op i ∉ firstArgs op op.opc.info.nbOargs i ↔
        readBeforeWrite (inputTemp op i) (restOfBlock op post) = false) ↔
      if inputTemp op i ∈ firstArgs op op.opc.info.nbOargs i then
        readBeforeWrite (inputTemp op i) (restOfBlock op post) = true
      else if inputTemp op i ∈ op.oargs then readBeforeWrite (inputTemp op i) (restOfBlock op post) = false
      else readBeforeWrite (inputTemp op i) post = true →
        readBeforeWrite (inputTemp op i) (restOfBlock op post) = true) := by
    intro hg
    rw [liveAfter_of_not_global hg]
    have hblock : readBeforeWrite (inputTemp op i) (restOfBlock op post) = true →
        readBeforeWrite (inputTemp op i) post = true := readBeforeWrite_of_restOfBlock
    split_ifs with hrep hout
    · simp [hrep]
    · simp [hrep, hout]
    · cases hpost : readBeforeWrite (inputTemp op i) post <;>
        cases hrest : readBeforeWrite (inputTemp op i) (restOfBlock op post) <;> simp_all
  constructor
  · rintro ⟨hex, hsound, -⟩
    refine ⟨fun hg => (hexact hg).mp (hex hg), fun hrep hout hlive => ?_⟩
    rw [← readAfter_iff hlive]
    exact hsound ⟨.inl hlive, hrep⟩ hout
  · rintro ⟨hex, hjump⟩
    refine ⟨fun hg => (hexact hg).mpr (hex hg), ?_, fun hd => hsync (hdead.mpr hd)⟩
    rintro ⟨hlive | hout, hrep⟩ hnot
    · rw [readAfter_iff hlive]
      exact hjump hrep hnot hlive
    · exact absurd hout hnot

theorem output_right_iff {k : Nat} (hk : k < op.opc.info.nbOargs) (ht : op.args k < ctx.nbTemps) :
    OutputRight ctx op post (livenessOp ctx op (livenessOps ctx post).1).2.life k ↔ OutputOk ctx op post k := by
  have hdead := livenessOp_dead_output ctx op (livenessOps ctx post).1 hk ht
  rw [atOp_livenessOps ht] at hdead
  unfold OutputRight OutputOk
  dsimp only
  rw [hdead]
  constructor
  · intro h hlast
    exact ⟨fun hrep => h (.inr hrep) hlast, fun hlive => by
      rw [← readAfter_iff hlive]
      exact h (.inl hlive) hlast⟩
  · rintro h (hlive | hrep) hlast
    · rw [readAfter_iff hlive]
      exact (h hlast).2 hlive
    · exact (h hlast).1 hrep

theorem globals_right (hctx : ctx.nbGlobals ≤ ctx.nbTemps) : GlobalsRight ctx op post := by
  intro hends g hg
  have hend : endsBlock op = true := hends.elim id endsBlock_of_exits
  rw [livenessOps_live (Nat.lt_of_lt_of_le hg hctx), liveBefore_cons, oargs_of_endsBlock hend]
  simp [liveAfter, hg, hend]

/-- For every list and every operation in it: the notes about each input and each output are right
exactly when `InputOk` and `OutputOk` hold, and the globals are live wherever a block ends. -/
theorem liveness_notes_right_iff (ctx : Context) (hctx : ctx.nbGlobals ≤ ctx.nbTemps) (pre : List Op) (op : Op)
    (post : List Op) (hvalid : ∀ p < op.opc.info.nbOargs + op.opc.info.nbIargs, op.args p < ctx.nbTemps) :
    ∃ op', (livenessAnalysis ctx (pre ++ op :: post))[pre.length]? = some op' ∧
      (∀ i < op.opc.info.nbIargs, InputRight ctx op post op'.life i ↔ InputOk ctx op post i) ∧
      (∀ k < op.opc.info.nbOargs, OutputRight ctx op post op'.life k ↔ OutputOk ctx op post k) ∧
      GlobalsRight ctx op post := by
  refine ⟨_, livenessAnalysis_get pre op post, ?_, ?_, globals_right hctx⟩
  · exact fun i hi => input_right_iff hi (hvalid _ (by omega))
  · exact fun k hk => output_right_iff hk (hvalid _ (by omega))

/-- Five temporaries that live across the whole block. -/
def fiveTemps : Context := ⟨fun _ => .newTb .i64, 5, 0, fun _ _ => none, none, 0, 0⟩

theorem liveness_notes_right_iff_mov :
    ∃ op', (livenessAnalysis fiveTemps [.withArgs .mov .i64 [1, 0], .withArgs .exitTb .i64 [0]])[0]? = some op' ∧
      InputRight fiveTemps (.withArgs .mov .i64 [1, 0]) [.withArgs .exitTb .i64 [0]] op'.life 0 := by
  obtain ⟨op', hget, hin, -, -⟩ := liveness_notes_right_iff fiveTemps (by decide) [] (.withArgs .mov .i64 [1, 0])
    [.withArgs .exitTb .i64 [0]] (by decide)
  refine ⟨op', hget, (hin 0 (by decide)).mpr ⟨by decide, ?_⟩⟩
  rintro - - - (⟨l, suffix, hl, -⟩ | ⟨-, -, l, suffix, hl, -⟩) <;> cases hl

/-- A branch over a write: `mov t1, t0; brcond → 9; mov t0, t3; label 9; mov t2, t0; exit`. -/
def branchOverWrite : List Op :=
  [.withArgs .brCond .i64 [3, 4, 8, 9], .withArgs .mov .i64 [0, 3], .withArgs .setLabel .i64 [9],
    .withArgs .mov .i64 [2, 0], .withArgs .exitTb .i64 [0]]

/-- The first move marks `t0` dead, although the branch leads to the last move, which reads it. -/
theorem branch_over_write_is_missed :
    ∃ op', (livenessAnalysis fiveTemps (.withArgs .mov .i64 [1, 0] :: branchOverWrite))[0]? = some op' ∧
      op'.life.dead 1 = true ∧ ReadAfter fiveTemps 0 (.withArgs .mov .i64 [1, 0]) branchOverWrite ∧
      ¬InputRight fiveTemps (.withArgs .mov .i64 [1, 0]) branchOverWrite op'.life 0 := by
  have hread : ReadAfter fiveTemps 0 (.withArgs .mov .i64 [1, 0]) branchOverWrite :=
    .inr (.inl ⟨rfl, .jump (by decide) rfl rfl (.next (by decide) rfl (.reads (by decide)))⟩)
  refine ⟨_, livenessAnalysis_get [] _ _, by decide, hread, fun h => ?_⟩
  exact h.2.1 (by decide) (by decide) hread

end Notes

end MachinaLivenessSpec
