import Machina.Bits

/-!
# Field extraction in the generated decoders

The decoder generator writes one extract function for each field of a decode
description and one expression for each inline field. The text is modelled as the
expressions that Rust reads in it, with the types and shifts of the generated code.
-/

namespace MachinaDecodeFields

open MachinaBits
open BitVec (eq_of_getLsbD_eq getLsbD_signExtend getLsbD_shiftLeft getLsbD_setWidth)
open Option (map_some bind_some)

/-- The integer types of the generated code. -/
inductive Ty where
  | u16 | u32 | i16 | i32 | i64 | usize
  deriving DecidableEq, Repr

def Ty.bits : Ty → Nat
  | .u16 | .i16 => 16
  | .u32 | .i32 => 32
  | .i64 | .usize => 64

def Ty.signed : Ty → Bool
  | .i16 | .i32 | .i64 => true
  | .u16 | .u32 | .usize => false

structure Value where
  ty : Ty
  bits : BitVec ty.bits

namespace Value

def cast (v : Value) (t : Ty) : Value :=
  ⟨t, if v.ty.signed then v.bits.signExtend t.bits else v.bits.setWidth t.bits⟩

/-- A shift by a literal that is not below the width does not compile. -/
def shl (v : Value) (n : Nat) : Option Value := if n < v.ty.bits then some ⟨v.ty, v.bits <<< n⟩ else none

def shr (v : Value) (n : Nat) : Option Value :=
  if n < v.ty.bits then some ⟨v.ty, if v.ty.signed then v.bits.sshiftRight n else v.bits >>> n⟩ else none

/-- `v & mask`, for a literal that fits the type of `v`. -/
def and (v : Value) (mask : BitVec 32) : Option Value :=
  if mask.toNat < 2 ^ v.ty.bits then some ⟨v.ty, v.bits &&& mask.setWidth v.ty.bits⟩ else none

def or (v u : Value) : Option Value :=
  if h : u.ty = v.ty then some ⟨v.ty, v.bits ||| h ▸ u.bits⟩ else none

/-- `v + n`, which wraps around where overflow is not checked. -/
def add (v : Value) (n : Nat) : Value := ⟨v.ty, v.bits + BitVec.ofNat _ n⟩

/-- `table[v]`, where the entries are of the type that is returned. -/
def index (table : List Nat) (v : Value) : Option Value :=
  if v.ty = .usize then (table[v.bits.toNat]?).map fun n => ⟨.i64, BitVec.ofNat _ n⟩ else none

end Value

/-- The generated expressions. In the text an operand that is not a name stands in parentheses, but for a cast
on the right of `|` and before `&`, where `as` binds tighter. -/
inductive Expr where
  | insn
  | val
  | cast (e : Expr) (t : Ty)
  | shl (e : Expr) (n : Nat)
  | shr (e : Expr) (n : Nat)
  | and (e : Expr) (mask : BitVec 32)
  | or (e e' : Expr)
  | add (e : Expr) (n : Nat)
  | index (table : List Nat) (e : Expr)

def eval (insn : Value) (val : Option Value) : Expr → Option Value
  | .insn => some insn
  | .val => val
  | .cast e t => (eval insn val e).map (·.cast t)
  | .shl e n => (eval insn val e).bind (·.shl n)
  | .shr e n => (eval insn val e).bind (·.shr n)
  | .and e m => (eval insn val e).bind (·.and m)
  | .or e e' => (eval insn val e).bind fun v => (eval insn val e').bind v.or
  | .add e n => (eval insn val e).map (·.add n)
  | .index table e => (eval insn val e).bind (Value.index table)

/-- An extract function: `val` is bound, updated by each further line, cast, and transformed. -/
structure ExtractFn where
  first : Expr
  updates : List Expr
  cast : Expr
  result : Expr

/-- `val` after the lines of the function. -/
def ExtractFn.bound (fn : ExtractFn) (insn : Value) : Option Value :=
  fn.updates.foldl (fun val e => eval insn val e) (eval insn none fn.first)

def ExtractFn.value (fn : ExtractFn) (insn : Value) : Option Value :=
  eval insn (fn.bound insn) fn.cast

def ExtractFn.run (fn : ExtractFn) (insn : Value) : Option Value :=
  eval insn (fn.bound insn) fn.result

structure FieldSegment where
  pos : Nat
  len : Nat
  signed : Bool
  deriving DecidableEq, Repr

structure Field where
  name : String
  segments : List FieldSegment
  func : Option String

inductive Width where
  | w16 | w32
  deriving DecidableEq, Repr

def Width.bits : Width → Nat
  | .w16 => 16
  | .w32 => 32

def Width.insnTy : Width → Ty
  | .w16 => .u16
  | .w32 => .u32

def Width.signedTy : Width → Ty
  | .w16 => .i16
  | .w32 => .i32

section

variable (checks : Bool)

/-- `(1u32 << len) - 1` in the generator: a shift by the width panics if overflow is checked and wraps otherwise. -/
def maskOf (len : Nat) : Option (BitVec 32) :=
  if checks && decide (32 ≤ len) then none else some ((1#32 <<< (len % 32)) - 1#32)

def signedBits (w : Width) (pos len : Nat) : Expr :=
  let lshift := w.bits - pos - len
  let rshift := w.bits - len
  if lshift = 0 then .shr (.cast .insn w.signedTy) rshift
  else .shr (.shl (.cast .insn w.signedTy) lshift) rshift

def maskedBits (pos len : Nat) : Option Expr :=
  (maskOf checks len).map (.and (.shr .insn pos))

def firstBits (w : Width) (s : FieldSegment) : Option Expr :=
  if s.signed then some (signedBits w s.pos s.len) else maskedBits checks s.pos s.len

/-- `val = (val << len) | ((insn >> pos) & mask) as i64` -/
def updateBy (s : FieldSegment) : Option Expr :=
  (maskedBits checks s.pos s.len).map fun e => .or (.shl .val s.len) (.cast e .i64)

def emitFuncTransform (func : String) (cast : Expr) : Expr :=
  match func with
  | "ex_shift_1" => .shl cast 1
  | "ex_shift_2" => .shl cast 2
  | "ex_shift_3" => .shl cast 3
  | "ex_shift_4" => .shl cast 4
  | "ex_shift_12" => .shl cast 12
  | "ex_rvc_register" => .add cast 8
  | "ex_sreg_register" => .index [8, 9, 18, 19, 20, 21, 22, 23] (.and (.cast cast .usize) 7#32)
  | _ => cast

def transform (func : Option String) (cast : Expr) : Expr := func.elim cast (emitFuncTransform · cast)

/-- A field without segments is indexed out of bounds. -/
def emitExtractField (w : Width) (field : Field) : Option ExtractFn :=
  match field.segments with
  | [] => none
  | [s] => do
    let first ← firstBits checks w s
    let cast := Expr.cast .val .i64
    some ⟨first, [], cast, transform field.func cast⟩
  | s :: rest => do
    let first ← firstBits checks w s
    let updates ← rest.mapM (updateBy checks)
    some ⟨.cast first .i64, updates, .val, transform field.func .val⟩

/-- Where an argument of a pattern comes from. -/
inductive FieldMapping where
  | fieldRef (name : String)
  | inline (pos len : Nat) (signed : Bool)
  | const (c : Int)
  deriving DecidableEq, Repr

/-- The expression of an argument: a call of an extract function, bits of the word, or a literal. -/
inductive ArgExpr where
  | extract (name : String)
  | bits (e : Expr)
  | literal (c : Int)

def emitFieldExpr (w : Width) : FieldMapping → Option ArgExpr
  | .fieldRef name => some (.extract name)
  | .inline pos len signed =>
    if signed then
      some (.bits (.cast (.shr (.shl (.cast .insn w.signedTy) (w.bits - pos - len)) (w.bits - len)) .i64))
    else (maskedBits checks pos len).map fun e => .bits (.cast e .i64)
  | .const c => some (.literal c)

end

section Meaning

variable {n : Nat} (insn : BitVec n)

def segment (s : FieldSegment) : BitVec s.len := insn.extractLsb' s.pos s.len

/-- The segments one after the other, the first one most significant. -/
def concatenation : List FieldSegment → Σ k, BitVec k
  | [] => ⟨0, 0#0⟩
  | s :: rest => rest.foldl (fun a s => ⟨a.1 + s.len, a.2 ++ segment insn s⟩) ⟨s.len, segment insn s⟩

def widen (signed : Bool) (a : Σ k, BitVec k) : BitVec 64 := if signed then a.2.signExtend 64 else a.2.setWidth 64

/-- What a field stands for. -/
def fieldValue (segments : List FieldSegment) : BitVec 64 :=
  widen (segments.head?.any (·.signed)) (concatenation insn segments)

end Meaning

section Extraction

variable {n pos len : Nat}

/-- Shifting a field to the top and back down extends its sign. -/
theorem shiftLeft_sshiftRight (x : BitVec n) (hlen : 0 < len) (hfit : pos + len ≤ n) :
    (x <<< (n - pos - len)).sshiftRight (n - len) = (x.extractLsb' pos len).signExtend n := by
  apply eq_of_getLsbD_eq
  intro i hi
  rw [BitVec.getLsbD_sshiftRight, getLsbD_signExtend, BitVec.msb_eq_getLsbD_last, BitVec.msb_eq_getLsbD_last]
  simp only [getLsbD_shiftLeft, BitVec.getLsbD_extractLsb']
  rw [show n - len + i - (n - pos - len) = pos + i by omega, show n - 1 - (n - pos - len) = pos + (len - 1) by omega]
  grind

theorem extractLsb'_setWidth {k : Nat} (x : BitVec k) (hfit : pos + len ≤ n) :
    (x.setWidth n).extractLsb' pos len = x.extractLsb' pos len := by
  ext i hi
  simp [show pos + i < n by omega]

theorem ushiftRight_and_mask (x : BitVec n) (hlen : len < 32) (hn : n ≤ 32) :
    (x >>> pos) &&& ((1#32 <<< len) - 1#32).setWidth n = (x.extractLsb' pos len).setWidth n := by
  rw [shiftLeft_sub_one hlen]
  apply eq_of_getLsbD_eq
  intro i hi
  simp only [BitVec.getLsbD_and, BitVec.getLsbD_ushiftRight, getLsbD_setWidth, BitVec.getLsbD_extractLsb',
    BitVec.getLsbD_allOnes]
  grind

/-- One more segment after those that have been read. -/
theorem widen_append (signed : Bool) {k : Nat} (hk : 0 < k) (a : BitVec k) (b : BitVec len) :
    widen signed ⟨k, a⟩ <<< len ||| b.setWidth 64 = widen signed ⟨k + len, a ++ b⟩ := by
  have hmsb : (a ++ b).msb = a.msb := by rw [BitVec.msb_append, if_neg hk.ne']
  apply eq_of_getLsbD_eq
  intro i hi
  cases signed
  · simp only [widen, Bool.false_eq_true, if_false]
    rw [BitVec.getLsbD_or, getLsbD_shiftLeft, getLsbD_setWidth, getLsbD_setWidth,
      getLsbD_setWidth, BitVec.getLsbD_append]
    grind
  · simp only [widen, if_true]
    rw [BitVec.getLsbD_or, getLsbD_shiftLeft, getLsbD_setWidth, getLsbD_signExtend,
      getLsbD_signExtend, BitVec.getLsbD_append, hmsb]
    grind

end Extraction

def Fits (w : Width) (s : FieldSegment) : Prop := 0 < s.len ∧ s.pos + s.len ≤ w.bits

def word (w : Width) (x : BitVec w.insnTy.bits) : Value := ⟨w.insnTy, x⟩

def i64 (v : BitVec 64) : Value := ⟨.i64, v⟩

theorem Width.signedTy_bits (w : Width) : w.signedTy.bits = w.bits := by cases w <;> rfl

theorem Width.insnTy_bits (w : Width) : w.insnTy.bits = w.bits := by cases w <;> rfl

theorem Width.signedTy_signed (w : Width) : w.signedTy.signed = true := by cases w <;> rfl

theorem Width.insnTy_signed (w : Width) : w.insnTy.signed = false := by cases w <;> rfl

section Emitted

variable {w : Width} {s : FieldSegment} (x : BitVec w.insnTy.bits) (val : Option Value)

theorem eval_signed (hs : Fits w s) :
    eval (word w x) val (.shr (.shl (.cast .insn w.signedTy) (w.bits - s.pos - s.len)) (w.bits - s.len)) =
      some ⟨w.signedTy, (segment x s).signExtend _⟩ := by
  obtain ⟨hlen, hfit⟩ := hs
  have hcast : (word w x).cast w.signedTy = ⟨w.signedTy, x.setWidth _⟩ := by cases w <;> rfl
  rw [← w.signedTy_bits] at hfit ⊢
  simp only [eval, map_some, bind_some, hcast, Value.shl]
  rw [if_pos (by omega), bind_some, Value.shr, if_pos (by dsimp only; omega), if_pos w.signedTy_signed,
    shiftLeft_sshiftRight _ hlen hfit, extractLsb'_setWidth x hfit]
  rfl

theorem cast_signed (hs : Fits w s) :
    (⟨w.signedTy, (segment x s).signExtend _⟩ : Value).cast .i64 = i64 ((segment x s).signExtend 64) := by
  have hlen : s.len ≤ w.signedTy.bits := by rw [w.signedTy_bits]; have := hs.2; omega
  simp only [Value.cast, w.signedTy_signed, if_true, i64]
  rw [BitVec.signExtend, BitVec.toInt_signExtend_of_le hlen]
  rfl

theorem eval_signedBits (hs : Fits w s) :
    eval (word w x) val (signedBits w s.pos s.len) = some ⟨w.signedTy, (segment x s).signExtend _⟩ := by
  rw [← eval_signed x val hs, signedBits]
  split
  · rename_i h
    have hpos : 0 < ((word w x).cast w.signedTy).ty.bits := show 0 < w.signedTy.bits by cases w <;> decide
    simp [h, eval, Value.shl, if_pos hpos]
  · rfl

theorem maskedBits_of_lt {pos len : Nat} (checks : Bool) (h : len < 32) :
    maskedBits checks pos len = some (.and (.shr .insn pos) ((1#32 <<< len) - 1#32)) := by
  rw [maskedBits, maskOf, decide_eq_false (by omega), Bool.and_false, if_neg nofun, Nat.mod_eq_of_lt h, map_some]

theorem eval_masked (hs : Fits w s) (h : s.len < 32) :
    eval (word w x) val (.and (.shr .insn s.pos) ((1#32 <<< s.len) - 1#32)) =
      some ⟨w.insnTy, (segment x s).setWidth _⟩ := by
  obtain ⟨hlen, hfit⟩ := hs
  have hmask : ((1#32 <<< s.len) - 1#32).toNat < 2 ^ w.bits := by
    rw [toNat_shiftLeft_sub_one h]
    have := Nat.pow_le_pow_right (n := 2) (by decide) (show s.len ≤ w.bits by omega)
    have := Nat.two_pow_pos s.len
    omega
  rw [← w.insnTy_bits] at hfit hmask
  simp only [eval, word, bind_some, Value.shr, w.insnTy_signed, Bool.false_eq_true, if_false]
  rw [if_pos (by omega), bind_some, Value.and, if_pos hmask]
  exact congrArg (fun b => some (Value.mk _ b)) (ushiftRight_and_mask x h (by cases w <;> decide))

theorem eval_masked_cast (hs : Fits w s) (h : s.len < 32) :
    (eval (word w x) val (.and (.shr .insn s.pos) ((1#32 <<< s.len) - 1#32))).map (·.cast .i64) =
      some (i64 ((segment x s).setWidth 64)) := by
  have hfit := hs.2
  rw [eval_masked x val hs h]
  simp only [map_some, Value.cast, w.insnTy_signed, Bool.false_eq_true, if_false, i64]
  rw [BitVec.setWidth_setWidth (by rw [w.insnTy_bits]; omega)]
  rfl

end Emitted

variable {w : Width} {s : FieldSegment}

/-- The bits of a first segment, cast to the result type. -/
theorem eval_first (checks : Bool) (hs : Fits w s) (hmask : s.signed = false → s.len < 32) :
    ∃ e, firstBits checks w s = some e ∧ ∀ x,
      (eval (word w x) none e).map (·.cast .i64) = some (i64 (widen s.signed ⟨s.len, segment x s⟩)) := by
  rw [firstBits]
  cases hsigned : s.signed with
  | true =>
    refine ⟨_, rfl, fun x => ?_⟩
    rw [eval_signedBits x none hs, map_some, cast_signed x hs]
    rfl
  | false =>
    have hlt := hmask hsigned
    exact ⟨_, maskedBits_of_lt checks hlt, fun x => eval_masked_cast x none hs hlt⟩

/-- The loop over the further segments. -/
theorem eval_updates (rest : List FieldSegment) (checks signed : Bool) (hrest : ∀ s ∈ rest, Fits w s ∧ s.len < 32) :
    ∃ updates, rest.mapM (updateBy checks) = some updates ∧ ∀ x, ∀ a : Σ k, BitVec k, 0 < a.1 →
      updates.foldl (fun val e => eval (word w x) val e) (some (i64 (widen signed a))) =
        some (i64 (widen signed (rest.foldl (fun a s => ⟨a.1 + s.len, a.2 ++ segment x s⟩) a))) := by
  induction rest with
  | nil => exact ⟨[], rfl, fun x a _ => rfl⟩
  | cons s rest ih =>
    obtain ⟨⟨hs, hlt⟩, hrest⟩ := List.forall_mem_cons.mp hrest
    obtain ⟨updates, hupdates, hrun⟩ := ih hrest
    have he : updateBy checks s =
        some (.or (.shl .val s.len) (.cast (.and (.shr .insn s.pos) ((1#32 <<< s.len) - 1#32)) .i64)) := by
      rw [updateBy, maskedBits_of_lt checks hlt, map_some]
    refine ⟨_ :: updates, by rw [List.mapM_cons, he, hupdates]; rfl, fun x a ha => ?_⟩
    have hshl : (i64 (widen signed a)).shl s.len = some (i64 (widen signed a <<< s.len)) :=
      if_pos (show s.len < 64 by omega)
    rw [List.foldl_cons, eval, eval, eval, eval, bind_some, hshl, bind_some, eval_masked_cast x _ hs hlt]
    rw [List.foldl_cons, ← hrun x ⟨a.1 + s.len, a.2 ++ segment x s⟩ (by dsimp only; omega), ← widen_append signed ha]
    rfl

theorem lt_of_maskedBits {pos len : Nat} {e : Expr} (h : maskedBits true pos len = some e) : len < 32 := by
  obtain ⟨m, hm, -⟩ := Option.map_eq_some_iff.mp h
  obtain ⟨hlt, -⟩ := Option.ite_none_left_eq_some.mp hm
  simpa using hlt

theorem lt_of_updates {rest : List FieldSegment} {updates : List Expr} (h : rest.mapM (updateBy true) = some updates) :
    ∀ s ∈ rest, s.len < 32 := by
  induction rest generalizing updates with
  | nil => exact nofun
  | cons s rest ih =>
    rw [List.mapM_cons] at h
    obtain ⟨e, he, h⟩ := Option.bind_eq_some_iff.mp h
    obtain ⟨es, hes, -⟩ := Option.bind_eq_some_iff.mp h
    obtain ⟨m, hm, -⟩ := Option.map_eq_some_iff.mp he
    exact List.forall_mem_cons.mpr ⟨lt_of_maskedBits hm, ih hes⟩

/-- In builds with and without overflow checks the generator writes the function, and what it computes, before the
transformation if one is named, is the value of the field. -/
def FieldRight (w : Width) (field : Field) : Prop :=
  ∀ checks, ∃ fn, emitExtractField checks w field = some fn ∧
    ∀ x, fn.value (word w x) = some (i64 (fieldValue x field.segments)) ∧
      (field.func = none → fn.run (word w x) = some (i64 (fieldValue x field.segments)))

def InlineRight (w : Width) (s : FieldSegment) : Prop :=
  ∀ checks, ∃ e, emitFieldExpr checks w (.inline s.pos s.len s.signed) = some (.bits e) ∧
    ∀ x, eval (word w x) none e = some (i64 (fieldValue x [s]))

/-- The segments that are cut out with a mask: all but a first one that is signed. -/
def masked : List FieldSegment → List FieldSegment
  | [] => []
  | s :: rest => if s.signed then rest else s :: rest

theorem mem_masked {rest : List FieldSegment} {t : FieldSegment} :
    t ∈ masked (s :: rest) ↔ s.signed = false ∧ t = s ∨ t ∈ rest := by
  rw [masked]
  cases s.signed <;> simp

theorem emit_lt {field : Field} {fn : ExtractFn} (h : emitExtractField true w field = some fn) :
    ∀ s ∈ masked field.segments, s.len < 32 := by
  have hfirst {s e} (he : firstBits true w s = some e) (hsigned : s.signed = false) : s.len < 32 := by
    rw [firstBits, hsigned] at he
    exact lt_of_maskedBits he
  intro t ht
  rw [emitExtractField] at h
  split at h
  · cases h
  · rename_i s heq
    obtain ⟨e, he, -⟩ := Option.bind_eq_some_iff.mp h
    rw [heq, mem_masked] at ht
    obtain ⟨hsigned, rfl⟩ := ht.resolve_right nofun
    exact hfirst he hsigned
  · rename_i s rest _ heq
    obtain ⟨e, he, h⟩ := Option.bind_eq_some_iff.mp h
    obtain ⟨updates, hupdates, -⟩ := Option.bind_eq_some_iff.mp h
    rw [heq, mem_masked] at ht
    rcases ht with ⟨hsigned, rfl⟩ | ht
    · exact hfirst he hsigned
    · exact lt_of_updates hupdates t ht

theorem fieldRight_of_lt {field : Field} (hne : field.segments ≠ []) (hfits : ∀ s ∈ field.segments, Fits w s)
    (hlt : ∀ s ∈ masked field.segments, s.len < 32) : FieldRight w field := by
  intro checks
  obtain ⟨name, segments, func⟩ := field
  obtain _ | ⟨s, rest⟩ := segments
  · exact absurd rfl hne
  obtain ⟨hs, hrest⟩ := List.forall_mem_cons.mp hfits
  obtain ⟨e, he, hfirst⟩ := eval_first checks hs fun h => hlt s (mem_masked.mpr (.inl ⟨h, rfl⟩))
  obtain _ | ⟨s', rest⟩ := rest
  · refine ⟨⟨e, [], .cast .val .i64, transform func (.cast .val .i64)⟩, by simp [emitExtractField, he], fun x => ?_⟩
    have hsigned : [s].head?.any (·.signed) = s.signed := rfl
    rw [fieldValue, hsigned]
    exact ⟨hfirst x, by rintro rfl; exact hfirst x⟩
  · obtain ⟨updates, hupdates, hrun⟩ := eval_updates (s' :: rest) checks s.signed
      fun t ht => ⟨hrest t ht, hlt t (mem_masked.mpr (.inr ht))⟩
    refine ⟨⟨.cast e .i64, updates, .val, transform func .val⟩, by simp [emitExtractField, he, hupdates], fun x => ?_⟩
    have hbound := hrun x ⟨s.len, segment x s⟩ hs.1
    rw [← hfirst x] at hbound
    exact ⟨hbound, by rintro rfl; exact hbound⟩

theorem inlineRight_iff (hs : Fits w s) : InlineRight w s ↔ s.signed = true ∨ s.len < 32 := by
  constructor
  · intro h
    obtain ⟨e, he, -⟩ := h true
    rw [emitFieldExpr] at he
    cases hsigned : s.signed with
    | true => exact .inl rfl
    | false =>
      rw [hsigned, if_neg nofun] at he
      obtain ⟨m, hm, -⟩ := Option.map_eq_some_iff.mp he
      exact .inr (lt_of_maskedBits hm)
  · intro h checks
    cases hsigned : s.signed with
    | true =>
      refine ⟨_, by rw [emitFieldExpr, if_pos rfl], fun x => ?_⟩
      rw [eval, eval_signed x none hs, map_some, cast_signed x hs, fieldValue, List.head?_cons, Option.any_some,
        hsigned]
      rfl
    | false =>
      have hlt := h.resolve_left (by rw [hsigned]; nofun)
      refine ⟨_, by rw [emitFieldExpr, if_neg nofun, maskedBits_of_lt checks hlt]; rfl, fun x => ?_⟩
      rw [fieldValue, List.head?_cons, Option.any_some, hsigned]
      exact eval_masked_cast x none hs hlt

/-- The generated code reads every field and inline field right, but for fields without segments and those cut out
with a mask of 32 bits. -/
theorem extract_right_iff (w : Width) (field : Field) (s : FieldSegment) (hfield : ∀ s ∈ field.segments, Fits w s)
    (hs : Fits w s) : (FieldRight w field ↔ field.segments ≠ [] ∧ ∀ s ∈ masked field.segments, s.len < 32) ∧
      (InlineRight w s ↔ s.signed = true ∨ s.len < 32) := by
  refine ⟨⟨fun h => ?_, fun h => fieldRight_of_lt h.1 hfield h.2⟩, inlineRight_iff hs⟩
  obtain ⟨fn, hfn, -⟩ := h true
  refine ⟨fun hnil => ?_, emit_lt hfn⟩
  rw [emitExtractField, hnil] at hfn
  cases hfn

/-- The store offset of RISC-V, and its low part as an inline field. -/
theorem extract_right_store_offset :
    FieldRight .w32 ⟨"imm_s", [⟨25, 7, true⟩, ⟨7, 5, false⟩], none⟩ ∧ InlineRight .w32 ⟨7, 5, false⟩ := by
  have h := extract_right_iff .w32 ⟨"imm_s", [⟨25, 7, true⟩, ⟨7, 5, false⟩], none⟩ ⟨7, 5, false⟩
    (by simp [Fits, Width.bits]) ⟨by decide, by decide⟩
  exact ⟨h.1.mpr ⟨by simp, by decide⟩, h.2.mpr (by decide)⟩

/-- A field of the whole word: the generator panics, or writes a function that returns 0 for the word 1. -/
theorem extract_whole_word_wrong : emitExtractField true .w32 ⟨"word", [⟨0, 32, false⟩], none⟩ = none ∧
    ∃ fn, emitExtractField false .w32 ⟨"word", [⟨0, 32, false⟩], none⟩ = some fn ∧
      fn.run (word .w32 1#32) = some (i64 0#64) ∧ fieldValue 1#32 [⟨0, 32, false⟩] = 1#64 :=
  ⟨rfl, _, rfl, rfl, by decide⟩

end MachinaDecodeFields
