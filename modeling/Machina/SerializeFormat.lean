import Machina.Serialize

/-!
# The file format, and what the reader does with any bytes

The items of the format and the bytes each is written to. The reader goes along the
headers and translation blocks at the front of its input, and where it ends depends on
what stands there.
-/

namespace MachinaSerializeFormat

open MachinaByteReader MachinaByteReader.Reader MachinaRuns MachinaSerialize
open MachinaIr (IrType Opcode TempKind)

variable {g : BitVec 32} {v : BitVec 8} {b rest : Bytes} {ctx : Context} {names : List String} {c i n w : Nat}
    {e : Stop} {X : Type}

/-- The fields of a temporary in the file. -/
structure RawTemp where
  kind : TempKind
  ty : IrType
  baseType : IrType
  reg : BitVec 8
  val : BitVec 64
  memBase : BitVec 32
  memOffset : BitVec 64
  name : BitVec 32

def RawTemp.write (t : RawTemp) : Bytes :=
  leBytes 1 (kindByte t.kind) ++ leBytes 1 (typeByte t.ty) ++ leBytes 1 (typeByte t.baseType) ++
    leBytes 1 t.reg.toNat ++ leBytes 8 t.val.toNat ++ leBytes 4 t.memBase.toNat ++
    leBytes 8 t.memOffset.toNat ++ leBytes 4 t.name.toNat

/-- The name index is in the table, or stands for no name. -/
def RawTemp.Named (t : RawTemp) (names : List String) : Prop := t.name = noIndex ∨ t.name.toNat < names.length

def RawTemp.temp (t : RawTemp) (names : List String) (i : Nat) : Temp :=
  { idx := BitVec.ofNat 32 i, ty := t.ty, baseType := t.baseType, kind := t.kind, valType := initialVal t.kind
    reg := if t.reg = 0xFF#8 then none else some t.reg
    memCoherent := decide (t.kind = .global), memAllocated := decide (t.kind = .global), val := t.val
    memBase := if t.memBase = noIndex then none else some t.memBase
    memOffset := t.memOffset, name := if t.name = noIndex then none else names[t.name.toNat]? }

structure RawOp where
  opc : Opcode
  opType : IrType
  param1 : BitVec 8
  param2 : BitVec 8
  nargs : BitVec 8
  pad : Bytes
  args : List (BitVec 32)

def RawOp.write (op : RawOp) : Bytes :=
  leBytes 1 op.opc.ctorIdx ++ leBytes 1 (typeByte op.opType) ++ leBytes 1 op.param1.toNat ++
    leBytes 1 op.param2.toNat ++ leBytes 1 op.nargs.toNat ++ op.pad ++ op.args.flatMap fun a => leBytes 4 a.toNat

/-- There are as many arguments as are announced, up to ten. -/
def RawOp.Good (op : RawOp) : Prop := op.pad.length = 3 ∧ op.args.length = min op.nargs.toNat maxOpArgs

def RawOp.op (op : RawOp) (i : Nat) : Op :=
  { Op.new (BitVec.ofNat 32 i) op.opc op.opType with
    param1 := op.param1, param2 := op.param2, nargs := op.nargs, args := fun k => op.args.getD k 0#32 }

structure RawTb where
  names : List String
  temps : List RawTemp
  ops : List RawOp

def writeNames (names : List String) : Bytes := leBytes 4 names.length ++ names.flatMap writeName

/-- The names fit their length fields, and their number fits its own. -/
def GoodNames (names : List String) : Prop := names.length < 2 ^ 32 ∧ ∀ s ∈ names, (nameBytes s).length < 2 ^ 16

def RawTb.write (tb : RawTb) : Bytes :=
  writeNames tb.names ++ leBytes 4 tb.temps.length ++ tb.temps.flatMap RawTemp.write ++
    leBytes 4 tb.ops.length ++ tb.ops.flatMap RawOp.write

structure RawTb.Good (tb : RawTb) : Prop where
  names : GoodNames tb.names
  tempCount : tb.temps.length < 2 ^ 32
  temps : ∀ t ∈ tb.temps, t.Named tb.names
  opCount : tb.ops.length < 2 ^ 32
  ops : ∀ op ∈ tb.ops, op.Good

/-- The labels after an operation has been looked at. -/
def afterOp (n : Nat) (op : Op) : Nat :=
  match namedLabel op with
  | some id => max n (id.toNat + 1)
  | none => n

/-- How many labels the operations of a block name: one more than the highest id. -/
def labelCount (ops : List Op) (n : Nat) : Nat := ops.foldl afterOp n

def numbered (n : Nat) : List Label := (List.range n).map fun k => ⟨BitVec.ofNat 32 k⟩

def RawTb.opList (tb : RawTb) : List Op := (tb.ops.zipIdx 0).map fun p => p.1.op p.2

def RawTb.labels (tb : RawTb) : Nat := labelCount tb.opList 0

def RawTb.context (tb : RawTb) (nbGlobals : BitVec 32) : Context :=
  .fromRawParts ((tb.temps.zipIdx 0).map fun p => p.1.temp tb.names p.2) tb.opList (numbered tb.labels) nbGlobals

def headerBytes (h : Header) : Bytes :=
  magic ++ leBytes 2 version ++ leBytes 2 h.flags.toNat ++ leBytes 4 h.nbGlobals.toNat ++
    leBytes 4 h.nbLabels.toNat ++ leBytes 4 h.tbCount.toNat

/-- A block whose string table is complete and in which a temporary has a name index outside of it. -/
def BadTb (b : Bytes) : Prop :=
  ∃ (names : List String) (n : Nat) (temps : List RawTemp) (t : RawTemp) (rest : Bytes), GoodNames names ∧ n < 2 ^ 32 ∧
  temps.length < n ∧ (∀ u ∈ temps, u.Named names) ∧
    ¬t.Named names ∧ b = writeNames names ++ leBytes 4 n ++ temps.flatMap RawTemp.write ++ t.write ++ rest

section Words

variable {b rest : Bytes} {e : Stop}

theorem gives_word (hw : 2 ^ w = 256 ^ n) {v : BitVec w} :
    Gives (word n w) b v rest ↔ b = leBytes n v.toNat ++ rest := by
  unfold word
  simp only [gives_bind, gives_number, gives_pure]
  constructor
  · rintro ⟨k, _, ⟨hk, rfl⟩, rfl, rfl⟩
    rw [BitVec.toNat_ofNat, Nat.mod_eq_of_lt (hw ▸ hk)]
  · rintro rfl
    exact ⟨v.toNat, rest, ⟨hw ▸ v.isLt, rfl⟩, by simp, rfl⟩

theorem stops_word : Stops (word n w) b e ↔ b.length < n ∧ e = .unexpectedEof := by
  unfold word
  simp only [stops_bind, stops_number, not_stops_pure, and_false, exists_false, or_false]

theorem gives_readU8 : Gives readU8 b v rest ↔ b = leBytes 1 v.toNat ++ rest := gives_word (by decide)

theorem gives_readU16 {v : BitVec 16} : Gives readU16 b v rest ↔ b = leBytes 2 v.toNat ++ rest :=
    gives_word (by decide)

theorem gives_readU32 {v : BitVec 32} : Gives readU32 b v rest ↔ b = leBytes 4 v.toNat ++ rest :=
    gives_word (by decide)

theorem gives_readU64 {v : BitVec 64} : Gives readU64 b v rest ↔ b = leBytes 8 v.toNat ++ rest :=
    gives_word (by decide)

theorem gives_readI64 {v : BitVec 64} : Gives readI64 b v rest ↔ b = leBytes 8 v.toNat ++ rest :=
    gives_word (by decide)

theorem gives_u8ToKind {k : TempKind} : Gives (u8ToKind v) b k rest ↔ v.toNat = kindByte k ∧ rest = b := by
  unfold u8ToKind
  split <;> cases k <;> simp_all [kindByte]

theorem gives_u8ToType {ty : IrType} : Gives (u8ToType v) b ty rest ↔ v.toNat = typeByte ty ∧ rest = b := by
  unfold u8ToType
  split <;> cases ty <;> simp_all [typeByte]

theorem ofNat_ctorIdx (opc : Opcode) : Opcode.ofNat opc.ctorIdx = opc := by cases opc <;> rfl

theorem ctorIdx_ofNat : ∀ n < opcodeCount, (Opcode.ofNat n).ctorIdx = n := by decide

theorem ctorIdx_lt (opc : Opcode) : opc.ctorIdx < opcodeCount := by cases opc <;> decide

theorem gives_u8ToOpcode {opc : Opcode} : Gives (u8ToOpcode v) b opc rest ↔ v.toNat = opc.ctorIdx ∧ rest = b := by
  unfold u8ToOpcode
  split
  · rename_i h
    rw [gives_pure]
    constructor
    · rintro ⟨rfl, rfl⟩
      exact ⟨(ctorIdx_ofNat _ h).symm, rfl⟩
    · rintro ⟨hv, rfl⟩
      rw [hv]
      exact ⟨(ofNat_ctorIdx opc).symm, rfl⟩
  · rename_i h
    refine iff_of_false not_gives_fail ?_
    rintro ⟨hv, -⟩
    exact h (hv ▸ ctorIdx_lt opc)

/-- A byte and what it stands for. -/
theorem gives_coded {r : BitVec 8 → Rd X} {code : X → Nat} (hcode : ∀ x, code x < 256)
    (hr : ∀ v b x rest, Gives (r v) b x rest ↔ v.toNat = code x ∧ rest = b) {x : X} :
    Gives (readU8 >>= r) b x rest ↔ b = leBytes 1 (code x) ++ rest := by
  simp only [gives_bind, gives_readU8, hr]
  constructor
  · rintro ⟨v, _, rfl, hv, rfl⟩
    rw [hv]
  · rintro rfl
    have hv : (BitVec.ofNat 8 (code x)).toNat = code x := Nat.mod_eq_of_lt (hcode x)
    exact ⟨BitVec.ofNat 8 (code x), rest, by rw [hv], hv, rfl⟩

theorem gives_readKind {k : TempKind} : Gives readKind b k rest ↔ b = leBytes 1 (kindByte k) ++ rest :=
  gives_coded (fun k => by cases k <;> decide) fun _ _ _ _ => gives_u8ToKind

theorem gives_readType {ty : IrType} : Gives readType b ty rest ↔ b = leBytes 1 (typeByte ty) ++ rest :=
  gives_coded (fun ty => by cases ty <;> decide) fun _ _ _ _ => gives_u8ToType

theorem gives_readOpcode {opc : Opcode} : Gives readOpcode b opc rest ↔ b = leBytes 1 opc.ctorIdx ++ rest :=
  gives_coded (fun opc => (ctorIdx_lt opc).trans (by decide)) fun _ _ _ _ => gives_u8ToOpcode

/-- Reading a number, a kind, a type or an opcode can fail, but does not panic. -/
theorem not_stops_word : ¬Stops (word n w) b .panic := by
  rw [stops_word]
  simp

theorem not_stops_readU8 : ¬Stops readU8 b .panic := not_stops_word
theorem not_stops_readU16 : ¬Stops readU16 b .panic := not_stops_word
theorem not_stops_readU32 : ¬Stops readU32 b .panic := not_stops_word
theorem not_stops_readU64 : ¬Stops readU64 b .panic := not_stops_word
theorem not_stops_readI64 : ¬Stops readI64 b .panic := not_stops_word

theorem not_stops_exact : ¬Stops (exact .unexpectedEof n : Rd Bytes) b .panic := by
  rw [stops_exact]
  simp

theorem not_stops_coded {r : BitVec 8 → Rd X} (hr : ∀ v b, ¬Stops (r v) b .panic) :
    ¬Stops (readU8 >>= r) b .panic := by
  rw [stops_bind]
  rintro (h | ⟨v, mid, -, h⟩)
  · exact not_stops_word h
  · exact hr v mid h

theorem not_stops_readKind : ¬Stops readKind b .panic := by
  refine not_stops_coded fun v b => ?_
  unfold u8ToKind
  split <;> simp

theorem not_stops_readType : ¬Stops readType b .panic := by
  refine not_stops_coded fun v b => ?_
  unfold u8ToType
  split <;> simp

theorem not_stops_readOpcode : ¬Stops readOpcode b .panic := by
  refine not_stops_coded fun v b => ?_
  unfold u8ToOpcode
  split <;> simp

end Words

section Items

/-- Bytes are a string exactly when they are its encoding. -/
theorem fromUTF8_iff (buf : Bytes) (s : String) : String.fromUTF8? ⟨buf.toArray⟩ = some s ↔ buf = nameBytes s := by
  rw [String.fromUTF8?]
  constructor
  · intro h
    split at h
    · cases h
      rfl
    · cases h
  · rintro rfl
    have harray : (⟨(nameBytes s).toArray⟩ : ByteArray) = s.toByteArray := by
      rw [nameBytes, Array.toArray_toList]
      rfl
    rw [harray, dif_pos s.isValidUTF8]
    rfl

theorem readName_parses : Parses readName (fun s => (nameBytes s).length < 2 ^ 16) (fun _ s => s) writeName := by
  intro i b s rest
  simp only [readName, turn, gives_bind, gives_count, gives_readU16, gives_exact]
  constructor
  · rintro ⟨_, _, rfl, len, _, rfl, buf, _, ⟨hlen, rfl⟩, h⟩
    cases hs : String.fromUTF8? ⟨buf.toArray⟩ with
    | none =>
      rw [hs] at h
      exact absurd h not_gives_fail
    | some s' =>
      rw [hs] at h
      obtain ⟨rfl, rfl⟩ := gives_pure.mp h
      obtain rfl := (fromUTF8_iff buf s).mp hs
      refine ⟨s, hlen ▸ len.isLt, rfl, ?_⟩
      rw [writeName, hlen, List.append_assoc]
  · rintro ⟨s, hs, rfl, rfl⟩
    refine ⟨(), _, rfl, BitVec.ofNat 16 (nameBytes s).length, nameBytes s ++ rest, ?_, nameBytes s, rest,
      ⟨?_, rfl⟩, ?_⟩
    · rw [writeName, BitVec.toNat_ofNat, Nat.mod_eq_of_lt hs, List.append_assoc]
    · rw [BitVec.toNat_ofNat, Nat.mod_eq_of_lt hs]
    · rw [(fromUTF8_iff _ s).mpr rfl]
      exact gives_pure.mpr ⟨rfl, rfl⟩

theorem gives_lookupName {k : BitVec 32} {name : Option String} : Gives (lookupName names k) b name rest ↔
      (k = noIndex ∨ k.toNat < names.length) ∧ name = (if k = noIndex then none else names[k.toNat]?) ∧ rest = b := by
  unfold lookupName
  split
  · rename_i h
    simp [h]
  rename_i h
  split
  · rename_i s hs
    have hlt := (List.getElem?_eq_some_iff.mp hs).1
    rw [hs]
    simp [h, hlt]
  · rename_i hs
    have hle := List.getElem?_eq_none_iff.mp hs
    refine iff_of_false not_gives_fail ?_
    rintro ⟨hk | hk, -⟩
    · exact h hk
    · omega

theorem stops_lookupName {k : BitVec 32} :
    Stops (lookupName names k) b e ↔ ¬(k = noIndex ∨ k.toNat < names.length) ∧ e = .panic := by
  unfold lookupName
  split
  · rename_i h
    simp [h]
  rename_i h
  split
  · rename_i s hs
    have hlt := (List.getElem?_eq_some_iff.mp hs).1
    simp [hlt]
  rename_i hs
  have hle := List.getElem?_eq_none_iff.mp hs
  simp [h, hle]

theorem readTemp_parses (names : List String) :
    Parses (readTemp names) (fun t => t.Named names) (fun i t => t.temp names i) RawTemp.write := by
  intro i b t rest
  simp only [readTemp, turn, gives_bind, gives_count, gives_readU8, gives_readU32, gives_readU64, gives_readI64,
    gives_readKind, gives_readType, gives_lookupName, gives_pure]
  constructor
  · rintro ⟨_, _, rfl, kind, _, rfl, ty, _, rfl, base, _, rfl, reg, _, rfl, val, _, rfl, mb, _, rfl, mo, _,
      rfl, ni, _, rfl, name, _, ⟨hname, rfl, rfl⟩, rfl, rfl⟩
    refine ⟨⟨kind, ty, base, reg, val, mb, mo, ni⟩, hname, rfl, ?_⟩
    simp [RawTemp.write]
  · rintro ⟨t, ht, rfl, rfl⟩
    simp only [RawTemp.write, List.append_assoc]
    exact ⟨(), _, rfl, t.kind, _, rfl, t.ty, _, rfl, t.baseType, _, rfl, t.reg, _, rfl, t.val, _, rfl,
      t.memBase, _, rfl, t.memOffset, _, rfl, t.name, _, rfl, _, rest, ⟨ht, rfl, rfl⟩, rfl, rfl⟩

/-- A temporary makes the reader panic exactly when its name is not in the table. -/
theorem stops_readTemp (names : List String) (i : Nat) (b : Bytes) :
    Stops (readTemp names i) b .panic ↔ ∃ t rest, ¬RawTemp.Named t names ∧ b = t.write ++ rest := by
  simp only [readTemp, turn, stops_bind, gives_count, gives_readU8, gives_readU32, gives_readU64, gives_readI64,
    gives_readKind, gives_readType, stops_lookupName, not_stops_count, not_stops_pure, not_stops_readKind,
    not_stops_readType, not_stops_readU8, not_stops_readU32, not_stops_readU64, not_stops_readI64, false_or, and_false,
    exists_false, or_false, and_true]
  constructor
  · rintro ⟨_, _, rfl, kind, _, rfl, ty, _, rfl, base, _, rfl, reg, _, rfl, val, _, rfl, mb, _, rfl, mo, _,
      rfl, ni, rest, rfl, hname⟩
    refine ⟨⟨kind, ty, base, reg, val, mb, mo, ni⟩, rest, hname, ?_⟩
    simp [RawTemp.write]
  · rintro ⟨t, rest, ht, rfl⟩
    simp only [RawTemp.write, List.append_assoc]
    exact ⟨(), _, rfl, t.kind, _, rfl, t.ty, _, rfl, t.baseType, _, rfl, t.reg, _, rfl, t.val, _, rfl,
      t.memBase, _, rfl, t.memOffset, _, rfl, t.name, rest, rfl, ht⟩

theorem readArg_parses : Parses readArg (fun _ => True) (fun _ a => a) fun a => leBytes 4 a.toNat := by
  intro i b a rest
  simp [readArg, turn, gives_bind, gives_readU32]

theorem gives_readArgs {args : List (BitVec 32)} : Gives (times readArg n 0) b args rest ↔
      args.length = n ∧ b = (args.flatMap fun a => leBytes 4 a.toNat) ++ rest := by
  rw [readArg_parses.gives_times]
  constructor
  · rintro ⟨xs, hlen, -, rfl, rfl⟩
    simp [hlen]
  · rintro ⟨hlen, rfl⟩
    exact ⟨args, hlen, fun _ _ => trivial, by simp, rfl⟩

theorem readOp_parses : Parses readOp RawOp.Good (fun i op => op.op i) RawOp.write := by
  intro i b op rest
  simp only [readOp, turn, gives_bind, gives_count, gives_readU8, gives_readOpcode, gives_readType, gives_exact,
    gives_readArgs, gives_pure]
  constructor
  · rintro ⟨_, _, rfl, opc, _, rfl, ty, _, rfl, p1, _, rfl, p2, _, rfl, nargs, _, rfl, pad, _, ⟨hpad, rfl⟩, args, _,
      ⟨hargs, rfl⟩, rfl, rfl⟩
    refine ⟨⟨opc, ty, p1, p2, nargs, pad, args⟩, ⟨hpad, hargs⟩, rfl, ?_⟩
    simp [RawOp.write]
  · rintro ⟨op, ⟨hpad, hargs⟩, rfl, rfl⟩
    simp only [RawOp.write, List.append_assoc]
    exact ⟨(), _, rfl, op.opc, _, rfl, op.opType, _, rfl, op.param1, _, rfl, op.param2, _, rfl, op.nargs, _,
      rfl, op.pad, _, ⟨hpad, rfl⟩, op.args, _, ⟨hargs, rfl⟩, rfl, rfl⟩

theorem not_stops_readArgs : ¬Stops (times readArg n 0) b .panic := by
  rw [readArg_parses.stops_times]
  rintro ⟨xs, s, -, -, rfl, h⟩
  simp only [readArg, turn, stops_bind, not_stops_count, not_stops_readU32, and_false, exists_false, or_false] at h

theorem not_stops_readOp : ¬Stops (readOp i) b .panic := by
  simp only [readOp, turn, stops_bind, not_stops_count, not_stops_readOpcode, not_stops_readType, not_stops_readU8,
    not_stops_exact, not_stops_readArgs, not_stops_pure, and_false, exists_false, or_false, not_false_iff]

theorem not_stops_readName : ¬Stops (readName i) b .panic := by
  simp only [readName, turn, stops_bind, not_stops_count, not_stops_readU16, not_stops_exact, false_or, not_exists,
    not_and]
  intro _ _ _ len _ _ buf _ _ h
  split at h
  · exact not_stops_pure h
  · simp at h

end Items

section Labels

theorem length_numbered (n : Nat) : (numbered n).length = n := by simp [numbered]

theorem numbered_append (n k : Nat) :
    numbered n ++ (List.range' n k).map (fun i => (⟨BitVec.ofNat 32 i⟩ : Label)) = numbered (n + k) := by
  rw [numbered, numbered, ← List.map_append, List.range_add, List.range'_eq_map_range]

theorem le_afterOp (n : Nat) (op : Op) : n ≤ afterOp n op := by
  unfold afterOp
  split
  · exact Nat.le_max_left ..
  · exact Nat.le_refl n

theorem le_labelCount (ops : List Op) (n : Nat) : n ≤ labelCount ops n := by
  induction ops generalizing n with
  | nil => exact Nat.le_refl n
  | cons op ops ih => exact (le_afterOp n op).trans (ih (afterOp n op))

/-- One operation: the labels it names are created. -/
theorem run_growFor (n : Nat) (op : Op) (b : Bytes) :
    growFor op (numbered n) b = ((0, afterOp n op - n), .ok (numbered (afterOp n op), b)) := by
  unfold growFor afterOp
  cases namedLabel op with
  | none =>
    rw [Nat.sub_self]
    rfl
  | some id =>
    have hgrow : max n (id.toNat + 1) = n + (id.toNat + 1 - n) := by omega
    have hcount : Gives (count (0, id.toNat + 1 - n) : Rd Unit) b () b := gives_count.mpr rfl
    dsimp only
    rw [growLabels, length_numbered, run_bind_gives hcount, numbered_append, hgrow, Nat.add_sub_cancel_left]
    rfl

/-- Reading counts one turn for each operation, and the labels that were not there before. -/
theorem run_buildLabels (ops : List Op) (n : Nat) (b : Bytes) : buildLabels ops (numbered n) b =
      ((ops.length, labelCount ops n - n), .ok (numbered (labelCount ops n), b)) := by
  induction ops generalizing n with
  | nil =>
    rw [labelCount, List.foldl_nil, Nat.sub_self]
    rfl
  | cons op ops ih =>
    have hle := le_afterOp n op
    have hle' := le_labelCount ops (afterOp n op)
    have hturn : Gives turn b () b := gives_count.mpr rfl
    have hgrow : Gives (growFor op (numbered n)) b (numbered (afterOp n op)) b :=
      congrArg Prod.snd (run_growFor n op b)
    have hcount : labelCount (op :: ops) n = labelCount ops (afterOp n op) := rfl
    rw [buildLabels, run_bind_gives hturn, run_bind_gives hgrow, run_growFor, ih, hcount]
    refine Prod.ext (Prod.ext ?_ ?_) rfl
    · show 1 + (0 + ops.length) = ops.length + 1
      omega
    · show 0 + (afterOp n op - n + (labelCount ops (afterOp n op) - afterOp n op)) = labelCount ops (afterOp n op) - n
      omega

theorem gives_buildLabels {ops : List Op} {labels : List Label} :
    Gives (buildLabels ops []) b labels rest ↔ labels = numbered (labelCount ops 0) ∧ rest = b := by
  rw [Gives, show ([] : List Label) = numbered 0 from rfl, run_buildLabels]
  simp [eq_comm]

theorem not_stops_buildLabels {ops : List Op} : ¬Stops (buildLabels ops []) b e := by
  rw [Stops, show ([] : List Label) = numbered 0 from rfl, run_buildLabels]
  simp

end Labels

section Blocks

variable {α X : Type} {r : Nat → Rd α} {good : X → Prop} {value : Nat → X → α} {write : X → Bytes}

theorem gives_counted (h : Parses r good value write) {as : List α} : Gives (counted r) b as rest ↔
      ∃ xs : List X, xs.length < 2 ^ 32 ∧ (∀ x ∈ xs, good x) ∧ as = (xs.zipIdx 0).map (fun p => value p.2 p.1) ∧
        b = leBytes 4 xs.length ++ xs.flatMap write ++ rest := by
  simp only [counted, gives_bind, gives_readU32, h.gives_times]
  constructor
  · rintro ⟨n, _, rfl, xs, hlen, hxs, rfl, rfl⟩
    exact ⟨xs, hlen ▸ n.isLt, hxs, rfl, by rw [hlen, List.append_assoc]⟩
  · rintro ⟨xs, hlen, hxs, rfl, rfl⟩
    have hn : (BitVec.ofNat 32 xs.length).toNat = xs.length := Nat.mod_eq_of_lt hlen
    exact ⟨BitVec.ofNat 32 xs.length, _, by rw [hn, List.append_assoc], xs, hn.symm, hxs, rfl, rfl⟩

theorem stops_counted (h : Parses r good value write) : Stops (counted r) b .panic ↔
      ∃ (n : Nat) (xs : List X) (s : Bytes), n < 2 ^ 32 ∧ xs.length < n ∧ (∀ x ∈ xs, good x) ∧
        b = leBytes 4 n ++ xs.flatMap write ++ s ∧ Stops (r xs.length) s .panic := by
  simp only [counted, stops_bind, gives_readU32, not_stops_readU32, false_or, h.stops_times, Nat.zero_add]
  constructor
  · rintro ⟨n, _, rfl, xs, s, hlen, hxs, rfl, hstop⟩
    exact ⟨n.toNat, xs, s, n.isLt, hlen, hxs, by rw [List.append_assoc], hstop⟩
  · rintro ⟨n, xs, s, hn, hlen, hxs, rfl, hstop⟩
    have hn' : (BitVec.ofNat 32 n).toNat = n := Nat.mod_eq_of_lt hn
    exact ⟨BitVec.ofNat 32 n, _, by rw [hn', List.append_assoc], xs, s, by rw [hn']; exact hlen, hxs, rfl, hstop⟩

theorem gives_readStringTable :
    Gives readStringTable b names rest ↔ GoodNames names ∧ b = writeNames names ++ rest := by
  rw [readStringTable, gives_counted readName_parses]
  constructor
  · rintro ⟨xs, hlen, hxs, rfl, rfl⟩
    have hsame : (xs.zipIdx 0).map (fun p => p.1) = xs := by simp
    rw [hsame]
    exact ⟨⟨hlen, hxs⟩, rfl⟩
  · rintro ⟨⟨hlen, hnames⟩, rfl⟩
    exact ⟨names, hlen, hnames, by simp, rfl⟩

theorem not_stops_readStringTable : ¬Stops readStringTable b .panic := by
  rw [readStringTable, stops_counted readName_parses]
  rintro ⟨n, xs, s, -, -, -, -, h⟩
  exact not_stops_readName h

/-- The reader takes complete blocks and nothing else. -/
theorem gives_deserializeOneTb :
    Gives (deserializeOneTb g) b ctx rest ↔ ∃ tb : RawTb, tb.Good ∧ ctx = tb.context g ∧ b = tb.write ++ rest := by
  simp only [deserializeOneTb, gives_bind, gives_readStringTable, gives_counted (readTemp_parses _),
    gives_counted readOp_parses, gives_buildLabels, gives_pure]
  constructor
  · rintro ⟨names, _, ⟨hnames, rfl⟩, _, _, ⟨temps, htcount, htemps, rfl, rfl⟩, _, _, ⟨ops, hocount, hops, rfl, rfl⟩,
      _, _, ⟨rfl, rfl⟩, rfl, rfl⟩
    refine ⟨⟨names, temps, ops⟩, ⟨hnames, htcount, htemps, hocount, hops⟩, rfl, ?_⟩
    simp [RawTb.write]
  · rintro ⟨tb, h, rfl, rfl⟩
    simp only [RawTb.write, List.append_assoc]
    exact ⟨tb.names, _, ⟨h.names, rfl⟩, _, _, ⟨tb.temps, h.tempCount, h.temps, rfl, rfl⟩, _, _,
      ⟨tb.ops, h.opCount, h.ops, rfl, rfl⟩, _, _, ⟨rfl, rfl⟩, rfl, rfl⟩

/-- The reader panics at a block with a bad name and nowhere else. -/
theorem stops_deserializeOneTb : Stops (deserializeOneTb g) b .panic ↔ BadTb b := by
  simp only [deserializeOneTb, stops_bind, gives_readStringTable, not_stops_readStringTable, false_or,
    stops_counted (readTemp_parses _), stops_readTemp, stops_counted readOp_parses, not_stops_readOp, and_false,
    exists_false, not_stops_buildLabels, not_stops_pure, or_false]
  constructor
  · rintro ⟨names, _, ⟨hnames, rfl⟩, n, temps, _, hn, hlen, htemps, rfl, t, rest, ht, rfl⟩
    exact ⟨names, n, temps, t, rest, hnames, hn, hlen, htemps, ht, by simp⟩
  · rintro ⟨names, n, temps, t, rest, hnames, hn, hlen, htemps, ht, rfl⟩
    simp only [List.append_assoc]
    exact ⟨names, _, ⟨hnames, rfl⟩, n, temps, _, hn, hlen, htemps, rfl, t, rest, ht, rfl⟩

theorem stops_readTb : Stops (readTb g i) b .panic ↔ BadTb b := by
  simp [readTb, turn, stops_bind, stops_deserializeOneTb]

theorem readTb_parses (g : BitVec 32) : Parses (readTb g) RawTb.Good (fun _ tb => tb.context g) RawTb.write := by
  intro i b ctx rest
  simp [readTb, turn, gives_bind, gives_deserializeOneTb]

end Blocks

section Files

/-- How far the reader has come: the blocks the last header announced and that are still to come, and the bytes. -/
structure Cursor where
  pending : Nat
  nbGlobals : BitVec 32
  bytes : Bytes

inductive Item where
  | header (h : Header)
  | tb (nbGlobals : BitVec 32) (tb : RawTb)

/-- A complete header or block stands at the front. -/
inductive Next : Cursor → Item → Cursor → Prop where
  | header (g : BitVec 32) (h : Header) (s : Bytes) :
    Next ⟨0, g, headerBytes h ++ s⟩ (.header h) ⟨h.tbCount.toNat, h.nbGlobals, s⟩
  | tb (n : Nat) (g : BitVec 32) (t : RawTb) (s : Bytes) (good : t.Good) :
    Next ⟨n + 1, g, t.write ++ s⟩ (.tb g t) ⟨n, g, s⟩

def Stuck (c : Cursor) : Prop := ∀ item c', ¬Next c item c'

def itemLabels : Item → Nat
  | .header _ => 0
  | .tb _ t => t.labels

def labelsOf (items : List Item) : Nat := (items.map itemLabels).sum

def itemContexts : Item → List Context
  | .header _ => []
  | .tb g t => [t.context g]

def contextsOf (items : List Item) : List Context := items.flatMap itemContexts

/-- How reading ends where nothing complete stands at the front. -/
inductive EndsAt (c : Cursor) (items : List Item) : Except Stop (List Context × Bytes) → Prop where
  | finished (done : c.pending = 0) (short : c.bytes.length < 4) : EndsAt c items (.ok (contextsOf items, c.bytes))
  | panics (more : 0 < c.pending) (bad : BadTb c.bytes) : EndsAt c items (.error .panic)
  | refused (e : Stop) (he : e ≠ .panic) (long : ¬(c.pending = 0 ∧ c.bytes.length < 4))
      (ok : ¬(0 < c.pending ∧ BadTb c.bytes)) : EndsAt c items (.error e)

/-- The reader goes as far as there are complete items. -/
def Outcome (c : Cursor) (labels : Nat) (r : Except Stop (List Context × Bytes)) : Prop :=
  ∃ items c', Run Next c items c' ∧ Stuck c' ∧ labels = labelsOf items ∧ EndsAt c' items r

theorem gives_readHeader {h : Header} : Gives readHeader b h rest ↔ b = headerBytes h ++ rest := by
  simp only [readHeader, gives_bind, gives_exact, gives_check, not_not, gives_readU16, gives_readU32, gives_pure]
  constructor
  · rintro ⟨_, _, ⟨-, rfl⟩, rfl, _, _, rfl, rfl, flags, _, rfl, g, _, rfl, labels, _, rfl, tbs, _, rfl, rfl, rfl⟩
    simp only [headerBytes, List.append_assoc]
    rfl
  · rintro rfl
    simp only [headerBytes, List.append_assoc]
    exact ⟨magic, _, ⟨rfl, rfl⟩, rfl, 1#16, _, rfl, rfl, h.flags, _, rfl, h.nbGlobals, _, rfl, h.nbLabels, _, rfl,
      h.tbCount, _, rfl, rfl, rfl⟩

theorem not_stops_readHeader : ¬Stops readHeader b .panic := by
  simp only [readHeader, stops_bind, stops_check, not_stops_exact, not_stops_readU16, not_stops_readU32,
    not_stops_pure, reduceCtorEq, and_false, or_false, exists_false, not_false_iff]

theorem length_headerBytes (h : Header) : (headerBytes h).length = 20 := by simp [headerBytes, magic]

theorem length_tb_pos (t : RawTb) : 0 < t.write.length := by
  simp [RawTb.write, writeNames]

/-- The rest of a run of the reader: the blocks of the current file, then further files. -/
def resume (g : BitVec 32) (n i fuel : Nat) : Rd (List Context) := do
  let contexts ← times (readTb g) n i
  let rest ← deserializeFrom fuel
  pure (contexts ++ rest)

theorem resume_zero (g : BitVec 32) (i fuel : Nat) : resume g 0 i fuel = deserializeFrom fuel := by
  simp [resume, times]

theorem resume_succ (g : BitVec 32) (n i fuel : Nat) : resume g (n + 1) i fuel =
      readTb g i >>= fun ctx => resume g n (i + 1) fuel >>= fun rest => pure (ctx :: rest) := by
  simp [resume, times]

theorem deserializeFrom_succ (fuel : Nat) : deserializeFrom (fuel + 1) = turn >>= fun _ => ifShort 4 (pure [])
        (readHeader >>= fun h => resume h.nbGlobals h.tbCount.toNat 0 fuel) := rfl

end Files

section Counters

/-- The counter of loop turns and the counter of labels. -/
abbrev turns : Nat × Nat →+ Nat := AddMonoidHom.fst Nat Nat
abbrev newLabels : Nat × Nat →+ Nat := AddMonoidHom.snd Nat Nat

theorem free_turn : Free newLabels turn := Free.count rfl

theorem free_word : Free newLabels (word n w) := Free.bind Free.number fun _ => Free.pure

theorem free_readKind : Free newLabels readKind := by
  refine Free.bind free_word fun v => ?_
  unfold u8ToKind
  split <;> first | exact Free.pure | exact Free.fail

theorem free_readType : Free newLabels readType := by
  refine Free.bind free_word fun v => ?_
  unfold u8ToType
  split <;> first | exact Free.pure | exact Free.fail

theorem free_readOpcode : Free newLabels readOpcode := by
  refine Free.bind free_word fun v => ?_
  unfold u8ToOpcode
  split
  · exact Free.pure
  · exact Free.fail

theorem free_counted {α : Type} {r : Nat → Rd α} (h : ∀ i, Free newLabels (r i)) : Free newLabels (counted r) :=
  Free.bind free_word fun _ => Free.times h _ _

theorem free_readName (i : Nat) : Free newLabels (readName i) := by
  refine Free.bind free_turn fun _ => Free.bind free_word fun len => Free.bind Free.exact fun buf => ?_
  split
  · exact Free.pure
  · exact Free.fail

theorem free_lookupName (names : List String) (k : BitVec 32) : Free newLabels (lookupName names k) := by
  unfold lookupName
  split
  · exact Free.pure
  split
  · exact Free.pure
  · exact Free.fail

theorem free_readTemp (names : List String) (i : Nat) : Free newLabels (readTemp names i) :=
  Free.bind free_turn fun _ => Free.bind free_readKind fun _ => Free.bind free_readType fun _ =>
    Free.bind free_readType fun _ => Free.bind free_word fun _ => Free.bind free_word fun _ =>
    Free.bind free_word fun _ => Free.bind free_word fun _ => Free.bind free_word fun _ =>
    Free.bind (free_lookupName _ _) fun _ => Free.pure

theorem free_readOp (i : Nat) : Free newLabels (readOp i) :=
  Free.bind free_turn fun _ => Free.bind free_readOpcode fun _ => Free.bind free_readType fun _ =>
    Free.bind free_word fun _ => Free.bind free_word fun _ => Free.bind free_word fun _ =>
    Free.bind Free.exact fun _ =>
    Free.bind (Free.times (fun _ => Free.bind free_turn fun _ => free_word) _ _) fun _ => Free.pure

/-- What is read of a block before its labels are made. -/
def blockParts : Rd (List Temp × List Op) := do
  let strtab ← readStringTable
  let temps ← counted (readTemp strtab)
  let ops ← counted readOp
  pure (temps, ops)

theorem deserializeOneTb_eq (g : BitVec 32) : deserializeOneTb g = blockParts >>= fun parts =>
      buildLabels parts.2 [] >>= fun labels => pure (.fromRawParts parts.1 parts.2 labels g) := by
  simp [deserializeOneTb, blockParts]

theorem free_blockParts : Free newLabels blockParts :=
  Free.bind (free_counted free_readName) fun names => Free.bind (free_counted (free_readTemp names)) fun _ =>
    Free.bind (free_counted free_readOp) fun _ => Free.pure

theorem turn_gives (b : Bytes) : Gives turn b () b := gives_count.mpr rfl

/-- A block counts its labels if it is complete, and none otherwise. -/
theorem labels_oneTb (h : Gives (deserializeOneTb g) b ctx rest) :
    newLabels (deserializeOneTb g b).1 = ctx.labels.length := by
  rw [deserializeOneTb_eq] at h ⊢
  obtain ⟨⟨temps, ops⟩, mid, hparts, hlabels⟩ := gives_bind.mp h
  obtain ⟨labels, _, hbuild, hpure⟩ := gives_bind.mp hlabels
  obtain ⟨rfl, rfl⟩ := gives_pure.mp hpure
  obtain ⟨rfl, rfl⟩ := gives_buildLabels.mp hbuild
  rw [run_bind_gives hparts, run_bind_gives hbuild, map_add, map_add, free_blockParts b]
  show 0 + (newLabels (buildLabels ops (numbered 0) rest).1 + 0) = (numbered (labelCount ops 0)).length
  rw [run_buildLabels, length_numbered]
  show 0 + (labelCount ops 0 - 0 + 0) = labelCount ops 0
  omega

theorem labels_oneTb_stops (h : Stops (deserializeOneTb g) b e) : newLabels (deserializeOneTb g b).1 = 0 := by
  rw [deserializeOneTb_eq] at h ⊢
  rcases stops_bind.mp h with hparts | ⟨parts, mid, -, hlabels⟩
  · rw [run_bind_stops hparts]
    exact free_blockParts b
  rcases stops_bind.mp hlabels with hbuild | ⟨labels, rest, -, hpure⟩
  · exact absurd hbuild not_stops_buildLabels
  · exact absurd hpure not_stops_pure

theorem run_readTb (g : BitVec 32) (i : Nat) (b : Bytes) :
    readTb g i b = ((1, 0) + (deserializeOneTb g b).1, (deserializeOneTb g b).2) := run_bind_gives (turn_gives b)

theorem labels_readTb (h : Gives (readTb g i) b ctx rest) : newLabels (readTb g i b).1 = ctx.labels.length := by
  rw [Gives, run_readTb] at h
  rw [run_readTb, map_add, labels_oneTb h]
  exact Nat.zero_add _

theorem labels_readTb_stops (h : Stops (readTb g i) b e) : newLabels (readTb g i b).1 = 0 := by
  rw [Stops, run_readTb] at h
  rw [run_readTb, map_add, labels_oneTb_stops h]
  rfl

theorem paid_turn : Paid turns (c + 1) (fun _ => c) turn := Paid.count (by show 1 + c ≤ c + 1; omega)

theorem paid_word : Paid turns c (fun _ => n + c) (word n w) :=
  Paid.bind (Paid.number fun _ => Nat.le_refl _) fun _ => Paid.pure (Nat.le_refl _)

theorem paid_coded {r : BitVec 8 → Rd X} (h : ∀ v, Paid turns (1 + c) (fun _ => c) (r v)) :
    Paid turns c (fun _ => c) (readU8 >>= r) := Paid.bind paid_word h

theorem paid_readKind : Paid turns c (fun _ => c) readKind := by
  refine paid_coded fun v => ?_
  unfold u8ToKind
  split <;> first | exact Paid.pure (by omega) | exact Paid.fail

theorem paid_readType : Paid turns c (fun _ => c) readType := by
  refine paid_coded fun v => ?_
  unfold u8ToType
  split <;> first | exact Paid.pure (by omega) | exact Paid.fail

theorem paid_readOpcode : Paid turns c (fun _ => c) readOpcode := by
  refine paid_coded fun v => ?_
  unfold u8ToOpcode
  split
  · exact Paid.pure (by omega)
  · exact Paid.fail

theorem paid_counted {α : Type} {r : Nat → Rd α} {w : α → Nat} (h : ∀ i, Paid turns 1 (fun a => 1 + w a) (r i)) :
    Paid turns 0 (fun as => 1 + (as.map w).sum) (counted r) := by
  refine Paid.bind paid_word fun n => ?_
  exact (Paid.times h n.toNat 0).weaken (by omega) fun _ => Nat.le_refl _

theorem paid_readName (i : Nat) : Paid turns 1 (fun _ => 1 + 0) (readName i) := by
  refine Paid.bind paid_turn fun _ => Paid.bind paid_word fun len =>
    Paid.bind (w := fun _ => 1) (Paid.exact fun _ _ => by omega) fun buf => ?_
  split
  · exact Paid.pure (Nat.le_refl _)
  · exact Paid.fail

theorem paid_lookupName (names : List String) (k : BitVec 32) : Paid turns c (fun _ => c) (lookupName names k) := by
  unfold lookupName
  split
  · exact Paid.pure (Nat.le_refl _)
  split
  · exact Paid.pure (Nat.le_refl _)
  · exact Paid.fail

theorem paid_readTemp (names : List String) (i : Nat) : Paid turns 1 (fun _ => 1 + 0) (readTemp names i) :=
  Paid.bind paid_turn fun _ => Paid.bind paid_readKind fun _ => Paid.bind paid_readType fun _ =>
    Paid.bind paid_readType fun _ => Paid.bind paid_word fun _ => Paid.bind paid_word fun _ =>
    Paid.bind paid_word fun _ => Paid.bind paid_word fun _ => Paid.bind paid_word fun _ =>
    Paid.bind (paid_lookupName names _) fun _ => Paid.pure (by omega)

theorem paid_readArg (i : Nat) : Paid turns 1 (fun _ => 1 + 0) (readArg i) :=
  Paid.bind paid_turn fun _ => paid_word.weaken (Nat.le_refl _) fun _ => by omega

/-- An operation leaves the credit for its turn in the loop over labels. -/
theorem paid_readOp (i : Nat) : Paid turns 1 (fun _ => 1 + 1) (readOp i) := by
  refine Paid.bind paid_turn fun _ => Paid.bind paid_readOpcode fun _ => Paid.bind paid_readType fun _ =>
    Paid.bind paid_word fun _ => Paid.bind paid_word fun _ => Paid.bind paid_word fun nargs =>
    Paid.bind (w := fun _ => 3) (Paid.exact fun _ _ => by omega) fun _ => ?_
  have hargs := ((Paid.times paid_readArg (min nargs.toNat maxOpArgs) 0).frame 2)
  exact Paid.bind hargs fun _ => Paid.pure (by omega)

theorem paid_blockParts : Paid turns 0 (fun parts => 1 + parts.2.length) blockParts := by
  refine Paid.bind (paid_counted paid_readName) fun names => ?_
  refine Paid.bind ((paid_counted (paid_readTemp names)).weaken (Nat.zero_le _) fun _ => Nat.le_refl _) fun temps => ?_
  refine Paid.bind ((paid_counted paid_readOp).weaken (Nat.zero_le _) fun _ => Nat.le_refl _) fun ops => Paid.pure ?_
  simp

theorem paid_buildLabels (ops : List Op) : Paid turns (1 + ops.length) (fun _ => 1) (buildLabels ops []) := by
  refine ⟨fun b labels rest h => ?_, fun b e h => absurd h not_stops_buildLabels⟩
  obtain ⟨rfl, rfl⟩ := gives_buildLabels.mp h
  rw [show ([] : List Label) = numbered 0 from rfl, run_buildLabels]
  show ops.length + 1 + rest.length ≤ rest.length + (1 + ops.length)
  omega

theorem paid_readTb (g : BitVec 32) (i : Nat) : Paid turns 1 (fun _ => 1 + 0) (readTb g i) := by
  refine Paid.bind paid_turn fun _ => ?_
  rw [deserializeOneTb_eq]
  exact Paid.bind paid_blockParts fun parts => Paid.bind (paid_buildLabels parts.2) fun _ => Paid.pure (Nat.le_refl _)

theorem paid_readHeader : Paid turns 0 (fun _ => 2) readHeader := by
  refine Paid.bind (w := fun _ => 4) (Paid.exact fun _ _ => by omega) fun m => ?_
  split
  · exact Paid.fail
  refine Paid.bind paid_word fun v => ?_
  split
  · exact Paid.fail
  · exact Paid.bind paid_word fun _ => Paid.bind paid_word fun _ => Paid.bind paid_word fun _ =>
      Paid.bind paid_word fun _ => Paid.pure (by omega)

theorem paid_deserializeFrom (fuel : Nat) : Paid turns 1 (fun _ => 0) (deserializeFrom fuel) := by
  induction fuel with
  | zero => exact Paid.fail
  | succ fuel ih =>
    refine Paid.bind paid_turn fun _ => Paid.ifShort (Paid.pure (Nat.le_refl _)) ?_
    refine Paid.bind paid_readHeader fun h => ?_
    refine Paid.bind ((Paid.times (paid_readTb h.nbGlobals) h.tbCount.toNat 0).weaken (by omega)
      fun _ => Nat.le_add_right 1 _) fun contexts => ?_
    exact Paid.bind ih fun rest => Paid.pure (Nat.le_refl _)

end Counters

section Outcomes

theorem stuck_of_short {c : Cursor} (hdone : c.pending = 0) (hshort : c.bytes.length < 4) : Stuck c := by
  rintro item c' ⟨⟩
  · simp only [List.length_append, length_headerBytes] at hshort
    omega
  · cases hdone

theorem stuck_of_stops (h : Stops (readTb g i) b e) : Stuck ⟨n + 1, g, b⟩ := by
  rintro item c' ⟨⟩
  rename_i t s good
  exact ((readTb_parses g i _ _ _).mpr ⟨t, good, rfl, rfl⟩).not_stops h

theorem Outcome.cons {c c' : Cursor} {item : Item} {labels : Nat} {r : Except Stop (List Context × Bytes)}
    (hnext : Next c item c') (h : Outcome c' labels r) :
    Outcome c (itemLabels item + labels) (r.map fun p => (itemContexts item ++ p.1, p.2)) := by
  obtain ⟨items, c'', hrun, hstuck, rfl, hend⟩ := h
  refine ⟨item :: items, c'', .cons hnext hrun, hstuck, ?_, ?_⟩
  · simp [labelsOf]
  · cases hend with
    | finished done short => exact .finished done short
    | panics more bad => exact .panics more bad
    | refused e he long ok => exact .refused e he long ok

/-- A value put before what a reader gives. -/
theorem run_bind_cons {r : Rd (List Context)} :
    (r >>= fun rest => pure (ctx :: rest)) b = ((r b).1, (r b).2.map fun p => ([ctx] ++ p.1, p.2)) := by
  rcases gives_or_stops r b with ⟨cs, rest, h⟩ | ⟨e, h⟩
  · rw [run_bind_gives h, show (r b).2 = .ok (cs, rest) from h]
    exact Prod.ext (add_zero _) rfl
  · rw [run_bind_stops h, show (r b).2 = .error e from h]
    rfl

theorem readHeader_labels (b : Bytes) : newLabels (readHeader b).1 = 0 := by
  refine (show Free newLabels readHeader from Free.bind Free.exact fun m => ?_) b
  split
  · exact Free.fail
  refine Free.bind free_word fun v => ?_
  split
  · exact Free.fail
  · exact Free.bind free_word fun _ => Free.bind free_word fun _ => Free.bind free_word fun _ =>
      Free.bind free_word fun _ => Free.pure

/-- From anywhere the reader goes on to the last complete item, if there is fuel for the bytes. -/
theorem outcome_resume (fuel n : Nat) (g : BitVec 32) (i : Nat) (s : Bytes) (hfuel : s.length < fuel) :
    Outcome ⟨n, g, s⟩ (newLabels (resume g n i fuel s).1) (resume g n i fuel s).2 := by
  induction fuel generalizing n g i s with
  | zero => omega
  | succ fuel ih =>
    induction n generalizing i s with
    | zero =>
      rw [resume_zero, deserializeFrom_succ, run_bind_gives (turn_gives s), map_add]
      by_cases hshort : s.length < 4
      · rw [run_short hshort]
        exact ⟨[], _, .nil _, stuck_of_short rfl hshort, rfl, .finished rfl hshort⟩
      rw [run_long hshort]
      rcases gives_or_stops readHeader s with ⟨h, rest, hgives⟩ | ⟨e, hstop⟩
      · obtain rfl := gives_readHeader.mp hgives
        rw [run_bind_gives hgives, map_add, readHeader_labels]
        rw [List.length_append, length_headerBytes] at hfuel
        have hrest := Outcome.cons (.header g h rest) (ih h.tbCount.toNat h.nbGlobals 0 rest (by omega))
        have hmap (r : Except Stop (List Context × Bytes)) :
            r.map (fun p => (itemContexts (.header h) ++ p.1, p.2)) = r := by cases r <;> rfl
        rw [hmap] at hrest
        rw [Nat.zero_add]
        exact hrest
      · rw [run_bind_stops hstop, readHeader_labels]
        refine ⟨[], _, .nil _, ?_, rfl, .refused e ?_ ?_ ?_⟩
        · rintro item c' ⟨⟩
          exact (gives_readHeader.mpr rfl).not_stops hstop
        · rintro rfl
          exact not_stops_readHeader hstop
        · exact fun hend => hshort hend.2
        · exact fun hend => absurd hend.1 (Nat.lt_irrefl 0)
    | succ n ihn =>
      rw [resume_succ]
      rcases gives_or_stops (readTb g i) s with ⟨ctx, rest, hgives⟩ | ⟨e, hstop⟩
      · obtain ⟨t, good, rfl, rfl⟩ := (readTb_parses g i _ _ _).mp hgives
        rw [run_bind_gives hgives, run_bind_cons, map_add, labels_readTb hgives]
        rw [List.length_append] at hfuel
        have hpos := length_tb_pos t
        have hlabels : (t.context g).labels.length = t.labels := length_numbered _
        rw [hlabels]
        exact Outcome.cons (.tb n g t rest good) (ihn (i + 1) rest (by omega))
      · rw [run_bind_stops hstop, labels_readTb_stops hstop]
        refine ⟨[], _, .nil _, stuck_of_stops hstop, rfl, ?_⟩
        by_cases he : e = .panic
        · subst he
          exact .panics (Nat.succ_pos n) (stops_readTb.mp hstop)
        refine .refused e he (fun hend => absurd hend.1 (Nat.succ_ne_zero n)) ?_
        rintro ⟨-, hbad⟩
        exact he (Except.error.inj (hstop.symm.trans (stops_readTb.mpr hbad)))

/-- Reading ends at the last complete item. -/
theorem outcome_deserialize (b : Bytes) : Outcome ⟨0, 0#32, b⟩ (newLabels (deserialize b).1) (deserialize b).2 := by
  rw [deserialize, ← resume_zero 0#32 0]
  exact outcome_resume _ _ _ _ b (Nat.lt_succ_self _)

end Outcomes

section Runs

variable {c c₁ c₂ : Cursor}

/-- What stands at the front is read in one way only. -/
theorem Next.unique {item1 item2 : Item} (h1 : Next c item1 c₁) (h2 : Next c item2 c₂) :
    itemLabels item1 = itemLabels item2 ∧ itemContexts item1 = itemContexts item2 ∧ c₁ = c₂ := by
  cases h1 with
  | header g h s =>
    generalize hb : headerBytes h ++ s = b at h2
    cases h2 with
    | header _ h' s' =>
      obtain ⟨rfl, rfl⟩ := (gives_readHeader.mpr hb.symm).unique (gives_readHeader.mpr rfl)
      exact ⟨rfl, rfl, rfl⟩
  | tb n g t s good =>
    generalize hb : t.write ++ s = b at h2
    cases h2 with
    | tb _ _ t' s' good' =>
      have hgives := (readTb_parses g 0 (t'.write ++ s') (t.context g) s).mpr ⟨t, good, rfl, hb.symm⟩
      have hgives' := (readTb_parses g 0 (t'.write ++ s') (t'.context g) s').mpr ⟨t', good', rfl, rfl⟩
      obtain ⟨hctx, rfl⟩ := hgives.unique hgives'
      have hlabels : t.labels = t'.labels := by
        have hlen := congrArg (fun ctx => ctx.labels.length) hctx
        rwa [show (t.context g).labels.length = t.labels from length_numbered _,
          show (t'.context g).labels.length = t'.labels from length_numbered _] at hlen
      exact ⟨hlabels, congrArg (fun ctx => [ctx]) hctx, rfl⟩

theorem labelsOf_cons (item : Item) (items : List Item) :
    labelsOf (item :: items) = itemLabels item + labelsOf items := by
  simp [labelsOf]

theorem contextsOf_cons (item : Item) (items : List Item) :
    contextsOf (item :: items) = itemContexts item ++ contextsOf items := by
  simp [contextsOf]

theorem run_toStuck {items1 items2 : List Item} (h1 : Run Next c items1 c₁) (hstuck : Stuck c₁)
    (h2 : Run Next c items2 c₂) : ∃ more, Run Next c₂ more c₁ ∧ labelsOf items1 = labelsOf items2 + labelsOf more ∧
      contextsOf items1 = contextsOf items2 ++ contextsOf more := by
  induction h2 generalizing items1 with
  | nil => exact ⟨items1, h1, (Nat.zero_add _).symm, rfl⟩
  | cons hstep _ ih =>
    cases h1 with
    | nil => exact absurd hstep (hstuck _ _)
    | cons hstep' hrest =>
      obtain ⟨hlabels, hcontexts, rfl⟩ := hstep'.unique hstep
      obtain ⟨more, hmore, hl, hc⟩ := ih hrest
      refine ⟨more, hmore, ?_, ?_⟩
      · rw [labelsOf_cons, labelsOf_cons, hlabels, hl, Nat.add_assoc]
      · rw [contextsOf_cons, contextsOf_cons, hcontexts, hc, List.append_assoc]

theorem run_stuck_unique {items1 items2 : List Item} (h1 : Run Next c items1 c₁) (hstuck1 : Stuck c₁)
    (h2 : Run Next c items2 c₂) (hstuck2 : Stuck c₂) : c₁ = c₂ ∧ contextsOf items1 = contextsOf items2 := by
  obtain ⟨more, hmore, -, hc⟩ := run_toStuck h1 hstuck1 h2
  cases hmore with
  | nil => exact ⟨rfl, hc.trans (List.append_nil _)⟩
  | cons hstep _ => exact absurd hstep (hstuck2 _ _)

theorem stuck_of_bad (h : BadTb b) : Stuck ⟨n + 1, g, b⟩ :=
  stuck_of_stops (i := 0) (stops_readTb.mpr h)

end Runs

/-- The input is read without a panic, in turns and labels that are linear in it, and is accepted only as a whole. -/
structure ReadWell (b : Bytes) : Prop where
  returns : (deserialize b).2 ≠ .error .panic
  turns : (deserialize b).1.1 ≤ b.length + 1
  labels : (deserialize b).1.2 ≤ b.length
  whole : ∀ contexts rest, (deserialize b).2 = .ok (contexts, rest) → rest = []

/-- No block that is reached has a name index outside its string table, the labels of the complete blocks are not more
than the bytes, and after the last complete file there are not one to three bytes. -/
structure WellFormed (b : Bytes) : Prop where
  names : ∀ items n g s, Run Next ⟨0, 0#32, b⟩ items ⟨n + 1, g, s⟩ → ¬BadTb s
  labels : ∀ items c, Run Next ⟨0, 0#32, b⟩ items c → labelsOf items ≤ b.length
  whole : ∀ items g s, Run Next ⟨0, 0#32, b⟩ items ⟨0, g, s⟩ → s.length < 4 → s = []

theorem wellFormed_of_readWell (h : ReadWell b) : WellFormed b := by
  obtain ⟨items, c, hrun, hstuck, hlabels, hend⟩ := outcome_deserialize b
  refine ⟨?_, ?_, ?_⟩
  · intro items2 n g s hrun2 hbad
    obtain ⟨rfl, -⟩ := run_stuck_unique hrun hstuck hrun2 (stuck_of_bad hbad)
    generalize hr : (deserialize b).2 = r at hend
    cases hend with
    | finished done short => cases done
    | panics more bad => exact h.returns hr
    | refused e he long ok => exact ok ⟨Nat.succ_pos n, hbad⟩
  · intro items2 c₂ hrun2
    obtain ⟨more, -, hsum, -⟩ := run_toStuck hrun hstuck hrun2
    have hle : labelsOf items ≤ b.length := hlabels ▸ h.labels
    omega
  · intro items2 g s hrun2 hshort
    obtain ⟨rfl, -⟩ := run_stuck_unique hrun hstuck hrun2 (stuck_of_short rfl hshort)
    generalize hr : (deserialize b).2 = r at hend
    cases hend with
    | finished done short => exact h.whole _ _ hr
    | panics more bad => exact absurd more (Nat.lt_irrefl 0)
    | refused e he long ok => exact absurd ⟨rfl, hshort⟩ long

theorem readWell_of_wellFormed (h : WellFormed b) : ReadWell b := by
  obtain ⟨items, ⟨n, g, s⟩, hrun, hstuck, hlabels, hend⟩ := outcome_deserialize b
  refine ⟨?_, ?_, ?_, ?_⟩
  · intro hpanic
    rw [hpanic] at hend
    cases hend with
    | panics more bad =>
      obtain ⟨k, rfl⟩ := Nat.exists_eq_succ_of_ne_zero (Nat.ne_of_gt more)
      exact h.names items k g s hrun bad
    | refused e he long ok => exact he rfl
  · have hpaid := paid_deserializeFrom (b.length + 1)
    rcases gives_or_stops (deserializeFrom (b.length + 1)) b with ⟨cs, rest, hgives⟩ | ⟨e, hstop⟩
    · have hle : (deserialize b).1.1 + 0 + rest.length ≤ b.length + 1 := hpaid.gives b cs rest hgives
      omega
    · exact hpaid.stops b e hstop
  · exact hlabels.le.trans (h.labels items _ hrun)
  · intro contexts rest hok
    rw [hok] at hend
    cases hend with
    | finished done short =>
      cases done
      exact h.whole items g _ hrun short

/-- Any bytes are read well exactly when they are well formed in this sense. -/
theorem deserialize_reads_well_iff (b : Bytes) : ReadWell b ↔ WellFormed b :=
  ⟨wellFormed_of_readWell, readWell_of_wellFormed⟩

def oneBlock : Header := ⟨0#16, 0#32, 0#32, 1#32⟩

def firstNamed : RawTemp := ⟨.ebb, .i64, .i64, 0xFF#8, 0#64, noIndex, 0#64, 0#32⟩

/-- A block with one temporary, whose name is not in its empty table. -/
def namelessBlock : Bytes := writeNames [] ++ leBytes 4 1 ++ [].flatMap RawTemp.write ++
    firstNamed.write ++ leBytes 4 0

/-- A block that places the label with the highest id. -/
def highLabel : RawTb := ⟨[], [], [⟨.setLabel, .i64, 0#8, 0#8, 1#8, [0, 0, 0], [0xFFFFFFFF#32]⟩]⟩

theorem highLabel_good : highLabel.Good := by
  refine ⟨⟨by decide, List.forall_mem_nil _⟩, by decide, List.forall_mem_nil _, by decide, ?_⟩
  intro op hop
  obtain rfl := List.mem_singleton.mp hop
  exact ⟨rfl, rfl⟩

/-- A byte too many is accepted, a name index outside the table makes the reader panic, and a block of 24 bytes makes
it create 2^32 labels. -/
theorem damaged_files_are_not_refused : ¬ReadWell [0] ∧ ¬ReadWell (headerBytes oneBlock ++ namelessBlock) ∧
      ¬ReadWell (headerBytes oneBlock ++ highLabel.write) := by
  refine ⟨fun h => ?_, fun h => ?_, fun h => ?_⟩
  · have hrest : ([0] : Bytes) = [] := (wellFormed_of_readWell h).whole [] 0#32 [0] (.nil _) (by decide)
    cases hrest
  · refine (wellFormed_of_readWell h).names [.header oneBlock] 0 0#32 namelessBlock (.cons (.header ..) (.nil _)) ?_
    refine ⟨[], 1, [], firstNamed, leBytes 4 0, ⟨by decide, List.forall_mem_nil _⟩, by decide, by decide,
      List.forall_mem_nil _, ?_, rfl⟩
    rintro (h | h)
    · exact absurd h (by decide)
    · exact absurd h (Nat.not_lt_zero _)
  · have hrun : Run Next ⟨0, 0#32, headerBytes oneBlock ++ highLabel.write⟩ [.header oneBlock, .tb 0#32 highLabel]
        ⟨0, 0#32, []⟩ := by
      refine .cons (.header ..) (.cons ?_ (.nil _))
      rw [← List.append_nil highLabel.write]
      exact .tb 0 0#32 highLabel [] highLabel_good
    have hle := (wellFormed_of_readWell h).labels _ _ hrun
    exact absurd hle (by decide)

end MachinaSerializeFormat
