import Machina.SerializeFormat

/-!
# Writing contexts and reading them back

What the builder makes is written as one header and one block of the file format. Reading
several written contexts gives them all back, if each of them fits the format and uses
its labels.
-/

namespace MachinaSerializeRound

open MachinaByteReader MachinaByteReader.Reader MachinaRuns MachinaSerialize MachinaSerializeFormat
open MachinaIr (IrType Opcode TempKind)

variable {k : BitVec 32} {ctx ctx' : Context} {ctxs : List Context} {names : List String} {i : Nat} {t : Temp}

/-- The same temporaries, operations and globals, and as many labels. -/
structure SameContent (ctx ctx' : Context) : Prop where
  temps : ctx'.temps = ctx.temps
  ops : ctx'.ops = ctx.ops
  labels : ctx'.labels.length = ctx.labels.length
  nbGlobals : ctx'.nbGlobals = ctx.nbGlobals

/-- All contexts can be written, and what was written is read back in order. -/
def RoundTrips (ctxs : List Context) : Prop :=
  ∃ files, ctxs.mapM serialize = some files ∧ ∃ ctxs', (deserialize files.flatten).2 = .ok (ctxs', []) ∧
    List.Forall₂ SameContent ctxs ctxs'

/-- The context fits the format: counts and names fit their fields, no register or base is the mark for none, and there
are as many labels as operations name. -/
structure Fits (ctx : Context) : Prop where
  tempCount : ctx.temps.length < 2 ^ 32
  opCount : ctx.ops.length < 2 ^ 32
  names : ∀ t ∈ ctx.temps, ∀ name ∈ t.name, (nameBytes name).length < 2 ^ 16
  regs : ∀ t ∈ ctx.temps, t.reg ≠ some 0xFF#8
  bases : ∀ t ∈ ctx.temps, t.memBase ≠ some noIndex
  labels : ctx.labels.length = labelCount ctx.ops 0

theorem fits_context {t : RawTb} (h : t.Good) (g : BitVec 32) : Fits (t.context g) := by
  have htemp {u : Temp} (hu : u ∈ (t.context g).temps) : ∃ raw ∈ t.temps, ∃ i, u = raw.temp t.names i := by
    obtain ⟨⟨raw, i⟩, hmem, rfl⟩ := List.mem_map.mp hu
    exact ⟨raw, List.fst_mem_of_mem_zipIdx hmem, i, rfl⟩
  refine ⟨?_, ?_, ?_, ?_, ?_, length_numbered _⟩
  · simpa [RawTb.context, Context.fromRawParts] using h.tempCount
  · simpa [RawTb.context, Context.fromRawParts, RawTb.opList] using h.opCount
  · intro u hu name hname
    obtain ⟨raw, -, i, rfl⟩ := htemp hu
    have hin : (if raw.name = noIndex then none else t.names[raw.name.toNat]?) = some name := hname
    split at hin
    · cases hin
    · exact h.names.2 name (List.mem_of_getElem? hin)
  · intro u hu
    obtain ⟨raw, -, i, rfl⟩ := htemp hu
    show (if raw.reg = 0xFF#8 then none else some raw.reg) ≠ some 0xFF#8
    split
    · nofun
    · rename_i hreg
      exact fun heq => hreg (Option.some.inj heq)
  · intro u hu
    obtain ⟨raw, -, i, rfl⟩ := htemp hu
    show (if raw.memBase = noIndex then none else some raw.memBase) ≠ some noIndex
    split
    · nofun
    · rename_i hbase
      exact fun heq => hbase (Option.some.inj heq)

theorem SameContent.fits (h : SameContent ctx ctx') (hfits : Fits ctx') : Fits ctx := by
  obtain ⟨htemps, hops, hlabels, -⟩ := h
  obtain ⟨h1, h2, h3, h4, h5, h6⟩ := hfits
  rw [htemps] at h1 h3 h4 h5
  rw [hops] at h2 h6
  exact ⟨h1, h2, h3, h4, h5, hlabels ▸ h6⟩

theorem fits_contextsOf {c c' : Cursor} {items : List Item} (hrun : Run Next c items c') :
    ∀ ctx ∈ contextsOf items, Fits ctx := by
  induction hrun with
  | nil => nofun
  | cons hstep _ ih =>
    intro ctx hctx
    rw [contextsOf_cons, List.mem_append] at hctx
    rcases hctx with hctx | hctx
    · cases hstep with
      | header => cases hctx
      | tb n g t s good =>
        obtain rfl := List.mem_singleton.mp hctx
        exact fits_context good g
    · exact ih ctx hctx

theorem fits_of_same {ctxs' : List Context} (h : List.Forall₂ SameContent ctxs ctxs')
    (hfits : ∀ ctx ∈ ctxs', Fits ctx) : ∀ ctx ∈ ctxs, Fits ctx := by
  induction h with
  | nil => nofun
  | cons hsame _ ih =>
    obtain ⟨hfirst, hrest⟩ := List.forall_mem_cons.mp hfits
    exact List.forall_mem_cons.mpr ⟨hsame.fits hfirst, ih hrest⟩

/-- Whatever is read back fitted. -/
theorem fits_of_roundTrips (h : RoundTrips ctxs) : ∀ ctx ∈ ctxs, Fits ctx := by
  obtain ⟨files, -, ctxs', hread, hsame⟩ := h
  obtain ⟨items, c, hrun, -, -, hend⟩ := outcome_deserialize files.flatten
  generalize hr : (deserialize files.flatten).2 = r at hend
  cases hend with
  | finished done short =>
    obtain ⟨rfl, -⟩ := Prod.mk.inj (Except.ok.inj (hr.symm.trans hread))
    exact fits_of_same hsame (fits_contextsOf hrun)
  | panics more bad | refused e he long ok => cases hr.symm.trans hread

section Written

/-- The temporary has what the reader fills in from its kind and place. -/
structure PlainTemp (i : Nat) (t : Temp) : Prop where
  idx : t.idx = BitVec.ofNat 32 i
  valType : t.valType = initialVal t.kind
  memCoherent : t.memCoherent = decide (t.kind = .global)
  memAllocated : t.memAllocated = decide (t.kind = .global)

structure PlainOp (i : Nat) (op : Op) : Prop where
  idx : op.idx = BitVec.ofNat 32 i
  life : op.life = 0#32
  outputPref : op.outputPref = (0#64, 0#64)
  nargs : op.nargs.toNat ≤ maxOpArgs
  args : ∀ k, op.nargs.toNat ≤ k → op.args k = 0#32

structure Plain (ctx : Context) : Prop where
  temps : ∀ i t, ctx.temps[i]? = some t → PlainTemp i t
  ops : ∀ i op, ctx.ops[i]? = some op → PlainOp i op

theorem getElem?_concat {α : Type} {l : List α} {a u : α} (h : (l ++ [a])[i]? = some u) :
    l[i]? = some u ∨ i = l.length ∧ u = a := by
  rcases Nat.lt_or_ge i l.length with hlt | hge
  · rw [List.getElem?_append_left hlt] at h
    exact .inl h
  rw [List.getElem?_append_right hge] at h
  obtain ⟨hi, hu⟩ := List.getElem?_eq_some_iff.mp h
  simp only [List.length_singleton] at hi
  exact .inr ⟨by omega, by simpa using hu.symm⟩

theorem Plain.push (h : Plain ctx) (ht : PlainTemp ctx.temps.length t) : Plain (ctx.push t) := by
  refine ⟨fun i u hu => ?_, h.ops⟩
  rcases getElem?_concat hu with hu | ⟨rfl, rfl⟩
  · exact h.temps i u hu
  · exact ht

theorem Plain.emitOp (h : Plain ctx) (opc : Opcode) (ty : IrType) (args : List (BitVec 32)) :
    Plain (ctx.emitOp opc ty args) := by
  refine ⟨h.temps, fun i op hop => ?_⟩
  rcases getElem?_concat hop with hop | ⟨rfl, rfl⟩
  · exact h.ops i op hop
  have hlen : (BitVec.ofNat 8 (min args.length maxOpArgs)).toNat = min args.length maxOpArgs :=
    Nat.mod_eq_of_lt (by rw [maxOpArgs]; omega)
  refine ⟨rfl, rfl, rfl, ?_, ?_⟩
  · show (BitVec.ofNat 8 (min args.length maxOpArgs)).toNat ≤ maxOpArgs
    rw [hlen]
    exact Nat.min_le_right ..
  · intro k hk
    have hk' : min args.length maxOpArgs ≤ k := hlen ▸ hk
    show (args.take maxOpArgs).getD k 0#32 = 0#32
    rw [List.getD_eq_default]
    rw [List.length_take]
    omega

theorem Plain.register (hstep : ctx.register t = some ctx') (h : Plain ctx)
    (ht : PlainTemp ctx.temps.length t) : Plain ctx' := by
  rw [Context.register] at hstep
  split at hstep
  · cases hstep
    exact ⟨(h.push ht).temps, h.ops⟩
  · cases hstep

theorem PlainTemp.reset (h : PlainTemp i t) : PlainTemp i (Context.resetTemp t) := by
  unfold Context.resetTemp
  split
  · rename_i hkind
    exact ⟨h.idx, h.valType, by simp [hkind], h.memAllocated⟩
  · rename_i hkind
    exact ⟨h.idx, by simp [hkind, initialVal], by simp [hkind], h.memAllocated⟩
  · exact h

/-- The builder only makes plain contexts. -/
theorem plain_build {b : Build} (hstep : ctx.build b = some ctx') (h : Plain ctx) : Plain ctx' := by
  cases b with
  | newTemp ty | newTempTb ty =>
    cases hstep
    exact h.push ⟨rfl, rfl, rfl, rfl⟩
  | newConst ty val =>
    cases hstep
    unfold Context.newConst
    split
    · exact h
    · exact ⟨(h.push ⟨rfl, rfl, rfl, rfl⟩).temps, h.ops⟩
  | newGlobal ty base offset name | newFixed ty reg name => exact Plain.register hstep h ⟨rfl, rfl, rfl, rfl⟩
  | newLabel =>
    cases hstep
    exact ⟨h.temps, h.ops⟩
  | emit opc ty args =>
    cases hstep
    exact h.emitOp opc ty args
  | reset =>
    cases hstep
    refine ⟨fun i t ht => ?_, fun i op hop => by simp [Context.reset] at hop⟩
    simp only [Context.reset, List.getElem?_map] at ht
    obtain ⟨u, hu, rfl⟩ := Option.map_eq_some_iff.mp ht
    rw [List.getElem?_take] at hu
    split at hu
    · exact (h.temps i u hu).reset
    · cases hu

theorem Built.plain (h : Built ctx) : Plain ctx := by
  obtain ⟨bs, hrun⟩ := h
  have hnew : Plain Context.new := ⟨fun i t ht => by simp [Context.new] at ht,
    fun i op hop => by simp [Context.new] at hop⟩
  exact hrun.invariant (fun _ _ _ hstep hi => plain_build hstep hi) hnew

end Written

section Names

/-- The table finds every string at the index its map gives. -/
structure TableOk (tab : StringTable) : Prop where
  small : tab.strings.length < 2 ^ 32
  found : ∀ s k, tab.map s = some k → k ≠ noIndex ∧ tab.strings[k.toNat]? = some s

/-- What the index of a name has to be in a table. -/
def NameAt (strings : List String) (name : Option String) (k : BitVec 32) : Prop :=
  match name with
  | none => k = noIndex
  | some s => k ≠ noIndex ∧ strings[k.toNat]? = some s

theorem NameAt.mono {strings more : List String} {name : Option String} (h : NameAt strings name k)
    (hmore : strings <+: more) : NameAt more name k := by
  cases name with
  | none => exact h
  | some s =>
    obtain ⟨rest, rfl⟩ := hmore
    refine ⟨h.1, ?_⟩
    rw [List.getElem?_append_left (List.getElem?_eq_some_iff.mp h.2).1]
    exact h.2

/-- A name is put where its index says; strings that are there stay. -/
theorem intern_spec {tab : StringTable} (h : TableOk tab) (hroom : tab.strings.length + 1 < 2 ^ 32) (s : String) :
    TableOk (tab.intern s).2 ∧ tab.strings <+: (tab.intern s).2.strings ∧
      (tab.intern s).2.strings.length ≤ tab.strings.length + 1 ∧
      NameAt (tab.intern s).2.strings (some s) (tab.intern s).1 ∧
      ∀ x ∈ (tab.intern s).2.strings, x ∈ tab.strings ∨ x = s := by
  unfold StringTable.intern
  cases hmap : tab.map s with
  | some k => exact ⟨h, List.prefix_rfl, Nat.le_succ _, h.found s k hmap, fun x hx => .inl hx⟩
  | none =>
    have hk : (BitVec.ofNat 32 tab.strings.length).toNat = tab.strings.length := Nat.mod_eq_of_lt h.small
    have hne : BitVec.ofNat 32 tab.strings.length ≠ noIndex := by
      intro heq
      have hnat := congrArg BitVec.toNat heq
      rw [hk] at hnat
      have hlast : noIndex.toNat = 2 ^ 32 - 1 := rfl
      omega
    have hat : (tab.strings ++ [s])[(BitVec.ofNat 32 tab.strings.length).toNat]? = some s := by
      rw [hk, List.getElem?_concat_length]
    refine ⟨⟨by simpa using hroom, ?_⟩, List.prefix_append .., by simp, ⟨hne, hat⟩, fun x hx => by simpa using hx⟩
    intro s' k' hfound
    dsimp only at hfound ⊢
    split at hfound
    · rename_i hs
      cases hfound
      subst hs
      exact ⟨hne, hat⟩
    · have hold : NameAt tab.strings (some s') k' := h.found s' k' hfound
      exact hold.mono (List.prefix_append ..)

/-- Every temporary gets the index of its name. -/
theorem internNames_spec {tab : StringTable} (ts : List Temp) (h : TableOk tab)
    (hroom : tab.strings.length + ts.length < 2 ^ 32) :
    TableOk (internNames ts tab).2 ∧ tab.strings <+: (internNames ts tab).2.strings ∧
      List.Forall₂ (fun t k => NameAt (internNames ts tab).2.strings t.name k) ts (internNames ts tab).1 ∧
      ∀ x ∈ (internNames ts tab).2.strings, x ∈ tab.strings ∨ ∃ t ∈ ts, t.name = some x := by
  induction ts generalizing tab with
  | nil => exact ⟨h, List.prefix_rfl, .nil, fun x hx => .inl hx⟩
  | cons t ts ih =>
    rw [List.length_cons] at hroom
    cases hname : t.name with
    | none =>
      obtain ⟨htab, hpre, hall, hfrom⟩ := ih h (by omega)
      simp only [internNames, hname]
      refine ⟨htab, hpre, .cons ?_ hall, fun x hx => ?_⟩
      · rw [hname]
        rfl
      · rcases hfrom x hx with hx | ⟨u, hu, hux⟩
        · exact .inl hx
        · exact .inr ⟨u, List.mem_cons_of_mem _ hu, hux⟩
    | some name =>
      obtain ⟨hok, hpre1, hlen, hat, hfrom1⟩ := intern_spec h (by omega) name
      obtain ⟨htab, hpre, hall, hfrom⟩ := ih hok (by omega)
      simp only [internNames, hname]
      refine ⟨htab, hpre1.trans hpre, .cons ?_ hall, fun x hx => ?_⟩
      · rw [hname]
        exact hat.mono hpre
      · rcases hfrom x hx with hx | ⟨u, hu, hux⟩
        · rcases hfrom1 x hx with hx | rfl
          · exact .inl hx
          · exact .inr ⟨t, List.mem_cons_self .., hname⟩
        · exact .inr ⟨u, List.mem_cons_of_mem _ hu, hux⟩

end Names

section Blocks

/-- The fields that are written for a temporary. -/
def rawTemp (t : Temp) (nameIdx : BitVec 32) : RawTemp :=
  ⟨t.kind, t.ty, t.baseType, t.reg.getD 0xFF#8, t.val, t.memBase.getD noIndex, t.memOffset, nameIdx⟩

def rawOp (op : Op) : RawOp :=
  ⟨op.opc, op.opType, op.param1, op.param2, op.nargs, leBytes 3 0, (List.range op.nargs.toNat).map op.args⟩

def rawTb (ctx : Context) : RawTb :=
  ⟨(internNames ctx.temps .new).2.strings, (ctx.temps.zip (internNames ctx.temps .new).1).map fun p => rawTemp p.1 p.2,
    ctx.ops.map rawOp⟩

def rawHeader (ctx : Context) : Header :=
  ⟨0#16, ctx.nbGlobals, BitVec.ofNat 32 ctx.labels.length, 1#32⟩

/-- A mark for none is read back as none, and every other value as itself. -/
theorem unmark {α : Type} [DecidableEq α] {o : Option α} {m : α} (h : o ≠ some m) :
    (if o.getD m = m then none else some (o.getD m)) = o := by
  cases o with
  | none => simp
  | some a =>
    have hne : a ≠ m := fun heq => h (congrArg some heq)
    simp [hne]

theorem NameAt.lookup {name : Option String} (h : NameAt names name k) :
    (if k = noIndex then none else names[k.toNat]?) = name := by
  cases name with
  | none => exact if_pos h
  | some s => exact (if_neg h.1).trans h.2

theorem temp_rawTemp (h : PlainTemp i t)
    (hname : NameAt names t.name k) (hreg : t.reg ≠ some 0xFF#8) (hbase : t.memBase ≠ some noIndex) :
    (rawTemp t k).temp names i = t :=
  Temp.ext h.idx.symm rfl rfl rfl h.valType.symm (unmark hreg) h.memCoherent.symm h.memAllocated.symm rfl
  (unmark hbase)
    rfl hname.lookup

theorem op_rawOp {op : Op} (h : PlainOp i op) : (rawOp op).op i = op := by
  refine Op.ext h.idx.symm rfl rfl rfl rfl h.life.symm h.outputPref.symm ?_ rfl
  funext k
  show ((List.range op.nargs.toNat).map op.args).getD k 0#32 = op.args k
  by_cases hk : k < op.nargs.toNat
  · simp [List.getD_eq_getElem?_getD, hk]
  · rw [List.getD_eq_default _ _ (by simpa using Nat.le_of_not_lt hk), h.args k (Nat.le_of_not_lt hk)]

theorem leBytes_mod (n v : Nat) : leBytes n (v % 256 ^ n) = leBytes n v := by
  induction n generalizing v with
  | zero => rfl
  | succ n ih =>
    have hlow : v % 256 ^ (n + 1) % 256 = v % 256 := Nat.mod_mod_of_dvd _ (Dvd.intro_left _ rfl)
    have hhigh : v % 256 ^ (n + 1) / 256 = v / 256 % 256 ^ n := by
      rw [Nat.pow_succ, Nat.mul_comm, Nat.mod_mul_right_div_self]
    rw [leBytes, leBytes, hhigh, ih]
    congr 1
    apply UInt8.toNat_inj.mp
    rw [UInt8.toNat_ofNat', UInt8.toNat_ofNat', hlow]

theorem length_internNames (ts : List Temp) (tab : StringTable) : (internNames ts tab).1.length = ts.length := by
  induction ts generalizing tab with
  | nil => rfl
  | cons t ts ih =>
    rw [internNames]
    split <;> simp [ih]

theorem length_rawTb_temps (ctx : Context) : (rawTb ctx).temps.length = ctx.temps.length := by
  simp [rawTb, length_internNames]

theorem Plain.nargs (h : Plain ctx) : ∀ op ∈ ctx.ops, op.nargs.toNat ≤ maxOpArgs := by
  intro op hop
  obtain ⟨i, hi⟩ := List.mem_iff_getElem?.mp hop
  exact (h.ops i op hi).nargs

theorem serialize_eq (h : Plain ctx) : serialize ctx = some (headerBytes (rawHeader ctx) ++ (rawTb ctx).write) := by
  have hlabels : leBytes 4 (BitVec.ofNat 32 ctx.labels.length).toNat = leBytes 4 ctx.labels.length := leBytes_mod 4 _
  have htemps : (ctx.temps.zip (internNames ctx.temps .new).1).flatMap (fun p => writeTemp p.1 p.2) =
      (rawTb ctx).temps.flatMap RawTemp.write := by
    rw [rawTb, List.flatMap_map]
    rfl
  have hops : ctx.ops.flatMap writeOp = (rawTb ctx).ops.flatMap RawOp.write := by
    rw [rawTb, List.flatMap_map]
    rfl
  rw [serialize]
  dsimp only
  rw [if_pos h.nargs, RawTb.write, headerBytes, rawHeader]
  rw [hlabels, length_rawTb_temps, htemps, hops, show (rawTb ctx).ops.length = ctx.ops.length by simp [rawTb]]
  simp only [List.append_assoc]
  rfl

/-- The names of a context and their table. -/
theorem names_spec (hfits : Fits ctx) : GoodNames (rawTb ctx).names ∧
      List.Forall₂ (fun t k => NameAt (rawTb ctx).names t.name k) ctx.temps (internNames ctx.temps .new).1 := by
  have hnew : TableOk .new := ⟨by decide, nofun⟩
  have hroom : StringTable.new.strings.length + ctx.temps.length < 2 ^ 32 := by
    rw [show StringTable.new.strings.length = 0 from rfl, Nat.zero_add]
    exact hfits.tempCount
  obtain ⟨htab, -, hall, hfrom⟩ := internNames_spec ctx.temps hnew hroom
  refine ⟨⟨htab.small, fun s hs => ?_⟩, hall⟩
  rcases hfrom s hs with hs | ⟨t, ht, hname⟩
  · cases hs
  · exact hfits.names t ht s hname

theorem NameAt.named (h : NameAt names t.name k) : (rawTemp t k).Named names := by
  cases hname : t.name with
  | none =>
    rw [hname] at h
    exact .inl h
  | some s =>
    rw [hname] at h
    exact .inr (List.getElem?_eq_some_iff.mp h.2).1

theorem rawTb_good (h : Plain ctx) (hfits : Fits ctx) : (rawTb ctx).Good := by
  obtain ⟨hnames, hall⟩ := names_spec hfits
  refine ⟨hnames, ?_, ?_, ?_, ?_⟩
  · rw [length_rawTb_temps]
    exact hfits.tempCount
  · intro raw hraw
    obtain ⟨⟨t, k⟩, hmem, rfl⟩ := List.mem_map.mp hraw
    exact (List.forall₂_zip hall hmem).named
  · rw [show (rawTb ctx).ops.length = ctx.ops.length by simp [rawTb]]
    exact hfits.opCount
  · intro raw hraw
    obtain ⟨op, hop, rfl⟩ := List.mem_map.mp hraw
    have hmax := h.nargs op hop
    refine ⟨rfl, ?_⟩
    simp [rawOp, hmax]

theorem same_rawTb (h : Plain ctx) (hfits : Fits ctx) : SameContent ctx ((rawTb ctx).context ctx.nbGlobals) := by
  obtain ⟨-, hall⟩ := names_spec hfits
  have hops : (rawTb ctx).opList = ctx.ops := by
    apply List.ext_getElem
    · simp [RawTb.opList, rawTb]
    intro i _ hi
    simp only [RawTb.opList, rawTb, List.getElem_map, List.getElem_zipIdx]
    rw [Nat.zero_add]
    exact op_rawOp (h.ops i _ (List.getElem?_eq_getElem hi))
  refine ⟨?_, hops, ?_, rfl⟩
  · apply List.ext_getElem
    · simp [RawTb.context, Context.fromRawParts, length_rawTb_temps]
    · intro i _ hi
      have hi' : i < (internNames ctx.temps .new).1.length := by rwa [length_internNames]
      have hmem : (ctx.temps[i], (internNames ctx.temps .new).1[i]) ∈
        ctx.temps.zip (internNames ctx.temps .new).1 := by
        rw [← List.getElem_zip (h := by simp [length_internNames, hi])]
        exact List.getElem_mem _
      simp only [RawTb.context, Context.fromRawParts, List.getElem_map, List.getElem_zipIdx, Nat.zero_add]
      have hlen : i < (rawTb ctx).temps.length := by rwa [length_rawTb_temps]
      have hraw : (rawTb ctx).temps[i] = rawTemp ctx.temps[i] (internNames ctx.temps .new).1[i] := by simp [rawTb]
      rw [hraw]
      have htemp := List.getElem_mem hi
      exact temp_rawTemp (h.temps i _ (List.getElem?_eq_getElem hi)) (List.forall₂_zip hall hmem)
        (hfits.regs _ htemp) (hfits.bases _ htemp)
  · rw [show ((rawTb ctx).context ctx.nbGlobals).labels.length =
      (rawTb ctx).labels from length_numbered _, RawTb.labels, hops]
    exact hfits.labels.symm

end Blocks

/-- The files of contexts that fit are read to their end. -/
theorem run_files (hplain : ∀ ctx ∈ ctxs, Plain ctx) (hfits : ∀ ctx ∈ ctxs, Fits ctx) (g : BitVec 32) :
    ∃ items g', Run Next ⟨0, g, (ctxs.map fun ctx => headerBytes (rawHeader ctx) ++ (rawTb ctx).write).flatten⟩ items
      ⟨0, g', []⟩ ∧ contextsOf items = ctxs.map fun ctx => (rawTb ctx).context ctx.nbGlobals := by
  induction ctxs generalizing g with
  | nil => exact ⟨[], g, .nil _, rfl⟩
  | cons ctx ctxs ih =>
    obtain ⟨hp, hps⟩ := List.forall_mem_cons.mp hplain
    obtain ⟨hf, hfs⟩ := List.forall_mem_cons.mp hfits
    obtain ⟨items, g', hrun, hctxs⟩ := ih hps hfs ctx.nbGlobals
    refine ⟨.header (rawHeader ctx) :: .tb ctx.nbGlobals (rawTb ctx) :: items, g', ?_, ?_⟩
    · rw [List.map_cons, List.flatten_cons, List.append_assoc]
      exact .cons (.header ..) (.cons (.tb 0 ctx.nbGlobals (rawTb ctx) _ (rawTb_good hp hf)) hrun)
    · rw [contextsOf_cons, contextsOf_cons, hctxs]
      rfl

theorem mapM_serialize (hplain : ∀ ctx ∈ ctxs, Plain ctx) :
    ctxs.mapM serialize = some (ctxs.map fun ctx => headerBytes (rawHeader ctx) ++ (rawTb ctx).write) := by
  induction ctxs with
  | nil => rfl
  | cons ctx ctxs ih =>
    obtain ⟨hp, hps⟩ := List.forall_mem_cons.mp hplain
    rw [List.mapM_cons, serialize_eq hp, ih hps]
    rfl

theorem roundTrips_of_fits (hplain : ∀ ctx ∈ ctxs, Plain ctx) (hfits : ∀ ctx ∈ ctxs, Fits ctx) : RoundTrips ctxs := by
  refine ⟨_, mapM_serialize hplain, ctxs.map fun ctx => (rawTb ctx).context ctx.nbGlobals, ?_, ?_⟩
  · obtain ⟨items, g, hrun, hctxs⟩ := run_files hplain hfits 0#32
    obtain ⟨items', c, hrun', hstuck, -, hend⟩ := outcome_deserialize
      (ctxs.map fun ctx => headerBytes (rawHeader ctx) ++ (rawTb ctx).write).flatten
    obtain ⟨rfl, hsame⟩ := run_stuck_unique hrun' hstuck hrun (stuck_of_short rfl (Nat.succ_pos 3))
    generalize hr : (deserialize _).2 = r at hend
    cases hend with
    | finished done short => rw [hsame, hctxs]
    | panics more bad => exact absurd more (Nat.lt_irrefl 0)
    | refused e he long ok => exact absurd ⟨rfl, Nat.succ_pos 3⟩ long
  · rw [List.forall₂_map_right_iff, List.forall₂_same]
    exact fun ctx hctx => same_rawTb (hplain ctx hctx) (hfits ctx hctx)

/-- Contexts of the builder are read back as they were written exactly when each of them fits. -/
theorem serialized_contexts_read_back_iff (ctxs : List Context) (hbuilt : ∀ ctx ∈ ctxs, Built ctx) :
    RoundTrips ctxs ↔ ∀ ctx ∈ ctxs, Fits ctx :=
  ⟨fits_of_roundTrips, roundTrips_of_fits fun ctx hctx => Built.plain (hbuilt ctx hctx)⟩

/-- A constant, and a branch over nothing. -/
def branchOver : List Build := [.newConst .i64 5#64, .newLabel, .emit .br .i64 [0#32], .emit .setLabel .i64 [0#32]]

def branchContext : Context := ((branchOver.foldlM Context.build Context.new).getD Context.new)

theorem branchContext_built : Built branchContext := ⟨branchOver, Run.of_foldlM rfl⟩

theorem branchContext_fits : Fits branchContext :=
  ⟨by decide, by decide, by decide, by decide, by decide, by decide⟩

theorem branches_read_back : Built branchContext ∧ RoundTrips [branchContext, branchContext] := by
  refine ⟨branchContext_built, (serialized_contexts_read_back_iff _ ?_).mpr ?_⟩
  · simp [branchContext_built]
  · simp [branchContext_fits]

/-- A context with a label that nothing uses. -/
def unusedLabel : Context := Context.new.newLabel

theorem unused_label_is_lost : Built unusedLabel ∧ ¬RoundTrips [unusedLabel] := by
  refine ⟨⟨[.newLabel], .cons rfl (.nil _)⟩, fun h => ?_⟩
  have hfits := fits_of_roundTrips h unusedLabel (List.mem_singleton.mpr rfl)
  exact absurd hfits.labels (by decide)

end MachinaSerializeRound
