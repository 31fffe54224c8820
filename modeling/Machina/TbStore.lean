import Machina.Linked

/-!
# The store of translation blocks

`TbStore` holds every translation block under an index, a hash table over `(pc, flags)`, and for each physical page a
count and a list of the blocks translated from it. The direct jump of an exit slot is patched to another block when
the two are chained. Host code is left out: the host jump of a slot goes to its reset stub or to a block.
-/

namespace MachinaTbStore

open MachinaLinked

local instance neZero2 : NeZero 2 := ⟨by decide⟩

abbrev Slot := Fin 2

/-- `TbJmpState`: the chaining state of a block. -/
structure TbJmpState where
  jmpDest : Slot → Option Nat := fun _ => none
  jmpList : List (Nat × Slot) := []

/-- `TranslationBlock`. The slots with a `jmp_insn_offset` and a `jmp_reset_offset` are the `chainable` ones, `jump`
is where their host jump goes. `pages` are the physical pages its code was read from; the source does not keep them. -/
structure Tb where
  pc : BitVec 64
  flags : BitVec 32
  cflags : BitVec 32
  size : Nat := 0
  physPc : BitVec 64 := 0
  pages : List (BitVec 64) := []
  chainable : Slot → Bool := fun _ => false
  jump : Slot → Option Nat := fun _ => none
  hashNext : Option Nat := none
  pageNext : Option Nat := none
  jmp : TbJmpState := {}
  invalid : Bool := false
  gen : Nat := 0
  exitTarget : Option Nat := none

/-- The physical page of the first instruction. -/
def Tb.page (t : Tb) : Nat := (t.physPc >>> 12).toNat

def maxTbs : Nat := 65536

def codeRefcountPages : Nat := 2 ^ 20

def tbHashSize : Nat := 2 ^ 15

def hashOf (pc : BitVec 64) (flags : BitVec 32) : Nat :=
  ((pc * 0x9e3779b97f4a7c15#64) ^^^ flags.setWidth 64).toNat % tbHashSize

structure TbStore where
  tbs : Nat → Tb
  len : Nat
  hash : Nat → Option Nat
  codePages : Nat → Nat
  pageHeads : Nat → Option Nat
  globalGen : Nat

def vacant : Tb := { pc := 0, flags := 0, cflags := 0 }

def TbStore.empty : TbStore where
  tbs := fun _ => vacant
  len := 0
  hash := fun _ => none
  codePages := fun _ => 0
  pageHeads := fun _ => none
  globalGen := 1

variable (s : TbStore)

def TbStore.modify (i : Nat) (f : Tb → Tb) : TbStore :=
  { s with tbs := Function.update s.tbs i (f (s.tbs i)) }

section

variable (i : Nat) (f : Tb → Tb)
include i f

@[simp] theorem modify_len : (s.modify i f).len = s.len := rfl
@[simp] theorem modify_globalGen : (s.modify i f).globalGen = s.globalGen := rfl

@[simp] theorem modify_tbs : (s.modify i f).tbs = Function.update s.tbs i (f (s.tbs i)) := rfl

end

/-- Neither marked invalid nor left behind by a change of generation. -/
def TbStore.live (i : Nat) : Bool := !(s.tbs i).invalid && (s.tbs i).gen == s.globalGen

def TbStore.push (t : Tb) : TbStore :=
  { s with tbs := Function.update s.tbs s.len t, len := s.len + 1 }

@[simp] theorem push_tbs (t : Tb) : (s.push t).tbs = Function.update s.tbs s.len t := rfl

variable (pc : BitVec 64)

def TbStore.alloc (flags cflags : BitVec 32) : Option (Nat × TbStore) :=
  if maxTbs ≤ s.len then none
  else some (s.len, s.push { pc := pc, flags := flags, cflags := cflags })

theorem alloc_cases (flags cflags : BitVec 32) : s.alloc pc flags cflags = none ∨
      s.alloc pc flags cflags = some (s.len, s.push { pc := pc, flags := flags, cflags := cflags }) := by
  unfold TbStore.alloc
  split
  · exact Or.inl rfl
  · exact Or.inr rfl

def TbStore.lookup (flags : BitVec 32) : Option Nat :=
  find (fun i => (s.tbs i).hashNext) (fun i => s.live i && (s.tbs i).pc == pc && (s.tbs i).flags == flags) (s.len + 1)
    (s.hash (hashOf pc flags))

def TbStore.insert (i : Nat) : TbStore :=
  let bucket := hashOf (s.tbs i).pc (s.tbs i).flags
  let s := s.modify i fun t => { t with hashNext := s.hash bucket }
  { s with hash := Function.update s.hash bucket (some i) }

def TbStore.markCodePage (page i : Nat) : TbStore :=
  if codeRefcountPages ≤ page then s
  else
    let s := { s with codePages := Function.update s.codePages page (min (s.codePages page + 1) 255) }
    let s := s.modify i fun t => { t with pageNext := s.pageHeads page }
    { s with pageHeads := Function.update s.pageHeads page (some i) }

def TbStore.decCodePage (page : Nat) : TbStore :=
  if page < codeRefcountPages then
    { s with codePages := Function.update s.codePages page (s.codePages page - 1) }
  else s

def TbStore.isCodePage (page : Nat) : Bool :=
  if page < codeRefcountPages then 0 < s.codePages page else false

def TbStore.setPageNext (next : Nat → Option Nat) : TbStore :=
  { s with tbs := fun i => { s.tbs i with pageNext := next i } }

def TbStore.setHashNext (next : Nat → Option Nat) : TbStore :=
  { s with tbs := fun i => { s.tbs i with hashNext := next i } }

def TbStore.unlinkPage (page i : Nat) : Option TbStore :=
  if codeRefcountPages ≤ page then some s
  else
    (unlink (fun j => (s.tbs j).pageNext) (fun j => s.len ≤ j) (s.len + 1) (s.pageHeads page) i).map
    fun (next, head) =>
      let s := s.setPageNext next
      { s with pageHeads := Function.update s.pageHeads page head }

/-- The third part of `invalidate` -/
def TbStore.unlinkHash (i : Nat) : Option TbStore :=
  let bucket := hashOf (s.tbs i).pc (s.tbs i).flags
  (unlink (fun j => (s.tbs j).hashNext) (fun _ => false) (s.len + 1) (s.hash bucket) i).map fun (next, head) =>
    let s := s.setHashNext next
    { s with hash := Function.update s.hash bucket head }

/-- `reset_jump`, and the record of the edge that goes with it -/
def TbStore.resetJump (edge : Nat × Slot) : TbStore :=
  s.modify edge.1 fun t =>
    { t with
      jump := if t.chainable edge.2 then Function.update t.jump edge.2 none else t.jump
      jmp := { t.jmp with jmpDest := Function.update t.jmp.jmpDest edge.2 none } }

/-- The first part of `invalidate`: the incoming edges -/
def TbStore.unlinkIncoming (i : Nat) : TbStore :=
  let list := (s.tbs i).jmp.jmpList
  list.foldl TbStore.resetJump (s.modify i fun t => { t with jmp := { t.jmp with jmpList := [] } })

def TbStore.dropIncoming (i : Nat) (slot : Slot) : Option Nat → TbStore
  | none => s
  | some dst => s.modify dst fun t =>
      { t with jmp := { t.jmp with jmpList := t.jmp.jmpList.filter fun edge => !(edge.1 == i && edge.2 == slot) } }

/-- The second part of `invalidate`: the outgoing edges -/
def TbStore.unlinkOutgoing (i : Nat) : TbStore :=
  let dest := (s.tbs i).jmp.jmpDest
  let s := s.modify i fun t => { t with jmp := { t.jmp with jmpDest := fun _ => none } }
  (s.dropIncoming i 0 (dest 0)).dropIncoming i 1 (dest 1)

def TbStore.invalidate (i : Nat) : Option TbStore := do
  let s := s.modify i fun t => { t with invalid := true }
  let s := s.decCodePage (s.tbs i).page
  let s ← s.unlinkPage (s.tbs i).page i
  ((s.unlinkIncoming i).unlinkOutgoing i).unlinkHash i

/-- The generation counter is a `usize`; zero is kept for blocks that were never stamped. -/
def nextGen (gen : Nat) : Nat := if (gen + 1) % 2 ^ 64 = 0 then 1 else (gen + 1) % 2 ^ 64

def TbStore.invalidateAll : TbStore :=
  { s with globalGen := nextGen s.globalGen, codePages := fun _ => 0 }

def TbStore.invalidateEach (is : List Nat) : Option TbStore := is.foldlM TbStore.invalidate s

/-- The full scan that `invalidate_phys_page` falls back to -/
def TbStore.scanPage (page : Nat) : Option TbStore :=
  (List.range s.len).foldlM (fun s i => if s.live i && (s.tbs i).page == page then s.invalidate i else some s) s

def TbStore.invalidatePhysPage (page : Nat) : Option TbStore :=
  if codeRefcountPages ≤ page then some s
  else do
    let met ← collect (fun j => (s.tbs j).pageNext) (fun j => s.len ≤ j) (s.len + 1) (s.pageHeads page)
    let list := met.filter s.live
    if list.isEmpty then
      if s.isCodePage page then s.scanPage page else some s
    else s.invalidateEach list

def TbStore.flush : TbStore :=
  { TbStore.empty with globalGen := s.globalGen }

def TbStore.tbAddJump (src : Nat) (slot : Slot) (dst : Nat) : TbStore :=
  if !(s.tbs src).chainable slot then s
  else if !s.live dst then s
  else if (s.tbs src).jmp.jmpDest slot == some dst then s
  else
    let s := s.modify src fun t =>
      { t with
        jump := Function.update t.jump slot (some dst)
        jmp := { t.jmp with jmpDest := Function.update t.jmp.jmpDest slot (some dst) } }
    s.modify dst fun t => { t with jmp := { t.jmp with jmpList := t.jmp.jmpList ++ [(src, slot)] } }

/-- What `gen_code` of the guest reports for a block. -/
structure Fetched where
  size : Nat
  physPc : BitVec 64
  pages : List (BitVec 64)

/-- The block is stamped with the current generation and entered in the list of its page. -/
def TbStore.stamp (i : Nat) (f : Fetched) : TbStore :=
  let s := s.modify i fun t =>
    { t with size := f.size, physPc := f.physPc, pages := f.pages, gen := s.globalGen }
  s.markCodePage (f.physPc >>> 12).toNat i

def TbStore.markInvalid (i : Nat) : TbStore := s.modify i fun t => { t with invalid := true }

def TbStore.setJumpSlots (i : Nat) (chainable : Slot → Bool) : TbStore :=
  s.modify i fun t => { t with chainable := chainable }

def tbJmpCacheSize : Nat := 2 ^ 12

structure JumpCacheEntry where
  tbIdx : Option Nat := none
  gen : Nat := 0

structure JumpCache where
  entries : Nat → JumpCacheEntry := fun _ => {}
  generation : Nat := 1

def JumpCache.index : Nat := (pc >>> 2).toNat % tbJmpCacheSize

variable (c : JumpCache)

def JumpCache.lookup (pc : BitVec 64) : Option Nat :=
  let e := c.entries (JumpCache.index pc)
  if e.gen == c.generation then e.tbIdx else none

def JumpCache.insert (pc : BitVec 64) (i : Nat) : JumpCache :=
  { c with entries := Function.update c.entries (JumpCache.index pc) { tbIdx := some i, gen := c.generation } }

def JumpCache.invalidate : JumpCache := { c with generation := nextGen c.generation }

/-- How the translation under way ends, after the attempts that overflowed the code buffer. -/
inductive Ending where
  | giveUp
  | fault
  | done (f : Fetched) (chainable : Slot → Bool)

/-- What the guest and the code buffer do during one call of `tb_gen_code`: whether there is room, the physical pc at
the second look (`none` for `u64::MAX`), the attempts that overflow, and the end. -/
structure Work where
  room : Bool
  curPhys : Option (BitVec 64)
  overflows : List Fetched
  ending : Ending

/-- A block of the hash table that was translated from the given physical pc -/
def TbStore.hashHit (flags : BitVec 32) (phys : BitVec 64) : Option Nat :=
  (s.lookup pc flags).filter fun i => (s.tbs i).physPc == phys

/-- The check of the jump cache in `tb_find`; an index past the end of the store is not a block. -/
def TbStore.jumpCacheHit (pc : BitVec 64) (flags : BitVec 32) (phys : BitVec 64) : Option Nat :=
  (c.lookup pc).filter fun i =>
    i < s.len && s.live i && (s.tbs i).pc == pc && (s.tbs i).flags == flags && (s.tbs i).physPc == phys

/-- The check of the cached target of an indirect exit in `cpu_exec_loop` -/
def TbStore.exitTargetHit (src : Nat) (pc : BitVec 64) (flags : BitVec 32) : Option Nat :=
  (s.tbs src).exitTarget.filter fun i => i < s.len && s.live i && (s.tbs i).pc == pc && (s.tbs i).flags == flags

/-- An attempt that overflows leaves its block behind, stamped and without host code. -/
def TbStore.overflow (flags cflags : BitVec 32) (s : TbStore) (f : Fetched) : TbStore :=
  match s.alloc pc flags cflags with
  | none => s
  | some (i, s) => s.stamp i f

def tbGenCode (pc : BitVec 64) (flags cflags : BitVec 32) (w : Work) : Option Nat × TbStore × JumpCache :=
  if !w.room then (none, s, c)
  else
    match if cflags == 0 then w.curPhys.bind (s.hashHit pc flags) else none with
    | some i => (some i, s, c.insert pc i)
    | none =>
      let s := w.overflows.foldl (TbStore.overflow pc flags cflags) s
      match w.ending with
      | .giveUp => (none, s, c)
      | .fault =>
        match s.alloc pc flags cflags with
        | none => (none, s, c)
        | some (i, s) => (none, s.markInvalid i, c)
      | .done f chainable =>
        match s.alloc pc flags cflags with
        | none => (none, s, c)
        | some (i, s) =>
          let s := (s.stamp i f).setJumpSlots i chainable
          if cflags == 0 then (some i, s.insert i, c.insert pc i) else (some i, s, c)

def tbFind (pc : BitVec 64) (flags : BitVec 32) (curPhys : Option (BitVec 64))
    (w : Work) : Option Nat × TbStore × JumpCache :=
  match curPhys with
  | none => tbGenCode s c pc flags 0 w
  | some phys =>
    match s.jumpCacheHit c pc flags phys with
    | some i => (some i, s, c)
    | none =>
      match s.hashHit pc flags phys with
      | some i => (some i, s, c.insert pc i)
      | none => tbGenCode s c pc flags 0 w

end MachinaTbStore
