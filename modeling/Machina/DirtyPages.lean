import Machina.Tlb
import Machina.TbPages

/-!
# Dirty pages

A store to a page that holds translated code has to reach the block store before the code runs again. Helpers push
the page on a list of the CPU if the block store counts code in it. A store that generated code performs inline only
sets a flag in the TLB entry it went through. `take_dirty_pages` joins the two.
-/

namespace MachinaDirtyPages

open MachinaRiscv MachinaMmu MachinaByteMem MachinaCpu MachinaFullSystem MachinaMachine
open MachinaTlb MachinaTbStore MachinaTbPages

local instance lawfulBEq : LawfulBEq (BitVec 64) := inferInstance

/-- A write of guest memory: its address, its number of bytes, and the TLB entry of an inline one. -/
structure Store where
  pa : BitVec 64
  bytes : Nat
  entry : Option (Fin 256)
  deriving DecidableEq

/-- The write of a helper, by `write_phys_sized`. -/
def byHelper (pa size : BitVec 64) : Store := ⟨pa, accessBytes size, none⟩

variable (s : FullSystemCpu)

def adStores (gva : BitVec 64) (access : AccessType) (priv : PrivLevel) : List Store :=
  match s.cpu.mmu.walkPageTable s.mem gva access (some s.cpu.pmp) priv with
  | .error _ => []
  | .ok leaf =>
    match checkPerm leaf.perm access priv s.cpu.csr.mstatus with
    | .error _ => []
    | .ok () =>
      if touchPte leaf.pte access = leaf.pte then []
      else
        match pmpCheck (some s.cpu.pmp) leaf.pteAddr pteSize .write priv with
        | .error _ => []
        | .ok () => [byHelper leaf.pteAddr pteSize]

/-- The writes of a helper: those of its translation, and its own once it has an address. -/
def helperStores (gva : BitVec 64) (access : AccessType) (size : BitVec 64)
    (own : FullSystemCpu → BitVec 64 → Bool) : List Store :=
  let effPriv := effectiveDataPriv s.cpu.priv s.cpu.csr.mstatus
  let walk := if translationMode s.cpu effPriv = satpModeBare then [] else adStores s gva access effPriv
  match s.translateForHelper gva access size with
  | (s', some pa) => if own s' pa then walk ++ [byHelper pa size] else walk
  | (_, none) => walk

def fetchStores (vpc : BitVec 64) : List Store :=
  if translationMode s.cpu s.cpu.priv = satpModeBare then [] else adStores s vpc .execute s.cpu.priv

/-- The guest's writes of an event, in their order. -/
def stores : MachinaMachine.Event → List Store
  | .load gva size =>
    if s.inlineHit .read gva size = none then helperStores s gva .read size fun _ _ => false else []
  | .store gva _ size =>
    match s.inlineHit .write gva size with
    | some addend => [⟨hostPhys s.cpu gva addend, accessBytes size, some (tlbIndex gva)⟩]
    | none => helperStores s gva .write size fun s' pa => s'.isPhysBacked pa size
  | .loadReserved gva size => helperStores s gva .read size fun _ _ => false
  | .storeConditional gva _ size =>
    helperStores s gva .write size fun s' pa =>
      decide (s'.cpu.loadRes = pa) && s'.isPhysBacked pa size && decide (s'.readAtomic pa size = s'.cpu.loadVal)
  | .amo gva _ size op =>
    if (size = 4#64 ∨ size = 8#64) ∧ gva &&& (size - 1#64) = 0#64 then
      helperStores s gva .write size fun s' pa => s'.isPhysBacked pa size && op.isSome
    else []
  | .fetch vpc => fetchStores s vpc
  | .csrExit _ => fetchStores s s.cpu.pc
  | _ => []

/-- The store is one of RAM, and one of its bytes lies in the page. -/
def Store.touches (w : Store) (c : RiscvCpu) (page : BitVec 64) : Prop :=
  inRam c w.pa ∧ ∃ k < w.bytes, (w.pa + BitVec.ofNat 64 k) >>> 12 = page

instance (w : Store) (c : RiscvCpu) (page : BitVec 64) : Decidable (w.touches c page) :=
  inferInstanceAs (Decidable (_ ∧ _))

/-- The CPU, the block store and the CPU's list of dirty pages. -/
structure Tracked where
  sys : FullSystemCpu
  engine : Engine
  dirtyPages : List (BitVec 64)

/-- The end of `write_phys_sized`: the page of the address is pushed if the store counts code in it. -/
def recordStore (c : RiscvCpu) (blocks : TbStore) (dirty : List (BitVec 64)) (w : Store) : List (BitVec 64) :=
  let page := w.pa >>> 12
  if w.entry = none ∧ inRam c w.pa ∧ blocks.isCodePage page.toNat = true ∧ page ∉ dirty then dirty ++ [page] else dirty

/-- The push of `take_dirty_tlb_pages` for one entry. -/
def pushEntry (buf : List (BitVec 64)) (e : TlbEntry) : List (BitVec 64) :=
  if e.dirty ≠ 0#8 ∧ e.physPage ≠ 0#64 ∧ e.addend ≠ tlbMmioAddend ∧ e.physPage ∉ buf then buf ++ [e.physPage] else buf

def takeDirtyTlbPages (m : Mmu) : List (BitVec 64) × Mmu :=
  ((List.finRange 256).foldl (fun buf i => pushEntry buf (m.tlb i)) [],
    { m with tlb := fun i => if (m.tlb i).dirty ≠ 0#8 then { m.tlb i with dirty := 0#8 } else m.tlb i })

def takeDirtyPages (t : Tracked) : List (BitVec 64) × Tracked :=
  let (tlbPages, mmu) := takeDirtyTlbPages t.sys.cpu.mmu
  (tlbPages.foldl (fun pages p => if p ∈ pages then pages else pages ++ [p]) t.dirtyPages,
    { t with sys := onCpu t.sys fun c => { c with mmu := mmu }, dirtyPages := [] })

inductive Event where
  | machine (e : MachinaMachine.Event)
  | engine (e : MachinaTbPages.Event)
  /-- A call of `take_dirty_pages`: by `fence.i`, or by the execution loop after a block. -/
  | takeDirty

def afterMachine (t : Tracked) (e : MachinaMachine.Event) : Tracked :=
  { t with
    sys := MachinaMachine.step t.sys e
    dirtyPages := (stores t.sys e).foldl (recordStore t.sys.cpu t.engine.store) t.dirtyPages }

def step (t : Tracked) : Event → Option Tracked
  | .machine e => some (afterMachine t e)
  | .engine e => (MachinaTbPages.step t.engine e).map fun engine => { t with engine := engine }
  | .takeDirty => some (takeDirtyPages t).2

/-- A live block was translated from the page. -/
def HoldsCode (t : Tracked) (page : BitVec 64) : Prop :=
  ∃ i < t.engine.store.len, t.engine.store.live i = true ∧ covers (t.engine.store.tbs i) page.toNat

end MachinaDirtyPages
