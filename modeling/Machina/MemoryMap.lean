import Machina.Intervals

/-!
# The memory map of the guest

A tree of regions is flattened into ranges of the address space, by priority. RAM and
ROM ranges are backed by blocks of host memory, I/O ranges by a device. An access is
sent to the range of its first byte. Arithmetic on addresses wraps at 64 bits.
-/

namespace MachinaMemory

open MachinaIntervals

def wadd (a b : Nat) : Nat := (a + b) % 2 ^ 64

def wsub (a b : Nat) : Nat := (a + 2 ^ 64 - b) % 2 ^ 64

structure RamBlock where
  id : Nat
  size : BitVec 64
  deriving DecidableEq, Repr

/-- Device callbacks, on devices in a state of type `D`. -/
structure MmioOps (D : Type) where
  read : Nat → Nat → D → BitVec 64 × D
  write : Nat → Nat → BitVec 64 → D → D

mutual

inductive RegionType (D : Type) where
  | ram (block : RamBlock)
  | rom (block : RamBlock)
  | io (ops : MmioOps D)
  | window (target : MemoryRegion D) (offset : BitVec 64)
  | container

inductive MemoryRegion (D : Type) where
  | mk (size : BitVec 64) (regionType : RegionType D) (priority : Int) (subregions : List (SubRegion D))
      (enabled : Bool)

inductive SubRegion (D : Type) where
  | mk (region : MemoryRegion D) (offset : BitVec 64)

end

variable {D : Type}

def MemoryRegion.size : MemoryRegion D → BitVec 64
  | .mk size _ _ _ _ => size

inductive FlatRangeKind (D : Type) where
  | ram (block : RamBlock)
  | rom (block : RamBlock)
  | io (ops : MmioOps D)

structure FlatRange (D : Type) where
  addr : Nat
  size : Nat
  kind : FlatRangeKind D
  offsetInRegion : Nat

/-- The end of a range; the addition wraps. -/
def FlatRange.stop (r : FlatRange D) : Nat := wadd r.addr r.size

/-- A leaf of the tree before overlaps are resolved. -/
structure RawRange (D : Type) where
  addr : Nat
  size : Nat
  priority : Int
  kind : FlatRangeKind D
  offsetInRegion : Nat

section Collect

mutual

/-- Collect a leaf through an alias of `aliasSize` bytes at `aliasOff` in the target. -/
def collectAlias (base aliasOff aliasSize : Nat) (prio : Int) : MemoryRegion D → List (RawRange D)
  | .mk _ regionType _ subregions enabled =>
    if enabled then
      match regionType with
      | .ram block => [⟨base, aliasSize, prio, .ram block, aliasOff⟩]
      | .rom block => [⟨base, aliasSize, prio, .rom block, aliasOff⟩]
      | .io ops => [⟨base, aliasSize, prio, .io ops, aliasOff⟩]
      | .window inner innerOff => collectAlias base (wadd aliasOff innerOff.toNat) aliasSize prio inner
      | .container => collectAliasSubs base aliasOff aliasSize prio subregions
    else []

/-- The subregions of a container, clipped to the window of the alias. -/
def collectAliasSubs (base aliasOff aliasSize : Nat) (prio : Int) : List (SubRegion D) → List (RawRange D)
  | [] => []
  | .mk region offset :: rest =>
    let subStart := offset.toNat
    let subEnd := wadd subStart region.size.toNat
    let winEnd := wadd aliasOff aliasSize
    let clipStart := max subStart aliasOff
    let clipEnd := min subEnd winEnd
    (if subEnd ≤ aliasOff ∨ winEnd ≤ subStart then []
    else
      collectAlias (wadd base (clipStart - aliasOff)) (clipStart - subStart) (wsub clipEnd clipStart) prio region) ++
      collectAliasSubs base aliasOff aliasSize prio rest

end

mutual

/-- Collect the leaves of a tree with their addresses and inherited priorities. -/
def collect (base : Nat) (inheritedPrio : Int) : MemoryRegion D → List (RawRange D)
  | .mk size regionType priority subregions enabled =>
    if enabled then
      let prio := max priority inheritedPrio
      (match regionType with
      | .ram block => [⟨base, size.toNat, prio, .ram block, 0⟩]
      | .rom block => [⟨base, size.toNat, prio, .rom block, 0⟩]
      | .io ops => [⟨base, size.toNat, prio, .io ops, 0⟩]
      | .window target aliasOff => collectAlias base aliasOff.toNat size.toNat prio target
      | .container => []) ++ collectSubs base prio subregions
    else []

def collectSubs (base : Nat) (prio : Int) : List (SubRegion D) → List (RawRange D)
  | [] => []
  | .mk region offset :: rest => collect (wadd base offset.toNat) prio region ++ collectSubs base prio rest

end

end Collect

section Flatten

/-- Higher priority first; ties broken by address. -/
def RawRange.before (a b : RawRange D) : Prop := b.priority < a.priority ∨ a.priority = b.priority ∧ a.addr ≤ b.addr

instance (a b : RawRange D) : Decidable (a.before b) :=
  inferInstanceAs (Decidable (b.priority < a.priority ∨ a.priority = b.priority ∧ a.addr ≤ b.addr))

def pushFragment (raw : RawRange D) (p : Nat × Nat) : FlatRange D where
  addr := p.1
  size := p.2 - p.1
  kind := raw.kind
  offsetInRegion := wadd raw.offsetInRegion (p.1 - raw.addr)

/-- The existing ranges that overlap the window, by address. -/
def overlaps (resolved : List (FlatRange D)) (cur stop : Nat) : List (Nat × Nat) :=
  ((resolved.filter fun r => decide (r.addr < stop ∧ cur < r.stop)).map fun r => (r.addr, r.stop)).insertionSort
    fun p q => p.1 ≤ q.1

/-- Insert what earlier ranges do not cover. -/
def insertRange (resolved : List (FlatRange D)) (raw : RawRange D) : List (FlatRange D) :=
  let stop := wadd raw.addr raw.size
  resolved ++ (gaps raw.addr stop (overlaps resolved raw.addr stop)).map (pushFragment raw)

/-- Flatten a tree into sorted ranges that do not overlap. -/
def fromRegion (root : MemoryRegion D) : List (FlatRange D) :=
  (((collect 0 0 root).insertionSort RawRange.before).foldl insertRange []).insertionSort fun r s => r.addr ≤ s.addr

/-- The range that contains an address: the last one that does not start after it. -/
def lookup (ranges : List (FlatRange D)) (addr : Nat) : Option (FlatRange D) :=
  match (ranges.takeWhile fun r => decide (r.addr ≤ addr)).getLast? with
  | none => none
  | some r => if addr < r.stop then some r else none

end Flatten

section Access

/-- The bytes of all blocks and the state of the devices. -/
structure Bus (D : Type) where
  mem : RamBlock → Nat → BitVec 8
  dev : D

/-- The first `n` bytes as a little-endian word. -/
def leWord (f : Nat → BitVec 8) : Nat → BitVec 64
  | 0 => 0#64
  | n + 1 => leWord f n ||| ((f n).setWidth 64 <<< (8 * n))

def leByte (val : BitVec 64) (i : Nat) : BitVec 8 := (val >>> (8 * i)).setWidth 8

/-- The offset of an address in the region behind its range. -/
def regionOff (fr : FlatRange D) (addr : Nat) : Nat := wadd fr.offsetInRegion (addr - fr.addr)

/-- Copy the low bytes of a word into a block. -/
def storeBytes (mem : RamBlock → Nat → BitVec 8) (block : RamBlock) (off size : Nat) (val : BitVec 64) :
    RamBlock → Nat → BitVec 8 := fun b i =>
  if b = block ∧ off ≤ i ∧ i < off + size then leByte val (i - off) else mem b i

variable (ranges : List (FlatRange D))

/-- Read `size` bytes; what is not mapped reads as zero. -/
def read (addr size : Nat) (s : Bus D) : BitVec 64 × Bus D :=
  match lookup ranges addr with
  | none => (0#64, s)
  | some fr =>
    match fr.kind with
    | .ram block | .rom block => (leWord (fun i => s.mem block (regionOff fr addr + i)) size, s)
    | .io ops =>
      let (val, dev) := ops.read (regionOff fr addr) size s.dev
      (val, { s with dev := dev })

/-- Write `size` bytes; what is not mapped and ROM drop the write. -/
def write (addr size : Nat) (val : BitVec 64) (s : Bus D) : Bus D :=
  match lookup ranges addr with
  | none => s
  | some fr =>
    match fr.kind with
    | .ram block => { s with mem := storeBytes s.mem block (regionOff fr addr) size val }
    | .rom _ => s
    | .io ops => { s with dev := ops.write (regionOff fr addr) size val s.dev }

/-- Whether the range of the first byte reaches to the end of the access. -/
def isMapped (addr size : Nat) : Bool :=
  match lookup ranges addr with
  | none => false
  | some fr => decide (addr + size < 2 ^ 64 ∧ addr + size ≤ fr.stop)

end Access

end MachinaMemory
