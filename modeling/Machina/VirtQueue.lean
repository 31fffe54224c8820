import Machina.MemoryMap

/-!
# Split virtqueues in guest RAM

The rings and the descriptor table lie at addresses the guest chooses. The accessors turn
an address into an offset in the RAM block. An unchecked sum that leaves 64 (or 32) bits
and an access outside the block are faults; the checked sums of the source are options.
-/

namespace MachinaVirtQueue

open MachinaMemory (leWord leByte)

/-- What the code must never do: let a sum wrap (a panic in a build with overflow checks), or touch memory
outside of a block. -/
inductive Fault where
  | wraps
  | outside
  deriving DecidableEq, Repr

def add64 (a b : Nat) : Except Fault Nat := if a + b < 2 ^ 64 then .ok (a + b) else .error .wraps

def mul64 (a b : Nat) : Except Fault Nat := if a * b < 2 ^ 64 then .ok (a * b) else .error .wraps

def add32 (a b : Nat) : Except Fault Nat := if a + b < 2 ^ 32 then .ok (a + b) else .error .wraps

def checkedAdd (a b : Nat) : Option Nat := if a + b < 2 ^ 64 then some (a + b) else none

def checkedSub (a b : Nat) : Option Nat := if b ≤ a then some (a - b) else none

def checkedMul (a b : Nat) : Option Nat := if a * b < 2 ^ 64 then some (a * b) else none

/-- The RAM block of the guest, from guest address `base` on. -/
structure Ram where
  base : BitVec 64
  size : BitVec 64
  bytes : Nat → BitVec 8

/-- An unaligned read of up to eight bytes at an offset in the block. -/
def Ram.read (ram : Ram) (off len : Nat) : Except Fault (BitVec 64) :=
  if off + len ≤ ram.size.toNat then .ok (leWord (fun i => ram.bytes (off + i)) len) else .error .outside

/-- The block after an unaligned write. -/
def Ram.store (ram : Ram) (off len : Nat) (val : BitVec 64) : Ram where
  base := ram.base
  size := ram.size
  bytes := fun a => if off ≤ a ∧ a < off + len then leByte val (a - off) else ram.bytes a

def Ram.write (ram : Ram) (off len : Nat) (val : BitVec 64) : Except Fault Ram :=
  if off + len ≤ ram.size.toNat then .ok (ram.store off len val) else .error .outside

def vringDescFNext : BitVec 16 := 1

def vringDescFWrite : BitVec 16 := 2

structure Desc where
  addr : BitVec 64
  len : BitVec 32
  flags : BitVec 16
  next : BitVec 16
  deriving DecidableEq, Repr

def Desc.writable (desc : Desc) : Bool := desc.flags &&& vringDescFWrite != 0

def Desc.chained (desc : Desc) : Bool := desc.flags &&& vringDescFNext != 0

structure VirtQueue where
  num : BitVec 32
  descAddr : BitVec 64
  availAddr : BitVec 64
  usedAddr : BitVec 64
  lastAvailIdx : BitVec 16
  deriving DecidableEq, Repr

section

variable (queue : VirtQueue) (ram : Ram)

def VirtQueue.readDesc (idx : BitVec 16) : Except Fault (Option Desc) := do
  let start ← mul64 idx.toNat 16
  match checkedAdd queue.descAddr.toNat start with
  | none => return none
  | some addr =>
    match checkedSub addr ram.base.toNat with
    | none => return none
    | some off =>
      match checkedAdd off 16 with
      | none => return none
      | some stop =>
        if ram.size.toNat < stop then return none
        let addr ← ram.read off 8
        let len ← ram.read (off + 8) 4
        let flags ← ram.read (off + 12) 2
        let next ← ram.read (off + 14) 2
        return some ⟨addr, len.setWidth 32, flags.setWidth 16, next.setWidth 16⟩

/-- `avail.idx`, or the last index seen where the ring cannot be read. -/
def VirtQueue.readAvailIdx : Except Fault (BitVec 16) :=
  match checkedAdd queue.availAddr.toNat 2 with
  | none => .ok queue.lastAvailIdx
  | some addr =>
    match checkedSub addr ram.base.toNat with
    | none => .ok queue.lastAvailIdx
    | some off => do
      let stop ← add64 off 2
      if ram.size.toNat < stop then return queue.lastAvailIdx
      let idx ← ram.read off 2
      return idx.setWidth 16

/-- The offset in RAM of `len` bytes at `offset` in a ring. -/
def ringOff (baseAddr offset len : Nat) (ram : Ram) : Option Nat := do
  let addr ← checkedAdd baseAddr offset
  let off ← checkedSub addr ram.base.toNat
  let stop ← checkedAdd off len
  if ram.size.toNat < stop then none else some off

def VirtQueue.readAvailRing (ringIdx : BitVec 16) : Except Fault (BitVec 16) :=
  if queue.num = 0 then .ok 0
  else
    let i := ringIdx.toNat % queue.num.toNat
    match (checkedMul i 2).bind fun e => checkedAdd e 4 with
    | none => .ok 0
    | some entryOffset =>
      match ringOff queue.availAddr.toNat entryOffset 2 ram with
      | none => .ok 0
      | some off => do
        let head ← ram.read off 2
        return head.setWidth 16

def VirtQueue.readUsedIdx : Except Fault (Option (BitVec 16)) :=
  match ringOff queue.usedAddr.toNat 2 2 ram with
  | none => .ok none
  | some off => do
    let idx ← ram.read off 2
    return some (idx.setWidth 16)

def VirtQueue.writeUsed (usedIdx : BitVec 16) (descId len : BitVec 32) : Except Fault Ram :=
  if queue.num = 0 then .ok ram
  else
    let i := usedIdx.toNat % queue.num.toNat
    match (checkedMul i 8).bind fun e => checkedAdd e 4 with
    | none => .ok ram
    | some entryOffset =>
      match ringOff queue.usedAddr.toNat entryOffset 8 ram with
      | none => .ok ram
      | some off => do
        let ram ← ram.write off 4 (descId.setWidth 64)
        ram.write (off + 4) 4 (len.setWidth 64)

def VirtQueue.writeUsedIdx (idx : BitVec 16) : Except Fault Ram :=
  match ringOff queue.usedAddr.toNat 2 2 ram with
  | none => .ok ram
  | some off => ram.write off 2 (idx.setWidth 64)

/-- At most `limit` descriptors of the chain from `idx` on. -/
def VirtQueue.walkFrom (queue : VirtQueue) (ram : Ram) : Nat → BitVec 16 → Except Fault (List Desc)
  | 0, _ => .ok []
  | limit + 1, idx => do
    match ← queue.readDesc ram idx with
    | none => return []
    | some desc =>
      if desc.chained then
        let rest ← queue.walkFrom ram limit desc.next
        return desc :: rest
      else return [desc]

def VirtQueue.walkChain (head : BitVec 16) : Except Fault (List Desc) :=
  queue.walkFrom ram queue.num.toNat head

end

section

variable {queue : VirtQueue} {ram : Ram}

theorem Ram.read_inside {off len : Nat} (h : off + len ≤ ram.size.toNat) :
    ram.read off len = .ok (leWord (fun i => ram.bytes (off + i)) len) := if_pos h

theorem Ram.write_inside {off len : Nat} {val : BitVec 64} (h : off + len ≤ ram.size.toNat) :
    ram.write off len val = .ok (ram.store off len val) := if_pos h

theorem checkedAdd_eq_some {a b c : Nat} (h : checkedAdd a b = some c) : c = a + b ∧ a + b < 2 ^ 64 := by
  rw [checkedAdd] at h
  split at h
  · exact ⟨(Option.some.inj h).symm, ‹_›⟩
  · cases h

theorem checkedSub_of_le {a b : Nat} (h : b ≤ a) : checkedSub a b = some (a - b) := if_pos h

theorem checkedSub_of_lt {a b : Nat} (h : a < b) : checkedSub a b = none := if_neg (by omega)

theorem ringOff_inside {baseAddr offset len off : Nat} (h : ringOff baseAddr offset len ram = some off) :
    off + len ≤ ram.size.toNat := by
  obtain ⟨addr, -, h⟩ := Option.bind_eq_some_iff.mp h
  obtain ⟨o, -, h⟩ := Option.bind_eq_some_iff.mp h
  obtain ⟨stop, hstop, h⟩ := Option.bind_eq_some_iff.mp h
  split at h
  · cases h
  obtain rfl := Option.some.inj h
  rw [(checkedAdd_eq_some hstop).1] at *
  omega

def Safe {α : Type} (x : Except Fault α) : Prop := ∃ a, x = .ok a

theorem Safe.ok {α : Type} (a : α) : Safe (.ok a) := ⟨a, rfl⟩

theorem Safe.bind {α β : Type} {x : Except Fault α} {f : α → Except Fault β} (hx : Safe x)
    (hf : ∀ a, x = .ok a → Safe (f a)) : Safe (x >>= f) := by
  obtain ⟨a, rfl⟩ := hx
  exact hf a rfl

theorem bind_ok {α β : Type} {x : Except Fault α} {f : α → Except Fault β} {b : β} (h : x >>= f = .ok b) :
    ∃ a, x = .ok a ∧ f a = .ok b := by
  cases x with
  | error e => cases h
  | ok a => exact ⟨a, rfl, h⟩

theorem read_safe {off len : Nat} (h : off + len ≤ ram.size.toNat) : Safe (ram.read off len) :=
  ⟨_, Ram.read_inside h⟩

theorem readDesc_safe (idx : BitVec 16) : Safe (queue.readDesc ram idx) := by
  have hidx := idx.isLt
  apply Safe.bind ⟨_, if_pos (by omega)⟩
  intro start _
  split
  · exact Safe.ok _
  split
  · exact Safe.ok _
  rename_i off _
  split
  · exact Safe.ok _
  rename_i stop hstop
  have hsum := (checkedAdd_eq_some hstop).1
  split
  · exact Safe.ok _
  · exact (read_safe (by omega)).bind fun _ _ => (read_safe (by omega)).bind fun _ _ =>
      (read_safe (by omega)).bind fun _ _ => (read_safe (by omega)).bind fun _ _ => Safe.ok _

theorem readAvailRing_safe (ringIdx : BitVec 16) : Safe (queue.readAvailRing ram ringIdx) := by
  rw [VirtQueue.readAvailRing]
  split
  · exact Safe.ok _
  dsimp only
  split
  · exact Safe.ok _
  split
  · exact Safe.ok _
  · exact (read_safe (ringOff_inside ‹_›)).bind fun _ _ => Safe.ok _

theorem readUsedIdx_safe : Safe (queue.readUsedIdx ram) := by
  rw [VirtQueue.readUsedIdx]
  split
  · exact Safe.ok _
  · exact (read_safe (ringOff_inside ‹_›)).bind fun _ _ => Safe.ok _

theorem writeUsed_safe (usedIdx : BitVec 16) (descId len : BitVec 32) :
    Safe (queue.writeUsed ram usedIdx descId len) := by
  rw [VirtQueue.writeUsed]
  split
  · exact Safe.ok _
  dsimp only
  split
  · exact Safe.ok _
  split
  · exact Safe.ok _
  rename_i off hoff
  have hin := ringOff_inside hoff
  rw [Ram.write_inside (by omega)]
  -- The first write keeps the size of the block, so the second one is inside too.
  exact ⟨_, if_pos (show off + 4 + 4 ≤ ram.size.toNat by omega)⟩

theorem writeUsedIdx_safe (idx : BitVec 16) : Safe (queue.writeUsedIdx ram idx) := by
  rw [VirtQueue.writeUsedIdx]
  split
  · exact Safe.ok _
  · exact ⟨_, Ram.write_inside (ringOff_inside ‹_›)⟩

theorem walkFrom_safe (limit : Nat) (idx : BitVec 16) : Safe (queue.walkFrom ram limit idx) := by
  induction limit generalizing idx with
  | zero => exact Safe.ok _
  | succ limit ih =>
    apply (readDesc_safe idx).bind
    intro desc _
    split
    · exact Safe.ok _
    split
    · exact (ih _).bind fun _ _ => Safe.ok _
    · exact Safe.ok _

/-- The sum that `read_avail_idx` leaves unchecked does not wrap. -/
def AvailReadable (queue : VirtQueue) (ram : Ram) : Prop :=
  ram.base.toNat ≤ queue.availAddr.toNat + 2 → queue.availAddr.toNat + 2 < 2 ^ 64 →
    queue.availAddr.toNat + 2 - ram.base.toNat + 2 < 2 ^ 64

theorem readAvailIdx_safe_iff : Safe (queue.readAvailIdx ram) ↔ AvailReadable queue ram := by
  rw [VirtQueue.readAvailIdx, AvailReadable]
  by_cases hadd : queue.availAddr.toNat + 2 < 2 ^ 64
  · rw [checkedAdd, if_pos hadd]
    by_cases hsub : ram.base.toNat ≤ queue.availAddr.toNat + 2
    · simp only [checkedSub_of_le hsub, hadd, hsub, forall_const]
      by_cases hsum : queue.availAddr.toNat + 2 - ram.base.toNat + 2 < 2 ^ 64
      · refine iff_of_true (Safe.bind ⟨_, if_pos hsum⟩ fun stop hstop => ?_) hsum
        rw [add64, if_pos hsum] at hstop
        obtain rfl := Except.ok.inj hstop
        split
        · exact Safe.ok _
        · exact (read_safe (by omega)).bind fun _ _ => Safe.ok _
      · refine iff_of_false ?_ hsum
        rintro ⟨idx, h⟩
        rw [add64, if_neg hsum] at h
        cases h
    · simp only [checkedSub_of_lt (Nat.lt_of_not_le hsub)]
      exact iff_of_true (Safe.ok _) fun h => absurd h hsub
  · rw [checkedAdd, if_neg hadd]
    exact iff_of_true (Safe.ok _) fun _ h => absurd h hadd

end

end MachinaVirtQueue
