import Machina.VirtQueue

/-!
# The virtio transport over memory-mapped registers

The transport keeps the registers a driver writes and passes features, queues and resets
on to a device, which is a parameter. A write whose queue processing faults does not
return.
-/

namespace MachinaVirtMmio

open MachinaVirtQueue

/-- What a device does for the transport. `handleQueue` returns how many buffers it used. -/
structure VirtioDevice (D : Type) where
  features : D → BitVec 64
  ackFeatures : BitVec 64 → D → D
  configWrite : Nat → Nat → BitVec 64 → D → D
  reset : D → D
  handleQueue : Nat → VirtQueue → Ram → D → Except Fault (VirtQueue × Ram × D × Nat)

structure QueueSlot where
  ready : Bool
  queue : VirtQueue
  deriving DecidableEq, Repr

def QueueSlot.new : QueueSlot := ⟨false, ⟨0, 0, 0, 0, 0⟩⟩

structure VirtioMmioState (D : Type) where
  device : D
  irq : Bool
  status : BitVec 32
  deviceFeaturesSel : BitVec 32
  driverFeaturesSel : BitVec 32
  driverFeatures : BitVec 64
  queueSel : BitVec 32
  queues : List QueueSlot
  interruptStatus : BitVec 32
  guestPageSize : BitVec 32
  ram : Ram

variable {D : Type}

/-- The state the transport is created in. -/
def VirtioMmioState.new (device : D) (numQueues : Nat) (ram : Ram) : VirtioMmioState D where
  device := device
  irq := false
  status := 0
  deviceFeaturesSel := 0
  driverFeaturesSel := 0
  driverFeatures := 0
  queueSel := 0
  queues := List.replicate (max numQueues 1) QueueSlot.new
  interruptStatus := 0
  guestPageSize := 0
  ram := ram

def VirtioMmioState.reset (ops : VirtioDevice D) (s : VirtioMmioState D) : VirtioMmioState D where
  device := ops.reset s.device
  irq := false
  status := 0
  deviceFeaturesSel := 0
  driverFeaturesSel := 0
  driverFeatures := 0
  queueSel := 0
  queues := s.queues.map fun _ => QueueSlot.new
  interruptStatus := 0
  guestPageSize := 0
  ram := s.ram

variable (s : VirtioMmioState D)

def VirtioMmioState.negotiatedFeatures : BitVec 64 := s.driverFeatures

def VirtioMmioState.isDriverOk : Bool := s.status &&& 0x4 != 0

/-- Change the selected queue, if there is one. -/
def VirtioMmioState.currentQueue (f : QueueSlot → QueueSlot) : VirtioMmioState D :=
  { s with queues := s.queues.modify s.queueSel.toNat f }

def VirtioMmioState.injectRx (usedCount : Nat) : VirtioMmioState D :=
  if 0 < usedCount then { s with interruptStatus := s.interruptStatus ||| 1, irq := true } else s

def VirtioMmioState.processNotify (ops : VirtioDevice D) (s : VirtioMmioState D) : Except Fault (VirtioMmioState D) :=
  match s.queues[s.queueSel.toNat]? with
  | none => .ok s
  | some slot =>
    if !slot.ready || slot.queue.num == 0 then .ok s
    else if s.status &&& 0x4 = 0 then .ok s
    else do
      let (queue, ram, device, n) ← ops.handleQueue s.queueSel.toNat slot.queue s.ram s.device
      let s := { s with device, ram, queues := s.queues.set s.queueSel.toNat { slot with queue } }
      return if 0 < n then { s with interruptStatus := s.interruptStatus ||| 1, irq := true } else s

/-- Replace one of the two halves of a 64-bit register. -/
def setLow (x : BitVec 64) (v : BitVec 32) : BitVec 64 := (x &&& 0xFFFFFFFF00000000) ||| v.setWidth 64

def setHigh (x : BitVec 64) (v : BitVec 32) : BitVec 64 := (x &&& 0x00000000FFFFFFFF) ||| (v.setWidth 64 <<< 32)

/-- The features after a write to the selected window. -/
def VirtioMmioState.windowWritten (v : BitVec 32) : BitVec 64 :=
  if s.driverFeaturesSel = 0 then setLow s.driverFeatures v else setHigh s.driverFeatures v

def maxQueueSize : BitVec 32 := 256

/-- A queue laid out from a page frame, as legacy drivers ask for. -/
def QueueSlot.legacyPfn (slot : QueueSlot) (gps v : BitVec 32) : QueueSlot :=
  if v = 0 then QueueSlot.new
  else if gps = 0 then slot
  else
    let base := v.toNat * gps.toNat
    let align := gps.toNat
    let availOff := slot.queue.num.toNat * 16
    let usedOff := (base + availOff + 6 + slot.queue.num.toNat * 2 + align - 1) / align * align
    ⟨true, { slot.queue with
      descAddr := BitVec.ofNat 64 base
      availAddr := BitVec.ofNat 64 (base + availOff)
      usedAddr := BitVec.ofNat 64 usedOff }⟩

/-- A write to the status register: zero resets the device, and FEATURES_OK hands the features over. -/
def VirtioMmioState.writeStatus (ops : VirtioDevice D) (s : VirtioMmioState D) (v : BitVec 32) : VirtioMmioState D :=
  if v = 0 then s.reset ops
  else if v &&& 0x8 ≠ 0 ∧ s.status &&& 0x8 = 0 then
    { s with status := v, device := ops.ackFeatures s.driverFeatures s.device }
  else { s with status := v }

def VirtioMmioState.write (ops : VirtioDevice D) (s : VirtioMmioState D) (offset size : Nat) (val : BitVec 64) :
    Except Fault (VirtioMmioState D) :=
  if offset < 0x100 ∧ size ≠ 4 then .ok s
  else
    let v := val.setWidth 32
    match offset with
    | 0x014 => .ok { s with deviceFeaturesSel := v }
    | 0x020 => .ok { s with driverFeatures := s.windowWritten v }
    | 0x024 => .ok { s with driverFeaturesSel := v }
    | 0x030 => .ok { s with queueSel := v }
    | 0x038 =>
      .ok (s.currentQueue fun slot => { slot with queue.num := if v ≤ maxQueueSize then v else maxQueueSize })
    | 0x044 => .ok (s.currentQueue fun slot => { slot with ready := v != 0 })
    | 0x050 => do
      let t ← { s with queueSel := v }.processNotify ops
      return { t with queueSel := s.queueSel }
    | 0x064 =>
      let left := s.interruptStatus &&& ~~~v
      .ok { s with interruptStatus := left, irq := if left = 0 then false else s.irq }
    | 0x070 => .ok (s.writeStatus ops v)
    | 0x080 => .ok (s.currentQueue fun slot => { slot with queue.descAddr := setLow slot.queue.descAddr v })
    | 0x084 => .ok (s.currentQueue fun slot => { slot with queue.descAddr := setHigh slot.queue.descAddr v })
    | 0x090 => .ok (s.currentQueue fun slot => { slot with queue.availAddr := setLow slot.queue.availAddr v })
    | 0x094 => .ok (s.currentQueue fun slot => { slot with queue.availAddr := setHigh slot.queue.availAddr v })
    | 0x0a0 => .ok (s.currentQueue fun slot => { slot with queue.usedAddr := setLow slot.queue.usedAddr v })
    | 0x0a4 => .ok (s.currentQueue fun slot => { slot with queue.usedAddr := setHigh slot.queue.usedAddr v })
    | 0x028 => .ok { s with guestPageSize := v }
    | 0x040 => .ok (s.currentQueue fun slot => slot.legacyPfn s.guestPageSize v)
    | _ =>
      if 0x100 ≤ offset then .ok { s with device := ops.configWrite (offset - 0x100) size val s.device }
      else .ok s

end MachinaVirtMmio
