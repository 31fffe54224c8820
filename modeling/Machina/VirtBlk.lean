import Machina.Copies
import Machina.VirtQueue

/-!
# The virtio block device

A request is a chain of descriptors: a header of 16 bytes, data buffers and a status
byte. The data moves between guest RAM and a mapped disk image, one descriptor at a time.
-/

namespace MachinaVirtBlk

open MachinaCopies MachinaVirtQueue

def sectorSize : Nat := 512

def virtioBlkTIn : BitVec 32 := 0

def virtioBlkTOut : BitVec 32 := 1

def virtioBlkSOk : BitVec 8 := 0

def virtioBlkSIoerr : BitVec 8 := 1

def virtioBlkSUnsupp : BitVec 8 := 2

/-- A disk image of whole sectors, whose size in bytes is a 64-bit number. -/
structure VirtioBlk where
  image : Nat → BitVec 8
  capacity : BitVec 64
  sized : capacity.toNat * sectorSize < 2 ^ 64

/-- The memory a request works on. -/
structure Machine where
  ram : Ram
  blk : VirtioBlk

section

variable (m : Machine)

def Machine.diskSize : Nat := m.blk.capacity.toNat * sectorSize

/-- Copy bytes of the image into guest RAM, or the other way. -/
def Machine.moved (intoGuest : Bool) (guestOff diskOff len : Nat) : Machine :=
  if intoGuest then
    { m with ram := { m.ram with bytes := Copy.apply ⟨diskOff, guestOff, len⟩ m.blk.image m.ram.bytes } }
  else
    { m with blk := { m.blk with image := Copy.apply ⟨guestOff, diskOff, len⟩ m.ram.bytes m.blk.image } }

def Machine.copyNonoverlapping (intoGuest : Bool) (guestOff diskOff len : Nat) : Except Fault Machine :=
  if guestOff + len ≤ m.ram.size.toNat ∧ diskOff + len ≤ m.diskSize then .ok (m.moved intoGuest guestOff diskOff len)
  else .error .outside

/-- The loop over the data descriptors: those of the other direction are skipped. Only bytes written to the
guest are counted. -/
def transferLoop (intoGuest : Bool) (diskCap : Nat) (m : Machine) (diskOff total : Nat) :
    List Desc → Except Fault (BitVec 8 × Machine × Nat)
  | [] => .ok (virtioBlkSOk, m, total)
  | desc :: rest =>
    if desc.writable ≠ intoGuest then transferLoop intoGuest diskCap m diskOff total rest
    else
      match checkedSub desc.addr.toNat m.ram.base.toNat with
      | none => .ok (virtioBlkSIoerr, m, total)
      | some guestOff => do
        let len := desc.len.toNat
        let guestEnd ← add64 guestOff len
        if m.ram.size.toNat < guestEnd then return (virtioBlkSIoerr, m, total)
        let diskEnd ← add64 diskOff len
        if diskCap < diskEnd then return (virtioBlkSIoerr, m, total)
        let m ← m.copyNonoverlapping intoGuest guestOff diskOff len
        let diskOff ← add64 diskOff len
        let total ← if intoGuest then add32 total len else .ok total
        transferLoop intoGuest diskCap m diskOff total rest

def transfer (intoGuest : Bool) (m : Machine) (sector : BitVec 64) (dataDescs : List Desc) :
    Except Fault (BitVec 8 × Machine × Nat) :=
  match checkedMul sector.toNat sectorSize with
  | none => .ok (virtioBlkSIoerr, m, 0)
  | some diskOff => do
    let diskCap ← mul64 m.blk.capacity.toNat sectorSize
    transferLoop intoGuest diskCap m diskOff 0 dataDescs

def doRead (sector : BitVec 64) (dataDescs : List Desc) : Except Fault (BitVec 8 × Machine × Nat) :=
  transfer true m sector dataDescs

def doWrite (sector : BitVec 64) (dataDescs : List Desc) : Except Fault (BitVec 8 × Machine × Nat) :=
  transfer false m sector dataDescs

/-- The offset of the status byte, or one that is never inside. -/
def statusOff (statusDesc : Desc) : Nat :=
  (checkedSub statusDesc.addr.toNat m.ram.base.toNat).getD (2 ^ 64 - 1)

def statusValid (statusDesc : Desc) : Bool :=
  decide (statusOff m statusDesc < m.ram.size.toNat) && statusDesc.writable

/-- The part of a request after its header has been read. -/
def execute (reqType : BitVec 32) (sector : BitVec 64) (dataDescs : List Desc) (statusDesc : Desc) :
    Except Fault (Machine × Nat) := do
  let (status, m', total) ←
    if reqType = virtioBlkTIn then doRead m sector dataDescs
    else if reqType = virtioBlkTOut then doWrite m sector dataDescs
    else .ok (virtioBlkSUnsupp, m, 0)
  if statusValid m statusDesc then
    let ram ← m'.ram.write (statusOff m statusDesc) 1 (status.setWidth 64)
    let total ← add32 total 1
    return ({ m' with ram }, total)
  else return (m', total)

/-- Process one request. Returns the bytes written to descriptors the device may write. -/
def processRequest : List Desc → Except Fault (Machine × Nat)
  | [] => .ok (m, 0)
  | [_] => .ok (m, 0)
  | hdr :: desc :: rest =>
    match checkedSub hdr.addr.toNat m.ram.base.toNat with
    | none => .ok (m, 0)
    | some hdrOff => do
      let hdrEnd ← add64 hdrOff 16
      if m.ram.size.toNat < hdrEnd then return (m, 0)
      if hdr.len.toNat < 16 then return (m, 0)
      let reqType ← m.ram.read hdrOff 4
      let sector ← m.ram.read (hdrOff + 8) 8
      execute m (reqType.setWidth 32) sector (desc :: rest).dropLast ((desc :: rest).getLast nofun)

end

/-- The state of the loop over the available ring. -/
structure Loop where
  m : Machine
  queue : VirtQueue
  usedIdx : BitVec 16

def Loop.chain (s : Loop) : Except Fault (BitVec 16 × List Desc) := do
  let descHead ← s.queue.readAvailRing s.m.ram s.queue.lastAvailIdx
  let chain ← s.queue.walkChain s.m.ram descHead
  return (descHead, chain)

def Loop.serveOne (s : Loop) : Except Fault Loop := do
  let (descHead, chain) ← s.chain
  let (m, written) ← processRequest s.m chain
  let ram ← s.queue.writeUsed m.ram s.usedIdx (descHead.setWidth 32) (BitVec.ofNat 32 written)
  return ⟨{ m with ram }, { s.queue with lastAvailIdx := s.queue.lastAvailIdx + 1 }, s.usedIdx + 1⟩

def Loop.serve (s : Loop) : Nat → Except Fault Loop
  | 0 => .ok s
  | n + 1 => do
    let t ← s.serve n
    t.serveOne

/-- Read both indices. The loop runs until the last index seen is the one read, which takes as many rounds as
there are steps from the one to the other. -/
def startLoop (m : Machine) (queue : VirtQueue) : Except Fault (Option (Loop × Nat)) := do
  let availIdx ← queue.readAvailIdx m.ram
  match ← queue.readUsedIdx m.ram with
  | none => return none
  | some usedIdx => return some (⟨m, queue, usedIdx⟩, (availIdx - queue.lastAvailIdx).toNat)

/-- Serve the requests the guest has made available. Returns how many there were. -/
def handleQueue (m : Machine) (queue : VirtQueue) : Except Fault (Machine × VirtQueue × Nat) := do
  match ← startLoop m queue with
  | none => return (m, queue, 0)
  | some (first, processed) =>
    let s ← first.serve processed
    let ram ← s.queue.writeUsedIdx s.m.ram s.usedIdx
    return ({ s.m with ram }, s.queue, processed)

end MachinaVirtBlk
