import Machina.VirtMmio

/-!
# The virtio network device

Transmission runs in the thread that writes the notify register and takes the size of the
packet header from the features handed to the device. Reception runs in a thread of its
own and takes the size from the features in the transport.
-/

namespace MachinaVirtNet

open MachinaVirtQueue MachinaVirtMmio

def virtioNetFMac : BitVec 64 := 1 <<< 5

def virtioNetFMrgRxbuf : BitVec 64 := 1 <<< 15

def virtioNetFStatus : BitVec 64 := 1 <<< 16

def virtioFVersion1 : BitVec 64 := 1 <<< 32

def virtioNetHdrSizeBase : Nat := 10

def virtioNetHdrSizeMrg : Nat := 12

/-- The device with the packets it has handed to its backend. -/
structure VirtioNet where
  features : BitVec 64
  ackedFeatures : BitVec 64
  sent : List (List (BitVec 8))
  deriving DecidableEq, Repr

def VirtioNet.new : VirtioNet :=
  ⟨virtioFVersion1 ||| virtioNetFMac ||| virtioNetFStatus ||| virtioNetFMrgRxbuf, 0, []⟩

def hdrSizeOf (features : BitVec 64) : Nat :=
  if features &&& virtioNetFMrgRxbuf ≠ 0 then virtioNetHdrSizeMrg else virtioNetHdrSizeBase

/-- The header size on the transmit path. -/
def VirtioNet.hdrSize (net : VirtioNet) : Nat := hdrSizeOf net.ackedFeatures

/-- Where `used.idx` is read. -/
def usedIdxOff (queue : VirtQueue) (ram : Ram) : Option Nat := do
  let off ← (checkedSub queue.usedAddr.toNat ram.base.toNat).bind (checkedAdd · 2)
  let stop ← checkedAdd off 2
  if stop ≤ ram.size.toNat then some off else none

/-- The offset of a descriptor's bytes, if they are in RAM. -/
def descOff (ram : Ram) (desc : Desc) : Option Nat := do
  let off ← checkedSub desc.addr.toNat ram.base.toNat
  let stop ← checkedAdd off desc.len.toNat
  if stop ≤ ram.size.toNat then some off else none

/-- The bytes of a chain; descriptors outside RAM are passed over. -/
def gather (ram : Ram) (chain : List Desc) : List (BitVec 8) :=
  chain.flatMap fun desc =>
    match descOff ram desc with
    | none => []
    | some off => (List.range desc.len.toNat).map fun i => ram.bytes (off + i)

structure TxLoop where
  queue : VirtQueue
  ram : Ram
  net : VirtioNet
  usedIdx : BitVec 16

def TxLoop.sendOne (s : TxLoop) (hdrSize : Nat) : Except Fault TxLoop := do
  let descHead ← s.queue.readAvailRing s.ram s.queue.lastAvailIdx
  let chain ← s.queue.walkChain s.ram descHead
  let pkt := gather s.ram chain
  let net := if hdrSize < pkt.length then { s.net with sent := s.net.sent ++ [pkt.drop hdrSize] } else s.net
  let ram ← s.queue.writeUsed s.ram s.usedIdx (descHead.setWidth 32) 0
  return ⟨{ s.queue with lastAvailIdx := s.queue.lastAvailIdx + 1 }, ram, net, s.usedIdx + 1⟩

def TxLoop.send (s : TxLoop) (hdrSize : Nat) : Nat → Except Fault TxLoop
  | 0 => .ok s
  | n + 1 => do
    let t ← s.send hdrSize n
    t.sendOne hdrSize

/-- Send the packets of the transmit queue. -/
def VirtioNet.txProcess (net : VirtioNet) (queue : VirtQueue) (ram : Ram) :
    Except Fault (VirtQueue × Ram × VirtioNet × Nat) := do
  let availIdx ← queue.readAvailIdx ram
  match usedIdxOff queue ram with
  | none => return (queue, ram, net, 0)
  | some off =>
    let usedIdx ← ram.read off 2
    let processed := (availIdx - queue.lastAvailIdx).toNat
    let s ← TxLoop.send ⟨queue, ram, net, usedIdx.setWidth 16⟩ net.hdrSize processed
    let ram ← s.queue.writeUsedIdx s.ram s.usedIdx
    return (s.queue, ram, s.net, processed)

/-- The network device for the transport. Only the second queue is processed when it is notified. -/
def virtioNetOps : VirtioDevice VirtioNet where
  features := VirtioNet.features
  ackFeatures := fun features net => { net with ackedFeatures := features }
  configWrite := fun _ _ _ net => net
  reset := fun net => { net with ackedFeatures := 0 }
  handleQueue := fun idx queue ram net => if idx = 1 then net.txProcess queue ram else .ok (queue, ram, net, 0)

/-- A header of zeros; with mergeable buffers it ends with the number of buffers, which is 1. -/
def rxHeader (hdrSize : Nat) : List (BitVec 8) :=
  if hdrSize = virtioNetHdrSizeMrg then List.replicate 10 0 ++ [1, 0] else List.replicate hdrSize 0

/-- Copy a frame into the writable descriptors of a chain. Returns what is left of it. -/
def scatter (ram : Ram) (remaining : List (BitVec 8)) : List Desc → Ram × List (BitVec 8)
  | [] => (ram, remaining)
  | desc :: rest =>
    if remaining = [] then (ram, remaining)
    else if !desc.writable then scatter ram remaining rest
    else
      match descOff ram desc with
      | none => scatter ram remaining rest
      | some off =>
        let copyLen := min remaining.length desc.len.toNat
        let bytes := fun a => if off ≤ a ∧ a < off + copyLen then remaining.getD (a - off) 0 else ram.bytes a
        scatter { ram with bytes } (remaining.drop copyLen) rest

/-- Put a packet with its header into the receive queue. Returns the number of buffers used. -/
def fillRxQueueRaw (hdrSize : Nat) (queue : VirtQueue) (ram : Ram) (packet : List (BitVec 8)) :
    Except Fault (VirtQueue × Ram × Nat) := do
  let availIdx ← queue.readAvailIdx ram
  if queue.lastAvailIdx = availIdx then return (queue, ram, 0)
  match usedIdxOff queue ram with
  | none => return (queue, ram, 0)
  | some off =>
    let usedIdx ← ram.read off 2
    let frame := rxHeader hdrSize ++ packet
    let descHead ← queue.readAvailRing ram queue.lastAvailIdx
    let chain ← queue.walkChain ram descHead
    let (ram, remaining) := scatter ram frame chain
    let written := if remaining = [] then hdrSize + packet.length else 0
    let ram ← queue.writeUsed ram (usedIdx.setWidth 16) (descHead.setWidth 32) (BitVec.ofNat 32 written)
    let ram ← queue.writeUsedIdx ram (usedIdx.setWidth 16 + 1)
    return ({ queue with lastAvailIdx := queue.lastAvailIdx + 1 }, ram, 1)

variable (s : VirtioMmioState VirtioNet)

/-- The header size on the receive path. -/
def rxHdrSize : Nat := hdrSizeOf s.negotiatedFeatures

/-- What the receive thread does with a packet, under the lock of the transport. -/
def rxPacket (packet : List (BitVec 8)) : Except Fault (VirtioMmioState VirtioNet) :=
  if !s.isDriverOk then .ok s
  else
    match s.queues[0]? with
    | none => .ok s
    | some slot =>
      if !slot.ready || slot.queue.num == 0 then .ok s
      else do
        let (queue, ram, used) ← fillRxQueueRaw (rxHdrSize s) slot.queue s.ram packet
        return { s with ram, queues := s.queues.set 0 { slot with queue } }.injectRx used

/-- What can happen to the device: a register write, or a packet from the backend. -/
inductive Event where
  | write (offset size : Nat) (val : BitVec 64)
  | packet (bytes : List (BitVec 8))
  deriving DecidableEq, Repr

def step : Event → Except Fault (VirtioMmioState VirtioNet)
  | .write offset size val => s.write virtioNetOps offset size val
  | .packet bytes => rxPacket s bytes

end MachinaVirtNet
