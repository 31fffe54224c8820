import Machina.GdbProtocol

/-!
# The packet handler of the GDB stub

A packet is dispatched on its first character, its fields are split off and read, and the
target is asked to act. A slice off a character boundary or out of order, a sum out of range
and a buffer that is too large end the handler; otherwise it returns a reply, or nothing.
-/

namespace MachinaGdbHandler

open MachinaGdbProtocol

inductive StopReason where
  | breakpoint
  | watchpoint (addr : BitVec 64) (wtype : Nat)
  | step
  | pause
  | terminated
  deriving DecidableEq, Repr

/-- The operations of a target in a state of type `T`; `memory` is what the memory holds from an address on. -/
structure GdbTarget (T : Type) where
  readRegisters : T → List UInt8
  writeRegisters : List UInt8 → T → Bool × T
  readRegister : Nat → T → List UInt8
  writeRegister : Nat → List UInt8 → T → Bool × T
  memory : Nat → Nat → T → List UInt8
  writeMemory : Nat → List UInt8 → T → Bool × T
  setBreakpoint : Nat → Nat → Nat → T → Bool × T
  removeBreakpoint : Nat → Nat → Nat → T → Bool × T
  resume : T → T
  step : T → T
  getStopReason : T → StopReason
  cpuCount : T → Nat
  setGCpu : Nat → T → Bool × T
  setCCpu : Nat → T → Bool × T
  threadAlive : Nat → T → Bool
  stopThread : T → Nat
  setPhyMemMode : Bool → T → Bool × T
  phyMemMode : T → Bool

/-- What the handler takes from the tables of Unicode: the letters outside ASCII, and decoding with replacement. -/
structure Unicode where
  alphabetic : Char → Bool
  fromUtf8 : List UInt8 → Option Text
  fromUtf8Lossy : List UInt8 → Text

structure Handler where
  noAck : Bool
  attached : Bool
  targetXml : Text

/-- The ways the handler can end without a reply. -/
inductive Panic where
  | charBoundary
  | overflow
  | capacity
  deriving DecidableEq, Repr

variable {T : Type}

abbrev Outcome (T : Type) := Except Panic (Option Text × Handler × T)

def okText : Text := "OK".toList

def e01 : Text := "E01".toList

def e00 : Text := "E00".toList

/-- A reply to an operation that may be refused. -/
def okOr (refused : Text) (r : Bool × T) : Text × T := (if r.1 then okText else refused, r.2)

variable (ops : GdbTarget T)

/-- Every target starts with a buffer of the given length, and no buffer is larger than `isize::MAX`. -/
def GdbTarget.readMemory (addr len : Nat) (t : T) : Except Panic (List UInt8) :=
  if 2 ^ 63 ≤ len then .error .capacity else .ok (ops.memory addr len t)

def stopReply (reason : StopReason) (t : T) : Text :=
  let thread := "thread:".toList ++ hexText2 (ops.stopThread t) ++ [';']
  match reason with
  | .breakpoint => "T05".toList ++ thread ++ "swbreak:;".toList
  | .watchpoint addr wtype =>
    let kind := if wtype = 1 then "rwatch" else if wtype = 2 then "awatch" else "watch"
    "T05".toList ++ thread ++ kind.toList ++ [':'] ++ hexText addr.toNat ++ [';']
  | .step => "T05".toList ++ thread
  | .pause => "T02".toList ++ thread
  | .terminated => "W00".toList

variable (t : T)

/-- Select a thread: -1 and 0 are any, the others count from 1. -/
def handleHPacket : Text → Except Panic (Text × T)
  | [] => .ok (okText, t)
  | op :: tidStr =>
    -- The slice after the first byte has to start at a character.
    if op.utf8Size ≠ 1 then .error .charBoundary
    else
      let tid := if tidStr = ['-', '1'] ∨ tidStr = ['0'] then 0 else parseHex tidStr
      let idx := if tid = 0 then 0 else tid - 1
      .ok (if op = 'g' then okOr e01 (ops.setGCpu idx t)
        else if op = 'c' then okOr e01 (ops.setCCpu idx t)
        else (okText, t))

section

variable (args : Text)

def handleThreadAlive : Text :=
  if ops.threadAlive (parseHex args) t then okText else e01

def handleReadRegisters : Text := encodeHexBytes (ops.readRegisters t)

def handleWriteRegisters : Text × T :=
  match decodeHexBytes args with
  | some data => okOr e01 (ops.writeRegisters data t)
  | none => (e01, t)

def handleReadRegister : Text :=
  let data := ops.readRegister (parseHex (trimStart ':' args)) t
  if data = [] then e00 else encodeHexBytes data

def handleWriteRegister : Text × T :=
  match splitOnce '=' args with
  | none => (e01, t)
  | some (reg, val) =>
    match decodeHexBytes val with
    | some data => okOr e01 (ops.writeRegister (parseHex reg) data t)
    | none => (e01, t)

def handleReadMemory : Except Panic Text :=
  match splitOnce ',' args with
  | none => .ok e01
  | some (addr, len) => (ops.readMemory (parseHex addr) (parseHex len) t).map encodeHexBytes

/-- The address, the length and the data of a write to memory. The length is not read. -/
def memoryFields : Option (Text × Text × Text) := do
  let (header, data) ← splitOnce ':' args
  let (addr, len) ← splitOnce ',' header
  return (addr, len, data)

def handleWriteMemory : Text × T :=
  match memoryFields args with
  | none => (e01, t)
  | some (addr, _, dataHex) =>
    match decodeHexBytes dataHex with
    | some data => okOr e01 (ops.writeMemory (parseHex addr) data t)
    | none => (e01, t)

def handleWriteMemoryBinary : Text × T :=
  match memoryFields args with
  | none => (e01, t)
  | some (addr, _, data) => okOr e01 (ops.writeMemory (parseHex addr) (unescapeBinary (asBytes data)) t)

/-- The type, the address and the kind of a breakpoint. The kind may be missing. -/
def breakpointFields : Option (Text × Text × Option Text) :=
  match splitOnce ',' args with
  | none => none
  | some (type, rest) =>
    match splitOnce ',' rest with
    | none => some (type, rest, none)
    | some (addr, kind) => some (type, addr, some kind)

def handleBreakpoint (change : Nat → Nat → Nat → T → Bool × T) (t : T) (args : Text) : Text × T :=
  match breakpointFields args with
  | none => (e01, t)
  | some (type, addr, kind) =>
    okOr [] (change ((fromStrRadix 10 (2 ^ 8) type).getD 0) (parseHex addr)
      ((kind.bind (fromStrRadix 10 (2 ^ 32))).getD 4) t)

def handleSetBreakpoint : Text × T :=
  handleBreakpoint ops.setBreakpoint t args

def handleRemoveBreakpoint : Text × T :=
  handleBreakpoint ops.removeBreakpoint t args

def handleContinue : Text × T :=
  let t := ops.resume t
  (stopReply ops (ops.getStopReason t) t, t)

def handleStep : Text × T :=
  let t := ops.step t
  (stopReply ops .step t, t)

/-- The numbers of all threads, separated by commas. -/
def threadList (n : Nat) : Text :=
  (List.range n).flatMap fun i => (if 0 < i then [','] else []) ++ hexText2 (i + 1)

def encodeOPacket (s : Text) : Text := 'O' :: encodeHexBytes (asBytes s)

variable (uni : Unicode)

def handleQrcmd (args : Text) : Text :=
  match decodeHexBytes (trimStart ',' args) with
  | none => encodeOPacket "Error: invalid hex\n".toList
  | some bytes => encodeOPacket ("Unknown monitor command: ".toList ++ uni.fromUtf8Lossy bytes ++ ['\n'])

def contains (s pat : Text) : Bool := s.tails.any fun tail => pat.isPrefixOf tail

def handleQemuQuery (name : Text) : Text :=
  if contains name "PhyMemMode".toList then (if ops.phyMemMode t then ['1'] else ['0']) else []

/-- The offset and the length a query for the target description asks for. -/
def xferRange : Option (Text × Text) :=
  match args.splitOn ':' with
  | _ :: object :: action :: annex :: range :: _ =>
    if object = "features".toList ∧ action = "read".toList ∧ annex = "target.xml".toList then
      match range.splitOn ',' with
      | [offset, length] => some (offset, length)
      | _ => none
    else none
  | _ => none

def handleQxfer (h : Handler) (args : Text) : Except Panic Text :=
  match xferRange args with
  | none => .ok []
  | some (offset, length) =>
    let offset := parseHex offset
    let length := parseHex length
    let xml := asBytes h.targetXml
    if xml.length ≤ offset then .ok ['l']
    -- The sum wraps without overflow checks, and the slice then ends before it starts.
    else if 2 ^ 64 ≤ offset + length then .error .overflow
    else
      let data := (xml.drop offset).take (min (offset + length) xml.length - offset)
      let mark := if offset + data.length < xml.length then 'm' else 'l'
      .ok (mark :: (uni.fromUtf8 data).getD [])

/-- The queries by name; some are told by how the name starts. -/
inductive Query where
  | supported | attached | currentThread | firstThreadInfo | nextThreadInfo | offsets | symbol | threadExtraInfo | rcmd
  | qemu | xfer | unknown
  deriving DecidableEq, Repr

def queryOf (name : Text) : Query :=
  if name = "qSupported".toList then .supported
  else if name = "qAttached".toList then .attached
  else if name = "qC".toList then .currentThread
  else if name = "qfThreadInfo".toList then .firstThreadInfo
  else if name = "qsThreadInfo".toList then .nextThreadInfo
  else if name = "qOffsets".toList then .offsets
  else if "qSymbol".toList.isPrefixOf name then .symbol
  else if "qThreadExtraInfo".toList.isPrefixOf name then .threadExtraInfo
  else if "qRcmd".toList.isPrefixOf name then .rcmd
  else if "qqemu".toList.isPrefixOf name then .qemu
  else if "qXfer".toList.isPrefixOf name then .xfer
  else .unknown

def handleQuery (ops : GdbTarget T) (h : Handler) (t : T) (name args : Text) : Except Panic Text :=
  match queryOf name with
  | .supported =>
    .ok "multiprocess+;vContSupported+;QStartNoAckMode+;PacketSize=4000;qXfer:features:read+;hwbreak+;swbreak+".toList
  | .attached => .ok (if h.attached then ['1'] else ['0'])
  | .currentThread => .ok "QC01".toList
  | .firstThreadInfo => .ok ('m' :: threadList (ops.cpuCount t))
  | .nextThreadInfo => .ok ['l']
  | .offsets => .ok []
  | .symbol => .ok okText
  | .threadExtraInfo =>
    .ok (encodeHexBytes (asBytes ("CPU ".toList ++ Nat.toDigits 10 (parseHex (trimStart ',' args) - 1))))
  | .rcmd => .ok (handleQrcmd uni args)
  | .qemu => .ok (handleQemuQuery ops t name)
  | .xfer => handleQxfer uni h args
  | .unknown => .ok []

def handleSet (h : Handler) (t : T) (name args : Text) : Text × Handler × T :=
  if name = "QStartNoAckMode".toList then (okText, { h with noAck := true }, t)
  else if contains name "PhyMemMode".toList then
    if trimStart ':' args = ['0'] then (okText, h, (ops.setPhyMemMode false t).2)
    else if trimStart ':' args = ['1'] then (okText, h, (ops.setPhyMemMode true t).2)
    else (e01, h, t)
  else ([], h, t)

def vContText : Text := "vCont".toList

/-- The actions of a packet that resumes, each with the thread it names. -/
def vContActions (rest : Text) : List (Text × Option Text) :=
  ((trimStart ';' rest).splitOn ';').map fun action =>
    match splitOnce ':' action with
    | none => (action, none)
    | some (cmd, thread) => (cmd, some thread)

/-- The first action counts; its thread is not read. -/
def handleVCont (rest : Text) : Option Text × T :=
  match vContActions rest with
  | [] => (none, t)
  | (cmd, _) :: _ =>
    if cmd = ['c'] ∨ cmd = ['C'] then let r := handleContinue ops t; (some r.1, r.2)
    else if cmd = ['s'] ∨ cmd = ['S'] then let r := handleStep ops t; (some r.1, r.2)
    else (some [], t)

def handleVPacket (packet : Text) : Option Text × T :=
  if packet = "vCont?".toList then (some "vCont;c;C;s;S;t".toList, t)
  else if vContText.isPrefixOf packet then
    let rest := packet.drop 5
    if rest = [] ∨ rest = [';'] then (some okText, t) else handleVCont ops t rest
  else (some [], t)

/-- The commands by the first character of a packet. -/
inductive Command where
  | v | query | set | stopReason | readRegisters | writeRegisters | readRegister | writeRegister | readMemory
  | writeMemory | writeMemoryBinary | resume | step | setBreakpoint | removeBreakpoint | detach | kill | hPacket
  | threadAlive | unknown
  deriving DecidableEq, Repr

def commandOf : Char → Command
  | 'v' => .v
  | 'q' => .query
  | 'Q' => .set
  | '?' => .stopReason
  | 'g' => .readRegisters
  | 'G' => .writeRegisters
  | 'p' => .readRegister
  | 'P' => .writeRegister
  | 'm' => .readMemory
  | 'M' => .writeMemory
  | 'X' => .writeMemoryBinary
  | 'c' => .resume
  | 's' => .step
  | 'Z' => .setBreakpoint
  | 'z' => .removeBreakpoint
  | 'D' => .detach
  | 'k' => .kill
  | 'H' => .hPacket
  | 'T' => .threadAlive
  | _ => .unknown

def isAlphabetic (c : Char) : Bool := if c.toNat < 128 then c.isAlpha else uni.alphabetic c

/-- The letters a query starts with. -/
def queryName (packet : Text) : Text := packet.takeWhile (isAlphabetic uni)

def queryArgs (packet : Text) : Text := packet.dropWhile (isAlphabetic uni)

/-- What is done for a command; `packet` is the whole packet, `args` what follows its first character. -/
def dispatch (ops : GdbTarget T) (h : Handler) (t : T) (packet args : Text) : Command → Outcome T
  | .v => let r := handleVPacket ops t packet; .ok (r.1, h, r.2)
  | .query => (handleQuery uni ops h t (queryName uni packet) (queryArgs uni packet)).map fun r => (some r, h, t)
  | .set => let r := handleSet ops h t (queryName uni packet) (queryArgs uni packet); .ok (some r.1, r.2.1, r.2.2)
  | .stopReason => .ok (some (stopReply ops (ops.getStopReason t) t), h, t)
  | .readRegisters => .ok (some (handleReadRegisters ops t), h, t)
  | .writeRegisters => let r := handleWriteRegisters ops t args; .ok (some r.1, h, r.2)
  | .readRegister => .ok (some (handleReadRegister ops t args), h, t)
  | .writeRegister => let r := handleWriteRegister ops t args; .ok (some r.1, h, r.2)
  | .readMemory => (handleReadMemory ops t args).map fun r => (some r, h, t)
  | .writeMemory => let r := handleWriteMemory ops t args; .ok (some r.1, h, r.2)
  | .writeMemoryBinary => let r := handleWriteMemoryBinary ops t args; .ok (some r.1, h, r.2)
  | .resume => let r := handleContinue ops t; .ok (some r.1, h, r.2)
  | .step => let r := handleStep ops t; .ok (some r.1, h, r.2)
  | .setBreakpoint => let r := handleSetBreakpoint ops t args; .ok (some r.1, h, r.2)
  | .removeBreakpoint => let r := handleRemoveBreakpoint ops t args; .ok (some r.1, h, r.2)
  | .detach => .ok (none, { h with attached := false }, t)
  | .kill => .ok (none, h, t)
  | .hPacket => (handleHPacket ops t args).map fun r => (some r.1, h, r.2)
  | .threadAlive => .ok (some (handleThreadAlive ops t args), h, t)
  | .unknown => .ok (some [], h, t)

end

/-- Handle one packet. A lone interrupt character asks for a stop. -/
def handle (uni : Unicode) (ops : GdbTarget T) (h : Handler) (packet : Text) (t : T) : Outcome T :=
  match packet with
  | [] => .ok (some [], h, t)
  | c :: args =>
    if c = Char.ofNat 3 ∧ args = [] then .ok (some (stopReply ops .pause t), h, t)
    else dispatch uni ops h t (c :: args) args (commandOf c)

end MachinaGdbHandler
