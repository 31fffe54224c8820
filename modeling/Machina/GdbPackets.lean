import Machina.GdbHandler

/-!
# Which packets the GDB stub handles right

A packet with a field that is no hexadecimal number, or with more or less data than its
length says, has to be answered with an error and to leave the target alone. Only packets
without the separators, or with undecodable hex data, are.
-/

namespace MachinaGdbPackets

open MachinaGdbProtocol MachinaGdbHandler

section Fields

/-- The digits of a number with or without a hex mark in front. -/
def hexBody : Text → Text
  | '0' :: 'x' :: digits => digits
  | '0' :: 'X' :: digits => digits
  | digits => digits

def digitsValue (digits : Text) : Nat := digits.foldl (fun acc c => acc * 16 + (toDigit 16 c).getD 0) 0

def hexValue (s : Text) : Nat := digitsValue (hexBody s)

def ValidHex (s : Text) : Prop :=
  hexBody s ≠ [] ∧ (∀ c ∈ hexBody s, (toDigit 16 c).isSome = true) ∧ hexValue s < 2 ^ 64

instance (s : Text) : Decidable (ValidHex s) := inferInstanceAs (Decidable (_ ∧ _ ∧ _))

def ValidThread (s : Text) : Prop := s = ['-', '1'] ∨ ValidHex s

instance (s : Text) : Decidable (ValidThread s) := inferInstanceAs (Decidable (_ ∨ _))

/-- A write to memory whose address and length are numbers, and whose data has that length. -/
def MemoryRight (decode : Text → Option (List UInt8)) (args : Text) : Prop :=
  ∃ addr len data, memoryFields args = some (addr, len, data) ∧ ValidHex addr ∧ ValidHex len ∧
    ∀ bytes, decode data = some bytes → bytes.length = hexValue len

/-- Queries with a thread or a range. -/
def MalformedQuery (args : Text) : Query → Prop
  | .threadExtraInfo => ¬ValidHex (trimStart ',' args)
  | .xfer => ∃ offset length, xferRange args = some (offset, length) ∧ ¬(ValidHex offset ∧ ValidHex length)
  | _ => False

/-- Some address, length, register or thread of the packet is missing or no number of its type, or the data does
not have the given length. -/
def MalformedFields (uni : Unicode) (packet args : Text) : Command → Prop
  | .hPacket => ¬ValidThread (args.drop 1)
  | .threadAlive => ¬ValidHex args
  | .readRegister => ¬ValidHex (trimStart ':' args)
  | .writeRegister => ¬∃ reg val, splitOnce '=' args = some (reg, val) ∧ ValidHex reg
  | .readMemory => ¬∃ addr len, splitOnce ',' args = some (addr, len) ∧ ValidHex addr ∧ ValidHex len
  | .writeMemory => ¬MemoryRight decodeHexBytes args
  | .writeMemoryBinary => ¬MemoryRight (fun data => some (unescapeBinary (asBytes data))) args
  | .setBreakpoint | .removeBreakpoint =>
    ¬∃ type addr kind, breakpointFields args = some (type, addr, kind) ∧ ValidHex addr
  | .resume | .step => args ≠ [] ∧ ¬ValidHex args
  | .v =>
    vContText.isPrefixOf packet = true ∧
      ∃ action ∈ vContActions (packet.drop 5), ∃ thread ∈ action.2, ¬ValidThread thread
  | .query => MalformedQuery (queryArgs uni packet) (queryOf (queryName uni packet))
  | _ => False

def Malformed (uni : Unicode) : Text → Prop
  | [] => False
  | c :: args => MalformedFields uni (c :: args) args (commandOf c)

end Fields

section Right

def IsError (reply : Text) : Prop := reply.head? = some 'E'

/-- Whatever the target, the packet is handled without a panic; if it is malformed it is answered with an error, and
nothing that can be seen of the target changes. -/
def HandledRight (uni : Unicode) (xml packet : Text) : Prop :=
  ∀ (T V : Type) (ops : GdbTarget T) (visible : T → V) (h : Handler) (t : T), h.targetXml = xml →
    ∃ reply h' t', handle uni ops h packet t = .ok (reply, h', t') ∧
      (Malformed uni packet → (∃ text ∈ reply, IsError text) ∧ visible t' = visible t)

/-- Fields that are split off or decoded with a check. -/
def RejectedFields (args : Text) : Command → Prop
  | .writeRegister => ∀ reg val, splitOnce '=' args = some (reg, val) → decodeHexBytes val = none
  | .readMemory => splitOnce ',' args = none
  | .writeMemory => ∀ addr len data, memoryFields args = some (addr, len, data) → decodeHexBytes data = none
  | .writeMemoryBinary => memoryFields args = none
  | .setBreakpoint | .removeBreakpoint => breakpointFields args = none
  | _ => False

/-- No slice of the packet is off a character boundary, no range of the description ends beyond 64 bits, and no read
of memory asks for 2⁶³ bytes or more. -/
def SafeFields (uni : Unicode) (xml packet args : Text) : Command → Prop
  | .hPacket => ∀ op ∈ args.head?, op.utf8Size = 1
  | .readMemory => ∀ addr len, splitOnce ',' args = some (addr, len) → parseHex len < 2 ^ 63
  | .query => queryOf (queryName uni packet) = .xfer →
    ∀ offset length, xferRange (queryArgs uni packet) = some (offset, length) →
      parseHex offset < (asBytes xml).length → parseHex offset + parseHex length < 2 ^ 64
  | _ => True

def SafePacket (uni : Unicode) (xml : Text) : Text → Prop
  | [] => True
  | c :: args =>
    SafeFields uni xml (c :: args) args (commandOf c) ∧
      (MalformedFields uni (c :: args) args (commandOf c) → RejectedFields args (commandOf c))

variable {T : Type} {uni : Unicode} {ops : GdbTarget T} {h : Handler} {t : T} {packet args : Text}

theorem handleHPacket_ok_iff : (∃ r, handleHPacket ops t args = .ok r) ↔ ∀ op ∈ args.head?, op.utf8Size = 1 := by
  cases args with
  | nil => exact iff_of_true ⟨_, rfl⟩ nofun
  | cons op tidStr =>
    rw [handleHPacket]
    by_cases hop : op.utf8Size = 1
    · rw [if_neg (not_not_intro hop)]
      exact iff_of_true ⟨_, rfl⟩ fun op' h' => Option.some.inj h' ▸ hop
    · rw [if_pos hop]
      exact iff_of_false (fun ⟨_, h'⟩ => nomatch h') fun hall => hop (hall op rfl)

theorem handleQxfer_ok_iff :
    (∃ r, handleQxfer uni h args = .ok r) ↔ ∀ offset length, xferRange args = some (offset, length) →
      parseHex offset < (asBytes h.targetXml).length → parseHex offset + parseHex length < 2 ^ 64 := by
  rw [handleQxfer]
  cases hrange : xferRange args with
  | none => exact iff_of_true ⟨_, rfl⟩ nofun
  | some range =>
    obtain ⟨offset, length⟩ := range
    dsimp only
    by_cases hpast : (asBytes h.targetXml).length ≤ parseHex offset
    · rw [if_pos hpast]
      refine iff_of_true ⟨_, rfl⟩ fun o l hol hlt => ?_
      cases hol
      omega
    rw [if_neg hpast]
    by_cases hover : 2 ^ 64 ≤ parseHex offset + parseHex length
    · rw [if_pos hover]
      refine iff_of_false (fun ⟨_, h'⟩ => nomatch h') fun hall => ?_
      have := hall offset length rfl (by omega)
      omega
    · rw [if_neg hover]
      refine iff_of_true ⟨_, rfl⟩ fun o l hol _ => ?_
      cases hol
      omega

theorem map_ok_iff {α β : Type} {x : Except Panic α} {f : α → β} : (∃ r, x.map f = .ok r) ↔ ∃ a, x = .ok a := by
  cases x with
  | error e => exact iff_of_false (fun ⟨_, h'⟩ => nomatch h') fun ⟨_, h'⟩ => nomatch h'
  | ok a => exact iff_of_true ⟨_, rfl⟩ ⟨a, rfl⟩

theorem handleReadMemory_ok_iff : (∃ r, handleReadMemory ops t args = .ok r) ↔
    ∀ addr len, splitOnce ',' args = some (addr, len) → parseHex len < 2 ^ 63 := by
  rw [handleReadMemory]
  cases splitOnce ',' args with
  | none => exact iff_of_true ⟨_, rfl⟩ nofun
  | some fields =>
    obtain ⟨addr, len⟩ := fields
    refine map_ok_iff.trans ?_
    rw [GdbTarget.readMemory]
    by_cases hlen : 2 ^ 63 ≤ parseHex len
    · rw [if_pos hlen]
      exact iff_of_false (fun ⟨_, h'⟩ => nomatch h') fun hall => absurd (hall addr len rfl) (not_lt.mpr hlen)
    · rw [if_neg hlen]
      refine iff_of_true ⟨_, rfl⟩ fun _ _ hfields => ?_
      cases hfields
      exact not_le.mp hlen

theorem handleQuery_ok_iff {name : Text} : (∃ r, handleQuery uni ops h t name args = .ok r) ↔ (queryOf name = .xfer →
      ∀ offset length, xferRange args = some (offset, length) →
        parseHex offset < (asBytes h.targetXml).length → parseHex offset + parseHex length < 2 ^ 64) := by
  rw [handleQuery]
  cases queryOf name with
  | xfer => exact handleQxfer_ok_iff.trans ⟨fun hall _ => hall, fun hall => hall rfl⟩
  | _ => exact iff_of_true ⟨_, rfl⟩ nofun

theorem dispatch_ok_iff {cmd : Command} :
    (∃ r, dispatch uni ops h t packet args cmd = .ok r) ↔ SafeFields uni h.targetXml packet args cmd := by
  cases cmd with
  | hPacket => exact map_ok_iff.trans handleHPacket_ok_iff
  | readMemory => exact map_ok_iff.trans handleReadMemory_ok_iff
  | query => exact map_ok_iff.trans handleQuery_ok_iff
  | _ => exact iff_of_true ⟨_, rfl⟩ trivial

/-- What is rejected is answered with an error and changes nothing. -/
theorem dispatch_rejected {cmd : Command} (hrej : RejectedFields args cmd) :
    dispatch uni ops h t packet args cmd = .ok (some e01, h, t) := by
  cases cmd with
  | writeRegister =>
    simp only [dispatch, handleWriteRegister]
    split
    · rfl
    · rw [hrej _ _ ‹_›]
  | readMemory =>
    simp only [dispatch, handleReadMemory]
    rw [show splitOnce ',' args = none from hrej]
    rfl
  | writeMemory =>
    simp only [dispatch, handleWriteMemory]
    split
    · rfl
    · rw [hrej _ _ _ ‹_›]
  | writeMemoryBinary =>
    simp only [dispatch, handleWriteMemoryBinary]
    rw [show memoryFields args = none from hrej]
  | setBreakpoint | removeBreakpoint =>
    simp only [dispatch, handleSetBreakpoint, handleRemoveBreakpoint, handleBreakpoint]
    rw [show breakpointFields args = none from hrej]
  | _ => exact hrej.elim

/-- A target without state that does all it is asked to. -/
def obliging : GdbTarget Unit where
  readRegisters := fun _ => []
  writeRegisters := fun _ t => (true, t)
  readRegister := fun _ _ => [0]
  writeRegister := fun _ _ t => (true, t)
  memory := fun _ _ _ => []
  writeMemory := fun _ _ t => (true, t)
  setBreakpoint := fun _ _ _ t => (true, t)
  removeBreakpoint := fun _ _ _ t => (true, t)
  resume := id
  step := id
  getStopReason := fun _ => .step
  cpuCount := fun _ => 1
  setGCpu := fun _ t => (true, t)
  setCCpu := fun _ t => (true, t)
  threadAlive := fun _ _ => true
  stopThread := fun _ => 1
  setPhyMemMode := fun _ t => (true, t)
  phyMemMode := fun _ => false

theorem stopReply_not_error (reason : StopReason) (t : T) : ¬IsError (stopReply ops reason t) := by
  cases reason <;> exact nofun

theorem handleQxfer_not_error {r : Text} (hr : handleQxfer uni h args = .ok r) : ¬IsError r := by
  rw [handleQxfer] at hr
  split at hr
  · cases hr
    exact nofun
  dsimp only at hr
  split at hr
  · cases hr
    exact nofun
  split at hr
  · cases hr
  · cases hr
    split <;> exact nofun

theorem handleVPacket_not_error {text : Text} (hr : (handleVPacket ops t packet).1 = some text) : ¬IsError text := by
  rw [handleVPacket] at hr
  split at hr
  · cases hr
    exact nofun
  split at hr
  · dsimp only at hr
    split at hr
    · cases hr
      exact nofun
    rw [handleVCont] at hr
    split at hr
    · cases hr
    split at hr
    · cases hr
      exact stopReply_not_error (ops.getStopReason (ops.resume t)) (ops.resume t)
    split at hr
    · cases hr
      exact stopReply_not_error .step (ops.step t)
    · cases hr
      exact nofun
  · cases hr
    exact nofun

theorem handleQuery_not_error {name text : Text} (hbad : MalformedQuery args (queryOf name))
    (hr : handleQuery uni ops h t name args = .ok text) : ¬IsError text := by
  rw [handleQuery] at hr
  cases hname : queryOf name with
  | threadExtraInfo =>
    rw [hname] at hr
    cases hr
    exact nofun
  | xfer =>
    rw [hname] at hr
    exact handleQxfer_not_error hr
  | _ =>
    rw [hname] at hbad
    exact hbad.elim

theorem handleHPacket_obliging {r : Text × Unit} (hr : handleHPacket obliging () args = .ok r) : r.1 = okText := by
  cases args with
  | nil =>
    cases hr
    rfl
  | cons op tidStr =>
    rw [handleHPacket] at hr
    split at hr
    · cases hr
    cases hr
    split
    · rfl
    · split <;> rfl

theorem map_eq_ok {α β : Type} {x : Except Panic α} {f : α → β} {b : β} (hr : x.map f = .ok b) :
    ∃ a, x = .ok a ∧ f a = b := by
  cases x with
  | error e => cases hr
  | ok a => exact ⟨a, rfl, Except.ok.inj hr⟩

/-- The obliging target answers a malformed packet with an error only where it is rejected. -/
theorem obliging_rejects {cmd : Command} {text : Text} {h' : Handler} (hbad : MalformedFields uni packet args cmd)
    (hr : dispatch uni obliging h () packet args cmd = .ok (some text, h', ())) (herr : IsError text) :
    RejectedFields args cmd := by
  cases cmd with
  | v =>
    simp only [dispatch] at hr
    obtain ⟨hreply, -⟩ := Prod.mk.inj (Except.ok.inj hr)
    exact absurd herr (handleVPacket_not_error hreply)
  | query =>
    obtain ⟨reply, hreply, hsome⟩ := map_eq_ok hr
    obtain rfl := Option.some.inj (Prod.mk.inj hsome).1
    exact absurd herr (handleQuery_not_error hbad hreply)
  | writeRegister =>
    intro reg val hsplit
    simp only [dispatch, handleWriteRegister, hsplit] at hr
    cases hdata : decodeHexBytes val with
    | none => rfl
    | some data =>
      rw [hdata] at hr
      cases hr
      exact absurd herr nofun
  | readMemory =>
    cases hsplit : splitOnce ',' args with
    | none => exact hsplit
    | some fields =>
      obtain ⟨reply, hreply, hsome⟩ := map_eq_ok hr
      simp only [handleReadMemory, hsplit] at hreply
      obtain ⟨data, hdata, rfl⟩ := map_eq_ok hreply
      rw [GdbTarget.readMemory] at hdata
      split at hdata <;> cases hdata
      cases hsome
      exact absurd herr nofun
  | writeMemory =>
    intro addr len data hfields
    simp only [dispatch, handleWriteMemory, hfields] at hr
    cases hdata : decodeHexBytes data with
    | none => rfl
    | some bytes =>
      rw [hdata] at hr
      cases hr
      exact absurd herr nofun
  | writeMemoryBinary =>
    cases hfields : memoryFields args with
    | none => exact hfields
    | some fields =>
      simp only [dispatch, handleWriteMemoryBinary, hfields] at hr
      cases hr
      exact absurd herr nofun
  | setBreakpoint | removeBreakpoint =>
    cases hfields : breakpointFields args with
    | none => exact hfields
    | some fields =>
      simp only [dispatch, handleSetBreakpoint, handleRemoveBreakpoint, handleBreakpoint, hfields] at hr
      cases hr
      exact absurd herr nofun
  | hPacket =>
    obtain ⟨r, hreply, hsome⟩ := map_eq_ok hr
    obtain rfl := Option.some.inj (Prod.mk.inj hsome).1
    rw [handleHPacket_obliging hreply] at herr
    exact absurd herr nofun
  | threadAlive | readRegister =>
    cases hr
    exact absurd herr nofun
  | resume | step =>
    cases hr
    have hreply : ¬IsError (stopReply obliging .step ()) := stopReply_not_error .step ()
    exact absurd herr hreply
  | _ => exact hbad.elim

/-- No letters outside ASCII, and no decoding. -/
def asciiOnly : Unicode := ⟨fun _ => false, fun _ => none, fun _ => []⟩

def shortXml : Text := "<target/>".toList

end Right

end MachinaGdbPackets
