import Machina.Bits

/-!
# The LIOINTC interrupt controller

The mapper byte of an input selects cores with its lower half and pins with its upper half. The code collects the
active inputs of every core and those of every pin apart, and drives an output where both sets are inhabited. That is
right as long as two inputs never mix: one that selects the core and another one that selects the pin.
-/

namespace MachinaLiointc

open MachinaBits

structure LiointcRegs where
  mapper : Fin 32 → BitVec 8 := fun _ => 0
  isr : BitVec 32 := 0
  ien : BitVec 32 := 0
  perCoreIsr : Fin 4 → BitVec 32 := fun _ => 0
  pinState : BitVec 32 := 0
  /-- By core and pin. -/
  parentState : Fin 4 → Fin 4 → Bool := fun _ _ => false

/-- The device, with the level of every output that is connected. -/
structure Liointc where
  regs : LiointcRegs
  outputs : Fin 4 → Fin 4 → Option Bool

variable (s : Liointc)

/-- The inputs of `isr` that a bit of their mapper byte selects. -/
def selected (mapper : Fin 32 → BitVec 8) (isr : BitVec 32) (k : Nat) : BitVec 32 :=
  (List.finRange 32).foldl
    (fun acc (irq : Fin 32) => if has isr (bit irq) && has (mapper irq) (bit k) then acc ||| bit irq else acc) 0

def updateOutputs : Liointc :=
  let regs := s.regs
  let isr := regs.pinState &&& regs.ien
  let perCoreIsr := fun core : Fin 4 => selected regs.mapper isr core
  let perIpIsr := fun ip : Fin 4 => selected regs.mapper isr (ip + 4)
  let newState := fun core ip => perCoreIsr core != 0 && perIpIsr ip != 0
  { regs := { regs with isr := isr, perCoreIsr := perCoreIsr, parentState := newState }
    outputs := fun core ip =>
      if regs.parentState core ip ≠ newState core ip then (s.outputs core ip).map fun _ => newState core ip
      else s.outputs core ip }

def setIrq (irq : Nat) (level : Bool) : Liointc :=
  if 32 ≤ irq then s
  else
    let pins := s.regs.pinState
    updateOutputs
      { s with regs := { s.regs with pinState := if level then pins ||| bit irq else pins &&& ~~~bit irq } }

def write (offset size : Nat) (val : BitVec 64) : Liointc :=
  let value := val.setWidth 32
  if h : size = 1 ∧ offset < 0x20 then
    updateOutputs
      { s with regs := { s.regs with mapper := Function.update s.regs.mapper ⟨offset, h.2⟩ (value.setWidth 8) } }
  else if size ≠ 4 ∨ offset % 4 ≠ 0 then s
  -- the per-core registers are derived and ignore writes
  else if 0x40 ≤ offset ∧ offset < 0x60 then s
  else
    let ien := s.regs.ien
    let ien := if offset = 0x28 then ien ||| value else if offset = 0x2c then ien &&& ~~~value else ien
    updateOutputs { s with regs := { s.regs with ien := ien } }

inductive Event where
  | setIrq (irq : Nat) (level : Bool)
  | write (offset size : Nat) (val : BitVec 64)

def step : Event → Liointc
  | .setIrq irq level => setIrq s irq level
  | .write offset size val => write s offset size val

/-- The device at reset, with the outputs that are connected. -/
def new (connected : Fin 4 → Fin 4 → Bool) : Liointc :=
  ⟨{}, fun core ip => if connected core ip then some false else none⟩

/-- An input that is asserted and enabled. -/
def Active (irq : Fin 32) : Prop := has s.regs.pinState (bit irq) = true ∧ has s.regs.ien (bit irq) = true

def SelectsCore (irq : Fin 32) (core : Fin 4) : Prop := has (s.regs.mapper irq) (bit core) = true

def SelectsPin (irq : Fin 32) (ip : Fin 4) : Prop := has (s.regs.mapper irq) (bit (ip + 4)) = true

/-- There is one active input that selects both. -/
def Routed (core ip : Fin 4) : Prop := ∃ irq, Active s irq ∧ SelectsCore s irq core ∧ SelectsPin s irq ip

/-- Where an active input selects the core and an active input selects the pin, one selects both. -/
def Unmixed (core ip : Fin 4) : Prop :=
  (∃ irq, Active s irq ∧ SelectsCore s irq core) → (∃ irq, Active s irq ∧ SelectsPin s irq ip) → Routed s core ip

variable {s}

theorem foldl_bits_ne_zero (p : Fin 32 → Bool) (l : List (Fin 32)) (acc : BitVec 32) :
    l.foldl (fun acc irq => if p irq then acc ||| bit irq else acc) acc ≠ 0 ↔ acc ≠ 0 ∨ ∃ irq ∈ l, p irq = true := by
  induction l generalizing acc with
  | nil => simp
  | cons irq l ih =>
    have hbit : (bit irq : BitVec 32) ≠ 0#32 := by decide +revert
    rw [List.foldl_cons, ih]
    cases hp : p irq with
    | false => simp [hp]
    | true => simp [hp, hbit]

theorem selected_ne_zero (mapper : Fin 32 → BitVec 8) (isr : BitVec 32) (k : Nat) :
    selected mapper isr k ≠ 0 ↔ ∃ irq : Fin 32, has isr (bit irq) = true ∧ has (mapper irq) (bit k) = true := by
  rw [selected, foldl_bits_ne_zero fun irq => has isr (bit irq) && has (mapper irq) (bit k)]
  simp

theorem has_and (x y : BitVec 32) (irq : Fin 32) : has (x &&& y) (bit irq) = (has x (bit irq) && has y (bit irq)) := by
  simp [has_bit]

/-- The outputs follow the registers: each is high when its core and its pin are selected. -/
structure Settled (s : Liointc) : Prop where
  state : ∀ core ip, s.regs.parentState core ip = true ↔
    (∃ irq, Active s irq ∧ SelectsCore s irq core) ∧ ∃ irq, Active s irq ∧ SelectsPin s irq ip
  line : ∀ core ip level, s.outputs core ip = some level → level = s.regs.parentState core ip

theorem settled_updateOutputs
    (h : ∀ core ip level, s.outputs core ip = some level → level = s.regs.parentState core ip) :
    Settled (updateOutputs s) := by
  constructor
  · intro core ip
    simp only [updateOutputs, Active, SelectsCore, SelectsPin, Bool.and_eq_true, bne_iff_ne, selected_ne_zero, has_and]
  · intro core ip level
    simp only [updateOutputs]
    split
    · rw [Option.map_eq_some_iff]
      rintro ⟨_, -, hlevel⟩
      exact hlevel.symm
    rename_i hsame
    intro hlevel
    rw [h core ip level hlevel]
    exact not_not.mp hsame

theorem settled_step (e : Event) (h : Settled s) : Settled (step s e) := by
  cases e with
  | setIrq irq level =>
    rw [step, setIrq]
    split
    · exact h
    · exact settled_updateOutputs h.line
  | write offset size val =>
    simp only [step, write]
    split
    · exact settled_updateOutputs h.line
    split
    · exact h
    split
    · exact h
    · exact settled_updateOutputs h.line

theorem settled_new (connected : Fin 4 → Fin 4 → Bool) : Settled (new connected) := by
  constructor
  · intro core ip
    simp [new, Active, has]
  · intro core ip level h
    simp only [new] at h ⊢
    split at h <;> simp_all

/-- After every sequence of events an output is high exactly when one active input selects its core and its pin, if
and only if no two inputs mix there. -/
theorem output_routed_iff (connected : Fin 4 → Fin 4 → Bool) (es : List Event) (core ip : Fin 4) (level : Bool)
    (hlevel : (es.foldl step (new connected)).outputs core ip = some level) :
    (level = true ↔ Routed (es.foldl step (new connected)) core ip) ↔
      Unmixed (es.foldl step (new connected)) core ip := by
  have hsettled : Settled (es.foldl step (new connected)) :=
    List.foldlRecOn es step (settled_new connected) fun _ hs e _ => settled_step e hs
  generalize es.foldl step (new connected) = t at hsettled hlevel ⊢
  rw [hsettled.line core ip level hlevel, hsettled.state]
  constructor
  · intro h hcore hpin
    exact h.mp ⟨hcore, hpin⟩
  · intro h
    refine ⟨fun ⟨hcore, hpin⟩ => h hcore hpin, ?_⟩
    rintro ⟨irq, hactive, hcore, hpin⟩
    exact ⟨⟨irq, hactive, hcore⟩, irq, hactive, hpin⟩

instance (s : Liointc) (core ip : Fin 4) : Decidable (Routed s core ip) := by
  unfold Routed Active SelectsCore SelectsPin
  infer_instance

/-- Input 0 goes to pin 0 of core 0 and input 1 to pin 1 of core 1; both are enabled and asserted. -/
def mixing : List Event :=
  [.write 0 1 0x11#64, .write 1 1 0x22#64, .write 0x28 4 3#64, .setIrq 0 true, .setIrq 1 true]

theorem output_routed_iff_mixing : true = true ↔ Routed (mixing.foldl step (new fun _ _ => true)) 0 0 :=
  (output_routed_iff _ mixing 0 0 true (by decide +kernel)).mpr fun _ _ => by decide +kernel

/-- Pin 1 of core 0 is high too, although no input selects both. -/
theorem mixed_output_wrong : (mixing.foldl step (new fun _ _ => true)).outputs 0 1 = some true ∧
      ¬Routed (mixing.foldl step (new fun _ _ => true)) 0 1 := by
  decide +kernel

end MachinaLiointc
