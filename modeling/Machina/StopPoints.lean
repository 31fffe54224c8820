import Mathlib

/-!
# Breakpoints and watchpoints

The tables that the debugger's `Z` and `z` packets change. Software and hardware breakpoints are sets of addresses.
Watchpoints are kept in a map with the address as the only key, so that there is one for each address, whatever its
kind and length.
-/

namespace MachinaStopPoints

inductive WatchType where
  | write | read | access
  deriving DecidableEq, Repr

/-- An entry of the map: the address, the length and the kind. -/
structure Watchpoint where
  addr : BitVec 64
  len : BitVec 32
  wtype : WatchType
  deriving DecidableEq, Repr

/-- The tables of `GdbInner`, and the flag of `GdbState` that a debugger is connected. The map of watchpoints is the
list of its entries by ascending address. -/
structure GdbStops where
  connected : Bool := false
  breakpoints : List (BitVec 64) := []
  hwBreakpoints : List (BitVec 64) := []
  watchpoints : List Watchpoint := []

/-- Insertion into a `BTreeSet` -/
def setInsert (set : List (BitVec 64)) (addr : BitVec 64) : List (BitVec 64) :=
  if addr ∈ set then set else addr :: set

/-- Insertion into the map of watchpoints, which replaces an entry of the same address. -/
def mapInsert (w : Watchpoint) : List Watchpoint → List Watchpoint
  | [] => [w]
  | v :: rest =>
    if w.addr < v.addr then w :: v :: rest
    else if w.addr = v.addr then w :: rest
    else v :: mapInsert w rest

variable (g : GdbStops)

def GdbStops.setWatchpoint (w : Watchpoint) : GdbStops :=
  { g with watchpoints := mapInsert w g.watchpoints }

def GdbStops.removeWatchpoint (addr : BitVec 64) : GdbStops × Bool :=
  ({ g with watchpoints := g.watchpoints.filter (·.addr ≠ addr) }, g.watchpoints.any (·.addr = addr))

/-- `set_breakpoint` of the stub: the type of the packet chooses the table. -/
def GdbStops.setBreakpoint (type : Nat) (addr : BitVec 64) (kind : BitVec 32) : GdbStops × Bool :=
  match type with
  | 0 => ({ g with breakpoints := setInsert g.breakpoints addr }, true)
  | 1 => ({ g with hwBreakpoints := setInsert g.hwBreakpoints addr }, true)
  | 2 => (g.setWatchpoint ⟨addr, kind, .write⟩, true)
  | 3 => (g.setWatchpoint ⟨addr, kind, .read⟩, true)
  | 4 => (g.setWatchpoint ⟨addr, kind, .access⟩, true)
  | _ => (g, false)

/-- `remove_breakpoint` of the stub: the three kinds of watchpoints are not told apart. -/
def GdbStops.removeBreakpoint (type : Nat) (addr : BitVec 64) : GdbStops × Bool :=
  match type with
  | 0 => ({ g with breakpoints := g.breakpoints.filter (· ≠ addr) }, true)
  | 1 => ({ g with hwBreakpoints := g.hwBreakpoints.filter (· ≠ addr) }, true)
  | 2 | 3 | 4 => g.removeWatchpoint addr
  | _ => (g, false)

def GdbStops.hitBreakpoint (pc : BitVec 64) : Bool :=
  decide (pc ∈ g.breakpoints) || decide (pc ∈ g.hwBreakpoints)

def GdbStops.hasBreakpoints : Bool := !g.breakpoints.isEmpty || !g.hwBreakpoints.isEmpty

/-- A breakpoint strictly between the bounds. -/
def GdbStops.breakpointInRange (start stop : BitVec 64) : Bool :=
  (g.breakpoints ++ g.hwBreakpoints).any fun addr => decide (start < addr) && decide (addr < stop)

/-- `gdb_check_breakpoint`, without the request to pause that goes with a hit. -/
def GdbStops.gdbCheckBreakpoint (pc : BitVec 64) : Bool :=
  g.connected && g.hasBreakpoints && g.hitBreakpoint pc

/-- The end of the block is computed with wrapping addition. -/
def GdbStops.gdbBreakpointInTb (tbPc : BitVec 64) (tbSize : Nat) : Bool :=
  g.connected && g.hasBreakpoints && g.breakpointInRange tbPc (tbPc + BitVec.ofNat 64 tbSize)

/-- Whether a watchpoint of the kind minds the access. -/
def WatchType.minds (wtype : WatchType) (isWrite : Bool) : Bool :=
  match wtype with
  | .write => isWrite
  | .read => !isWrite
  | .access => true

/-- The access and the watchpoint have a byte in common, and the kind of the watchpoint minds the access. -/
def Watchpoint.Meets (w : Watchpoint) (addr : BitVec 64) (size : Nat) (isWrite : Bool) : Prop :=
  addr.toNat < w.addr.toNat + w.len.toNat ∧ w.addr.toNat < addr.toNat + size ∧ w.wtype.minds isWrite = true

instance (w : Watchpoint) (addr : BitVec 64) (size : Nat) (isWrite : Bool) : Decidable (w.Meets addr size isWrite) :=
  inferInstanceAs (Decidable (_ ∧ _))

/-- A stop point as the debugger means it: a breakpoint by its address, a watchpoint by address, length and kind. -/
inductive StopPoint where
  | breakpoint (addr : BitVec 64)
  | hwBreakpoint (addr : BitVec 64)
  | watchpoint (w : Watchpoint)
  deriving DecidableEq, Repr

/-- The packet type, the address and the kind field for a stop point. -/
def StopPoint.packet : StopPoint → Nat × BitVec 64 × BitVec 32
  | .breakpoint addr => (0, addr, 4)
  | .hwBreakpoint addr => (1, addr, 4)
  | .watchpoint w =>
    match w.wtype with
    | .write => (2, w.addr, w.len)
    | .read => (3, w.addr, w.len)
    | .access => (4, w.addr, w.len)

def GdbStops.insert (p : StopPoint) : GdbStops :=
  (g.setBreakpoint p.packet.1 p.packet.2.1 p.packet.2.2).1

def GdbStops.remove (p : StopPoint) : GdbStops := (g.removeBreakpoint p.packet.1 p.packet.2.1).1

def GdbStops.Enabled : StopPoint → Prop
  | .breakpoint addr => addr ∈ g.breakpoints
  | .hwBreakpoint addr => addr ∈ g.hwBreakpoints
  | .watchpoint w => w ∈ g.watchpoints

/-- The two share the key of the map. -/
def StopPoint.sameKey : StopPoint → StopPoint → Prop
  | .watchpoint w, .watchpoint v => w.addr = v.addr
  | _, _ => False

theorem insert_watchpoint (w : Watchpoint) : g.insert (.watchpoint w) = g.setWatchpoint w := by
  obtain ⟨addr, len, wtype⟩ := w
  cases wtype <;> rfl

theorem remove_watchpoint (w : Watchpoint) : g.remove (.watchpoint w) = (g.removeWatchpoint w.addr).1 := by
  obtain ⟨addr, len, wtype⟩ := w
  cases wtype <;> rfl

theorem mem_setInsert {set : List (BitVec 64)} {addr a : BitVec 64} : a ∈ setInsert set addr ↔ a = addr ∨ a ∈ set := by
  unfold setInsert
  split
  · rename_i hin
    exact ⟨Or.inr, fun h => h.elim (fun he => he ▸ hin) id⟩
  · exact List.mem_cons

theorem mem_mapInsert_self (w : Watchpoint) (ws : List Watchpoint) : w ∈ mapInsert w ws := by
  induction ws with
  | nil => exact List.mem_cons_self
  | cons v rest ih =>
    unfold mapInsert
    split
    · exact List.mem_cons_self
    split
    · exact List.mem_cons_self
    · exact List.mem_cons_of_mem _ ih

theorem mem_mapInsert_of_ne {w v : Watchpoint} (hne : v.addr ≠ w.addr) {ws : List Watchpoint} (h : v ∈ ws) :
    v ∈ mapInsert w ws := by
  induction ws with
  | nil => cases h
  | cons u rest ih =>
    unfold mapInsert
    split
    · exact List.mem_cons_of_mem _ h
    split
    · rename_i heq
      rcases List.mem_cons.mp h with rfl | hrest
      · exact absurd heq.symm hne
      · exact List.mem_cons_of_mem _ hrest
    · rcases List.mem_cons.mp h with rfl | hrest
      · exact List.mem_cons_self
      · exact List.mem_cons_of_mem _ (ih hrest)

theorem enabled_insert_self (p : StopPoint) : (g.insert p).Enabled p := by
  cases p with
  | breakpoint addr | hwBreakpoint addr => exact mem_setInsert.mpr (Or.inl rfl)
  | watchpoint w =>
    rw [insert_watchpoint]
    exact mem_mapInsert_self w _

/-- Only a watchpoint of the same address is lost to an insertion. -/
theorem enabled_insert {g : GdbStops} {p q : StopPoint} (hkey : ¬ p.sameKey q) (h : g.Enabled q) :
    (g.insert p).Enabled q := by
  cases p with
  | breakpoint addr =>
    cases q with
    | breakpoint a => exact mem_setInsert.mpr (Or.inr h)
    | hwBreakpoint a => exact h
    | watchpoint v => exact h
  | hwBreakpoint addr =>
    cases q with
    | breakpoint a => exact h
    | hwBreakpoint a => exact mem_setInsert.mpr (Or.inr h)
    | watchpoint v => exact h
  | watchpoint w =>
    rw [insert_watchpoint]
    cases q with
    | breakpoint a => exact h
    | hwBreakpoint a => exact h
    | watchpoint v => exact mem_mapInsert_of_ne (fun he => hkey he.symm) h

/-- Only a watchpoint of the same address is lost to the removal of another stop point. -/
theorem enabled_remove {g : GdbStops} {p q : StopPoint} (hne : q ≠ p) (hkey : ¬ p.sameKey q) (h : g.Enabled q) :
    (g.remove p).Enabled q := by
  cases p with
  | breakpoint addr =>
    cases q with
    | breakpoint a => exact List.mem_filter.mpr ⟨h, decide_eq_true fun he => hne (congrArg _ he)⟩
    | hwBreakpoint a => exact h
    | watchpoint v => exact h
  | hwBreakpoint addr =>
    cases q with
    | breakpoint a => exact h
    | hwBreakpoint a => exact List.mem_filter.mpr ⟨h, decide_eq_true fun he => hne (congrArg _ he)⟩
    | watchpoint v => exact h
  | watchpoint w =>
    rw [remove_watchpoint]
    cases q with
    | breakpoint a => exact h
    | hwBreakpoint a => exact h
    | watchpoint v => exact List.mem_filter.mpr ⟨h, decide_eq_true fun he => hkey he.symm⟩

theorem hasBreakpoints_of_enabled {g : GdbStops} {a : BitVec 64}
    (h : g.Enabled (.breakpoint a) ∨ g.Enabled (.hwBreakpoint a)) : g.hasBreakpoints = true := by
  rcases h with h | h
  · simp [GdbStops.hasBreakpoints, List.ne_nil_of_mem h]
  · simp [GdbStops.hasBreakpoints, List.ne_nil_of_mem h]

/-- With a debugger connected, the check at an address finds every breakpoint at it. -/
theorem checks_of_enabled {g : GdbStops} (hconn : g.connected = true) {a : BitVec 64}
    (h : g.Enabled (.breakpoint a) ∨ g.Enabled (.hwBreakpoint a)) : g.gdbCheckBreakpoint a = true := by
  have hhas := hasBreakpoints_of_enabled h
  have hhit : g.hitBreakpoint a = true := by
    rcases h with h | h
    · exact Bool.or_eq_true_iff.mpr (Or.inl (decide_eq_true h))
    · exact Bool.or_eq_true_iff.mpr (Or.inr (decide_eq_true h))
  simp [GdbStops.gdbCheckBreakpoint, hconn, hhas, hhit]

/-- The check of a block finds every breakpoint after its first instruction, unless the block reaches the end of the
address space. -/
theorem inTb_of_enabled {g : GdbStops} (hconn : g.connected = true) {pc a : BitVec 64} {size : Nat}
    (hend : pc.toNat + size < 2 ^ 64) (hin : (a - pc).toNat < size) (hne : a ≠ pc)
    (h : g.Enabled (.breakpoint a) ∨ g.Enabled (.hwBreakpoint a)) : g.gdbBreakpointInTb pc size = true := by
  have hmem : a ∈ g.breakpoints ++ g.hwBreakpoints := List.mem_append.mpr h
  have hhas := hasBreakpoints_of_enabled h
  have hbounds : pc < a ∧ a < pc + BitVec.ofNat 64 size := by
    have hne' : a.toNat ≠ pc.toNat := fun he => hne (BitVec.eq_of_toNat_eq he)
    rw [BitVec.toNat_sub] at hin
    rw [BitVec.lt_def, BitVec.lt_def, BitVec.toNat_add, BitVec.toNat_ofNat]
    omega
  have hrange : g.breakpointInRange pc (pc + BitVec.ofNat 64 size) = true := by
    refine List.any_eq_true.mpr ⟨a, hmem, ?_⟩
    simp [hbounds]
  simp [GdbStops.gdbBreakpointInTb, hconn, hhas, hrange]

end MachinaStopPoints
