import Machina.Runs

/-!
# The GDB server and the execution loop

The two threads share the run state of the stub and three flags. A section under the lock, or one access to an atomic
flag, is one step. Registers, memory and breakpoints are left out: what counts is when they are served.
-/

namespace MachinaGdbServer

open MachinaRuns

inductive RunState where
  | running | pauseRequested | paused | stepping
  deriving DecidableEq, Repr

/-- The part of `GdbState` that the two threads synchronise with. -/
structure GdbState where
  state : RunState := .paused
  detached : Bool := false
  connected : Bool := false
  snapshotValid : Bool := false
  deriving DecidableEq, Repr

variable (g : GdbState)

def GdbState.requestPause : GdbState :=
  if g.state = .paused then g else { g with state := .pauseRequested }

/-- The early return of `request_attach_pause` -/
def GdbState.attachReady : Bool := g.snapshotValid && g.state == .paused

/-- The rest of `request_attach_pause` -/
def GdbState.forcePause : GdbState := { g with state := .pauseRequested }

def GdbState.requestResume : GdbState := { g with state := .running }

def GdbState.requestStep : GdbState := { g with state := .stepping }

def GdbState.detach : GdbState := { g with detached := true, state := .running, connected := false }

/-- The first section of `check_and_wait`: the loop goes on, or it parks. -/
def GdbState.checkAndWait : GdbState × Bool :=
  if g.detached then (g, false)
  else
    match g.state with
    | .pauseRequested | .paused => ({ g with state := .paused }, true)
    | _ => (g, false)

def GdbState.completeStep : GdbState × Bool :=
  if g.state = .stepping then ({ g with state := .paused }, true) else (g, false)

inductive ResumeAction where
  | cont | step
  deriving DecidableEq, Repr

def vCont : List Char := ['v', 'C', 'o', 'n', 't']

/-- The command of the first action of a `vCont` packet, as a resume action -/
def actionOf (actions : List Char) : Option ResumeAction :=
  match (actions.takeWhile (· != ';')).takeWhile (· != ':') with
  | ['c'] | ['C'] => some .cont
  | ['s'] | ['S'] => some .step
  | _ => none

def checkResumePacket (packet : List Char) : Option ResumeAction :=
  match packet with
  | 'c' :: _ | 'C' :: _ => some .cont
  | 's' :: _ | 'S' :: _ => some .step
  | 'v' :: _ =>
    if (vCont ++ [';']).isPrefixOf packet then actionOf (packet.drop 6) else none
  | _ => none

/-- What `GdbHandler::handle` does with a packet. -/
inductive Handled where
  | stopReply
  | data
  | other
  | resume (action : ResumeAction)
  | leave
  deriving DecidableEq, Repr

def handleVPacket (packet : List Char) : Handled :=
  if packet = vCont ++ ['?'] then .other
  else if vCont.isPrefixOf packet then
    let rest := packet.drop 5
    if rest = [] ∨ rest = [';'] then .other
    else
      match actionOf (rest.dropWhile (· == ';')) with
      | some action => .resume action
      | none => .other
  else .other

def handle : List Char → Handled
  | ['\x03'] => .stopReply
  | 'v' :: rest => handleVPacket ('v' :: rest)
  | '?' :: _ => .stopReply
  | 'g' :: _ | 'G' :: _ | 'p' :: _ | 'P' :: _ | 'm' :: _ | 'M' :: _ | 'X' :: _ => .data
  | 'c' :: _ => .resume .cont
  | 's' :: _ => .resume .step
  | 'D' :: _ | 'k' :: _ => .leave
  | _ => .other

/-- Where the server thread stands in `serve`. -/
inductive Server where
  | away
  | attaching
  | forcing
  | waiting
  | polling
  | replying
  | ready
  deriving DecidableEq, Repr

/-- Where the execution loop stands: in guest code, in `check_monitor_pause` before each of its steps, in guest code
under a single step, before `complete_step`, or parked on the condition variable. -/
inductive Loop where
  | free
  | connected
  | saving
  | entering
  | stepping
  | stepped
  | parked
  deriving DecidableEq, Repr

/-- `asked`: the server has requested a pause, and not resumed, stepped or detached since. -/
structure Sys where
  gdb : GdbState := {}
  server : Server := .away
  loop : Loop := .free
  asked : Bool := false
  deriving DecidableEq, Repr

/-- `strayByte` is any other byte while the CPU runs, and the end of the stream then, which `peek` also gives as
`Ok`. -/
inductive Event where
  -- the server thread
  | connect
  | attachCheck
  | attachForce
  | waitPaused
  | pollPaused
  | ctrlCByte
  | strayByte
  | streamError
  | reply
  | packet (p : List Char)
  | endOfStream
  -- the execution loop
  | loadConnected
  | loadState
  | saveSnapshot
  | checkAndWait
  | wake
  | beginStep
  | saveStep
  | completeStep
  | hitBreakpoint
  deriving DecidableEq, Repr

def Sys.leave (s : Sys) : Sys := { s with gdb := s.gdb.detach, server := .away, asked := false }

def Sys.resume (s : Sys) (action : ResumeAction) (next : Server) : Sys :=
  match action with
  | .cont => { s with gdb := s.gdb.requestResume, server := next, asked := false }
  | .step => { s with gdb := s.gdb.requestStep, server := next, asked := false }

def Sys.packet (s : Sys) (p : List Char) : Sys :=
  match checkResumePacket p with
  | some .cont => s.resume .cont .polling
  | some .step => s.resume .step .waiting
  | none =>
    if p = ['\x03'] then { s with gdb := s.gdb.requestPause, server := .waiting, asked := true }
    else
      match handle p with
      | .resume action => s.resume action .replying
      | .leave => s.leave
      | _ => s

def step (s : Sys) : Event → Option Sys
  | .connect =>
    if s.server = .away then some { s with gdb := { s.gdb with connected := true }, server := .attaching } else none
  | .attachCheck =>
    if s.server = .attaching then
      if s.gdb.attachReady then some { s with server := .waiting, asked := true }
      else some { s with server := .forcing }
    else none
  | .attachForce =>
    if s.server = .forcing then some { s with gdb := s.gdb.forcePause, server := .waiting, asked := true } else none
  | .waitPaused =>
    if s.server = .waiting ∧ s.gdb.state = .paused then some { s with server := .replying } else none
  | .pollPaused =>
    if s.server = .polling ∧ s.gdb.state = .paused then some { s with server := .replying } else none
  | .ctrlCByte =>
    if s.server = .polling then some { s with gdb := s.gdb.requestPause, asked := true } else none
  | .strayByte => if s.server = .polling then some { s with server := .replying } else none
  | .streamError =>
    if s.server = .polling ∨ s.server = .replying then
      some { s with gdb := { s.gdb with connected := false }, server := .away }
    else none
  | .reply => if s.server = .replying then some { s with server := .ready } else none
  | .packet p => if s.server = .ready then some (s.packet p) else none
  | .endOfStream => if s.server = .ready then some s.leave else none
  | .loadConnected =>
    if s.loop = .free then some { s with loop := if s.gdb.connected then .connected else .free } else none
  | .loadState =>
    if s.loop = .connected then
      some { s with loop := if s.gdb.state = .paused ∨ s.gdb.state = .pauseRequested then .saving else .free }
    else none
  | .saveSnapshot =>
    if s.loop = .saving then some { s with gdb := { s.gdb with snapshotValid := true }, loop := .entering } else none
  | .checkAndWait =>
    if s.loop = .entering then
      some { s with gdb := s.gdb.checkAndWait.1, loop := if s.gdb.checkAndWait.2 then .parked else .free }
    else none
  | .wake => if s.loop = .parked ∧ s.gdb.state ≠ .paused then some { s with loop := .free } else none
  | .beginStep => if s.loop = .free ∧ s.gdb.state = .stepping then some { s with loop := .stepping } else none
  | .saveStep =>
    if s.loop = .stepping then some { s with gdb := { s.gdb with snapshotValid := true }, loop := .stepped } else none
  | .completeStep =>
    if s.loop = .stepped then
      some { s with gdb := s.gdb.completeStep.1, loop := if s.gdb.completeStep.2 then .parked else .free }
    else none
  | .hitBreakpoint =>
    if s.loop = .free ∧ s.gdb.connected then some { s with gdb := s.gdb.requestPause } else none

/-- The packet is answered with a stop reply, or with registers or memory. -/
def serves (p : List Char) : Prop :=
  checkResumePacket p = none ∧ p ≠ ['\x03'] ∧ (handle p = .stopReply ∨ handle p = .data)

instance (p : List Char) : Decidable (serves p) := inferInstanceAs (Decidable (_ ∧ _ ∧ _))

/-- Neither does the loop pass `check_and_wait` while a pause is asked for, nor does the server go on as if the loop
were parked when it is not. -/
def Safe (s : Sys) : Event → Prop
  | .checkAndWait => s.asked = true → s.gdb.checkAndWait.2 = true
  | .waitPaused | .pollPaused | .reply => s.loop = .parked
  | .packet p => serves p → s.loop = .parked
  | _ => True

/-- The client attaches to a stub it has not left before, and not while the loop is on its way into its first park;
while the CPU runs it sends nothing but Ctrl-C; and it writes `vCont` packets in the way `serve` recognises. -/
def wellUsed (s : Sys) : Event → Prop
  | .connect => s.gdb.detached = false
  | .attachCheck => s.gdb.attachReady = true → s.loop = .parked
  | .strayByte => False
  | .packet p => checkResumePacket p = none → ∀ action, handle p ≠ .resume action
  | _ => True

/-- A server that has been through `request_attach_pause`. -/
def Server.settled : Server → Bool
  | .away | .attaching | .forcing => false
  | _ => true

structure Inv (s : Sys) : Prop where
  asked : s.asked = true → s.gdb.detached = false ∧ (s.gdb.state = .paused ∨ s.gdb.state = .pauseRequested)
  attached : s.server ≠ .away → s.gdb.detached = false
  parked : s.server.settled = true → s.gdb.state = .paused → s.loop = .parked
  served : s.server = .replying ∨ s.server = .ready → s.gdb.state = .paused

theorem requestPause_state : g.requestPause.state = .paused ∨ g.requestPause.state = .pauseRequested := by
  unfold GdbState.requestPause
  split
  · exact Or.inl ‹_›
  · exact Or.inr rfl

theorem requestPause_paused {g : GdbState} : g.requestPause.state = .paused ↔ g.state = .paused := by
  unfold GdbState.requestPause
  split
  · exact Iff.rfl
  · exact ⟨fun h => (nomatch h), fun h => absurd h ‹_›⟩

@[simp] theorem requestPause_detached : g.requestPause.detached = g.detached := by
  unfold GdbState.requestPause
  split <;> rfl

theorem inv_start : Inv {} where
  asked h := nomatch h
  attached h := absurd rfl h
  parked h := nomatch h
  served h := by rcases h with h | h <;> exact nomatch h

theorem Inv.safe {s : Sys} {e : Event} {t : Sys} (h : Inv s) (hstep : step s e = some t) : Safe s e := by
  cases e
  case checkAndWait =>
    intro hasked
    obtain ⟨hdet, hstate⟩ := h.asked hasked
    rcases hstate with hstate | hstate <;> simp [GdbState.checkAndWait, hdet, hstate]
  all_goals try trivial
  all_goals obtain ⟨hin, -⟩ := Option.ite_none_right_eq_some.mp hstep
  case waitPaused | pollPaused => exact h.parked (by rw [hin.1]; rfl) hin.2
  case reply => exact h.parked (by rw [hin]; rfl) (h.served (Or.inl hin))
  case packet p => exact fun _ => h.parked (by rw [hin]; rfl) (h.served (Or.inr hin))

/-- A step of the loop keeps the invariant when it parks with the state, and stays parked as long as that is kept. -/
theorem Inv.loopStep {s : Sys} {g : GdbState} {l : Loop} (h : Inv s) (hdet : g.detached = s.gdb.detached)
    (hasked : s.gdb.state = .paused ∨ s.gdb.state = .pauseRequested → g.state = .paused ∨ g.state = .pauseRequested)
    (hparks : g.state = .paused → l = .parked ∨ s.gdb.state = .paused ∧ s.loop ≠ .parked)
    (hstays : s.gdb.state = .paused → g.state = .paused) : Inv { s with gdb := g, loop := l } where
  asked ha := ⟨hdet.trans (h.asked ha).1, hasked (h.asked ha).2⟩
  attached ha := hdet.trans (h.attached ha)
  parked hs hp := by
    rcases hparks hp with hl | ⟨hp, hl⟩
    · exact hl
    · exact absurd (h.parked hs hp) hl
  served hs := hstays (h.served hs)

/-- A step of the server to a place where it has still to wait. -/
theorem inv_server {s : Sys} {g : GdbState} {v : Server} {a : Bool} (hdet : v ≠ .away → g.detached = false)
    (hasked : a = true → g.detached = false ∧ (g.state = .paused ∨ g.state = .pauseRequested))
    (hparked : v.settled = true → g.state = .paused → s.loop = .parked)
    (hwaits : v ≠ .replying ∧ v ≠ .ready ∨ g.state = .paused) : Inv { s with gdb := g, server := v, asked := a } where
  asked := hasked
  attached := hdet
  parked := hparked
  served hs := by
    rcases hwaits with ⟨h1, h2⟩ | hp
    · exact absurd hs (not_or.mpr ⟨h1, h2⟩)
    · exact hp

theorem inv_leave (s : Sys) : Inv s.leave :=
  inv_server (fun hne => absurd rfl hne) nofun nofun (Or.inl ⟨nofun, nofun⟩)

theorem Inv.packet {s : Sys} {p : List Char} (h : Inv s) (hready : s.server = .ready)
    (hok : wellUsed s (.packet p)) : Inv (s.packet p) := by
  have hdet := h.attached (by rw [hready]; exact fun hne => nomatch hne)
  have hpaused := h.served (Or.inr hready)
  have hparked := h.parked (by rw [hready]; rfl) hpaused
  unfold Sys.packet
  split
  · exact inv_server (fun _ => hdet) nofun nofun (Or.inl ⟨nofun, nofun⟩)
  · exact inv_server (fun _ => hdet) nofun nofun (Or.inl ⟨nofun, nofun⟩)
  rename_i hnone
  split
  · refine inv_server (fun _ => ?_) (fun _ => ⟨?_, requestPause_state _⟩) (fun _ _ => hparked)
      (Or.inl ⟨nofun, nofun⟩) <;> rwa [requestPause_detached]
  split
  · rename_i action haction
    exact absurd haction (hok hnone action)
  · exact inv_leave s
  · exact h

theorem Inv.step {s t : Sys} {e : Event} (h : Inv s) (hok : wellUsed s e) (hstep : step s e = some t) : Inv t := by
  cases e
  -- Every step has a guard.
  all_goals obtain ⟨hin, hstep⟩ := Option.ite_none_right_eq_some.mp hstep
  case attachCheck =>
    have hdet := h.attached (by rw [hin]; exact nofun)
    split at hstep
    · rename_i hready
      obtain rfl := Option.some.inj hstep
      have hpaused : s.gdb.state = .paused := by
        have := (Bool.and_eq_true_iff.mp hready).2
        exact beq_iff_eq.mp this
      exact inv_server (fun _ => hdet) (fun _ => ⟨hdet, Or.inl hpaused⟩) (fun _ _ => hok hready)
        (Or.inl ⟨nofun, nofun⟩)
    · obtain rfl := Option.some.inj hstep
      exact inv_server (fun _ => hdet) h.asked nofun (Or.inl ⟨nofun, nofun⟩)
  all_goals obtain rfl := Option.some.inj hstep
  case connect => exact inv_server (fun _ => hok) h.asked nofun (Or.inl ⟨nofun, nofun⟩)
  case attachForce =>
    have hdet := h.attached (by rw [hin]; exact nofun)
    exact inv_server (fun _ => hdet) (fun _ => ⟨hdet, Or.inr rfl⟩) nofun (Or.inl ⟨nofun, nofun⟩)
  case waitPaused | pollPaused =>
    have hdet := h.attached (by rw [hin.1]; exact nofun)
    exact inv_server (fun _ => hdet) h.asked (fun _ => h.parked (by rw [hin.1]; rfl)) (Or.inr hin.2)
  case ctrlCByte =>
    have hdet := h.attached (by rw [hin]; exact nofun)
    refine inv_server (fun _ => ?_) (fun _ => ⟨?_, requestPause_state _⟩)
      (fun _ hp => h.parked (by rw [hin]; rfl) (requestPause_paused.mp hp)) (Or.inl ?_)
    · rwa [requestPause_detached]
    · rwa [requestPause_detached]
    · rw [hin]
      exact ⟨nofun, nofun⟩
  case strayByte => exact hok.elim
  case streamError => exact inv_server (fun hne => absurd rfl hne) h.asked nofun (Or.inl ⟨nofun, nofun⟩)
  case reply =>
    have hdet := h.attached (by rw [hin]; exact nofun)
    exact inv_server (fun _ => hdet) h.asked (fun _ => h.parked (by rw [hin]; rfl)) (Or.inr (h.served (Or.inl hin)))
  case packet p => exact h.packet hin hok
  case endOfStream => exact inv_leave s
  case loadConnected | loadState | saveSnapshot | saveStep =>
    exact h.loopStep rfl id (fun hp => Or.inr ⟨hp, by rw [hin]; exact nofun⟩) id
  case checkAndWait =>
    unfold GdbState.checkAndWait
    split
    · exact h.loopStep rfl id (fun hp => Or.inr ⟨hp, by rw [hin]; exact nofun⟩) id
    split
    · exact h.loopStep rfl (fun _ => Or.inl rfl) (fun _ => Or.inl rfl) fun _ => rfl
    · exact h.loopStep rfl (fun _ => Or.inl rfl) (fun _ => Or.inl rfl) fun _ => rfl
    · exact h.loopStep rfl id (fun hp => Or.inr ⟨hp, by rw [hin]; exact nofun⟩) id
  case wake => exact h.loopStep rfl id (fun hp => absurd hp hin.2) id
  case beginStep => exact h.loopStep rfl id (fun hp => Or.inr ⟨hp, by rw [hin.1]; exact nofun⟩) id
  case completeStep =>
    unfold GdbState.completeStep
    split
    · exact h.loopStep rfl (fun _ => Or.inl rfl) (fun _ => Or.inl rfl) fun _ => rfl
    · exact h.loopStep rfl id (fun hp => Or.inr ⟨hp, by rw [hin]; exact nofun⟩) id
  case hitBreakpoint =>
    exact h.loopStep (requestPause_detached _) (fun _ => requestPause_state _)
      (fun hp => Or.inr ⟨requestPause_paused.mp hp, by rw [hin.1]; exact nofun⟩) requestPause_paused.mpr

/-- In every interleaving of a well-used server with the loop, every step is safe: the loop does not pass
`check_and_wait` while a pause is asked for, and the server gets out of its waits, sends stop replies and serves
registers and memory only while the loop is parked. -/
theorem well_used_server_is_safe {es : List Event} {s t : Sys} {e : Event}
    (hrun : Run (guarded wellUsed (ofOption step)) {} es s) (hstep : step s e = some t) : Safe s e := by
  have hinv : Inv s := Run.invariant (I := Inv) (fun _ _ _ ⟨hok, hstep⟩ hs => hs.step hok hstep) hrun inv_start
  exact hinv.safe hstep

/-- The client connects and the loop parks for it. -/
def attach : List Event :=
  [.connect, .attachCheck, .attachForce, .loadConnected, .loadState, .saveSnapshot, .checkAndWait]

def attached : Sys :=
  { gdb := { state := .paused, connected := true, snapshotValid := true }, server := .waiting, loop := .parked
    asked := true }

theorem well_used_server_is_safe_attach :
    Run (guarded wellUsed (ofOption step)) {} attach attached ∧ Safe attached .waitPaused := by
  have hrun : Run (guarded wellUsed (ofOption step)) {} attach attached :=
    .cons ⟨rfl, rfl⟩ (.cons ⟨nofun, rfl⟩ (.cons ⟨trivial, rfl⟩ (.cons ⟨trivial, rfl⟩ (.cons ⟨trivial, rfl⟩
      (.cons ⟨trivial, rfl⟩ (.cons ⟨trivial, rfl⟩ (.nil _)))))))
  exact ⟨hrun, well_used_server_is_safe hrun (t := { attached with server := .replying }) rfl⟩

/-- The client leaves and attaches again. The flag `detached` is never taken back, so the loop does not stop for it. -/
def attachAgain : List Event :=
  attach ++ [.waitPaused, .reply, .packet ['D'], .wake, .connect, .attachCheck, .attachForce,
    .loadConnected, .loadState, .saveSnapshot]

theorem second_attach_is_not_safe :
    ∃ s t, Run (ofOption step) {} attachAgain s ∧ step s .checkAndWait = some t ∧ ¬ Safe s .checkAndWait := by
  have hrun : Run (ofOption step) {} attachAgain
      { gdb := { state := .pauseRequested, detached := true, connected := true, snapshotValid := true }
        server := .waiting, loop := .entering, asked := true } := by
    iterate 17 refine .cons rfl ?_
    exact .nil _
  exact ⟨_, _, hrun, rfl, fun h => nomatch h rfl⟩

end MachinaGdbServer
