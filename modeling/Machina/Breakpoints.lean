import Machina.ExecLoop

/-!
# Which breakpoints stop the CPU

A continued CPU executes no instruction at a breakpoint as long as generated code meets none behind a patched jump and
the hint fits the pc. Both can fail: chaining does not look at breakpoints, neither when they are inserted nor when a
jump is patched.
-/

namespace MachinaBreakpoints

open MachinaRuns MachinaTbStore MachinaStopPoints MachinaExecLoop
open MachinaTbPages hiding Event step start

local instance neZero2 : NeZero 2 := ⟨by decide⟩

variable {flags : BitVec 32} {pc : BitVec 64} {c : JumpCache} {l l' : Loop} {i : Nat} {s : TbStore} {t : Turn}
    {w : Work}

/-- What translation fixes in a block before it is entered in the tables of the store. -/
def shell (t : Tb) : BitVec 64 × BitVec 32 × (Slot → Option Nat) := (t.pc, t.cflags, t.jump)

theorem shell_modify {f : Tb → Tb} (h : shell (f (s.tbs i)) = shell (s.tbs i)) (j : Nat) :
    shell ((s.modify i f).tbs j) = shell (s.tbs j) := by
  rcases eq_or_ne j i with rfl | hj
  · rw [modify_tbs, Function.update_self]
    exact h
  · rw [modify_tbs, Function.update_of_ne hj]

theorem shell_markCodePage (s : TbStore) (page i j : Nat) :
    shell ((s.markCodePage page i).tbs j) = shell (s.tbs j) := by
  unfold TbStore.markCodePage
  split
  · rfl
  · exact shell_modify (s := s) (i := i) (f := fun t => { t with pageNext := s.pageHeads page }) rfl j

theorem shell_stamp (s : TbStore) (i : Nat) (f : Fetched) (j : Nat) :
    shell ((s.stamp i f).tbs j) = shell (s.tbs j) := by
  unfold TbStore.stamp
  rw [shell_markCodePage]
  exact shell_modify rfl j

theorem shell_new (s : TbStore) (pc : BitVec 64) (flags cflags : BitVec 32) (f : Fetched) (chainable : Slot → Bool) :
    shell ((((s.push { pc := pc, flags := flags, cflags := cflags }).stamp s.len f).setJumpSlots s.len chainable).tbs
      s.len) = (pc, cflags, fun _ => none) := by
  rw [TbStore.setJumpSlots, shell_modify rfl, shell_stamp, push_tbs, Function.update_self]
  rfl

theorem shell_insert (s : TbStore) (i j : Nat) : shell ((s.insert i).tbs j) = shell (s.tbs j) := by
  exact shell_modify (f := fun t => { t with hashNext := s.hash (hashOf (s.tbs i).pc (s.tbs i).flags) }) rfl j

theorem pc_of_hashHit {phys : BitVec 64} (h : s.hashHit pc flags phys = some i) : (s.tbs i).pc = pc := by
  have hp := MachinaLinked.find_some (Option.filter_eq_some_iff.mp h).1
  simp only [Bool.and_eq_true, beq_iff_eq] at hp
  exact hp.1.2

theorem pc_of_jumpCacheHit {phys : BitVec 64} (h : s.jumpCacheHit c pc flags phys = some i) : (s.tbs i).pc = pc := by
  have hp := (Option.filter_eq_some_iff.mp h).2
  simp only [Bool.and_eq_true, beq_iff_eq] at hp
  exact hp.1.1.2

/-- The block that `tb_gen_code` returns starts at the pc; one that is not kept is new. -/
theorem tbGenCode_shell {cflags : BitVec 32} (h : (tbGenCode s c pc flags cflags w).1 = some i) :
    (((tbGenCode s c pc flags cflags w).2.1).tbs i).pc = pc ∧
      (cflags ≠ 0 → shell (((tbGenCode s c pc flags cflags w).2.1).tbs i) = (pc, cflags, fun _ => none)) := by
  unfold tbGenCode at h ⊢
  split at h
  · cases h
  rename_i hroom
  rw [if_neg hroom]
  split at h <;> rename_i heq
  · cases h
    split at heq
    · rename_i hzero
      obtain ⟨phys, -, hhit⟩ := Option.bind_eq_some_iff.mp heq
      exact ⟨pc_of_hashHit hhit, fun hne => absurd (beq_iff_eq.mp hzero) hne⟩
    · cases heq
  · cases hend : w.ending with
    | giveUp => rw [hend] at h; cases h
    | fault =>
      rw [hend] at h
      dsimp only at h
      split at h <;> cases h
    | done f chainable =>
      rw [hend] at h
      dsimp only at h ⊢
      generalize w.overflows.foldl (TbStore.overflow pc flags cflags) s = s1 at h ⊢
      rcases alloc_cases s1 pc flags cflags with ha | ha
      · rw [ha] at h
        cases h
      rw [ha] at h ⊢
      dsimp only at h ⊢
      have hnew := shell_new s1 pc flags cflags f chainable
      split at h
      · rename_i hzero
        cases h
        rw [if_pos hzero]
        exact ⟨congrArg Prod.fst ((shell_insert _ _ _).trans hnew), fun hne => absurd (beq_iff_eq.mp hzero) hne⟩
      · rename_i hzero
        cases h
        rw [if_neg hzero]
        exact ⟨congrArg Prod.fst hnew, fun _ => hnew⟩

theorem tbFind_pc {curPhys : Option (BitVec 64)} (h : (tbFind s c pc flags curPhys w).1 = some i) :
    (((tbFind s c pc flags curPhys w).2.1).tbs i).pc = pc := by
  unfold tbFind at h ⊢
  cases curPhys with
  | none => exact (tbGenCode_shell h).1
  | some phys =>
    dsimp only at h ⊢
    cases hjump : s.jumpCacheHit c pc flags phys with
    | some j =>
      rw [hjump] at h
      cases h
      exact pc_of_jumpCacheHit hjump
    | none =>
      rw [hjump] at h
      cases hhash : s.hashHit pc flags phys with
      | some j =>
        rw [hhash] at h
        cases h
        exact pc_of_hashHit hhash
      | none =>
        rw [hhash] at h
        exact (tbGenCode_shell h).1

/-- A breakpoint of either kind is inserted at the address. -/
def Loop.breaksAt (l : Loop) (a : BitVec 64) : Prop := .breakpoint a ∈ l.inserted ∨ .hwBreakpoint a ∈ l.inserted

/-- A patched jump leads from one block to the other. -/
def jumps (s : TbStore) (i j : Nat) : Prop := ∃ slot, (s.tbs i).jump slot = some j

/-- The conditions under which a continued CPU stops in time. The hint fits the pc; no chain of patched jumps leads
from the block that is entered to one with a breakpoint, and the block does not reach the end of the address space; no
watchpoint is inserted while generated code runs. Watchpoints have addresses of their own. Neither a connection nor the
work of another CPU comes between the checks and generated code. -/
def Careful (l : Loop) : Event → Prop
  | .dispatch t => t.stepping = false → t.irq = none → ∀ i, l.nextTbHint = some i → (l.engine.store.tbs i).pc = l.pc
  | .execute _ _ => ∀ i, l.running = some (i, false) →
      (∀ w, .watchpoint w ∉ l.inserted) ∧ (l.engine.store.tbs i).pc.toNat + (l.engine.store.tbs i).size < 2 ^ 64 ∧
        ∀ j, Relation.TransGen (jumps l.engine.store) i j → ∀ a, Loop.breaksAt l a →
        ¬ Tb.spans (l.engine.store.tbs j) a
  | .insert p | .remove p => ∀ q ∈ l.inserted, q ≠ p → ¬ p.sameKey q
  | .connect _ | .other _ => l.running = none
  | _ => True

/-- The block about to run starts at the pc and has passed the checks. -/
structure Checked (l : Loop) (i : Nat) : Prop where
  pc : (l.engine.store.tbs i).pc = l.pc
  here : l.gdb.gdbCheckBreakpoint l.pc = false
  inside : maxInsns (l.engine.store.tbs i).cflags = 1 ∨
    l.gdb.gdbBreakpointInTb (l.engine.store.tbs i).pc (l.engine.store.tbs i).size = false

structure Inv (l : Loop) : Prop where
  enabled : ∀ p ∈ l.inserted, l.gdb.Enabled p
  parked : l.running ≠ none → l.parked = .no
  checked : ∀ i, l.running = some (i, false) → Checked l i

section

variable (l : Loop)

/-- What the debugger's tables say, and what is about to run. -/
def book : GdbStops × List StopPoint × Option (Nat × Bool) := (l.gdb, l.inserted, l.running)

theorem book_interrupt (t : Turn) : book (l.interrupt t) = book l := by
  unfold Loop.interrupt
  split
  · rfl
  · split <;> rfl

theorem book_find (curPhys : Option (BitVec 64)) (w : Work) : book (l.find curPhys w).2 = book l := rfl

theorem book_genOne (w : Work) : book (l.genOne w).2 = book l := rfl

theorem book_hintOrFind (t : Turn) : book (l.hintOrFind t).2 = book l := by
  unfold Loop.hintOrFind
  split
  · rfl
  · exact book_find l _ _

theorem book_select (t : Turn) : book (l.select t).2 = book l := by
  have hfound := book_hintOrFind l t
  unfold Loop.select
  split
  · rfl
  split <;> rename_i heq <;> rw [heq] at hfound
  · exact hfound
  · split
    · exact (book_genOne _ _).trans hfound
    · exact hfound

theorem select_place (t : Turn) : (l.select t).2.pc = l.pc ∧ (l.select t).2.parked = l.parked := by
  have hfound : (l.hintOrFind t).2.pc = l.pc ∧ (l.hintOrFind t).2.parked = l.parked := by
    unfold Loop.hintOrFind
    split <;> exact ⟨rfl, rfl⟩
  unfold Loop.select
  split
  · exact ⟨rfl, rfl⟩
  split <;> rename_i heq <;> rw [heq] at hfound
  · exact hfound
  · split <;> exact hfound

theorem interrupt_parked (t : Turn) : (l.interrupt t).parked = l.parked := by
  unfold Loop.interrupt
  split
  · rfl
  · split <;> rfl

end

theorem genOne_spec (h : l.genOne w = (some i, l')) :
    (l'.engine.store.tbs i).pc = l'.pc ∧ maxInsns (l'.engine.store.tbs i).cflags = 1 := by
  have hidx : (tbGenCode l.engine.store (l.engine.caches 0) l.pc l.flags oneInsn w).1 = some i := congrArg Prod.fst h
  obtain ⟨hpc, hshell⟩ := tbGenCode_shell hidx
  have hcflags := congrArg (fun x => x.2.1) (hshell (by decide))
  have hl' : l' = (l.genOne w).2 := by rw [h]
  subst hl'
  have hone : maxInsns oneInsn = 1 := by decide
  exact ⟨hpc, (congrArg maxInsns hcflags).trans hone⟩

theorem hintOrFind_pc
    (hhint : ∀ i, l.nextTbHint = some i → (l.engine.store.tbs i).pc = l.pc) (h : l.hintOrFind t = (some i, l')) :
    (l'.engine.store.tbs i).pc = l'.pc := by
  unfold Loop.hintOrFind at h
  split at h
  · rename_i hi
    cases h
    exact hhint i hi
  have hidx : (tbFind l.engine.store (l.engine.caches 0) l.pc l.flags t.curPhys t.work).1 = some i :=
    congrArg Prod.fst h
  have hl' : l' = (l.find t.curPhys t.work).2 := by rw [h]
  subst hl'
  exact tbFind_pc hidx

/-- The block that a continued CPU enters starts at the pc, and has one instruction or no breakpoint inside. -/
theorem select_spec (hstep : t.stepping = false)
    (hhint : ∀ i, l.nextTbHint = some i → (l.engine.store.tbs i).pc = l.pc) (h : l.select t = (some i, l')) :
    (l'.engine.store.tbs i).pc = l'.pc ∧ (maxInsns (l'.engine.store.tbs i).cflags = 1 ∨
      l'.gdb.gdbBreakpointInTb (l'.engine.store.tbs i).pc (l'.engine.store.tbs i).size = false) := by
  unfold Loop.select at h
  rw [if_neg (by rw [hstep]; decide)] at h
  split at h <;> rename_i heq
  · cases h
  split at h
  · obtain ⟨hpc, hone⟩ := genOne_spec h
    exact ⟨hpc, Or.inl hone⟩
  · rename_i hin
    cases h
    exact ⟨hintOrFind_pc hhint heq, Or.inr (Bool.eq_false_iff.mpr hin)⟩

theorem interrupt_hint (hstep : t.stepping = false) (hok : Careful l (.dispatch t)) (i : Nat)
    (h : (l.interrupt t).nextTbHint = some i) : ((l.interrupt t).engine.store.tbs i).pc = (l.interrupt t).pc := by
  unfold Loop.interrupt at h ⊢
  rw [if_neg (by rw [hstep]; decide)] at h ⊢
  cases hirq : t.irq with
  | some p => rw [hirq] at h; cases h
  | none =>
    rw [hirq] at h
    exact hok hstep hirq i h

/-- Nothing is about to run, so the tables are all that counts. -/
theorem Inv.of_book (h : Inv l) (hnone : l.running = none) (hbook : book l' = book l) : Inv l' := by
  have hgdb : l'.gdb = l.gdb := congrArg Prod.fst hbook
  have hins : l'.inserted = l.inserted := congrArg (fun x => x.2.1) hbook
  have hrun : l'.running = none := (congrArg (fun x => x.2.2) hbook).trans hnone
  refine ⟨?_, fun hr => absurd hrun hr, fun i hi => ?_⟩
  · rw [hgdb, hins]
    exact h.enabled
  · rw [hrun] at hi
    cases hi

theorem inv_dispatch (hok : Careful l (.dispatch t)) (hparked : l.parked = .no)
    (hnone : l.running = none) (h : Inv l) : Inv (l.dispatch t) := by
  have hbook := (book_select (l.interrupt t) t).trans (book_interrupt l t)
  have hplace := (select_place (l.interrupt t) t).2.trans ((interrupt_parked l t).trans hparked)
  unfold Loop.dispatch
  split <;> rename_i heq <;> rw [heq] at hbook hplace
  · split
    · exact h.of_book hnone hbook
    · exact h.of_book hnone hbook
  rename_i i l'
  have hinv : Inv l' := h.of_book hnone hbook
  split
  · exact h.of_book hnone hbook
  rename_i hcheck
  refine ⟨hinv.enabled, fun _ => hplace, fun j hj => ?_⟩
  obtain ⟨rfl, hstep⟩ := Prod.mk.inj (Option.some.inj hj)
  obtain ⟨hpc, hinside⟩ := select_spec hstep (interrupt_hint hstep hok) heq
  rw [hstep] at hcheck
  exact ⟨hpc, Bool.eq_false_iff.mpr fun hc => hcheck (by rw [hc]; rfl), hinside⟩

theorem book_invalidatePage {page : Nat} (h : l.invalidatePage page = some l') : book l' = book l := by
  obtain ⟨s, -, rfl⟩ := Option.map_eq_some_iff.mp h
  rfl

/-- A loop over pages keeps what each of its steps keeps. -/
theorem book_foldlM {f : Loop → Nat → Option Loop} (hf : ∀ l page l', f l page = some l' → book l' = book l)
    (pages : List Nat) (h : pages.foldlM f l = some l') : book l' = book l := by
  induction pages generalizing l with
  | nil =>
    cases h
    rfl
  | cons page pages ih =>
    rw [List.foldlM_cons] at h
    obtain ⟨l1, hfirst, hrest⟩ := Option.bind_eq_some_iff.mp h
    exact (ih hrest).trans (hf l page l1 hfirst)

theorem book_invalidateDirty {pages : List Nat} (h : l.invalidateDirty pages = some l') : book l' = book l := by
  unfold Loop.invalidateDirty at h
  split at h
  · cases h
    rfl
  obtain ⟨l1, hfold, rfl⟩ := Option.map_eq_some_iff.mp h
  have hpages : book l1 = book l := by
    refine book_foldlM (fun l page l' hstep => ?_) pages hfold
    split at hstep
    · exact book_invalidatePage hstep
    · cases hstep
      rfl
  exact hpages

theorem book_finish (l : Loop) (stepping : Bool) (x : After) : book (l.finish stepping x) = book l := by
  unfold Loop.finish
  split
  · rfl
  · split <;> split <;> rfl

theorem book_notFound (l : Loop) (fault : Option Place) : book (l.notFound fault) = book l := by
  unfold Loop.notFound
  split <;> rfl

theorem book_exitSlot (l : Loop) (stepping : Bool) (src : Nat) (n : Slot) (x : After) :
    book (l.exitSlot stepping src n x) = book l := by
  have hfind := book_find l x.curPhys x.work
  unfold Loop.exitSlot
  split
  · rfl
  split
  · rfl
  · split <;> rename_i heq <;> rw [heq] at hfind
    · exact (book_notFound _ _).trans hfind
    · exact (book_finish _ _ _).trans hfind

theorem book_exitNoChain (l : Loop) (stepping : Bool) (src : Nat) (x : After) :
    book (l.exitNoChain stepping src x) = book l := by
  have hfind := book_find l x.curPhys x.work
  unfold Loop.exitNoChain
  split
  · rfl
  split
  · rfl
  · split
    · split
      · rfl
      · split
        · rfl
        · split <;> rfl
    · split <;> rename_i heq <;> rw [heq] at hfind
      · exact (book_notFound _ _).trans hfind
      · exact (book_finish _ _ _).trans hfind

theorem book_exitArch {stepping : Bool} {action : ArchExitAction} {x : After}
    (h : l.exitArch stepping action x = some l') : book l' = book l := by
  unfold Loop.exitArch at h
  split at h
  · cases h
    exact book_finish _ _ _
  · cases h
    exact book_finish _ _ _
  · cases h
    exact book_finish _ _ _
  · obtain ⟨l1, hfold, rfl⟩ := Option.map_eq_some_iff.mp h
    have hpages : book l1 = book l := book_foldlM (fun _ _ _ => book_invalidatePage) _ hfold
    exact (book_finish _ _ _).trans hpages
  · cases h
    rw [book_finish]
    split <;> rfl
  · cases h
    rfl

/-- Leaving generated code does not touch the tables. -/
theorem book_leave {stepping : Bool} {src : Nat} {x : After} (h : l.leave stepping src x = some l') :
    book l' = book l := by
  have hbook {l1 : Loop} (hdirty : (l.goto x.place).invalidateDirty x.dirty = some l1) : book l1 = book l :=
    (book_invalidateDirty hdirty).trans rfl
  unfold Loop.leave at h
  split at h
  · cases h
    rfl
  · obtain ⟨l1, hdirty, rfl⟩ := Option.map_eq_some_iff.mp h
    exact (book_exitSlot _ _ _ _ _).trans (hbook hdirty)
  · obtain ⟨l1, hdirty, rfl⟩ := Option.map_eq_some_iff.mp h
    exact (book_exitNoChain _ _ _ _).trans (hbook hdirty)
  · obtain ⟨l1, hdirty, harch⟩ := Option.bind_eq_some_iff.mp h
    have hdirty' : book l1 = book l := hbook hdirty
    exact (book_exitArch harch).trans hdirty'
  obtain ⟨l1, hdirty, rfl⟩ := Option.map_eq_some_iff.mp h
  have hdirty' : book l1 = book l := hbook hdirty
  exact (book_finish _ _ _).trans hdirty'

theorem inv_insert (h : Inv l) (p : StopPoint) (hok : Careful l (.insert p)) :
    ∀ q ∈ p :: l.inserted.filter (· ≠ p), (l.gdb.insert p).Enabled q := by
  intro q hq
  rcases List.mem_cons.mp hq with rfl | hq
  · exact enabled_insert_self _ _
  · obtain ⟨hin, hne⟩ := List.mem_filter.mp hq
    exact enabled_insert (hok q hin (of_decide_eq_true hne)) (h.enabled q hin)

theorem inv_remove (h : Inv l) (p : StopPoint) (hok : Careful l (.remove p)) :
    ∀ q ∈ l.inserted.filter (· ≠ p), (l.gdb.remove p).Enabled q := by
  intro q hq
  obtain ⟨hin, hne⟩ := List.mem_filter.mp hq
  exact enabled_remove (of_decide_eq_true hne) (hok q hin (of_decide_eq_true hne)) (h.enabled q hin)

/-- Which stop points the tables hold does not depend on the connection. -/
theorem enabled_connect {g : GdbStops} {on : Bool} {p : StopPoint} (h : g.Enabled p) :
    ({ g with connected := on } : GdbStops).Enabled p := by
  cases p <;> exact h

theorem inv_step {ev : Event} (hok : Careful l ev) (hstep : step l ev = some l') (h : Inv l) : Inv l' := by
  have hparked (hp : ¬ l.parked = .no) : l.running = none := by
    by_contra hr
    exact hp (h.parked hr)
  cases ev with
  | dispatch t =>
    obtain ⟨⟨hp, hr⟩, heq⟩ := Option.ite_none_right_eq_some.mp hstep
    cases heq
    exact inv_dispatch hok hp hr h
  | execute visits x =>
    simp only [step] at hstep
    split at hstep
    · obtain ⟨src, -, hleave⟩ := Option.bind_eq_some_iff.mp hstep
      have hinv : Inv { l with running := none } := ⟨h.enabled, fun hr => absurd rfl hr, fun i hi => nomatch hi⟩
      exact hinv.of_book rfl (book_leave hleave)
    · cases hstep
  | insert p =>
    obtain ⟨hp, heq⟩ := Option.ite_none_left_eq_some.mp hstep
    cases heq
    exact ⟨inv_insert h p hok, fun hr => absurd (hparked hp) hr, fun i hi => nomatch (hparked hp).symm.trans hi⟩
  | remove p =>
    obtain ⟨hp, heq⟩ := Option.ite_none_left_eq_some.mp hstep
    cases heq
    exact ⟨inv_remove h p hok, fun hr => absurd (hparked hp) hr, fun i hi => nomatch (hparked hp).symm.trans hi⟩
  | writePc p =>
    obtain ⟨hp, heq⟩ := Option.ite_none_right_eq_some.mp hstep
    cases heq
    have hr : l.running = none := hparked (by rw [hp]; decide)
    exact h.of_book hr rfl
  | resume =>
    cases hstep
    exact ⟨h.enabled, fun _ => rfl, fun i hi => ⟨(h.checked i hi).pc, (h.checked i hi).here, (h.checked i hi).inside⟩⟩
  | connect on =>
    cases hstep
    have hnone : l.running = none := hok
    refine ⟨fun p hp => enabled_connect (h.enabled p hp), h.parked, fun i hi => ?_⟩
    rw [show l.running = _ from hi] at hnone
    cases hnone
  | other e =>
    obtain ⟨engine, -, rfl⟩ := Option.map_eq_some_iff.mp hstep
    exact h.of_book hok rfl

/-- Every instruction of a checked block passes, if the block does not reach the end of the address space. -/
theorem Checked.executes (h : Checked l i) (henabled : ∀ p ∈ l.inserted, l.gdb.Enabled p)
    (hconn : l.gdb.connected = true)
    (hend : (l.engine.store.tbs i).pc.toNat + (l.engine.store.tbs i).size < 2 ^ 64) {insns : List (BitVec 64)}
    (hex : Executes (l.engine.store.tbs i) insns) {a : BitVec 64} (ha : a ∈ insns) : ¬ Loop.breaksAt l a := by
  intro hbreak
  have hen : l.gdb.Enabled (.breakpoint a) ∨ l.gdb.Enabled (.hwBreakpoint a) :=
    hbreak.imp (henabled _) (henabled _)
  obtain ⟨hlen, hspan, hhead⟩ := hex
  have hfirst (hpc : a = (l.engine.store.tbs i).pc) : False := by
    have hcheck := checks_of_enabled hconn hen
    rw [hpc, h.pc, h.here] at hcheck
    cases hcheck
  rcases h.inside with hone | hin
  · rw [hone] at hlen
    cases insns with
    | nil => cases ha
    | cons b rest =>
      have hrest : rest = [] := List.eq_nil_of_length_eq_zero (by simpa using hlen)
      subst hrest
      cases List.mem_singleton.mp ha
      exact hfirst (Option.some.inj (hhead.resolve_left (List.cons_ne_nil _ _)))
  · by_cases hpc : a = (l.engine.store.tbs i).pc
    · exact hfirst hpc
    · have hcheck := inTb_of_enabled hconn hend (hspan a ha) hpc hen
      rw [hin] at hcheck
      cases hcheck

/-- Every block that generated code visits is the one that was entered, or lies behind patched jumps. -/
theorem follow_visits {visits : List Visit} {src : Nat} (h : follow s i visits = some src) {v : Visit}
    (hv : v ∈ visits) : ∃ j, Relation.ReflTransGen (jumps s) i j ∧ Executes (s.tbs j) v.insns := by
  induction visits generalizing i with
  | nil => cases hv
  | cons w rest ih =>
    cases rest with
    | nil =>
      obtain ⟨hex, -⟩ := Option.ite_none_right_eq_some.mp h
      rw [List.mem_singleton.mp hv]
      exact ⟨i, .refl, hex⟩
    | cons u us =>
      obtain ⟨hex, hrest⟩ := Option.ite_none_right_eq_some.mp h
      rcases List.mem_cons.mp hv with rfl | hv
      · exact ⟨i, .refl, hex⟩
      split at hrest
      · rename_i j hjump
        obtain ⟨k, hreach, hk⟩ := ih hrest hv
        exact ⟨k, .head ⟨w.slot, hjump⟩ hreach, hk⟩
      · cases hrest

/-- In every run that meets the conditions, from any store of blocks and without stop points: the tables hold every
inserted stop point, and whenever a CPU with a debugger connected is continued, generated code executes no instruction
at an inserted breakpoint and makes no access that an inserted watchpoint minds. -/
theorem stop_points_stop {l₀ l : Loop} {es : List Event} (hins : l₀.inserted = []) (hidle : l₀.running = none)
    (hrun : Run (guarded Careful (ofOption step)) l₀ es l) : (∀ p ∈ l.inserted, l.gdb.Enabled p) ∧
      ∀ i visits x l', l.running = some (i, false) → l.gdb.connected = true → Careful l (.execute visits x) →
        step l (.execute visits x) = some l' → ∀ v ∈ visits,
          (∀ a ∈ v.insns, .breakpoint a ∉ l.inserted ∧ .hwBreakpoint a ∉ l.inserted) ∧
          ∀ acc ∈ v.accesses, ∀ w, .watchpoint w ∈ l.inserted → ¬ w.Meets acc.addr acc.size acc.isWrite := by
  have hstart : Inv l₀ := by
    refine ⟨?_, fun hr => absurd hidle hr, fun i hi => ?_⟩
    · rw [hins]
      exact fun p hp => nomatch hp
    · rw [hidle] at hi
      cases hi
  have hinv : Inv l := hrun.invariant (I := Inv) (fun _ _ _ hs => inv_step hs.1 hs.2) hstart
  refine ⟨hinv.enabled, fun i visits x l' hrunning hconn hok hstep v hv => ?_⟩
  obtain ⟨hwatch, hend, hchain⟩ := hok i hrunning
  simp only [step, hrunning] at hstep
  obtain ⟨src, hfollow, -⟩ := Option.bind_eq_some_iff.mp hstep
  obtain ⟨j, hreach, hex⟩ := follow_visits hfollow hv
  refine ⟨fun a ha => not_or.mp ?_, fun acc _ w hw => absurd hw (hwatch w)⟩
  rcases Relation.reflTransGen_iff_eq_or_transGen.mp hreach with rfl | hreach
  · exact (hinv.checked j hrunning).executes hinv.enabled hconn hend hex ha
  · exact fun hbreak => hchain j hreach a hbreak (hex.2.1 a ha)

variable (pc : BitVec 64)

/-- A debugger has attached to a CPU that is about to start at the given pc. -/
def attached : Loop := ⟨MachinaTbPages.start, pc, 0#32, none, none, { connected := true }, .paused, []⟩

/-- The translation of a block of one instruction. -/
def oneBlock : Work := ⟨true, some pc, [], .done ⟨4, pc, [pc >>> 12]⟩ fun _ => true⟩

def turnAt : Turn := ⟨false, none, some pc, oneBlock pc, oneBlock pc, none⟩

def visitAt : Visit := ⟨[pc], [], 0⟩

/-- Generated code leaves through slot 0 to the given pc. -/
def leaveTo (pause : Bool) : After :=
  ⟨(pc, 0#32), .slot 0, [], none, false, some pc, oneBlock pc, none, none, false, none, none, pause⟩

/-- The debugger inserts a breakpoint and continues. -/
def breakAt : List Event := [.insert (.breakpoint pc), .resume]

/-- Two blocks jump to each other, and the CPU is paused before the first. -/
def pingPong : List Event :=
  [.resume, .dispatch (turnAt 0x80000000#64), .execute [visitAt 0x80000000#64] (leaveTo 0x80000100#64 false),
    .dispatch (turnAt 0x80000100#64), .execute [visitAt 0x80000100#64] (leaveTo 0x80000000#64 true)]

/-- The first block is about to run, with a breakpoint at the second pc. -/
def beforeFirst : Loop :=
  Loop.dispatch { attached 0x80000000#64 with
    gdb := (attached 0x80000000#64).gdb.insert (.breakpoint 0x80000100#64), parked := .no
    inserted := [.breakpoint 0x80000100#64] } (turnAt 0x80000000#64)

theorem stop_points_stop_fresh : Run (guarded Careful (ofOption step)) (attached 0x80000000#64)
        (breakAt 0x80000100#64 ++ [.dispatch (turnAt 0x80000000#64)]) beforeFirst ∧
      (step beforeFirst (.execute [visitAt 0x80000000#64] (leaveTo 0x80000100#64 false))).isSome = true ∧
      .breakpoint 0x80000100#64 ∈ beforeFirst.inserted ∧ .breakpoint 0x80000000#64 ∉ beforeFirst.inserted := by
  have hrun : Run (guarded Careful (ofOption step)) (attached 0x80000000#64)
      (breakAt 0x80000100#64 ++ [.dispatch (turnAt 0x80000000#64)]) beforeFirst :=
    .cons ⟨(fun q hq => nomatch hq), rfl⟩
      (.cons ⟨trivial, rfl⟩ (.cons ⟨(fun _ _ i (hi : none = some i) => nomatch hi), rfl⟩ (.nil _)))
  have hsome : (step beforeFirst (.execute [visitAt 0x80000000#64] (leaveTo 0x80000100#64 false))).isSome = true := by
    decide +kernel
  have hrunning : beforeFirst.running = some (0, false) := by decide +kernel
  have hjump : ∀ slot, (beforeFirst.engine.store.tbs 0).jump slot = none := by decide +kernel
  have hins : beforeFirst.inserted = [.breakpoint 0x80000100#64] := by decide +kernel
  have hok : Careful beforeFirst (.execute [visitAt 0x80000000#64] (leaveTo 0x80000100#64 false)) := by
    intro i hi
    cases hrunning.symm.trans hi
    refine ⟨fun w hw => ?_, by decide +kernel, fun j hj => ?_⟩
    · rw [hins] at hw
      cases List.mem_singleton.mp hw
    · obtain ⟨k, ⟨slot, hslot⟩, -⟩ := Relation.TransGen.head'_iff.mp hj
      cases (hjump slot).symm.trans hslot
  obtain ⟨l', hl'⟩ := Option.isSome_iff_exists.mp hsome
  have hstop := (stop_points_stop rfl rfl hrun).2 0 _ _ l' hrunning (by decide +kernel) hok hl' _ List.mem_cons_self
  exact ⟨hrun, hsome, by rw [hins]; exact List.mem_cons_self, (hstop.1 _ List.mem_cons_self).1⟩

/-- The run in which the breakpoint comes after the jump to its block has been patched. -/
def breakLate : List Event := pingPong ++ breakAt 0x80000100#64 ++ [.dispatch (turnAt 0x80000000#64)]

/-- A breakpoint at a block that was chained before is executed without a stop. -/
theorem chained_breakpoint_is_missed : ∃ l l', Run (ofOption step) (attached 0x80000000#64) breakLate l ∧
      l.running = some (0, false) ∧ l.gdb.connected = true ∧ .breakpoint 0x80000100#64 ∈ l.inserted ∧
      step l (.execute [visitAt 0x80000000#64, visitAt 0x80000100#64] (leaveTo 0x80000000#64 false)) = some l' ∧
      0x80000100#64 ∈ (visitAt 0x80000100#64).insns := by
  have hrun : (breakLate.foldlM step (attached 0x80000000#64)).any (fun l =>
      decide (l.running = some (0, false)) && l.gdb.connected && decide (.breakpoint 0x80000100#64 ∈ l.inserted) &&
        (step l (.execute [visitAt 0x80000000#64, visitAt 0x80000100#64] (leaveTo 0x80000000#64 false))).isSome) =
      true := by decide +kernel
  obtain ⟨l, hl, hp⟩ := (Option.any_eq_true _ _).mp hrun
  simp only [Bool.and_eq_true, decide_eq_true_eq] at hp
  obtain ⟨⟨⟨hrunning, hconn⟩, hins⟩, hstep⟩ := hp
  obtain ⟨l', hl'⟩ := Option.isSome_iff_exists.mp hstep
  exact ⟨l, l', .of_foldlM hl, hrunning, hconn, hins, hl', List.mem_cons_self⟩

end MachinaBreakpoints
