import Machina.Fold
import Machina.Regalloc

/-!
# The moves of call arguments

The arguments of a call that are in registers go to fixed registers at once. The
allocator emits the moves whose target no open move reads, one after another, and
then breaks what is left with R11. What is left is a permutation; each of its cycles
of two registers is swapped correctly, and each longer one is not.
-/

namespace MachinaCallMoves

open MachinaIr MachinaIrSem MachinaFold MachinaRegalloc
open List (mem_cons_self mem_cons_of_mem mem_append mem_cons length_cons nil_append map_cons map_append
  mem_of_mem_erase mem_erase_of_ne)

variable {a b code moves : List RegMove} {i : Nat} {r : Reg} {regs : Reg → BitVec 64} {m n : RegMove}

section Execution

section

variable (regs : Reg → BitVec 64)

/-- The effect of a register move; a move to the same register emits nothing. -/
def execHost : HostOp → Reg → BitVec 64
  | .mov ty dst src => if dst = src then regs else Function.update regs dst ((low ty (regs src)).setWidth 64)
  | _ => regs

def runHost (code : List HostOp) : Reg → BitVec 64 := code.foldl execHost regs

@[simp] theorem runHost_nil : runHost regs [] = regs := rfl

@[simp] theorem runHost_cons (h : HostOp) (code : List HostOp) :
    runHost regs (h :: code) = runHost (execHost regs h) code := rfl

theorem runHost_append (code code' : List HostOp) :
    runHost regs (code ++ code') = runHost (runHost regs code) code' := List.foldl_append

def moveCode (m : RegMove) : HostOp := .mov m.ty m.dst m.src

theorem exec_other (m : RegMove) (h : r ≠ m.dst) : execHost regs (moveCode m) r = regs r := by
  unfold execHost moveCode
  dsimp only
  split_ifs
  · rfl
  · exact Function.update_of_ne h _ _

theorem low_exec_dst (m : RegMove) : low m.ty (execHost regs (moveCode m) m.dst) = low m.ty (regs m.src) := by
  unfold execHost moveCode
  dsimp only
  split_ifs with h
  · rw [h]
  · rw [Function.update_self, low_setWidth]

end

/-- Code that only writes the given registers. -/
theorem run_other {code : List HostOp}
    (h : ∀ c ∈ code, ∃ m : RegMove, c = (moveCode m) ∧ m.dst ≠ r) : runHost regs code r = regs r := by
  induction code generalizing regs with
  | nil => rfl
  | cons c code ih =>
    obtain ⟨m, rfl, hne⟩ := h c (mem_cons_self ..)
    rw [runHost_cons, ih fun c' hc' => h c' (mem_cons_of_mem _ hc'), exec_other regs m (Ne.symm hne)]

end Execution

section Order

/-- Moves emitted one after another, each when no open move reads its target. -/
inductive Emits : List RegMove → List RegMove → List RegMove → Prop
  | refl (open' : List RegMove) : Emits open' [] open'
  | step {before rest code open' : List RegMove} {m : RegMove} : (∀ n ∈ before ++ rest, n.src ≠ m.dst) →
      Emits (before ++ rest) code open' → Emits (before ++ m :: rest) (m :: code) open'

theorem Emits.trans {c code' : List RegMove} (h : Emits a code b) (h' : Emits b code' c) :
    Emits a (code ++ code') c := by
  induction h with
  | refl => exact h'
  | step hfree _ ih => exact .step hfree (ih h')

theorem Emits.sublist (h : Emits a code b) : b.Sublist a := by
  induction h with
  | refl => exact .refl _
  | step _ _ ih => exact ih.trans ((List.Sublist.refl _).append (List.sublist_cons_self ..))

/-- One sweep emits moves in such an order; if it emits none, every move is blocked. -/
theorem sweepMoves_emits (before rest : List RegMove) : ∃ code, (sweepMoves before rest).1 = code.map moveCode ∧
      Emits (before ++ rest) code (before ++ (sweepMoves before rest).2) ∧
      (code = [] → ∀ m ∈ rest, ∃ n ∈ before ++ rest, n.src = m.dst) := by
  induction rest generalizing before with
  | nil => exact ⟨[], rfl, .refl _, fun _ m hm => nomatch hm⟩
  | cons m rest ih =>
    rw [sweepMoves]
    by_cases hblocked : (before ++ rest).any (fun other => decide (other.src = m.dst)) = true
    · obtain ⟨code, hcode, hemits, hstuck⟩ := ih (before ++ [m])
      rw [if_pos hblocked]
      refine ⟨code, hcode, by simpa using hemits, fun hnil n hn => ?_⟩
      obtain ⟨other, hother, hsrc⟩ := List.any_eq_true.mp hblocked
      rcases List.mem_cons.mp hn with rfl | hn
      · refine ⟨other, ?_, by simpa using hsrc⟩
        simp only [mem_append, mem_cons] at hother ⊢
        exact hother.imp_right .inr
      · simpa using hstuck hnil n hn
    · obtain ⟨code, hcode, hemits, -⟩ := ih before
      rw [if_neg hblocked]
      refine ⟨m :: code, by simp [hcode, moveCode], .step ?_ hemits, fun h => nomatch h⟩
      intro n hn hsrc
      exact hblocked (List.any_eq_true.mpr ⟨n, hn, by simpa using hsrc⟩)

theorem Emits.length (h : Emits a code b) : a.length = code.length + b.length := by
  induction h with
  | refl => simp
  | step _ _ ih =>
    simp only [List.length_append, length_cons] at ih ⊢
    omega

/-- The sweeps end when every open move is blocked. -/
theorem orderMoves_emits (fuel : Nat) (moves : List RegMove) (hfuel : moves.length ≤ fuel) :
    ∃ code, (orderMoves fuel moves).1 = code.map moveCode ∧ Emits moves code (orderMoves fuel moves).2 ∧
      ∀ m ∈ (orderMoves fuel moves).2, ∃ n ∈ (orderMoves fuel moves).2, n.src = m.dst := by
  induction fuel generalizing moves with
  | zero =>
    obtain rfl : moves = [] := List.length_eq_zero_iff.mp (Nat.le_zero.mp hfuel)
    exact ⟨[], rfl, .refl _, fun m hm => nomatch hm⟩
  | succ fuel ih =>
    obtain ⟨code, hcode, hemits, hstuck⟩ := sweepMoves_emits [] moves
    have hlen := hemits.length
    rw [nil_append, nil_append] at hemits hlen
    rw [orderMoves]
    dsimp only
    rw [hcode]
    cases code with
    | nil =>
      have hsame : (sweepMoves [] moves).2 = moves := hemits.sublist.eq_of_length (by simpa using hlen.symm)
      rw [hsame]
      exact ⟨[], rfl, .refl _, fun m hm => hstuck rfl m hm⟩
    | cons m code =>
      rw [length_cons] at hlen
      obtain ⟨code', hcode', hemits', hstuck'⟩ := ih (sweepMoves [] moves).2 (by omega)
      rw [map_cons, List.isEmpty_cons, if_neg Bool.false_ne_true]
      exact ⟨m :: code ++ code', by simp [hcode'], hemits.trans hemits', hstuck'⟩

theorem Emits.values (h : Emits a code b) (hdst : (a.map RegMove.dst).Nodup) (regs : Reg → BitVec 64) :
    (∀ m ∈ b, runHost regs (code.map moveCode) m.src = regs m.src) ∧
    (∀ m ∈ a, m ∈ b ∨ low m.ty (runHost regs (code.map moveCode) m.dst) = low m.ty (regs m.src)) ∧
    (∀ r, (∀ m ∈ a, m.dst ≠ r) → runHost regs (code.map moveCode) r = regs r) := by
  induction h generalizing regs with
  | refl => exact ⟨fun _ _ => rfl, fun m hm => .inl hm, fun _ _ => rfl⟩
  | @step before rest code b m hfree hrest ih =>
    rw [map_append, map_cons, List.nodup_middle, List.nodup_cons, ← map_append] at hdst
    obtain ⟨hkeep, hdone, hother⟩ := ih hdst.2 (execHost regs (moveCode m))
    have hsrc (n : RegMove) (hn : n ∈ before ++ rest) : execHost regs (moveCode m) n.src = regs n.src :=
      exec_other regs m (hfree n hn)
    rw [map_cons, runHost_cons]
    refine ⟨?_, ?_, ?_⟩
    · intro n hn
      rw [hkeep n hn, hsrc n (hrest.sublist.subset hn)]
    · intro n hn
      rcases List.mem_append.mp hn with hn | hn
      · rw [← hsrc n (List.mem_append_left _ hn)]
        exact hdone n (List.mem_append_left _ hn)
      rcases List.mem_cons.mp hn with rfl | hn
      · right
        rw [hother n.dst, low_exec_dst]
        exact fun n' hn' heq => hdst.1 (heq ▸ List.mem_map_of_mem hn')
      · rw [← hsrc n (List.mem_append_right _ hn)]
        exact hdone n (List.mem_append_right _ hn)
    · intro r hr
      rw [hother r, exec_other regs m]
      · exact fun heq => hr m (by simp) heq.symm
      intro n hn
      apply hr n
      simp only [mem_append, mem_cons] at hn ⊢
      exact hn.imp_right .inr

end Order

section Cycles

/-- Some move reads register `a` and writes register `b`. -/
def Feeds (moves : List RegMove) (a b : Reg) : Prop := ∃ m ∈ moves, m.src = a ∧ m.dst = b

/-- Every cycle of moves swaps two registers. -/
def SwapsOnly (feeds : Reg → Reg → Prop) : Prop := ∀ r, Relation.TransGen feeds r r → ∃ s, feeds r s ∧ feeds s r

/-- Moves that permute some registers other than the scratch register. -/
structure Permutes (moves : List RegMove) : Prop where
  dst : (moves.map RegMove.dst).Nodup
  src : (moves.map RegMove.src).Nodup
  closed : ∀ m ∈ moves, ∃ n ∈ moves, n.src = m.dst
  origin : ∀ m ∈ moves, ∃ n ∈ moves, n.dst = m.src
  self : ∀ m ∈ moves, m.src ≠ m.dst
  scratch : ∀ m ∈ moves, m.dst ≠ 11

theorem eq_of_dst (h : (moves.map RegMove.dst).Nodup) (hm : m ∈ moves)
    (hn : n ∈ moves) (heq : m.dst = n.dst) : m = n := List.inj_on_of_nodup_map h hm hn heq

theorem eq_of_src (h : (moves.map RegMove.src).Nodup) (hm : m ∈ moves)
    (hn : n ∈ moves) (heq : m.src = n.src) : m = n := List.inj_on_of_nodup_map h hm hn heq

/-- Blocked moves with different targets permute their registers. -/
theorem permutes_of_blocked (hdst : (moves.map RegMove.dst).Nodup)
    (hblocked : ∀ m ∈ moves, ∃ n ∈ moves, n.src = m.dst) (hself : ∀ m ∈ moves, m.src ≠ m.dst)
    (hscratch : ∀ m ∈ moves, m.dst ≠ 11) : Permutes moves := by
  have hsub : moves.map RegMove.dst ⊆ moves.map RegMove.src := by
    intro r hr
    obtain ⟨m, hm, rfl⟩ := List.mem_map.mp hr
    obtain ⟨n, hn, hsrc⟩ := hblocked m hm
    exact List.mem_map.mpr ⟨n, hn, hsrc⟩
  have hperm : (moves.map RegMove.dst).Perm (moves.map RegMove.src) :=
    (hdst.subperm hsub).perm_of_length_le (by simp)
  refine ⟨hdst, hperm.nodup_iff.mp hdst, hblocked, ?_, hself, hscratch⟩
  intro m hm
  exact List.mem_map.mp (hperm.mem_iff.mpr (List.mem_map_of_mem hm))

theorem Permutes.cycle (h : Permutes moves) (hm : m ∈ moves) : Relation.TransGen (Feeds moves) m.src m.src := by
  have hnext (r : { r // r ∈ moves.map RegMove.src }) :
      ∃ s : { r // r ∈ moves.map RegMove.src }, Feeds moves r s := by
    obtain ⟨n, hn, hsrc⟩ := List.mem_map.mp r.2
    obtain ⟨n', hn', hsrc'⟩ := h.closed n hn
    exact ⟨⟨n.dst, List.mem_map.mpr ⟨n', hn', hsrc'⟩⟩, n, hn, hsrc, rfl⟩
  choose next hfeeds using hnext
  have hinj : Function.Injective next := by
    intro r s heq
    obtain ⟨n, hn, hsrc, hdst⟩ := hfeeds r
    obtain ⟨n', hn', hsrc', hdst'⟩ := hfeeds s
    have hsame := eq_of_dst h.dst hn hn' (by rw [hdst, hdst', heq])
    exact Subtype.ext (by rw [← hsrc, ← hsrc', hsame])
  have hiter (r : { r // r ∈ moves.map RegMove.src }) (k : Nat) :
      Relation.TransGen (Feeds moves) r (next^[k + 1] r) := by
    induction k with
    | zero => exact .single (hfeeds r)
    | succ k ih =>
      rw [Function.iterate_succ_apply']
      exact ih.tail (hfeeds _)
  let start : { r // r ∈ moves.map RegMove.src } := ⟨m.src, List.mem_map_of_mem hm⟩
  obtain ⟨k, hk, hper⟩ := hinj.mem_periodicPts start
  have hcycle := hiter start (k - 1)
  rw [Nat.sub_add_cancel hk, hper] at hcycle
  exact hcycle

/-- Moves on a cycle are never emitted in order. -/
theorem Emits.keeps (h : Emits a code b) {C : RegMove → Prop} (hin : ∀ m, C m → m ∈ a)
    (hnext : ∀ m, C m → ∃ n, C n ∧ n.src = m.dst) (hself : ∀ m, C m → m.src ≠ m.dst) : ∀ m, C m → m ∈ b := by
  induction h with
  | refl => exact hin
  | @step before rest code b m hfree _ ih =>
    apply ih
    have hnot : ¬C m := by
      intro hm
      obtain ⟨n, hn, hsrc⟩ := hnext m hm
      have hmem := hin n hn
      simp only [mem_append, mem_cons] at hmem
      rcases hmem with hmem | rfl | hmem
      · exact hfree n (List.mem_append_left _ hmem) hsrc
      · exact hself n hn hsrc
      · exact hfree n (List.mem_append_right _ hmem) hsrc
    intro n hn
    have hmem := hin n hn
    simp only [mem_append, mem_cons] at hmem ⊢
    rcases hmem with hmem | rfl | hmem
    · exact .inl hmem
    · exact absurd hn hnot
    · exact .inr hmem

theorem Feeds.mono (h : b.Sublist a) {s : Reg} (hf : Feeds b r s) : Feeds a r s := by
  obtain ⟨m, hm, heq⟩ := hf
  exact ⟨m, h.subset hm, heq⟩

/-- The partner of a move swaps its registers. -/
def HasPartner (moves : List RegMove) (m : RegMove) : Prop := ∃ n ∈ moves, n.src = m.dst ∧ n.dst = m.src

/-- All cycles are swaps exactly when every move that is left has a partner. -/
theorem swapsOnly_iff {rest : List RegMove} (h : Emits moves code rest) (hperm : Permutes rest)
    (hdst : (moves.map RegMove.dst).Nodup) (hself : ∀ m ∈ moves, m.src ≠ m.dst) :
    SwapsOnly (Feeds moves) ↔ ∀ m ∈ rest, HasPartner rest m := by
  constructor
  · intro hswaps m hm
    have hcycle : Relation.TransGen (Feeds moves) m.src m.src :=
      (hperm.cycle hm).lift id fun _ _ => Feeds.mono h.sublist
    obtain ⟨s, ⟨p, hp, hpsrc, hpdst⟩, q, hq, hqsrc, hqdst⟩ := hswaps _ hcycle
    obtain ⟨n, hn, hndst⟩ := hperm.origin m hm
    obtain rfl := eq_of_dst hdst hq (h.sublist.subset hn) (by rw [hqdst, hndst])
    obtain ⟨p', hp', hpdst'⟩ := hperm.origin q hn
    obtain rfl := eq_of_dst hdst hp (h.sublist.subset hp') (by rw [hpdst, hpdst', hqsrc])
    obtain rfl := eq_of_src hperm.src hp' hm hpsrc
    exact ⟨q, hn, by rw [hqsrc, hpdst], hndst⟩
  · intro hpartner r hcycle
    have hkeeps := h.keeps (C := fun m => m ∈ moves ∧ Relation.TransGen (Feeds moves) m.dst m.dst) (fun m hm => hm.1)
      (fun m hm => by
        obtain ⟨s, ⟨n, hn, hsrc, rfl⟩, hback⟩ := Relation.TransGen.head'_iff.mp hm.2
        exact ⟨n, ⟨hn, Relation.TransGen.tail' hback ⟨n, hn, hsrc, rfl⟩⟩, hsrc⟩)
      (fun m hm => hself m hm.1)
    obtain ⟨s, ⟨m, hm, hsrc, rfl⟩, hback⟩ := Relation.TransGen.head'_iff.mp hcycle
    have hrest := hkeeps m ⟨hm, Relation.TransGen.tail' hback ⟨m, hm, hsrc, rfl⟩⟩
    obtain ⟨n, hn, hnsrc, hndst⟩ := hpartner m hrest
    exact ⟨m.dst, ⟨m, hm, hsrc, rfl⟩, n, h.sublist.subset hn, hnsrc, by rw [hndst, hsrc]⟩

end Cycles

section Breaking

theorem find_src (h : (moves.map RegMove.src).Nodup) (hn : n ∈ moves) :
    moves.find? (fun m => decide (m.src = n.src)) = some n := by
  cases hfind : moves.find? (fun m => decide (m.src = n.src)) with
  | none =>
    have hnone := List.find?_eq_none.mp hfind n hn
    simp at hnone
  | some m =>
    have hsrc : m.src = n.src := by simpa using List.find?_some hfind
    rw [eq_of_src h (List.mem_of_find?_eq_some hfind) hn hsrc]

theorem followCycle_of_none {cur : Reg} (h : ∀ m ∈ moves, m.src ≠ cur) (fuel : Nat) :
    followCycle fuel cur moves = ([], moves) := by
  cases fuel with
  | zero => rfl
  | succ fuel =>
    have hfind : moves.find? (fun m => decide (m.src = cur)) = none :=
      List.find?_eq_none.mpr fun m hm => by simpa using h m hm
    rw [followCycle, hfind]

theorem followCycle_of_some {cur : Reg} (h : moves.find? (fun m => decide (m.src = cur)) = some n) (fuel : Nat) :
    followCycle (fuel + 1) cur moves =
      (moveCode n :: (followCycle fuel n.dst (moves.erase n)).1, (followCycle fuel n.dst (moves.erase n)).2) := by
  rw [followCycle, h]
  rfl

/-- Following a cycle writes targets of open moves only. -/
theorem followCycle_writes (fuel : Nat) (cur : Reg) (moves : List RegMove) :
    (∀ c ∈ (followCycle fuel cur moves).1, ∃ m ∈ moves, c = moveCode m) ∧
      (followCycle fuel cur moves).2.Sublist moves := by
  induction fuel generalizing cur moves with
  | zero => exact ⟨fun c hc => (nomatch hc), .refl _⟩
  | succ fuel ih =>
    cases hfind : moves.find? (fun m => decide (m.src = cur)) with
    | none =>
      rw [followCycle, hfind]
      exact ⟨fun c hc => (nomatch hc), .refl _⟩
    | some n =>
      rw [followCycle_of_some hfind]
      obtain ⟨hcode, hsub⟩ := ih n.dst (moves.erase n)
      refine ⟨?_, hsub.trans List.erase_sublist⟩
      intro c hc
      rcases List.mem_cons.mp hc with rfl | hc
      · exact ⟨n, List.mem_of_find?_eq_some hfind, rfl⟩
      · obtain ⟨m, hm, rfl⟩ := hcode c hc
        exact ⟨m, mem_of_mem_erase hm, rfl⟩

/-- Breaking cycles writes R11 and targets of open moves only. -/
theorem breakCycles_writes (fuel : Nat) (moves : List RegMove) :
    ∀ c ∈ breakCycles fuel moves, ∃ m : RegMove, c = moveCode m ∧ (m.dst = 11 ∨ ∃ n ∈ moves, n.dst = m.dst) := by
  induction fuel generalizing moves with
  | zero => exact fun c hc => nomatch hc
  | succ fuel ih =>
    cases moves with
    | nil => exact fun c hc => nomatch hc
    | cons m rest =>
      obtain ⟨hcode, hsub⟩ := followCycle_writes (rest.length + 1) m.dst (m :: rest)
      intro c hc
      rw [breakCycles] at hc
      simp only [mem_append, mem_cons, List.not_mem_nil, or_false] at hc
      rcases hc with ((rfl | hc) | rfl) | hc
      · exact ⟨⟨m.src, 11, m.ty⟩, rfl, .inl rfl⟩
      · obtain ⟨n, hn, rfl⟩ := hcode c hc
        exact ⟨n, rfl, .inr ⟨n, hn, rfl⟩⟩
      · exact ⟨⟨11, m.dst, m.ty⟩, rfl, .inr ⟨m, mem_cons_self .., rfl⟩⟩
      obtain ⟨p, rfl, hp | ⟨n, hn, hdst⟩⟩ := ih _ c hc
      · exact ⟨p, rfl, .inl hp⟩
      · exact ⟨p, rfl, .inr ⟨n, hsub.subset (mem_of_mem_erase hn), hdst⟩⟩

theorem run_breakCycles_other (fuel : Nat) (moves : List RegMove) (regs : Reg → BitVec 64) (h11 : r ≠ 11)
    (hr : ∀ m ∈ moves, m.dst ≠ r) : runHost regs (breakCycles fuel moves) r = regs r := by
  apply run_other
  intro c hc
  obtain ⟨m, rfl, hm | ⟨n, hn, hdst⟩⟩ := breakCycles_writes fuel moves c hc
  · exact ⟨m, rfl, fun h => h11 (h ▸ hm)⟩
  · exact ⟨m, rfl, fun h => hr n hn (hdst.trans h)⟩

section Swap

variable {m n : RegMove} {rest : List RegMove}

theorem Permutes.nodup (h : Permutes moves) : moves.Nodup := h.dst.of_map _

variable (h : Permutes (m :: rest)) (hn : n ∈ m :: rest) (hsrc : n.src = m.dst)
include h hn hsrc

theorem partner_mem_rest : n ∈ rest ∧ m ≠ n := by
  have hne : m ≠ n := by
    rintro rfl
    exact h.self m (mem_cons_self ..) hsrc
  exact ⟨(List.mem_cons.mp hn).resolve_left (Ne.symm hne), hne⟩

variable (hdst : n.dst = m.src)
include hdst

/-- The rest after a swap is closed. -/
theorem mem_rest_of_src
    {p q : RegMove} (hp : p ∈ rest.erase n) (hq : q ∈ m :: rest) (heq : q.src = p.dst ∨ q.dst = p.src) :
    q ∈ rest.erase n := by
  have hnodup := h.nodup
  rw [List.nodup_cons] at hnodup
  have hp' : p ∈ rest := mem_of_mem_erase hp
  have hpm : p ≠ m := fun e => hnodup.1 (e ▸ hp')
  have hpn : p ≠ n := ((hnodup.2.mem_erase_iff).mp hp).1
  have hpl : p ∈ m :: rest := mem_cons_of_mem _ hp'
  have hqm : q ≠ m := by
    rintro rfl
    rcases heq with heq | heq
    · exact hpn (eq_of_dst h.dst hpl hn (by rw [hdst, heq]))
    · exact hpn (eq_of_src h.src hpl hn (by rw [hsrc, heq]))
  have hqn : q ≠ n := by
    rintro rfl
    rcases heq with heq | heq
    · exact hpm (eq_of_dst h.dst hpl (mem_cons_self ..) (by rw [← hsrc, heq]))
    · exact hpm (eq_of_src h.src hpl (mem_cons_self ..) (by rw [← hdst, heq]))
  exact (mem_erase_of_ne hqn).mpr ((List.mem_cons.mp hq).resolve_left hqm)

theorem permutes_rest : Permutes (rest.erase n) := by
  have hsub : (rest.erase n).Sublist (m :: rest) := List.erase_sublist.trans (List.sublist_cons_self ..)
  refine ⟨(hsub.map _).nodup h.dst, (hsub.map _).nodup h.src, ?_, ?_, fun p hp => h.self p (hsub.subset hp),
    fun p hp => h.scratch p (hsub.subset hp)⟩
  · intro p hp
    obtain ⟨q, hq, heq⟩ := h.closed p (hsub.subset hp)
    exact ⟨q, mem_rest_of_src h hn hsrc hdst hp hq (.inl heq), heq⟩
  · intro p hp
    obtain ⟨q, hq, heq⟩ := h.origin p (hsub.subset hp)
    exact ⟨q, mem_rest_of_src h hn hsrc hdst hp hq (.inr heq), heq⟩

theorem breakCycles_swap (fuel : Nat) : breakCycles (fuel + 1) (m :: rest) =
      [moveCode ⟨m.src, 11, m.ty⟩, moveCode n, moveCode m, moveCode ⟨11, m.dst, m.ty⟩] ++
        breakCycles fuel (rest.erase n) := by
  have hnodup := List.nodup_cons.mp h.nodup
  obtain ⟨hrest, hne⟩ := partner_mem_rest h hn hsrc
  obtain ⟨k, hk⟩ : ∃ k, rest.length = k + 1 := Nat.exists_eq_succ_of_ne_zero (List.length_pos_of_mem hrest).ne'
  have hfirst : (m :: rest).find? (fun p => decide (p.src = m.dst)) = some n := hsrc ▸ find_src h.src hn
  have herase : (m :: rest).erase n = m :: rest.erase n := List.erase_cons_tail (by simpa using hne)
  have hsecond : (m :: rest.erase n).find? (fun p => decide (p.src = n.dst)) = some m := by
    rw [List.find?_cons_of_pos]
    simp [hdst]
  have hthird : ∀ p ∈ rest.erase n, p.src ≠ m.dst := by
    intro p hp heq
    have hpn : p = n := eq_of_src h.src (mem_cons_of_mem _ (mem_of_mem_erase hp)) hn (by rw [heq, hsrc])
    exact ((hnodup.2.mem_erase_iff).mp hp).1 hpn
  have hfollow : followCycle (rest.length + 1) m.dst (m :: rest) = ([moveCode n, moveCode m], rest.erase n) := by
    rw [hk, followCycle_of_some hfirst, herase, followCycle_of_some hsecond, List.erase_cons_head,
      followCycle_of_none hthird]
  have hlast : (rest.erase n).erase m = rest.erase n :=
    List.erase_of_not_mem fun hm => hnodup.1 (mem_of_mem_erase hm)
  rw [breakCycles, hfollow]
  dsimp only
  rw [hlast]
  rfl

theorem run_swap (regs : Reg → BitVec 64) :
    let regs' := runHost regs [moveCode ⟨m.src, 11, m.ty⟩, moveCode n, moveCode m, moveCode ⟨11, m.dst, m.ty⟩]
    low m.ty (regs' m.dst) = low m.ty (regs m.src) ∧ low n.ty (regs' n.dst) = low n.ty (regs n.src) ∧
      ∀ r, r ≠ 11 → r ≠ m.dst → r ≠ n.dst → regs' r = regs r := by
  have hm11 : m.dst ≠ 11 := h.scratch m (mem_cons_self ..)
  have hn11 : n.dst ≠ 11 := h.scratch n hn
  have hnm : n.dst ≠ m.dst := by
    rw [hdst]
    exact h.self m (mem_cons_self ..)
  simp only [runHost_cons, runHost_nil]
  refine ⟨?_, ?_, ?_⟩
  · rw [low_exec_dst _ ⟨11, m.dst, m.ty⟩, exec_other _ m (Ne.symm hm11), exec_other _ n (Ne.symm hn11)]
    exact low_exec_dst regs ⟨m.src, 11, m.ty⟩
  · rw [exec_other _ ⟨11, m.dst, m.ty⟩ hnm, exec_other _ m hnm, low_exec_dst, exec_other]
    rw [hsrc]
    exact hm11
  · intro r h11 hrm hrn
    rw [exec_other _ ⟨11, m.dst, m.ty⟩ hrm, exec_other _ m hrm, exec_other _ n hrn, exec_other _ ⟨m.src, 11, m.ty⟩ h11]

end Swap

/-- A permutation of swaps is carried out. -/
theorem breakCycles_values (fuel : Nat) (h : Permutes moves) (hfuel : moves.length ≤ fuel)
    (hpartner : ∀ m ∈ moves, HasPartner moves m) (regs : Reg → BitVec 64) :
    ∀ m ∈ moves, low m.ty (runHost regs (breakCycles fuel moves) m.dst) = low m.ty (regs m.src) := by
  induction fuel generalizing moves regs with
  | zero =>
    obtain rfl : moves = [] := List.length_eq_zero_iff.mp (Nat.le_zero.mp hfuel)
    exact fun m hm => nomatch hm
  | succ fuel ih =>
    cases moves with
    | nil => exact fun m hm => nomatch hm
    | cons m rest =>
      obtain ⟨n, hn, hsrc, hdst⟩ := hpartner m (mem_cons_self ..)
      have hnodup := List.nodup_cons.mp h.nodup
      obtain ⟨hrest, hne⟩ := partner_mem_rest h hn hsrc
      obtain ⟨hm, hnv, hother⟩ := run_swap h hn hsrc hdst regs
      rw [breakCycles_swap h hn hsrc hdst fuel, runHost_append]
      generalize runHost regs [moveCode ⟨m.src, 11, m.ty⟩, moveCode n, moveCode m, moveCode ⟨11, m.dst, m.ty⟩] = regs'
        at hm hnv hother
      have hfresh (p : RegMove) (hp : p ∈ m :: rest) (hpout : p ∉ rest.erase n) :
          runHost regs' (breakCycles fuel (rest.erase n)) p.dst = regs' p.dst := by
        apply run_breakCycles_other fuel _ _ (h.scratch p hp)
        intro q hq heq
        have hq' := mem_cons_of_mem m (mem_of_mem_erase hq)
        exact hpout (eq_of_dst h.dst hq' hp heq ▸ hq)
      intro p hp
      by_cases hpm : p = m
      · subst hpm
        rw [hfresh p hp fun hin => hnodup.1 (mem_of_mem_erase hin)]
        exact hm
      by_cases hpn : p = n
      · subst hpn
        rw [hfresh p hp fun hin => ((hnodup.2.mem_erase_iff).mp hin).1 rfl]
        exact hnv
      have hp' : p ∈ rest.erase n := (mem_erase_of_ne hpn).mpr ((List.mem_cons.mp hp).resolve_left hpm)
      rw [ih (permutes_rest h hn hsrc hdst) ?_ ?_ regs' p hp']
      · congr 1
        apply hother
        · obtain ⟨q, hq, hqdst⟩ := h.origin p hp
          exact hqdst ▸ h.scratch q hq
        · exact fun heq => hpn (eq_of_src h.src hp hn (by rw [heq, hsrc]))
        · exact fun heq => hpm (eq_of_src h.src hp (mem_cons_self ..) (by rw [heq, hdst]))
      · have := List.length_erase_of_mem hrest
        rw [length_cons] at hfuel
        omega
      · intro q hq
        obtain ⟨q', hq', heq⟩ := hpartner q (mem_cons_of_mem _ (mem_of_mem_erase hq))
        exact ⟨q', mem_rest_of_src h hn hsrc hdst hq hq' (.inl heq.1), heq⟩

/-- Words that tell one register from all others. -/
def mark (b r : Reg) : BitVec 64 := if r = b then 1#64 else 0#64

theorem low_one_ne (ty : IrType) : low ty 1#64 ≠ low ty 0#64 := by
  cases ty <;> decide

theorem exec_one (hne : m.src ≠ m.dst) (h : regs m.src = 1#64) : execHost regs (moveCode m) m.dst = 1#64 := by
  have hone (ty : IrType) : (low ty 1#64).setWidth 64 = 1#64 := by cases ty <;> decide
  unfold execHost moveCode
  dsimp only
  rw [if_neg (Ne.symm hne), Function.update_self, h, hone]

/-- A cycle of three or more registers: the second register after the first target gets the word of
the first target as well. -/
theorem run_long_cycle {rest : List RegMove} (h : Permutes (m :: rest)) (fuel : Nat)
    (hno : ¬HasPartner (m :: rest) m) (hregs : regs m.dst = 1#64) :
    ∃ n ∈ m :: rest, n.src ≠ m.dst ∧ runHost regs (breakCycles (fuel + 1) (m :: rest)) n.dst = 1#64 := by
  obtain ⟨n1, hn1, hsrc1⟩ := h.closed m (mem_cons_self ..)
  obtain ⟨n2, hn2, hsrc2⟩ := h.closed n1 hn1
  have hnodup := h.nodup
  have hne1 : n1.src ≠ n1.dst := h.self n1 hn1
  have hne2 : n2.src ≠ n2.dst := h.self n2 hn2
  have h21 : n2 ≠ n1 := fun heq => hne1 (by rw [← hsrc2, heq])
  have h₂m : n2 ≠ m := fun heq => hno ⟨n1, hn1, hsrc1, by rw [← hsrc2, heq]⟩
  obtain ⟨k, hk⟩ : ∃ k, rest.length = k + 1 :=
    Nat.exists_eq_succ_of_ne_zero (List.length_pos_of_mem (partner_mem_rest h hn1 hsrc1).1).ne'
  have hfirst : (m :: rest).find? (fun p => decide (p.src = m.dst)) = some n1 := hsrc1 ▸ find_src h.src hn1
  have hsub1 : ((m :: rest).erase n1).Sublist (m :: rest) := List.erase_sublist
  have hsecond : ((m :: rest).erase n1).find? (fun p => decide (p.src = n1.dst)) = some n2 :=
    hsrc2 ▸ find_src ((hsub1.map _).nodup h.src) ((mem_erase_of_ne h21).mpr hn2)
  have hdst2 (p : RegMove) (hp : p ∈ ((m :: rest).erase n1).erase n2) : p.dst ≠ n2.dst := by
    intro heq
    have hp' := (hsub1.nodup hnodup).mem_erase_iff.mp hp
    exact hp'.1 (eq_of_dst h.dst (hsub1.subset hp'.2) hn2 heq)
  obtain ⟨hwrites, hopen⟩ := followCycle_writes k n2.dst (((m :: rest).erase n1).erase n2)
  refine ⟨n2, hn2, by rw [hsrc2, ← hsrc1]; exact Ne.symm hne1, ?_⟩
  rw [breakCycles, hk, followCycle_of_some hfirst, followCycle_of_some hsecond]
  generalize followCycle k n2.dst (((m :: rest).erase n1).erase n2) = r at hwrites hopen
  have hone : execHost (execHost (execHost regs (moveCode ⟨m.src, 11, m.ty⟩)) (moveCode n1)) (moveCode n2) n2.dst =
      1#64 := by
    refine exec_one hne2 ?_
    rw [hsrc2]
    refine exec_one hne1 ?_
    rw [hsrc1, exec_other _ ⟨m.src, 11, m.ty⟩ (h.scratch m (mem_cons_self ..)), hregs]
  have hrun (code : List HostOp) : runHost regs (.mov m.ty 11 m.src :: moveCode n1 :: moveCode n2 :: code) =
      runHost (execHost (execHost (execHost regs (moveCode ⟨m.src, 11, m.ty⟩)) (moveCode n1)) (moveCode n2)) code :=
      rfl
  simp only [List.cons_append, List.append_assoc, nil_append]
  rw [hrun, run_other, hone]
  intro c hc
  simp only [mem_append, mem_cons] at hc
  rcases hc with hc | rfl | hc
  · obtain ⟨p, hp, rfl⟩ := hwrites c hc
    exact ⟨p, rfl, hdst2 p hp⟩
  · exact ⟨⟨11, m.dst, m.ty⟩, rfl, fun heq => h₂m (eq_of_dst h.dst hn2 (mem_cons_self ..) heq.symm)⟩
  obtain ⟨p, rfl, hp | ⟨q, hq, hdst⟩⟩ := breakCycles_writes _ _ c hc
  · exact ⟨p, rfl, fun heq => h.scratch n2 hn2 (by rw [← heq, hp])⟩
  · exact ⟨p, rfl, fun heq => hdst2 q (hopen.subset (mem_of_mem_erase hq)) (hdst.trans heq)⟩

/-- A permutation with a longer cycle is not carried out: some choice of words shows it. -/
theorem breakCycles_fails (fuel : Nat) (h : Permutes moves) (hfuel : moves.length ≤ fuel)
    (hno : ∃ m ∈ moves, ¬HasPartner moves m) :
    ∃ b, ∀ regs : Reg → BitVec 64, (∀ m ∈ moves, regs m.src = mark b m.src) →
      ∃ n ∈ moves, low n.ty (runHost regs (breakCycles fuel moves) n.dst) ≠ low n.ty (mark b n.src) := by
  induction fuel generalizing moves with
  | zero =>
    obtain rfl : moves = [] := List.length_eq_zero_iff.mp (Nat.le_zero.mp hfuel)
    obtain ⟨m, hm, -⟩ := hno
    cases hm
  | succ fuel ih =>
    obtain ⟨m0, hm0, hno⟩ := hno
    cases moves with
    | nil => cases hm0
    | cons m rest =>
      by_cases hpartner : HasPartner (m :: rest) m
      · obtain ⟨n, hn, hsrc, hdst⟩ := hpartner
        have hnodup := List.nodup_cons.mp h.nodup
        obtain ⟨hrest, hne⟩ := partner_mem_rest h hn hsrc
        have hm₀m : m0 ≠ m := by
          rintro rfl
          exact hno ⟨n, hn, hsrc, hdst⟩
        have hm₀n : m0 ≠ n := by
          rintro rfl
          exact hno ⟨m, mem_cons_self .., hdst.symm, hsrc.symm⟩
        have hm0' : m0 ∈ rest.erase n := (mem_erase_of_ne hm₀n).mpr ((List.mem_cons.mp hm0).resolve_left hm₀m)
        have hlen := List.length_erase_of_mem hrest
        rw [length_cons] at hfuel
        obtain ⟨b, hb⟩ := ih (permutes_rest h hn hsrc hdst) (by omega)
          ⟨m0, hm0', fun ⟨q, hq, heq⟩ => hno ⟨q, mem_cons_of_mem _ (mem_of_mem_erase hq), heq⟩⟩
        refine ⟨b, fun regs hregs => ?_⟩
        rw [breakCycles_swap h hn hsrc hdst fuel, runHost_append]
        obtain ⟨p, hp, hwrong⟩ := hb (runHost regs
            [moveCode ⟨m.src, 11, m.ty⟩, moveCode n, moveCode m, moveCode ⟨11, m.dst, m.ty⟩]) (by
          intro p hp
          have hp' := mem_cons_of_mem m (mem_of_mem_erase hp)
          rw [(run_swap h hn hsrc hdst regs).2.2 p.src, hregs p hp']
          · obtain ⟨q, hq, hqdst⟩ := h.origin p hp'
            exact hqdst ▸ h.scratch q hq
          · exact fun heq => ((hnodup.2.mem_erase_iff).mp hp).1 (eq_of_src h.src hp' hn (by rw [heq, hsrc]))
          intro heq
          have hpm := eq_of_src h.src hp' (mem_cons_self ..) (heq.trans hdst)
          exact hnodup.1 (hpm ▸ mem_of_mem_erase hp))
        exact ⟨p, mem_cons_of_mem _ (mem_of_mem_erase hp), hwrong⟩
      · refine ⟨m.dst, fun regs hregs => ?_⟩
        obtain ⟨n1, hn1, hsrc1⟩ := h.closed m (mem_cons_self ..)
        have hone : regs m.dst = 1#64 := by
          rw [← hsrc1, hregs n1 hn1, mark, if_pos hsrc1]
        obtain ⟨n, hn, hne, hrun⟩ := run_long_cycle h fuel hpartner hone
        refine ⟨n, hn, ?_⟩
        rw [hrun, mark, if_neg hne]
        exact low_one_ne n.ty

theorem resolveMoves_eq (moves : List RegMove) : resolveMoves moves = (orderMoves moves.length moves).1 ++
      breakCycles (orderMoves moves.length moves).2.length (orderMoves moves.length moves).2 := rfl

/-- Registers that are no target keep their words, the scratch register apart. -/
theorem resolveMoves_other (hdst : (moves.map RegMove.dst).Nodup) (regs : Reg → BitVec 64)
    (h11 : r ≠ 11) (hr : ∀ m ∈ moves, m.dst ≠ r) : runHost regs (resolveMoves moves) r = regs r := by
  obtain ⟨code, hcode, hemits, -⟩ := orderMoves_emits moves.length moves (Nat.le_refl _)
  rw [resolveMoves_eq, hcode, runHost_append,
    run_breakCycles_other _ _ _ h11 fun m hm => hr m (hemits.sublist.subset hm)]
  exact (hemits.values hdst regs).2.2 r hr

/-- All moves are carried out, whatever the registers hold, exactly when every cycle is a swap. -/
theorem resolveMoves_right_iff (hdst : (moves.map RegMove.dst).Nodup)
    (hself : ∀ m ∈ moves, m.src ≠ m.dst) (hscratch : ∀ m ∈ moves, m.dst ≠ 11) : (∀ regs : Reg → BitVec 64, ∀ m ∈ moves,
      low m.ty (runHost regs (resolveMoves moves) m.dst) = low m.ty (regs m.src)) ↔ SwapsOnly (Feeds moves) := by
  obtain ⟨code, hcode, hemits, hblocked⟩ := orderMoves_emits moves.length moves (Nat.le_refl _)
  rw [resolveMoves_eq, hcode]
  generalize (orderMoves moves.length moves).2 = rest at hemits hblocked
  have hsub := hemits.sublist
  have hperm : Permutes rest := permutes_of_blocked ((hsub.map _).nodup hdst) hblocked
    (fun m hm => hself m (hsub.subset hm)) fun m hm => hscratch m (hsub.subset hm)
  rw [swapsOnly_iff hemits hperm hdst hself]
  constructor
  · intro hright
    by_contra hcon
    push Not at hcon
    obtain ⟨b, hb⟩ := breakCycles_fails rest.length hperm (Nat.le_refl _) hcon
    obtain ⟨hkeep, -, -⟩ := hemits.values hdst (mark b)
    obtain ⟨n, hn, hwrong⟩ := hb (runHost (mark b) (code.map moveCode)) fun m hm => hkeep m hm
    rw [← runHost_append] at hwrong
    exact hwrong (hright (mark b) n (hsub.subset hn))
  · intro hpartner regs m hm
    obtain ⟨hkeep, hdone, -⟩ := hemits.values hdst regs
    rw [runHost_append]
    by_cases hrest : m ∈ rest
    · rw [breakCycles_values rest.length hperm (Nat.le_refl _) hpartner _ m hrest, hkeep m hrest]
    rw [run_breakCycles_other _ _ _ (hscratch m hm)]
    · exact (hdone m hm).resolve_left hrest
    · intro n hn heq
      exact hrest (eq_of_dst hdst (hsub.subset hn) hm heq ▸ hn)

end Breaking

section Call

variable {op : Op} {ct : OpConstraint} {st : Alloc}

/-- Argument `i` of the call is in register `src`, and the call wants it in register `target`. -/
def InReg (op : Op) (ct : OpConstraint) (st : Alloc) (i : Nat) (src target : Reg) : Prop :=
  (st.temp (iarg op i)).valType = .reg ∧ (st.temp (iarg op i)).reg = some src ∧ callTarget op ct i = some target

/-- Some argument of the call has to go from register `a` to register `b`. -/
def ArgFeeds (op : Op) (ct : OpConstraint) (st : Alloc) (a b : Reg) : Prop :=
  ∃ i < op.opc.info.nbIargs, InReg op ct st i a b ∧ a ≠ b

theorem callMove_of_inReg {src target : Reg} (h : InReg op ct st i src target) :
    callMove op ct st i = some (if src ≠ target then [⟨src, target, (st.temp (iarg op i)).ty⟩] else []) := by
  obtain ⟨hreg, hsrc, htarget⟩ := h
  simp [callMove, hreg, hsrc, htarget]

theorem callMove_cases {ms : List RegMove} (h : callMove op ct st i = some ms) :
    ms = [] ∨ ∃ src target, InReg op ct st i src target ∧ src ≠ target ∧
      ms = [⟨src, target, (st.temp (iarg op i)).ty⟩] := by
  obtain ⟨target, htarget, h⟩ := Option.bind_eq_some_iff.mp h
  by_cases hreg : (st.temp (iarg op i)).valType = .reg
  · simp only [hreg, if_true] at h
    obtain ⟨src, hsrc, h⟩ := Option.bind_eq_some_iff.mp h
    obtain rfl := Option.some.inj h
    by_cases hne : src ≠ target
    · exact .inr ⟨src, target, ⟨hreg, hsrc, htarget⟩, hne, if_pos hne⟩
    · exact .inl (if_neg hne)
  · simp only [hreg, if_false] at h
    exact .inl (Option.some.inj h).symm

theorem mapM_cons_some {α β : Type} {f : α → Option β} {a : α} {l : List α} {bs : List β}
    (h : (a :: l).mapM f = some bs) : ∃ b bs', f a = some b ∧ l.mapM f = some bs' ∧ bs = b :: bs' := by
  rw [List.mapM_cons] at h
  obtain ⟨b, hb, h⟩ := Option.bind_eq_some_iff.mp h
  obtain ⟨bs', hbs, h⟩ := Option.bind_eq_some_iff.mp h
  exact ⟨b, bs', hb, hbs, (Option.some.inj h).symm⟩

/-- The targets of the moves are targets of arguments, in the order of the arguments. -/
theorem callMoves_dst {l : List Nat} {moves : List (List RegMove)} (h : l.mapM (callMove op ct st) = some moves) :
    (moves.flatten.map RegMove.dst).Sublist (l.filterMap (callTarget op ct)) := by
  induction l generalizing moves with
  | nil =>
    obtain rfl := Option.some.inj h
    exact .refl _
  | cons i l ih =>
    obtain ⟨ms, moves', hms, hmoves, rfl⟩ := mapM_cons_some h
    rw [List.flatten_cons, map_append]
    obtain rfl | ⟨src, target, hin, hne, rfl⟩ := callMove_cases hms
    · refine (ih hmoves).trans ?_
      rw [List.filterMap_cons]
      split
      · exact .refl _
      · exact List.sublist_cons_self ..
    · rw [List.filterMap_cons_some hin.2.2]
      exact (ih hmoves).cons_cons target

/-- The moves are those of the arguments that are in another register than their own. -/
theorem mem_callMoves {l : List Nat} {moves : List (List RegMove)} (h : l.mapM (callMove op ct st) = some moves)
    (m : RegMove) : m ∈ moves.flatten ↔
      ∃ i ∈ l, InReg op ct st i m.src m.dst ∧ m.src ≠ m.dst ∧ m.ty = (st.temp (iarg op i)).ty := by
  induction l generalizing moves with
  | nil =>
    obtain rfl := Option.some.inj h
    simp
  | cons i l ih =>
    obtain ⟨ms, moves', hms, hmoves, rfl⟩ := mapM_cons_some h
    rw [List.flatten_cons, mem_append, ih hmoves, List.exists_mem_cons_iff]
    refine or_congr_left ⟨fun hm => ?_, fun ⟨hin, hne, hty⟩ => ?_⟩
    · obtain rfl | ⟨src, target, hin, hne, rfl⟩ := callMove_cases hms
      · cases hm
      · obtain rfl := List.mem_singleton.mp hm
        exact ⟨hin, hne, rfl⟩
    · rw [callMove_of_inReg hin, if_pos hne, ← hty] at hms
      exact Option.some.inj hms ▸ List.mem_singleton_self m

theorem feeds_callMoves {moves : List (List RegMove)}
    (h : (List.range op.opc.info.nbIargs).mapM (callMove op ct st) = some moves) :
    Feeds moves.flatten = ArgFeeds op ct st := by
  funext a b
  apply propext
  constructor
  · rintro ⟨m, hm, rfl, rfl⟩
    obtain ⟨i, hi, hin, hne, -⟩ := (mem_callMoves h m).mp hm
    exact ⟨i, List.mem_range.mp hi, hin, hne⟩
  · rintro ⟨i, hi, hin, hne⟩
    exact ⟨⟨a, b, (st.temp (iarg op i)).ty⟩,
      (mem_callMoves h _).mpr ⟨i, List.mem_range.mpr hi, hin, hne, rfl⟩, rfl, rfl⟩

theorem callTarget_call (hop : op.opc = .call) (i : Nat) :
    callTarget op (opConstraint .call) i = (opConstraint .call (1 + i)).regs.first := by
  rw [callTarget, hop]
  rfl

/-- The argument registers of a call are six registers other than the scratch register. -/
theorem call_targets (hop : op.opc = .call) :
    (List.range op.opc.info.nbIargs).filterMap (callTarget op (opConstraint .call)) = [7, 6, 2, 1, 8, 9] := by
  rw [funext (callTarget_call hop), hop]
  decide

theorem callTarget_ne_scratch (hop : op.opc = .call) {target : Reg} (hi : i < op.opc.info.nbIargs)
    (h : callTarget op (opConstraint .call) i = some target) : target ≠ 11 := by
  rintro rfl
  have hmem : 11 ∈ (List.range op.opc.info.nbIargs).filterMap (callTarget op (opConstraint .call)) :=
    List.mem_filterMap.mpr ⟨i, List.mem_range.mpr hi, h⟩
  rw [call_targets hop] at hmem
  exact absurd hmem (by decide)

theorem callTarget_injective (hop : op.opc = .call) {j : Nat} (hi : i < op.opc.info.nbIargs)
    (hj : j < op.opc.info.nbIargs)
    (h : callTarget op (opConstraint .call) i = callTarget op (opConstraint .call) j) : i = j := by
  rw [hop] at hi hj
  rw [callTarget_call hop, callTarget_call hop] at h
  have hinj : ∀ i < 6, ∀ j < 6, (opConstraint .call (1 + i)).regs.first = (opConstraint .call (1 + j)).regs.first →
    i = j := by decide
  exact hinj i hi j hj h

/-- The moves of a call put every register-resident argument into its register, whatever the registers hold,
exactly when every cycle among the arguments swaps two registers. -/
theorem call_args_moved_iff (op : Op) (hop : op.opc = .call) (st : Alloc) (moves : List (List RegMove))
    (hmoves : (List.range op.opc.info.nbIargs).mapM (callMove op (opConstraint .call) st) = some moves) :
    (∀ regs : Reg → BitVec 64, ∀ i < op.opc.info.nbIargs, ∀ src target, InReg op (opConstraint .call) st i src target →
      low (st.temp (iarg op i)).ty (runHost regs (resolveMoves moves.flatten) target) =
        low (st.temp (iarg op i)).ty (regs src)) ↔ SwapsOnly (ArgFeeds op (opConstraint .call) st) := by
  have hdst : (moves.flatten.map RegMove.dst).Nodup :=
    (callMoves_dst hmoves).nodup (call_targets hop ▸ by decide)
  have hself (m : RegMove) (hm : m ∈ moves.flatten) : m.src ≠ m.dst := by
    obtain ⟨i, -, -, hne, -⟩ := (mem_callMoves hmoves m).mp hm
    exact hne
  have hscratch (m : RegMove) (hm : m ∈ moves.flatten) : m.dst ≠ 11 := by
    obtain ⟨i, hi, hin, -, -⟩ := (mem_callMoves hmoves m).mp hm
    exact callTarget_ne_scratch hop (List.mem_range.mp hi) hin.2.2
  rw [← feeds_callMoves hmoves, ← resolveMoves_right_iff hdst hself hscratch]
  refine forall_congr' fun regs => ⟨fun h m hm => ?_, fun h i hi src target hin => ?_⟩
  · obtain ⟨i, hi, hin, -, hty⟩ := (mem_callMoves hmoves m).mp hm
    rw [hty]
    exact h i (List.mem_range.mp hi) m.src m.dst hin
  by_cases hne : src = target
  · -- An argument that is in place has the only claim to its register.
    rw [resolveMoves_other hdst regs (callTarget_ne_scratch hop hi hin.2.2), hne]
    intro m hm heq
    obtain ⟨j, hj, hjin, hjne, -⟩ := (mem_callMoves hmoves m).mp hm
    obtain rfl := callTarget_injective hop (List.mem_range.mp hj) hi (by rw [hjin.2.2, hin.2.2, heq])
    exact hjne (by rw [heq, ← hne]; exact Option.some.inj (hjin.2.1.symm.trans hin.2.1))
  · exact h ⟨src, target, _⟩ ((mem_callMoves hmoves _).mpr ⟨i, List.mem_range.mpr hi, hin, hne, rfl⟩)

/-- A call with the temporaries from 0 on as arguments. -/
def helperCall : Op := .withArgs .call .i64 [6, 0, 1, 2, 3, 4, 5]

/-- The first arguments are globals in the given registers, the others constants. -/
def argsIn (regs : List Reg) : Alloc where
  ctx :=
    { temps := fun t => match regs[t]? with
        | some reg => { Temp.newGlobal .i64 9 0 with valType := .reg, reg := some reg }
        | none => .newConst .i64 0#64
      nbTemps := 10, nbGlobals := 3, constTable := fun _ _ => none, frameReg := none
      frameEnd := 0, frameAllocEnd := 0 }
  regToTemp := fun r => regs.idxOf? r
  freeRegs := 0#64
  allocatable := 0#64
  code := []

theorem call_args_moved_swap : helperCall.opc = .call ∧
    (∀ regs : Reg → BitVec 64, ∀ i < helperCall.opc.info.nbIargs, ∀ src target,
      InReg helperCall (opConstraint .call) (argsIn [6, 7]) i src target →
      low ((argsIn [6, 7]).temp (iarg helperCall i)).ty
      (runHost regs (resolveMoves [⟨6, 7, .i64⟩, ⟨7, 6, .i64⟩]) target) =
        low ((argsIn [6, 7]).temp (iarg helperCall i)).ty (regs src)) := by
  refine ⟨rfl, (call_args_moved_iff helperCall rfl (argsIn [6, 7])
    [[⟨6, 7, .i64⟩], [⟨7, 6, .i64⟩], [], [], [], []] rfl).mpr fun r hcycle => ?_⟩
  obtain ⟨s, ⟨i, hi, ⟨hval, hsrc, htarget⟩, hne⟩, -⟩ := Relation.TransGen.head'_iff.mp hcycle
  match i with
  | 0 =>
    obtain rfl := Option.some.inj hsrc
    obtain rfl := Option.some.inj htarget
    exact ⟨7, ⟨0, by decide, ⟨rfl, rfl, rfl⟩, by decide⟩, 1, by decide, ⟨rfl, rfl, rfl⟩, by decide⟩
  | 1 =>
    obtain rfl := Option.some.inj hsrc
    obtain rfl := Option.some.inj htarget
    exact ⟨6, ⟨1, by decide, ⟨rfl, rfl, rfl⟩, by decide⟩, 0, by decide, ⟨rfl, rfl, rfl⟩, by decide⟩
  | 2 | 3 | 4 | 5 => exact nomatch hval

/-- Three arguments that go round in a circle: the second one is lost. -/
theorem three_args_are_moved_wrong : InReg helperCall (opConstraint .call) (argsIn [6, 2, 7]) 1 2 6 ∧
    ∃ moves, (List.range helperCall.opc.info.nbIargs).mapM
        (callMove helperCall (opConstraint .call) (argsIn [6, 2, 7])) = some moves ∧
      low .i64 (runHost (mark 7) (resolveMoves moves.flatten) 6) ≠ low .i64 (mark 7 2) :=
  ⟨⟨rfl, rfl, rfl⟩, _, rfl, by decide⟩

end Call

end MachinaCallMoves
