import Machina.Pmp

/-!
# The PMP check against the privileged specification

The specification's matching rule, over exact byte regions in unbounded
arithmetic, and the comparison of the source's check with it. The check differs
in two ways: it skips an entry that the access straddles, and its windows wrap at
the top of the 64-bit address space.
-/

namespace MachinaPmp

open MachinaBits MachinaRiscv

local instance neZero16 : NeZero 16 := ⟨by decide⟩

variable {addr size x : BitVec 64} {p : Pmp}

/-- A half-open range of physical byte addresses. -/
structure Region where
  lo : Nat
  hi : Nat
  deriving DecidableEq, Repr

/-- Some byte of `[a, a + s)` lies in the region. -/
def Region.overlaps (r : Region) (a s : Nat) : Bool := decide (max r.lo a < min r.hi (a + s))

/-- All bytes of `[a, a + s)` lie in the region. -/
def Region.contains (r : Region) (a s : Nat) : Bool := decide (r.lo ≤ a ∧ a + s ≤ r.hi)

theorem Region.overlaps_of_contains (r : Region) {a s : Nat} (hs : 0 < s)
    (h : r.contains a s = true) : r.overlaps a s = true := by
  simp only [Region.contains, Region.overlaps, decide_eq_true_eq] at *
  omega

/-- The naturally aligned power-of-two region a NAPOT address register names. -/
def napotRegion (pmpaddr : BitVec 64) : Region :=
  let size := 2 ^ ((~~~pmpaddr).ctz.toNat + 3)
  let lo := 4 * pmpaddr.toNat / size * size
  ⟨lo, lo + size⟩

section

variable (p : Pmp)

/-- The exact region of entry `i`. -/
def region (i : Fin 16) : Option Region :=
  match PmpAddrMatch.fromCfg (p.entries i).cfg with
  | .off => none
  | .napot => some (napotRegion (p.entries i).addr)
  | .na4 => some ⟨4 * (p.entries i).addr.toNat, 4 * (p.entries i).addr.toNat + 4⟩
  | .tor => some ⟨if i.val = 0 then 0 else 4 * (p.entries (i - 1)).addr.toNat,
      4 * (p.entries i).addr.toNat⟩

variable (addr size : BitVec 64)

def overlapsEntry (i : Fin 16) : Bool :=
  (region p i).any fun r => r.overlaps addr.toNat size.toNat

def containsEntry (i : Fin 16) : Bool :=
  (region p i).any fun r => r.contains addr.toNat size.toNat

/-- The lowest-numbered entry whose region overlaps the access. -/
def decider : Option (Fin 16) :=
  (List.finRange 16).find? (overlapsEntry p addr size)

/-- The lowest-numbered entry whose region contains the whole access. -/
def container : Option (Fin 16) :=
  (List.finRange 16).find? (containsEntry p addr size)

/-- The lock bit and the permissions an access is decided by. -/
structure Rights where
  locked : Bool
  allows : AccessType → Bool

/-- Machine mode is only restricted by a locked entry. -/
def Rights.permits (t : Rights) (access : AccessType) (priv : PrivLevel) : Bool :=
  (decide (priv = .machine) && !t.locked) || t.allows access

def PmpEntry.rights (e : PmpEntry) : Rights := ⟨has e.cfg pmpL, fun access => has e.cfg (kindBit access)⟩

/-- No entry applies: only machine mode succeeds. -/
def Rights.unmatched : Rights := ⟨false, fun _ => false⟩

/-- The access straddles the deciding entry: nobody succeeds. -/
def Rights.straddled : Rights := ⟨true, fun _ => false⟩

/-- Two rights decide every access alike: equal permissions, and equal locks
unless everything is permitted anyway. -/
def Rights.Same (t u : Rights) : Prop :=
  (∀ access, t.allows access = u.allows access) ∧ (t.locked = u.locked ∨ ∀ access, t.allows access = true)

def specRights : Rights :=
  match decider p addr size with
  | none => .unmatched
  | some i => if containsEntry p addr size i then (p.entries i).rights else .straddled

/-- The privileged specification's verdict. -/
def specGrants (access : AccessType) (priv : PrivLevel) : Bool :=
  match decider p addr size with
  | none => decide (priv = .machine)
  | some i =>
    containsEntry p addr size i &&
      ((decide (priv = .machine) && !has (p.entries i).cfg pmpL) || has (p.entries i).cfg (kindBit access))

/-- The rights of the entry the source's loop settles on. -/
def pickRights : Rights :=
  match pick p addr size with
  | none => .unmatched
  | some i => (p.entries i).rights

theorem Rights.same_iff (t u : Rights) : t.Same u ↔ ∀ access priv, t.permits access priv = u.permits access priv := by
  constructor
  · rintro ⟨ha, hl⟩ access priv
    rcases hl with hl | hall
    · simp [Rights.permits, ha access, hl]
    · simp [Rights.permits, ← ha access, hall access]
  · intro h
    have ha : ∀ access, t.allows access = u.allows access := by
      intro access
      simpa [Rights.permits] using h access .user
    refine ⟨ha, ?_⟩
    by_cases hl : t.locked = u.locked
    · exact Or.inl hl
    right
    intro access
    have hm := h access .machine
    simp only [Rights.permits, decide_true, Bool.true_and] at hm
    cases ht : t.locked <;> cases hw : u.locked <;> simp_all

/-- The specification's verdict is the one its rights give. -/
theorem specGrants_eq (access : AccessType) (priv : PrivLevel) :
    specGrants p addr size access priv = (specRights p addr size).permits access priv := by
  unfold specGrants specRights
  cases decider p addr size with
  | none => simp [Rights.permits, Rights.unmatched]
  | some i =>
    cases h : containsEntry p addr size i <;> simp [Rights.permits, Rights.straddled, PmpEntry.rights, h]

theorem isOk_checkPermission (e : PmpEntry) (access : AccessType) (priv : PrivLevel) :
    (checkPermission e access priv).isOk = e.rights.permits access priv := by
  unfold checkPermission Rights.permits PmpEntry.rights
  by_cases hm : priv = .machine <;> cases hl : has e.cfg pmpL <;>
    cases ha : has e.cfg (kindBit access) <;> simp [hm, ha, Except.isOk, Except.toBool]

/-- The machine-mode bypass changes no verdict: it agrees with the loop it skips. -/
theorem grants_eq (access : AccessType) (priv : PrivLevel) :
    grants p addr size access priv = (pickRights p addr size).permits access priv := by
  have hunlocked : hasLocked p = false → ∀ i, has (p.entries i).cfg pmpL = false := by
    intro h i
    have := List.any_eq_false.mp h i (List.mem_finRange i)
    simpa using this
  unfold grants checkAccess pickRights
  by_cases hb : priv = .machine ∧ hasLocked p = false
  · rw [if_pos hb]
    cases pick p addr size with
    | none => simp [Rights.permits, Rights.unmatched, hb.1, Except.isOk, Except.toBool]
    | some i =>
      simp [Rights.permits, PmpEntry.rights, hb.1, hunlocked hb.2 i, Except.isOk, Except.toBool]
  · rw [if_neg hb]
    cases pick p addr size with
    | none =>
      by_cases hm : priv = .machine <;>
        simp [Rights.permits, Rights.unmatched, hm, Except.isOk, Except.toBool]
    | some i => exact isOk_checkPermission _ _ _

theorem grants_eq_specGrants_iff :
    (∀ access priv, grants p addr size access priv = specGrants p addr size access priv) ↔
      (pickRights p addr size).Same (specRights p addr size) := by
  rw [Rights.same_iff]
  simp [grants_eq, specGrants_eq]

/-- A NAPOT entry that the source takes to cover everything. -/
def Everything (i : Fin 16) : Prop :=
  PmpAddrMatch.fromCfg (p.entries i).cfg = .napot ∧ 61 ≤ (~~~(p.entries i).addr).ctz.toNat

instance (i : Fin 16) : Decidable (Everything p i) := inferInstanceAs (Decidable (_ ∧ _))

/-- What the window of entry `i` loses at the top of the address space does not matter for the access. An entry taken
to cover everything starts at zero. A region that ends past the top starts above the access, or what is left of its end
still lies behind the access; a region that starts past the top leaves no window around the access. -/
def Harmless (i : Fin 16) : Prop :=
  ∀ r ∈ region p i,
    if Everything p i then r.lo = 0
    else if r.lo < 2 ^ 64 then r.hi < 2 ^ 64 ∨ addr.toNat < r.lo ∨ addr.toNat + size.toNat ≤ r.hi % 2 ^ 64
    else addr.toNat < r.lo % 2 ^ 64 ∨ r.hi % 2 ^ 64 < addr.toNat + size.toNat

/-- The access touches some byte and ends below the top of the address space, and no entry wraps around it. -/
def NoWrap : Prop :=
  0 < size.toNat ∧ addr.toNat + size.toNat < 2 ^ 64 ∧ ∀ i, Harmless p addr size i

theorem toNat_shiftLeft_two (x : BitVec 64) : (x <<< 2).toNat = 4 * x.toNat % 2 ^ 64 := by
  rw [BitVec.toNat_shiftLeft, Nat.shiftLeft_eq, Nat.mul_comm]

/-- Clearing low bits commutes with the loss of the high ones. -/
theorem mod_div_mul (y : Nat) {k : Nat} (hk : k ≤ 64) :
    y % 2 ^ 64 / 2 ^ k * 2 ^ k = y / 2 ^ k * 2 ^ k % 2 ^ 64 := by
  obtain ⟨c, hc⟩ : 2 ^ k ∣ 2 ^ 64 := Nat.pow_dvd_pow 2 hk
  rw [hc, Nat.mod_mul_right_div_self, Nat.mul_comm (y / 2 ^ k), Nat.mul_mod_mul_left, Nat.mul_comm]

/-- The window of a NAPOT register with at least 61 trailing ones is everything below the top byte. -/
theorem napotRange_of_le (hg : 61 ≤ (~~~x).ctz.toNat) : napotRange x = (0#64, BitVec.allOnes 64) := by
  simp [napotRange, if_pos hg]

theorem napotRegion_size_le (hg : 61 ≤ (~~~x).ctz.toNat) : (napotRegion x).lo + 2 ^ 64 ≤ (napotRegion x).hi := by
  have hsize : 2 ^ 64 ≤ 2 ^ ((~~~x).ctz.toNat + 3) := Nat.pow_le_pow_right (by decide) (by omega)
  simp only [napotRegion]
  omega

/-- Below 61 trailing ones the window is the exact region without its high bits. -/
theorem napotRange_toNat (hg : (~~~x).ctz.toNat < 61) :
    (napotRange x).1.toNat = (napotRegion x).lo % 2 ^ 64 ∧ (napotRange x).2.toNat = (napotRegion x).hi % 2 ^ 64 := by
  simp only [napotRegion, napotRange, if_neg (Nat.not_le_of_lt hg)]
  generalize (~~~x).ctz.toNat = g at *
  have hbase : ((x <<< 2) &&& ~~~((1#64 <<< (g + 3)) - 1#64)).toNat =
      4 * x.toNat / 2 ^ (g + 3) * 2 ^ (g + 3) % 2 ^ 64 := by
    rw [toNat_clear_low _ (by omega), toNat_shiftLeft_two, mod_div_mul _ (by omega)]
  have hsize : (1#64 <<< (g + 3)).toNat = 2 ^ (g + 3) := by
    rw [← BitVec.twoPow_eq, BitVec.toNat_twoPow]
    exact Nat.mod_eq_of_lt (Nat.pow_lt_pow_right (by decide) (by omega))
  refine ⟨hbase, ?_⟩
  rw [BitVec.toNat_add, hbase, hsize, Nat.mod_add_mod]

theorem torBase_toNat (i : Fin 16) :
    (torBase p i).toNat = (if i.val = 0 then 0 else 4 * (p.entries (i - 1)).addr.toNat) % 2 ^ 64 := by
  unfold torBase
  split
  · rfl
  · exact toNat_shiftLeft_two _

/-- The window of any other entry is its exact region without the high bits. -/
theorem entryRange_eq_some {i : Fin 16} {r : Region} (hr : region p i = some r) (hall : ¬ Everything p i) :
    ∃ base stop, entryRange p i = some (base, stop) ∧ base.toNat = r.lo % 2 ^ 64 ∧ stop.toNat = r.hi % 2 ^ 64 := by
  unfold region at hr
  unfold Everything at hall
  unfold entryRange
  dsimp only
  cases hmode : PmpAddrMatch.fromCfg (p.entries i).cfg with
  | off => simp [hmode] at hr
  | tor =>
    simp only [hmode, Option.some.injEq] at hr
    subst hr
    exact ⟨_, _, rfl, torBase_toNat p i, toNat_shiftLeft_two _⟩
  | na4 =>
    simp only [hmode, Option.some.injEq] at hr
    subst hr
    refine ⟨_, _, rfl, toNat_shiftLeft_two _, ?_⟩
    rw [BitVec.toNat_add, toNat_shiftLeft_two, Nat.mod_add_mod]
    rfl
  | napot =>
    simp only [hmode, Option.some.injEq] at hr
    subst hr
    have hg : (~~~(p.entries i).addr).ctz.toNat < 61 := by
      by_contra hge
      exact hall ⟨hmode, not_lt.mp hge⟩
    exact ⟨_, _, rfl, napotRange_toNat hg⟩

end

/-- Where no entry wraps around the access the window test is containment in the exact region. -/
theorem accepts_eq_containsEntry (h : NoWrap p addr size) (i : Fin 16) :
    accepts p addr size i = containsEntry p addr size i := by
  obtain ⟨hs, ha, hharmless⟩ := h
  have hsum : (addr + size).toNat = addr.toNat + size.toNat := by
    rw [BitVec.toNat_add, Nat.mod_eq_of_lt ha]
  have hi := hharmless i
  by_cases hall : Everything p i
  · obtain ⟨hmode, hg⟩ := hall
    have hlo : (napotRegion (p.entries i).addr).lo = 0 := by
      simpa [Harmless, region, hmode, Everything, hg] using hi
    have hsize := napotRegion_size_le hg
    have htop : (BitVec.allOnes 64).toNat = 2 ^ 64 - 1 := BitVec.toNat_allOnes
    simp only [accepts, entryRange, containsEntry, region, hmode, napotRange_of_le hg, Option.any_some,
      Region.contains,
      BitVec.le_def, hsum, htop, BitVec.toNat_ofNat, Nat.zero_mod, ← Bool.decide_and, decide_eq_decide]
    omega
  · cases hr : region p i with
    | none =>
      have hoff : PmpAddrMatch.fromCfg (p.entries i).cfg = .off := by
        cases hmode : PmpAddrMatch.fromCfg (p.entries i).cfg <;> simp [region, hmode] at hr ⊢
      simp [accepts, entryRange, containsEntry, hr, hoff]
    | some r =>
      obtain ⟨base, stop, hrange, hbase, hstop⟩ := entryRange_eq_some p hr hall
      have hwrap := hi r hr
      rw [if_neg hall] at hwrap
      simp only [accepts, hrange, containsEntry, hr, Option.any_some, Region.contains, BitVec.le_def,
        hsum, hbase, hstop, ← Bool.decide_and, decide_eq_decide]
      split at hwrap <;> omega

/-- A stricter test finds the same first element once it accepts that element. -/
theorem find?_of_imp {α : Type} {q r : α → Bool} (himp : ∀ x, r x = true → q x = true) (l : List α) {j : α}
    (hq : l.find? q = some j) (hr : r j = true) : l.find? r = some j := by
  induction l with
  | nil => cases hq
  | cons x l ih =>
    by_cases hx : q x = true
    · rw [List.find?_cons_of_pos hx, Option.some.injEq] at hq
      subst hq
      exact List.find?_cons_of_pos hr
    rw [List.find?_cons_of_neg hx] at hq
    rw [List.find?_cons_of_neg (fun hrx => hx (himp x hrx))]
    exact ih hq

theorem overlapsEntry_of_containsEntry (hs : 0 < size.toNat) (i : Fin 16)
    (h : containsEntry p addr size i = true) : overlapsEntry p addr size i = true := by
  unfold containsEntry at h
  unfold overlapsEntry
  cases hr : region p i with
  | none => rw [hr] at h; cases h
  | some r =>
    rw [hr] at h
    exact r.overlaps_of_contains hs h

theorem pick_eq_container (h : NoWrap p addr size) : pick p addr size = container p addr size := by
  unfold pick container
  rw [funext (accepts_eq_containsEntry h)]

/-- The lowest overlapping entry does not contain the access. -/
def Straddled (p : Pmp) (addr size : BitVec 64) : Prop :=
  ∃ j, decider p addr size = some j ∧ containsEntry p addr size j = false

/-- The lowest entry that does contain the access is locked and permits nothing. -/
def ShutOut (p : Pmp) (addr size : BitVec 64) : Prop :=
  ∃ i, container p addr size = some i ∧ has (p.entries i).cfg pmpL = true ∧
    ∀ access, has (p.entries i).cfg (kindBit access) = false

/-- With a whole access the loop settles on the specification's entry. -/
theorem pickRights_of_not_straddled (h : NoWrap p addr size)
    (hw : ¬ Straddled p addr size) : pickRights p addr size = specRights p addr size := by
  have himp : ∀ i, containsEntry p addr size i = true → overlapsEntry p addr size i = true :=
    overlapsEntry_of_containsEntry h.1
  unfold pickRights specRights
  rw [pick_eq_container h]
  cases hd : decider p addr size with
  | none =>
    have hc : container p addr size = none := by
      refine List.find?_eq_none.mpr fun i hi hcontains => ?_
      exact List.find?_eq_none.mp hd i hi (himp i hcontains)
    rw [hc]
  | some j =>
    have hj : containsEntry p addr size j = true := by
      cases hc : containsEntry p addr size j with
      | true => rfl
      | false => exact False.elim (hw ⟨j, hd, hc⟩)
    have hc : container p addr size = some j := find?_of_imp himp _ hd hj
    simp [hc, hj]

/-- A straddled access is denied to everyone, so the loop agrees exactly when the
entry it falls through to denies everyone as well. -/
theorem same_straddled_iff (h : NoWrap p addr size) (hw : Straddled p addr size) :
    (pickRights p addr size).Same (specRights p addr size) ↔ ShutOut p addr size := by
  obtain ⟨j, hd, hj⟩ := hw
  have hspec : specRights p addr size = .straddled := by simp [specRights, hd, hj]
  rw [hspec]
  unfold pickRights ShutOut
  rw [pick_eq_container h]
  cases container p addr size with
  | none => simpa [Rights.Same, Rights.unmatched, Rights.straddled] using (⟨.read⟩ : Nonempty AccessType)
  | some i =>
    simp only [Rights.Same, Rights.straddled, PmpEntry.rights, Option.some.injEq, exists_eq_left']
    constructor
    · rintro ⟨hnone, hl | hall⟩
      · exact ⟨hl, hnone⟩
      · have := hall .read
        rw [hnone] at this
        cases this
    · rintro ⟨hl, hnone⟩
      exact ⟨hnone, Or.inl hl⟩

/-- Entry 0 closes four bytes at `0x1004`; entry 1 opens all of memory. -/
def holeConfig : Pmp :=
  syncFromCsr (fun k => if k = 0 then 0x1F10#64 else 0#64)
    (fun i => if i = 0 then 0x401#64 else if i = 1 then BitVec.allOnes 64 else 0#64)

end MachinaPmp
