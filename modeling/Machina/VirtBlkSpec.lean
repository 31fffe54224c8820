import Machina.VirtBlk

/-!
# Which block requests are handled safely

In exact arithmetic a request either fits, or there is a first data descriptor that does
not. A request is handled safely when no sum wraps up to there and, where it does not
fit, the data moved before is already in place.
-/

namespace MachinaVirtBlkSpec

open MachinaCopies MachinaVirtQueue MachinaVirtBlk
open MachinaMemory (leWord leByte)

variable {code : BitVec 8} {status : Desc} {chain : List Desc} {m m' : Machine} {off total : Nat} {r : Request}

section Transfer

/-- A piece of the data, by its place in guest RAM and on the disk. -/
structure Piece where
  guest : Nat
  disk : Nat
  len : Nat
  deriving DecidableEq, Repr

def Piece.copy (intoGuest : Bool) (p : Piece) : Copy :=
  if intoGuest then ⟨p.disk, p.guest, p.len⟩ else ⟨p.guest, p.disk, p.len⟩

/-- The bytes of a descriptor are in guest RAM, and those of the disk from `off` on are on it. -/
def Fitting (m : Machine) (off : Nat) (desc : Desc) : Prop :=
  m.ram.base.toNat ≤ desc.addr.toNat ∧ desc.addr.toNat - m.ram.base.toNat + desc.len.toNat ≤ m.ram.size.toNat ∧
    off + desc.len.toNat ≤ m.diskSize

instance (m : Machine) (off : Nat) (desc : Desc) : Decidable (Fitting m off desc) :=
  inferInstanceAs (Decidable (_ ∧ _ ∧ _))

/-- The pieces up to the first descriptor that does not fit. -/
def pieces (m : Machine) : Nat → List Desc → List Piece
  | _, [] => []
  | off, desc :: rest =>
    if Fitting m off desc then
      ⟨desc.addr.toNat - m.ram.base.toNat, off, desc.len.toNat⟩ :: pieces m (off + desc.len.toNat) rest
    else []

def AllFit (m : Machine) : Nat → List Desc → Prop
  | _, [] => True
  | off, desc :: rest => Fitting m off desc ∧ AllFit m (off + desc.len.toNat) rest

/-- The ends of the ranges are 64-bit numbers. The end on the disk is only computed for bytes in guest RAM. -/
def EndsInRange (m : Machine) (off : Nat) (desc : Desc) : Prop :=
  m.ram.base.toNat ≤ desc.addr.toNat → desc.addr.toNat - m.ram.base.toNat + desc.len.toNat < 2 ^ 64 ∧
    (desc.addr.toNat - m.ram.base.toNat + desc.len.toNat ≤ m.ram.size.toNat → off + desc.len.toNat < 2 ^ 64)

/-- No end wraps, up to the first descriptor that does not fit and for that one. -/
def NoWrap (m : Machine) : Nat → List Desc → Prop
  | _, [] => True
  | off, desc :: rest => EndsInRange m off desc ∧ (Fitting m off desc → NoWrap m (off + desc.len.toNat) rest)

def directed (intoGuest : Bool) (descs : List Desc) : List Desc := descs.filter fun desc => desc.writable == intoGuest

/-- The bytes counted as written to the guest. -/
def counted (intoGuest : Bool) (ps : List Piece) : Nat := if intoGuest then (ps.map Piece.len).sum else 0

def movedAll (intoGuest : Bool) (m : Machine) : List Piece → Machine
  | [] => m
  | p :: ps => movedAll intoGuest (m.moved intoGuest p.guest p.disk p.len) ps

/-- The same blocks, with other contents. -/
structure SameBlocks (m m' : Machine) : Prop where
  base : m'.ram.base = m.ram.base
  size : m'.ram.size = m.ram.size
  capacity : m'.blk.capacity = m.blk.capacity

theorem sameBlocks_moved (m : Machine) (intoGuest : Bool) (guestOff diskOff len : Nat) :
    SameBlocks m (m.moved intoGuest guestOff diskOff len) := by
  cases intoGuest <;> exact ⟨rfl, rfl, rfl⟩

theorem SameBlocks.fitting (h : SameBlocks m m') : Fitting m' = Fitting m := by
  unfold Fitting Machine.diskSize
  rw [h.base, h.size, h.capacity]

theorem SameBlocks.pieces_eq (h : SameBlocks m m') (off : Nat) (descs : List Desc) :
    pieces m' off descs = pieces m off descs := by
  induction descs generalizing off with
  | nil => rfl
  | cons desc rest ih => simp [pieces, h.fitting, h.base, ih]

theorem SameBlocks.allFit_eq (h : SameBlocks m m') (off : Nat) (descs : List Desc) :
    AllFit m' off descs = AllFit m off descs := by
  induction descs generalizing off with
  | nil => rfl
  | cons desc rest ih => simp [AllFit, h.fitting, ih]

theorem SameBlocks.noWrap_eq (h : SameBlocks m m') (off : Nat) (descs : List Desc) :
    NoWrap m' off descs = NoWrap m off descs := by
  induction descs generalizing off with
  | nil => rfl
  | cons desc rest ih => simp [NoWrap, EndsInRange, h.fitting, h.base, h.size, ih]

theorem SameBlocks.diskSize_eq (h : SameBlocks m m') : m'.diskSize = m.diskSize := by
  rw [Machine.diskSize, Machine.diskSize, h.capacity]

/-- What the loop does with a descriptor of its direction. -/
theorem transferLoop_cons {intoGuest : Bool} {desc : Desc} {rest : List Desc} (hdir : desc.writable = intoGuest) :
    transferLoop intoGuest m.diskSize m off total (desc :: rest) =
      if desc.addr.toNat < m.ram.base.toNat then .ok (virtioBlkSIoerr, m, total)
      else if 2 ^ 64 ≤ desc.addr.toNat - m.ram.base.toNat + desc.len.toNat then .error .wraps
      else if m.ram.size.toNat < desc.addr.toNat - m.ram.base.toNat + desc.len.toNat then
        .ok (virtioBlkSIoerr, m, total)
      else if 2 ^ 64 ≤ off + desc.len.toNat then .error .wraps
      else if m.diskSize < off + desc.len.toNat then .ok (virtioBlkSIoerr, m, total)
      else if intoGuest ∧ 2 ^ 32 ≤ total + desc.len.toNat then .error .wraps
      else
        transferLoop intoGuest m.diskSize
          (m.moved intoGuest (desc.addr.toNat - m.ram.base.toNat) off desc.len.toNat) (off + desc.len.toNat)
          (if intoGuest then total + desc.len.toNat else total) rest := by
  rw [transferLoop, if_neg (not_not_intro hdir)]
  by_cases hbelow : desc.addr.toNat < m.ram.base.toNat
  · rw [if_pos hbelow, checkedSub_of_lt hbelow]
  rw [if_neg hbelow, checkedSub_of_le (Nat.le_of_not_lt hbelow)]
  dsimp only [bind, Except.bind, pure, Except.pure]
  by_cases hguest : 2 ^ 64 ≤ desc.addr.toNat - m.ram.base.toNat + desc.len.toNat
  · rw [if_pos hguest, add64, if_neg (Nat.not_lt.mpr hguest)]
  rw [if_neg hguest, add64, if_pos (Nat.lt_of_not_le hguest)]
  dsimp only
  by_cases hram : m.ram.size.toNat < desc.addr.toNat - m.ram.base.toNat + desc.len.toNat
  · rw [if_pos hram, if_pos hram]
  rw [if_neg hram, if_neg hram]
  by_cases hdisk : 2 ^ 64 ≤ off + desc.len.toNat
  · rw [if_pos hdisk, add64, if_neg (Nat.not_lt.mpr hdisk)]
  rw [if_neg hdisk, add64, if_pos (Nat.lt_of_not_le hdisk)]
  dsimp only
  by_cases hcap : m.diskSize < off + desc.len.toNat
  · rw [if_pos hcap, if_pos hcap]
  rw [if_neg hcap, if_neg hcap, Machine.copyNonoverlapping, if_pos ⟨Nat.le_of_not_lt hram, Nat.le_of_not_lt hcap⟩]
  cases intoGuest with
  | false => rfl
  | true =>
    by_cases hcount : 2 ^ 32 ≤ total + desc.len.toNat
    · simp only [if_true, add32, if_neg (Nat.not_lt.mpr hcount), hcount, and_self]
    · simp only [if_true, add32, if_pos (Nat.lt_of_not_le hcount), hcount, and_false, if_false]

section Step

variable {intoGuest : Bool} {m : Machine} {off total : Nat} {desc : Desc} {rest : List Desc}

theorem transferLoop_skip (hdir : desc.writable ≠ intoGuest) :
    transferLoop intoGuest m.diskSize m off total (desc :: rest) =
      transferLoop intoGuest m.diskSize m off total rest := by
  rw [transferLoop, if_pos hdir]

theorem transferLoop_fit (hdir : desc.writable = intoGuest) (hfit : Fitting m off desc)
    (hcount : total + (if intoGuest then desc.len.toNat else 0) < 2 ^ 32) :
    transferLoop intoGuest m.diskSize m off total (desc :: rest) =
      transferLoop intoGuest m.diskSize (m.moved intoGuest (desc.addr.toNat - m.ram.base.toNat) off desc.len.toNat)
        (off + desc.len.toNat) (total + (if intoGuest then desc.len.toNat else 0)) rest := by
  obtain ⟨hbase, hguest, hdisk⟩ := hfit
  have hsized : m.diskSize < 2 ^ 64 := m.blk.sized
  rw [transferLoop_cons hdir, if_neg (by omega), if_neg (by omega), if_neg (by omega), if_neg (by omega),
    if_neg (by omega), if_neg]
  · cases intoGuest <;> rfl
  rintro ⟨rfl, hover⟩
  rw [if_pos rfl] at hcount
  omega

theorem transferLoop_misfit (hdir : desc.writable = intoGuest) (hfit : ¬Fitting m off desc)
    (hends : EndsInRange m off desc) :
    transferLoop intoGuest m.diskSize m off total (desc :: rest) = .ok (virtioBlkSIoerr, m, total) := by
  rw [transferLoop_cons hdir]
  by_cases hbelow : desc.addr.toNat < m.ram.base.toNat
  · rw [if_pos hbelow]
  obtain ⟨hguest, hdisk⟩ := hends (by omega)
  rw [if_neg hbelow, if_neg (by omega)]
  by_cases hram : m.ram.size.toNat < desc.addr.toNat - m.ram.base.toNat + desc.len.toNat
  · rw [if_pos hram]
  have hcap : m.diskSize < off + desc.len.toNat :=
    Nat.lt_of_not_le fun h => hfit ⟨Nat.le_of_not_lt hbelow, Nat.le_of_not_lt hram, h⟩
  rw [if_neg hram, if_neg (Nat.not_le.mpr (hdisk (by omega))), if_pos hcap]

theorem transferLoop_wraps (hdir : desc.writable = intoGuest) (hends : ¬EndsInRange m off desc) :
    transferLoop intoGuest m.diskSize m off total (desc :: rest) = .error .wraps := by
  rw [EndsInRange] at hends
  push Not at hends
  obtain ⟨hbase, hends⟩ := hends
  rw [transferLoop_cons hdir, if_neg (by omega)]
  by_cases hguest : 2 ^ 64 ≤ desc.addr.toNat - m.ram.base.toNat + desc.len.toNat
  · rw [if_pos hguest]
  · obtain ⟨hram, hdisk⟩ := hends (by omega)
    rw [if_neg hguest, if_neg (by omega), if_pos hdisk]

theorem transferLoop_overflows (hdir : desc.writable = intoGuest) (hfit : Fitting m off desc)
    (hcount : 2 ^ 32 ≤ total + (if intoGuest then desc.len.toNat else 0)) (htotal : total < 2 ^ 32) :
    transferLoop intoGuest m.diskSize m off total (desc :: rest) = .error .wraps := by
  obtain ⟨hbase, hguest, hdisk⟩ := hfit
  have hsized : m.diskSize < 2 ^ 64 := m.blk.sized
  rw [transferLoop_cons hdir, if_neg (by omega), if_neg (by omega), if_neg (by omega), if_neg (by omega),
    if_neg (by omega), if_pos]
  cases intoGuest with
  | false => exact absurd hcount (Nat.not_le.mpr htotal)
  | true => exact ⟨rfl, hcount⟩

theorem counted_cons (p : Piece) (ps : List Piece) :
    counted intoGuest (p :: ps) = (if intoGuest then p.len else 0) + counted intoGuest ps := by
  cases intoGuest <;> simp [counted]

theorem directed_cons_of_eq (hdir : desc.writable = intoGuest) :
    directed intoGuest (desc :: rest) = desc :: directed intoGuest rest :=
  List.filter_cons_of_pos (beq_iff_eq.mpr hdir)

theorem directed_cons_of_ne (hdir : desc.writable ≠ intoGuest) :
    directed intoGuest (desc :: rest) = directed intoGuest rest :=
  List.filter_cons_of_neg fun h => hdir (beq_iff_eq.mp h)

end Step

/-- The loop moves the pieces that fit, and reports an error when there are others. -/
theorem transferLoop_ok {intoGuest : Bool} (descs : List Desc) (hsums : NoWrap m off (directed intoGuest descs))
    (hcount : total + counted intoGuest (pieces m off (directed intoGuest descs)) < 2 ^ 32) :
    ∃ status, transferLoop intoGuest m.diskSize m off total descs =
        .ok (status, movedAll intoGuest m (pieces m off (directed intoGuest descs)),
          total + counted intoGuest (pieces m off (directed intoGuest descs))) ∧
      (status = virtioBlkSOk ↔ AllFit m off (directed intoGuest descs)) := by
  induction descs generalizing m off total with
  | nil => cases intoGuest <;> exact ⟨virtioBlkSOk, rfl, iff_of_true rfl trivial⟩
  | cons desc rest ih =>
    by_cases hdir : desc.writable = intoGuest
    · rw [directed_cons_of_eq hdir] at hsums hcount ⊢
      obtain ⟨hends, hlater⟩ := hsums
      by_cases hfit : Fitting m off desc
      · rw [pieces, if_pos hfit, counted_cons, ← Nat.add_assoc] at hcount ⊢
        have hsame := sameBlocks_moved m intoGuest (desc.addr.toNat - m.ram.base.toNat) off desc.len.toNat
        rw [transferLoop_fit hdir hfit (by dsimp only at hcount; omega), ← hsame.diskSize_eq]
        rw [← hsame.pieces_eq] at hcount ⊢
        obtain ⟨status, heq, hstatus⟩ := ih (hsame.noWrap_eq _ _ ▸ hlater hfit) hcount
        refine ⟨status, heq, hstatus.trans ?_⟩
        rw [hsame.allFit_eq]
        exact (and_iff_right hfit).symm
      · rw [pieces, if_neg hfit]
        refine ⟨virtioBlkSIoerr, ?_, iff_of_false (by decide) fun h => hfit h.1⟩
        rw [transferLoop_misfit hdir hfit hends]
        cases intoGuest <;> rfl
    · rw [directed_cons_of_ne hdir] at hsums hcount ⊢
      rw [transferLoop_skip hdir]
      exact ih hsums hcount

/-- Nothing else than a sum that wraps stops the loop. -/
theorem transferLoop_fault {intoGuest : Bool} (descs : List Desc) (htotal : total < 2 ^ 32)
    (hwrap : ¬(NoWrap m off (directed intoGuest descs) ∧
      total + counted intoGuest (pieces m off (directed intoGuest descs)) < 2 ^ 32)) :
    transferLoop intoGuest m.diskSize m off total descs = .error .wraps := by
  induction descs generalizing m off total with
  | nil => cases intoGuest <;> exact absurd ⟨trivial, htotal⟩ hwrap
  | cons desc rest ih =>
    by_cases hdir : desc.writable = intoGuest
    · rw [directed_cons_of_eq hdir] at hwrap
      by_cases hends : EndsInRange m off desc
      · by_cases hfit : Fitting m off desc
        · rw [pieces, if_pos hfit, counted_cons, ← Nat.add_assoc] at hwrap
          have hsame := sameBlocks_moved m intoGuest (desc.addr.toNat - m.ram.base.toNat) off desc.len.toNat
          by_cases hcount : total + (if intoGuest then desc.len.toNat else 0) < 2 ^ 32
          · rw [transferLoop_fit hdir hfit hcount, ← hsame.diskSize_eq]
            refine ih hcount fun h => hwrap ⟨⟨hends, fun _ => hsame.noWrap_eq _ _ ▸ h.1⟩, ?_⟩
            rw [← hsame.pieces_eq]
            exact h.2
          · exact transferLoop_overflows hdir hfit (Nat.le_of_not_lt hcount) htotal
        · rw [pieces, if_neg hfit] at hwrap
          refine absurd ⟨⟨hends, fun h => absurd h hfit⟩, ?_⟩ hwrap
          cases intoGuest <;> exact htotal
      · exact transferLoop_wraps hdir hends
    · rw [directed_cons_of_ne hdir] at hwrap
      rw [transferLoop_skip hdir]
      exact ih htotal hwrap

end Transfer

section Request

/-- A request whose header the device can read. -/
structure Request where
  reqType : BitVec 32
  sector : BitVec 64
  data : List Desc
  status : Desc

section

variable (m : Machine)

/-- The request of a chain with a header of 16 bytes in guest RAM. -/
def request : List Desc → Option Request
  | hdr :: desc :: rest =>
    if m.ram.base.toNat ≤ hdr.addr.toNat ∧ hdr.addr.toNat - m.ram.base.toNat + 16 ≤ m.ram.size.toNat ∧
        16 ≤ hdr.len.toNat then
      some ⟨(leWord (fun i => m.ram.bytes (hdr.addr.toNat - m.ram.base.toNat + i)) 4).setWidth 32,
        leWord (fun i => m.ram.bytes (hdr.addr.toNat - m.ram.base.toNat + 8 + i)) 8,
        (desc :: rest).dropLast, (desc :: rest).getLast (List.cons_ne_nil desc rest)⟩
    else none
  | _ => none

/-- The direction of the data; other types have none. -/
def Request.intoGuest (r : Request) : Option Bool :=
  if r.reqType = virtioBlkTIn then some true else if r.reqType = virtioBlkTOut then some false else none

/-- Where the data of the request starts on the disk. -/
def Request.start (r : Request) : Nat := r.sector.toNat * sectorSize

def StatusFits (status : Desc) : Prop :=
  m.ram.base.toNat ≤ status.addr.toNat ∧ status.addr.toNat - m.ram.base.toNat < m.ram.size.toNat

def Request.DataFits (r : Request) : Prop :=
  ∀ intoGuest, r.intoGuest = some intoGuest → AllFit m r.start (directed intoGuest r.data)

/-- All ranges of the request are inside guest RAM and inside the disk. -/
def Fits (chain : List Desc) : Prop :=
  ∃ r, request m chain = some r ∧ r.DataFits m ∧ StatusFits m r.status

/-- The request is skipped, or completed with an error status and nothing else. -/
def Refused (chain : List Desc) (m' : Machine) : Prop :=
  m' = m ∨ ∃ status ∈ chain.getLast?, statusValid m status = true ∧
    ∃ code, code ≠ virtioBlkSOk ∧ m' = { m with ram := m.ram.store (statusOff m status) 1 (code.setWidth 64) }

/-- The request is processed without a fault, and refused if it does not fit. -/
def HandledRight (chain : List Desc) : Prop :=
  ∃ m' written, processRequest m chain = .ok (m', written) ∧ (¬Fits m chain → Refused m chain m')

/-- The end of the header is a 64-bit number. -/
def HeaderInRange : List Desc → Prop
  | hdr :: _ :: _ => m.ram.base.toNat ≤ hdr.addr.toNat → hdr.addr.toNat - m.ram.base.toNat + 16 < 2 ^ 64
  | _ => True

/-- What lands in the target is there already; the status byte does not matter where it is written afterwards. -/
def InPlace (intoGuest : Bool) (ps : List Piece) (status : Desc) : Prop :=
  if intoGuest then
    ∀ a, (statusValid m status = true → a ≠ statusOff m status) →
      ∀ s, lands (ps.map (Piece.copy true)) a = some s → m.blk.image s = m.ram.bytes a
  else ∀ a s, lands (ps.map (Piece.copy false)) a = some s → m.ram.bytes s = m.blk.image a

end

/-- A data transfer without a sum that wraps, with the data in place if the request does not fit. -/
structure SafeTransfer (m : Machine) (r : Request) (intoGuest : Bool) : Prop where
  sums : NoWrap m r.start (directed intoGuest r.data)
  count : counted intoGuest (pieces m r.start (directed intoGuest r.data)) +
    (if statusValid m r.status then 1 else 0) < 2 ^ 32
  inPlace : ¬(AllFit m r.start (directed intoGuest r.data) ∧ StatusFits m r.status) →
    InPlace m intoGuest (pieces m r.start (directed intoGuest r.data)) r.status

/-- The condition on a request, in the state it is processed in. -/
def SafeRequest (m : Machine) (chain : List Desc) : Prop :=
  HeaderInRange m chain ∧ ∀ r, request m chain = some r → r.start < 2 ^ 64 →
    ∀ intoGuest, r.intoGuest = some intoGuest → SafeTransfer m r intoGuest

theorem SameBlocks.refl (m : Machine) : SameBlocks m m := ⟨rfl, rfl, rfl⟩

theorem sameBlocks_movedAll (intoGuest : Bool) (m : Machine) (ps : List Piece) :
    SameBlocks m (movedAll intoGuest m ps) := by
  induction ps generalizing m with
  | nil => exact SameBlocks.refl m
  | cons p ps ih =>
    have hfirst := sameBlocks_moved m intoGuest p.guest p.disk p.len
    have hrest := ih (m.moved intoGuest p.guest p.disk p.len)
    exact ⟨hrest.base.trans hfirst.base, hrest.size.trans hfirst.size, hrest.capacity.trans hfirst.capacity⟩

theorem movedAll_true (m : Machine) (ps : List Piece) : (movedAll true m ps).blk = m.blk ∧
      (movedAll true m ps).ram.bytes = copyAll m.blk.image m.ram.bytes (ps.map (Piece.copy true)) := by
  induction ps generalizing m with
  | nil => exact ⟨rfl, rfl⟩
  | cons p ps ih => exact ih (m.moved true p.guest p.disk p.len)

theorem movedAll_false (m : Machine) (ps : List Piece) : (movedAll false m ps).ram = m.ram ∧
      (movedAll false m ps).blk.image = copyAll m.ram.bytes m.blk.image (ps.map (Piece.copy false)) := by
  induction ps generalizing m with
  | nil => exact ⟨rfl, rfl⟩
  | cons p ps ih => exact ih (m.moved false p.guest p.disk p.len)

/-- Nothing but the status byte, where it is written, may differ. -/
def Unchanged (m m' : Machine) (status : Desc) : Prop :=
  m'.blk.image = m.blk.image ∧
    ∀ a, (statusValid m status = true → a ≠ statusOff m status) → m'.ram.bytes a = m.ram.bytes a

theorem unchanged_movedAll_iff (m : Machine) (intoGuest : Bool) (ps : List Piece) (status : Desc) :
    Unchanged m (movedAll intoGuest m ps) status ↔ InPlace m intoGuest ps status := by
  cases intoGuest with
  | true =>
    obtain ⟨hblk, hbytes⟩ := movedAll_true m ps
    rw [Unchanged, hblk, hbytes, InPlace, if_pos rfl]
    simp [copyAll_eq_iff]
  | false =>
    obtain ⟨hram, himage⟩ := movedAll_false m ps
    rw [Unchanged, hram, himage, InPlace, if_neg Bool.false_ne_true]
    simp [funext_iff, copyAll_eq_iff]

/-- The machine after the status byte has been written. -/
def completed (m m' : Machine) (code : BitVec 8) (status : Desc) : Machine :=
  if statusValid m status then { m' with ram := m'.ram.store (statusOff m status) 1 (code.setWidth 64) } else m'

theorem machine_ext (h : SameBlocks m m') (himage : m'.blk.image = m.blk.image)
    (hbytes : m'.ram.bytes = m.ram.bytes) : m' = m := by
  obtain ⟨⟨base, size, bytes⟩, ⟨image, capacity, sized⟩⟩ := m
  obtain ⟨⟨base', size', bytes'⟩, ⟨image', capacity', sized'⟩⟩ := m'
  obtain ⟨hbase, hsize, hcapacity⟩ := h
  subst hbase hsize hcapacity himage hbytes
  rfl

@[simp] theorem store_status (ram : Ram) (off : Nat) (code : BitVec 8) :
    (ram.store off 1 (code.setWidth 64)).bytes = fun a => if a = off then code else ram.bytes a := by
  funext a
  have hiff : off ≤ a ∧ a < off + 1 ↔ a = off := by omega
  simp only [Ram.store, hiff]
  split
  · rename_i h
    simp [leByte, h]
  · rfl

theorem Refused.unchanged (h : Refused m chain m') (hlast : chain.getLast? = some status) : Unchanged m m' status := by
  rcases h with rfl | ⟨status', hlast', hvalid, code, -, rfl⟩
  · exact ⟨rfl, fun a _ => rfl⟩
  obtain rfl := Option.some.inj (hlast.symm.trans hlast')
  refine ⟨rfl, fun a ha => ?_⟩
  rw [store_status]
  exact if_neg (ha hvalid)

theorem unchanged_completed_iff (m m' : Machine) (code : BitVec 8) (status : Desc) :
    Unchanged m (completed m m' code status) status ↔ Unchanged m m' status := by
  rw [completed]
  split
  · rename_i hvalid
    refine and_congr_right fun _ => forall_congr' fun a => forall_congr' fun ha => ?_
    rw [store_status]
    dsimp only
    rw [if_neg (ha hvalid)]
  · rfl

theorem refused_completed_iff (hsame : SameBlocks m m') (hlast : chain.getLast? = some status)
    (hcode : statusValid m status = true → code ≠ virtioBlkSOk) :
    Refused m chain (completed m m' code status) ↔ Unchanged m m' status := by
  refine ⟨fun h => (unchanged_completed_iff m m' code status).mp (h.unchanged hlast), fun ⟨himage, hbytes⟩ => ?_⟩
  by_cases hvalid : statusValid m status = true
  · refine .inr ⟨status, hlast, hvalid, code, hcode hvalid, ?_⟩
    rw [completed, if_pos hvalid]
    refine machine_ext ⟨hsame.base, hsame.size, hsame.capacity⟩ himage ?_
    rw [store_status, store_status]
    funext a
    by_cases ha : a = statusOff m status
    · rw [if_pos ha, if_pos ha]
    · rw [if_neg ha, if_neg ha, hbytes a fun _ => ha]
  · rw [completed, if_neg hvalid]
    exact .inl (machine_ext hsame himage (funext fun a => hbytes a fun h => absurd h hvalid))

def Request.transferred (m : Machine) (r : Request) : Except Fault (BitVec 8 × Machine × Nat) :=
  match r.intoGuest with
  | some intoGuest => transfer intoGuest m r.sector r.data
  | none => .ok (virtioBlkSUnsupp, m, 0)

theorem execute_eq (m : Machine) (r : Request) :
    execute m r.reqType r.sector r.data r.status = r.transferred m >>= fun (code, m', total) =>
      if statusValid m r.status then do
        let ram ← m'.ram.write (statusOff m r.status) 1 (code.setWidth 64)
        let total ← add32 total 1
        return ({ m' with ram }, total)
      else return (m', total) := by
  rw [execute, Request.transferred, Request.intoGuest]
  split_ifs <;> rfl

theorem statusOff_lt (h : statusValid m status = true) :
    statusOff m status < m.ram.size.toNat := of_decide_eq_true (Bool.and_eq_true_iff.mp h).1

theorem statusFits_of_valid (h : statusValid m status = true) : StatusFits m status := by
  have hlt := statusOff_lt h
  rw [statusOff] at hlt
  by_cases hbase : m.ram.base.toNat ≤ status.addr.toNat
  · rw [checkedSub_of_le hbase] at hlt
    exact ⟨hbase, hlt⟩
  · rw [checkedSub_of_lt (Nat.lt_of_not_le hbase), Option.getD_none] at hlt
    omega

theorem execute_ok (hdata : r.transferred m = .ok (code, m', total)) (hsame : SameBlocks m m')
    (hcount : total + (if statusValid m r.status then 1 else 0) < 2 ^ 32) :
    execute m r.reqType r.sector r.data r.status =
      .ok (completed m m' code r.status, total + (if statusValid m r.status then 1 else 0)) := by
  rw [execute_eq, hdata, completed]
  dsimp only [bind, Except.bind]
  split
  · rename_i hvalid
    have hlt := statusOff_lt hvalid
    rw [if_pos hvalid] at hcount
    rw [Ram.write_inside (by rw [hsame.size]; omega), add32, if_pos hcount]
    rfl
  · rfl

theorem execute_overflows
    (hdata : r.transferred m = .ok (code, m', total)) (hsame : SameBlocks m m') (htotal : total < 2 ^ 32)
    (hcount : 2 ^ 32 ≤ total + (if statusValid m r.status then 1 else 0)) :
    execute m r.reqType r.sector r.data r.status = .error .wraps := by
  rw [execute_eq, hdata]
  dsimp only [bind, Except.bind]
  split at hcount
  · rename_i hvalid
    have hlt := statusOff_lt hvalid
    rw [if_pos hvalid, Ram.write_inside (by rw [hsame.size]; omega), add32, if_neg (Nat.not_lt.mpr hcount)]
  · omega

theorem transferred_near {intoGuest : Bool} (hdir : r.intoGuest = some intoGuest)
    (hstart : r.start < 2 ^ 64) : r.transferred m = transferLoop intoGuest m.diskSize m r.start 0 r.data := by
  rw [Request.transferred, hdir]
  dsimp only
  rw [Request.start] at hstart
  rw [transfer, checkedMul, if_pos hstart, mul64, if_pos m.blk.sized]
  rfl

/-- A type without data, or a sector number out of range. -/
theorem transferred_untouched (h : r.start < 2 ^ 64 → r.intoGuest = none) :
    ∃ code, code ≠ virtioBlkSOk ∧ r.transferred m = .ok (code, m, 0) := by
  rw [Request.transferred]
  cases hdir : r.intoGuest with
  | none => exact ⟨virtioBlkSUnsupp, by decide, rfl⟩
  | some intoGuest =>
    have hfar : ¬r.sector.toNat * sectorSize < 2 ^ 64 := fun hstart => nomatch hdir.symm.trans (h hstart)
    refine ⟨virtioBlkSIoerr, by decide, ?_⟩
    dsimp only
    rw [transfer, checkedMul, if_neg hfar]

theorem processRequest_of_some (hr : request m chain = some r) :
    processRequest m chain = execute m r.reqType r.sector r.data r.status ∧ chain.getLast? = some r.status := by
  match chain with
  | [] | [_] => cases hr
  | hdr :: desc :: rest =>
    rw [request] at hr
    split at hr
    · rename_i hfit
      obtain ⟨hbase, hend, hlen⟩ := hfit
      obtain rfl := Option.some.inj hr
      refine ⟨?_, List.getLast?_eq_some_getLast (List.cons_ne_nil hdr _)⟩
      rw [processRequest, checkedSub_of_le hbase]
      dsimp only [bind, Except.bind]
      rw [add64, if_pos (by omega)]
      dsimp only
      rw [if_neg (by omega), if_neg (by omega), Ram.read_inside (by omega)]
      rw [Ram.read_inside (by omega)]
    · cases hr

theorem processRequest_of_none (hr : request m chain = none)
    (hhdr : HeaderInRange m chain) : processRequest m chain = .ok (m, 0) := by
  match chain with
  | [] | [_] => rfl
  | hdr :: desc :: rest =>
    rw [request] at hr
    split at hr
    · cases hr
    rename_i hfit
    rw [processRequest]
    by_cases hbase : m.ram.base.toNat ≤ hdr.addr.toNat
    · rw [checkedSub_of_le hbase]
      dsimp only [bind, Except.bind]
      rw [add64, if_pos (hhdr hbase)]
      dsimp only
      split
      · rfl
      rw [if_pos]
      · rfl
      · exact Nat.lt_of_not_le fun hlen => hfit ⟨hbase, by omega, hlen⟩
    · rw [checkedSub_of_lt (Nat.lt_of_not_le hbase)]

theorem processRequest_wraps (hhdr : ¬HeaderInRange m chain) : processRequest m chain = .error .wraps := by
  match chain with
  | [] | [_] => exact absurd trivial hhdr
  | hdr :: desc :: rest =>
    rw [HeaderInRange] at hhdr
    push Not at hhdr
    rw [processRequest, checkedSub_of_le hhdr.1]
    dsimp only [bind, Except.bind]
    rw [add64, if_neg (Nat.not_lt.mpr hhdr.2)]

section Handled

variable {m : Machine} {chain : List Desc} {r : Request}

theorem fits_iff (hr : request m chain = some r) {intoGuest : Bool} (hdir : r.intoGuest = some intoGuest) :
    Fits m chain ↔ AllFit m r.start (directed intoGuest r.data) ∧ StatusFits m r.status := by
  constructor
  · rintro ⟨r', hr', hdata, hstatus⟩
    obtain rfl := Option.some.inj (hr.symm.trans hr')
    exact ⟨hdata intoGuest hdir, hstatus⟩
  · rintro ⟨hdata, hstatus⟩
    refine ⟨r, hr, fun dir h => ?_, hstatus⟩
    obtain rfl := Option.some.inj (hdir.symm.trans h)
    exact hdata

theorem handledRight_of_untouched (hr : request m chain = some r) (hcode : code ≠ virtioBlkSOk)
    (hdata : r.transferred m = .ok (code, m, 0)) : HandledRight m chain := by
  obtain ⟨heq, hlast⟩ := processRequest_of_some hr
  have hdone := execute_ok hdata (SameBlocks.refl m) (by split <;> decide)
  refine ⟨_, _, heq.trans hdone, fun _ => ?_⟩
  exact (refused_completed_iff (SameBlocks.refl m) hlast fun _ => hcode).mpr ⟨rfl, fun _ _ => rfl⟩

theorem handledRight_iff_safeTransfer (hr : request m chain = some r) {intoGuest : Bool}
    (hdir : r.intoGuest = some intoGuest) (hstart : r.start < 2 ^ 64) :
    HandledRight m chain ↔ SafeTransfer m r intoGuest := by
  obtain ⟨heq, hlast⟩ := processRequest_of_some hr
  have hnear := transferred_near (m := m) hdir hstart
  have hblocks := sameBlocks_movedAll intoGuest m (pieces m r.start (directed intoGuest r.data))
  rw [HandledRight, fits_iff hr hdir, heq]
  by_cases hsafe : NoWrap m r.start (directed intoGuest r.data) ∧
      0 + counted intoGuest (pieces m r.start (directed intoGuest r.data)) < 2 ^ 32
  · obtain ⟨code, hloop, hcode⟩ := transferLoop_ok r.data hsafe.1 hsafe.2
    have hdata := hnear.trans hloop
    rw [Nat.zero_add] at hdata
    have hrefused (hmisfit : ¬(AllFit m r.start (directed intoGuest r.data) ∧ StatusFits m r.status)) :=
      (refused_completed_iff hblocks hlast fun hvalid hok =>
        hmisfit ⟨hcode.mp hok, statusFits_of_valid hvalid⟩).trans
        (unchanged_movedAll_iff m intoGuest (pieces m r.start (directed intoGuest r.data)) r.status)
    by_cases hcount : counted intoGuest (pieces m r.start (directed intoGuest r.data)) +
        (if statusValid m r.status then 1 else 0) < 2 ^ 32
    · rw [execute_ok hdata hblocks hcount]
      constructor
      · rintro ⟨m', written', hm', hrefuse⟩
        cases hm'
        exact ⟨hsafe.1, hcount, fun hmisfit => (hrefused hmisfit).mp (hrefuse hmisfit)⟩
      · intro h
        exact ⟨_, _, rfl, fun hmisfit => (hrefused hmisfit).mpr (h.inPlace hmisfit)⟩
    · rw [execute_overflows hdata hblocks (by omega) (Nat.le_of_not_lt hcount)]
      exact iff_of_false (fun ⟨_, _, h, _⟩ => nomatch h) fun h => hcount h.count
  · have hfault := hnear.trans (transferLoop_fault r.data (by decide) hsafe)
    rw [execute_eq, hfault]
    refine iff_of_false (fun ⟨_, _, h, _⟩ => nomatch h) fun h => hsafe ⟨h.sums, ?_⟩
    have := h.count
    omega

theorem handledRight_iff (m : Machine) (chain : List Desc) : HandledRight m chain ↔ SafeRequest m chain := by
  by_cases hhdr : HeaderInRange m chain
  · rw [SafeRequest, and_iff_right hhdr]
    cases hr : request m chain with
    | none =>
      refine iff_of_true ⟨m, 0, processRequest_of_none hr hhdr, fun _ => .inl rfl⟩ nofun
    | some r =>
      by_cases hdata : r.start < 2 ^ 64 → r.intoGuest = none
      · obtain ⟨code, hcode, heq⟩ := transferred_untouched (m := m) hdata
        refine iff_of_true (handledRight_of_untouched hr hcode heq) fun r' hr' hstart dir hdir => ?_
        obtain rfl := Option.some.inj hr'
        exact nomatch hdir.symm.trans (hdata hstart)
      · push Not at hdata
        obtain ⟨hstart, hdir⟩ := hdata
        obtain ⟨intoGuest, hdir⟩ := Option.ne_none_iff_exists'.mp hdir
        rw [handledRight_iff_safeTransfer hr hdir hstart]
        constructor
        · intro h r' hr' _ dir hdir'
          obtain rfl := Option.some.inj hr'
          obtain rfl := Option.some.inj (hdir.symm.trans hdir')
          exact h
        · intro h
          exact h r rfl hstart intoGuest hdir
  · refine iff_of_false ?_ fun h => hhdr h.1
    rintro ⟨m', written, h, -⟩
    rw [processRequest_wraps hhdr] at h
    cases h

end Handled

end Request

section Queue

theorem chain_safe (s : Loop) : Safe s.chain :=
  (readAvailRing_safe _).bind fun _ _ => (walkFrom_safe _ _).bind fun _ _ => Safe.ok _

theorem serveOne_safe_iff {s : Loop} {descHead : BitVec 16} (hchain : s.chain = .ok (descHead, chain)) :
    Safe s.serveOne ↔ Safe (processRequest s.m chain) := by
  constructor
  · rintro ⟨t, ht⟩
    rw [Loop.serveOne, hchain] at ht
    obtain ⟨⟨m, written⟩, hm, -⟩ := bind_ok (x := processRequest s.m chain) ht
    exact ⟨_, hm⟩
  · intro h
    rw [Loop.serveOne, hchain]
    exact h.bind fun _ _ => (writeUsed_safe _ _ _).bind fun _ _ => Safe.ok _

/-- The queue is handled without a fault, and every request that is served is handled right. -/
structure QueueHandled (m : Machine) (queue : VirtQueue) : Prop where
  safe : Safe (handleQueue m queue)
  requests : ∀ first processed, startLoop m queue = .ok (some (first, processed)) → ∀ k < processed,
    ∀ s descHead chain, first.serve k = .ok s → s.chain = .ok (descHead, chain) → HandledRight s.m chain

/-- The index of the available ring can be read, and every request is safe in the state it is served in. -/
structure SafeQueue (m : Machine) (queue : VirtQueue) : Prop where
  avail : AvailReadable queue m.ram
  requests : ∀ first processed, startLoop m queue = .ok (some (first, processed)) → ∀ k < processed,
    ∀ s descHead chain, first.serve k = .ok s → s.chain = .ok (descHead, chain) → SafeRequest s.m chain

theorem serve_safe {first : Loop} {n : Nat}
    (h : ∀ k < n, ∀ s descHead chain, first.serve k = .ok s → s.chain = .ok (descHead, chain) →
      HandledRight s.m chain) :
    Safe (first.serve n) := by
  induction n with
  | zero => exact Safe.ok _
  | succ n ih =>
    apply (ih fun k hk => h k (by omega)).bind
    intro s hs
    obtain ⟨⟨descHead, chain⟩, hchain⟩ := chain_safe s
    obtain ⟨m', written, hm', -⟩ := h n (by omega) s descHead chain hs hchain
    exact (serveOne_safe_iff hchain).mpr ⟨_, hm'⟩

theorem startLoop_safe_iff (m : Machine) (queue : VirtQueue) :
    Safe (startLoop m queue) ↔ AvailReadable queue m.ram := by
  rw [← readAvailIdx_safe_iff]
  constructor
  · rintro ⟨r, hr⟩
    obtain ⟨availIdx, havail, -⟩ := bind_ok hr
    exact ⟨availIdx, havail⟩
  · intro h
    apply h.bind
    intro availIdx _
    apply readUsedIdx_safe.bind
    intro used _
    cases used <;> exact Safe.ok _

/-- A queue is handled right exactly when it is safe. -/
theorem queue_handled_iff (m : Machine) (queue : VirtQueue) : QueueHandled m queue ↔ SafeQueue m queue := by
  constructor
  · rintro ⟨⟨r, hr⟩, hrequests⟩
    obtain ⟨start, hstart, -⟩ := bind_ok hr
    refine ⟨(startLoop_safe_iff m queue).mp ⟨start, hstart⟩, fun first n hfirst k hk s descHead chain hs hchain => ?_⟩
    exact (handledRight_iff s.m chain).mp (hrequests first n hfirst k hk s descHead chain hs hchain)
  · rintro ⟨havail, hrequests⟩
    have hright (first n hfirst k hk s descHead chain hs hchain) :=
      (handledRight_iff s.m chain).mpr (hrequests first n hfirst k hk s descHead chain hs hchain)
    refine ⟨((startLoop_safe_iff m queue).mpr havail).bind fun start hstart => ?_, hright⟩
    match start with
    | none => exact Safe.ok _
    | some (first, processed) =>
      exact (serve_safe (hright first processed hstart)).bind fun s _ => (writeUsedIdx_safe _).bind
        fun _ _ => Safe.ok _

/-- Bytes of guest RAM: three descriptors (header, 512 bytes for the guest, status), the available ring with the
first of them, and a header that reads sector `2 ^ 55 - 1`. -/
def lastSectorBytes (a : Nat) : BitVec 8 :=
  leByte
    (match a / 8 with
    | 0 => 0x80000200#64
    | 1 => 0x0001000100000010#64
    | 2 => 0x80000300#64
    | 3 => 0x0002000300000200#64
    | 4 => 0x80000600#64
    | 5 => 0x0000000200000001#64
    | 32 => 0x0000000000010000#64
    | 65 => 0x007FFFFFFFFFFFFF#64
    | _ => 0#64) (a % 8)

/-- A guest with 4 KiB of RAM and a disk of two sectors. -/
def lastSector : Machine where
  ram := ⟨0x80000000, 0x1000, lastSectorBytes⟩
  blk := ⟨fun _ => 0, 2, by decide⟩

def lastSectorQueue : VirtQueue := ⟨8, 0x80000000, 0x80000100, 0x80000180, 0⟩

/-- The end of the last sector a 64-bit offset can reach wraps to 0 and would pass the check. -/
theorem read_of_last_sector_wraps :
    ¬QueueHandled lastSector lastSectorQueue ∧ (handleQueue lastSector lastSectorQueue).toBool = false ∧
      lastSector.diskSize = 1024 := by
  have hfault : (handleQueue lastSector lastSectorQueue).toBool = false := by decide +kernel
  refine ⟨fun h => ?_, hfault, rfl⟩
  obtain ⟨r, hr⟩ := h.safe
  rw [hr] at hfault
  cases hfault

end Queue

end MachinaVirtBlkSpec
