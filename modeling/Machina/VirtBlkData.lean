import Machina.VirtBlkSpec

/-!
# What block requests carry

A request that writes puts the bytes of its data descriptors on the disk, and a later one that reads them hands them
to the guest, however each of the two cuts them into descriptors. The only limit is the 32-bit count of the bytes
written to the guest.
-/

namespace MachinaVirtBlkData

open MachinaCopies MachinaVirtQueue MachinaVirtBlk MachinaVirtBlkSpec

variable {intoGuest : Bool} {chain : List Desc} {m : Machine} {off : Nat} {r : Request}

def InRam (m : Machine) (desc : Desc) : Prop :=
  m.ram.base.toNat ≤ desc.addr.toNat ∧ desc.addr.toNat - m.ram.base.toNat + desc.len.toNat ≤ m.ram.size.toNat

instance (m : Machine) : DecidablePred (InRam m) := fun _ => inferInstanceAs (Decidable (_ ∧ _))

def dataLen (descs : List Desc) : Nat := (descs.map fun desc => desc.len.toNat).sum

/-- The bytes of the descriptors, one after the other. -/
def gathered (m : Machine) (descs : List Desc) : List (BitVec 8) :=
  descs.flatMap fun desc =>
    (List.range desc.len.toNat).map fun i => m.ram.bytes (desc.addr.toNat - m.ram.base.toNat + i)

/-- A request in a direction, with its data in guest RAM and on the disk and a status byte that can be written. -/
structure Transfers (m : Machine) (chain : List Desc) (r : Request) (intoGuest : Bool) : Prop where
  request : request m chain = some r
  direction : r.intoGuest = some intoGuest
  inRam : ∀ desc ∈ directed intoGuest r.data, InRam m desc
  onDisk : r.start + dataLen (directed intoGuest r.data) ≤ m.diskSize
  status : statusValid m r.status = true

theorem allFit_of_inRam {descs : List Desc} (hram : ∀ desc ∈ descs, InRam m desc)
    (hdisk : off + dataLen descs ≤ m.diskSize) : AllFit m off descs := by
  induction descs generalizing off with
  | nil => trivial
  | cons desc rest ih =>
    obtain ⟨hdesc, hrest⟩ := List.forall_mem_cons.mp hram
    simp only [dataLen, List.map_cons, List.sum_cons] at hdisk
    refine ⟨⟨hdesc.1, hdesc.2, by omega⟩, ih hrest ?_⟩
    rw [dataLen]
    omega

theorem noWrap_of_allFit {descs : List Desc} (h : AllFit m off descs) : NoWrap m off descs := by
  induction descs generalizing off with
  | nil => trivial
  | cons desc rest ih =>
    obtain ⟨⟨hbase, hguest, hdisk⟩, hrest⟩ := h
    have hsize := m.ram.size.isLt
    have hsized : m.diskSize < 2 ^ 64 := m.blk.sized
    exact ⟨fun _ => ⟨by omega, fun _ => by omega⟩, fun _ => ih hrest⟩

theorem counted_pieces {descs : List Desc} (h : AllFit m off descs) :
    counted intoGuest (pieces m off descs) = if intoGuest then dataLen descs else 0 := by
  induction descs generalizing off with
  | nil => cases intoGuest <;> rfl
  | cons desc rest ih =>
    rw [pieces, if_pos h.1, counted_cons, ih h.2]
    cases intoGuest <;> simp [dataLen]

theorem length_gathered (m : Machine) (descs : List Desc) : (gathered m descs).length = dataLen descs := by
  simp [gathered, dataLen, List.length_flatMap]

/-- What a request does whose count of bytes is a 32-bit number. -/
theorem Transfers.processed (h : Transfers m chain r intoGuest)
    (hcount : (if intoGuest then dataLen (directed intoGuest r.data) else 0) + 1 < 2 ^ 32) : processRequest m chain =
      .ok (completed m (movedAll intoGuest m (pieces m r.start (directed intoGuest r.data))) virtioBlkSOk r.status,
        (if intoGuest then dataLen (directed intoGuest r.data) else 0) + 1) := by
  have hfit := allFit_of_inRam h.inRam h.onDisk
  have hsized : m.diskSize < 2 ^ 64 := m.blk.sized
  have hdisk := h.onDisk
  rw [← counted_pieces hfit] at hcount ⊢
  obtain ⟨code, hloop, hcode⟩ := transferLoop_ok r.data (noWrap_of_allFit hfit) (show 0 + _ < 2 ^ 32 by omega)
  obtain rfl := hcode.mpr hfit
  have hdata := (transferred_near h.direction (by omega)).trans hloop
  rw [(processRequest_of_some h.request).1, execute_ok hdata (sameBlocks_movedAll _ _ _)]
  · rw [if_pos h.status, Nat.zero_add]
  · rw [if_pos h.status]
    omega

theorem completed_bytes (h : Transfers m chain r intoGuest) (m' : Machine) (code : BitVec 8) (a : Nat) :
    (completed m m' code r.status).ram.bytes a = if a = statusOff m r.status then code else m'.ram.bytes a := by
  rw [completed, if_pos h.status, store_status]

theorem completed_image (m m' : Machine) (code : BitVec 8) (status : Desc) :
    (completed m m' code status).blk.image = m'.blk.image := by
  rw [completed]
  split <;> rfl

/-- Going to the disk, the pieces lie one after the other. -/
theorem copyAll_gathered {descs : List Desc} (h : AllFit m off descs) (target : Nat → BitVec 8) (a : Nat) :
    copyAll m.ram.bytes target ((pieces m off descs).map (Piece.copy false)) a =
      if off ≤ a then (gathered m descs)[a - off]?.getD (target a) else target a := by
  induction descs generalizing off target with
  | nil => simp [pieces, gathered]
  | cons desc rest ih =>
    rw [pieces, if_pos h.1, List.map_cons, copyAll_cons, ih h.2]
    simp only [Copy.apply, Copy.Covers, Piece.copy, Bool.false_eq_true, if_false, gathered, List.flatMap_cons]
    by_cases hbelow : a < off
    · simp [show ¬off ≤ a by omega, show ¬off + desc.len.toNat ≤ a by omega]
    by_cases hin : a < off + desc.len.toNat
    · rw [List.getElem?_append_left (by simp; omega)]
      simp [show off ≤ a by omega, hin, show a - off < desc.len.toNat by omega]
    · rw [List.getElem?_append_right (by simp; omega)]
      simp [show off ≤ a by omega, show off + desc.len.toNat ≤ a by omega, Nat.sub_sub, hin]

/-- What lands in the guest comes from the range of the request. -/
theorem lands_mem {descs : List Desc} {a s : Nat} (h : AllFit m off descs)
    (hs : lands ((pieces m off descs).map (Piece.copy true)) a = some s) : off ≤ s ∧ s < off + dataLen descs := by
  induction descs generalizing off with
  | nil => cases hs
  | cons desc rest ih =>
    rw [pieces, if_pos h.1, List.map_cons, lands, Option.or_eq_some_iff] at hs
    simp only [dataLen, List.map_cons, List.sum_cons]
    rcases hs with hs | ⟨-, hs⟩
    · have hrest := ih h.2 hs
      rw [dataLen] at hrest
      omega
    split at hs
    · rename_i hcovers
      obtain rfl := Option.some.inj hs
      simp only [Copy.Covers, Piece.copy, if_true] at hcovers ⊢
      omega
    · cases hs

/-- The data `d` is on the disk from `off` on. -/
def OnDisk (image : Nat → BitVec 8) (off : Nat) (d : List (BitVec 8)) : Prop :=
  ∀ k < d.length, d[k]? = some (image (off + k))

/-- The guest has the data of a request: each of its bytes is where its descriptor puts it, unless a later descriptor
or the status byte goes there too. -/
def Delivered (m m' : Machine) (r : Request) (d : List (BitVec 8)) : Prop :=
  ∀ a s, lands ((pieces m r.start (directed true r.data)).map (Piece.copy true)) a = some s →
    a ≠ statusOff m r.status → d[s - r.start]? = some (m'.ram.bytes a)

/-- A write puts its data on the disk and changes nothing else there, and a later read of the same range returns it,
with the right counts, exactly when the count of the read is a 32-bit number. -/
theorem written_then_read (m : Machine) (out : List Desc) (r : Request) (hout : Transfers m out r false) :
    ∃ m₁, processRequest m out = .ok (m₁, 1) ∧ m₁.ram.bytes (statusOff m r.status) = virtioBlkSOk ∧
      OnDisk m₁.blk.image r.start (gathered m (directed false r.data)) ∧
      (∀ a, a < r.start ∨ r.start + dataLen (directed false r.data) ≤ a → m₁.blk.image a = m.blk.image a) ∧
      ∀ m₂ chain r₂, Transfers m₂ chain r₂ true → r₂.sector = r.sector →
        dataLen (directed true r₂.data) = dataLen (directed false r.data) →
        OnDisk m₂.blk.image r.start (gathered m (directed false r.data)) →
        ((∃ m₃, processRequest m₂ chain = .ok (m₃, dataLen (directed true r₂.data) + 1) ∧
          m₃.ram.bytes (statusOff m₂ r₂.status) = virtioBlkSOk ∧
          Delivered m₂ m₃ r₂ (gathered m (directed false r.data))) ↔
          dataLen (directed true r₂.data) + 1 < 2 ^ 32) := by
  have hfit := allFit_of_inRam hout.inRam hout.onDisk
  obtain ⟨-, himage⟩ := movedAll_false m (pieces m r.start (directed false r.data))
  refine ⟨_, hout.processed (by simp), ?_, fun k hk => ?_, fun a ha => ?_, ?_⟩
  · rw [completed_bytes hout, if_pos rfl]
  · rw [completed_image, himage, copyAll_gathered hfit, if_pos (by omega), Nat.add_sub_cancel_left]
    simp [hk]
  · rw [completed_image, himage, copyAll_gathered hfit]
    split
    · rw [List.getElem?_eq_none (by rw [length_gathered]; omega), Option.getD_none]
    · rfl
  · intro m₂ chain r₂ hin hsector hlen hdisk
    have hstart : r₂.start = r.start := by rw [Request.start, Request.start, hsector]
    have hfit₂ := allFit_of_inRam hin.inRam hin.onDisk
    constructor
    · rintro ⟨m₃, hm₃, -⟩
      have hright : HandledRight m₂ chain :=
        ⟨m₃, _, hm₃, fun hmisfit => absurd ((fits_iff hin.request hin.direction).mpr
          ⟨hfit₂, statusFits_of_valid hin.status⟩) hmisfit⟩
      have hsized : m₂.diskSize < 2 ^ 64 := m₂.blk.sized
      have hrange := hin.onDisk
      have hcount := ((handledRight_iff_safeTransfer hin.request hin.direction (by omega)).mp hright).count
      rwa [counted_pieces hfit₂, if_pos rfl, if_pos hin.status] at hcount
    · intro hcount
      obtain ⟨-, hbytes⟩ := movedAll_true m₂ (pieces m₂ r₂.start (directed true r₂.data))
      refine ⟨_, hin.processed hcount, ?_, fun a s hlands hstatus => ?_⟩
      · rw [completed_bytes hin, if_pos rfl]
      · have hmem := lands_mem hfit₂ hlands
        rw [completed_bytes hin, if_neg hstatus, hbytes, copyAll_apply, hlands, Option.map_some, Option.getD_some,
          hdisk _ (by rw [length_gathered]; omega), hstart, Nat.add_sub_cancel' (by omega)]

/-- A guest with 8 GiB of RAM and a disk of 8 GiB. The header at 0 reads sector 0, the one at 0x100 writes it. -/
def large : Machine where
  ram := ⟨0, 0x200000000, fun a => if a = 0x100 then 1 else 0⟩
  blk := ⟨fun _ => 0, 0x1000000, by decide⟩

/-- Data of 4 GiB in two halves. -/
def halves (flags : BitVec 16) : List Desc := [⟨0x1000, 0x80000000, flags, 2⟩, ⟨0x80001000, 0x80000000, flags, 3⟩]

/-- A request with its header at an address. -/
def largeRequest (addr : BitVec 64) (flags : BitVec 16) : List Desc :=
  ⟨addr, 16, 1, 1⟩ :: halves flags ++ [⟨0x800, 1, 2, 0⟩]

/-- 512 bytes go out in two pieces, and come back in one. -/
def inTwo : List Desc := [⟨0x100, 16, 1, 1⟩, ⟨0x1000, 0x180, 1, 2⟩, ⟨0x2000, 0x80, 1, 3⟩, ⟨0x800, 1, 2, 0⟩]

def inOne : List Desc := [⟨0, 16, 1, 1⟩, ⟨0x3000, 0x200, 3, 2⟩, ⟨0x800, 1, 2, 0⟩]

def writeInTwo : Request := ⟨virtioBlkTOut, 0, [⟨0x1000, 0x180, 1, 2⟩, ⟨0x2000, 0x80, 1, 3⟩], ⟨0x800, 1, 2, 0⟩⟩

def readInOne : Request := ⟨virtioBlkTIn, 0, [⟨0x3000, 0x200, 3, 2⟩], ⟨0x800, 1, 2, 0⟩⟩

theorem transfers_inTwo : Transfers large inTwo writeInTwo false := ⟨by rfl, by rfl, by decide, by decide, by decide⟩

theorem written_then_read_inOne : ∃ m₁ m₂, processRequest large inTwo = .ok (m₁, 1) ∧
      OnDisk m₁.blk.image 0 (gathered large writeInTwo.data) ∧ processRequest m₁ inOne = .ok (m₂, 513) ∧
      Delivered m₁ m₂ readInOne (gathered large writeInTwo.data) := by
  obtain ⟨m₁, hwrite, -, hdisk, -, hread⟩ := written_then_read large inTwo writeInTwo transfers_inTwo
  have hin : Transfers m₁ inOne readInOne true := by
    rw [transfers_inTwo.processed (by decide)] at hwrite
    obtain ⟨rfl, -⟩ := Prod.mk.inj (Except.ok.inj hwrite)
    exact ⟨by rfl, by rfl, by decide, by decide, by decide⟩
  obtain ⟨m₂, hback, -, hdelivered⟩ := (hread m₁ inOne readInOne hin rfl (by decide) hdisk).mpr (by decide)
  exact ⟨m₁, m₂, hwrite, hdisk, hback, hdelivered⟩

/-- Reading the 4 GiB back overflows the count. -/
theorem large_read_overflows : Transfers large (largeRequest 0 3) ⟨virtioBlkTIn, 0, halves 3, ⟨0x800, 1, 2, 0⟩⟩ true ∧
      (processRequest large (largeRequest 0x100 1)).toBool = true ∧
      ((processRequest large (largeRequest 0x100 1)).bind fun p => processRequest p.1 (largeRequest 0 3)).toBool =
        false :=
  ⟨⟨by rfl, by rfl, by decide, by decide, by decide⟩, by decide +kernel, by decide +kernel⟩

end MachinaVirtBlkData
