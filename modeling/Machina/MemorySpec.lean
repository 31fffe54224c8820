import Machina.MemoryMap

/-!
# Accesses across the memory map

The flattened map is a list of ranges that do not overlap, so each address belongs to
at most one of them. An access is right as a whole when it stays in the range of its
first byte, or runs into unmapped memory, and the block behind the range reaches far
enough; otherwise it leaves the block, or is answered as not mapped although it is.
-/

namespace MachinaMemorySpec

open MachinaIntervals MachinaMemory

variable {D : Type}

section Flat

def span (r : FlatRange D) : Nat × Nat := (r.addr, r.stop)

/-- A range with at least one byte that ends below the top of the address space. -/
def Valid (r : FlatRange D) : Prop := 0 < r.size ∧ r.addr + r.size < 2 ^ 64

theorem Valid.stop_eq {r : FlatRange D} (h : Valid r) : r.stop = r.addr + r.size := Nat.mod_eq_of_lt h.2

theorem Valid.nonempty {r : FlatRange D} (h : Valid r) : (span r).1 < (span r).2 := by
  rw [span, h.stop_eq]
  exact Nat.lt_add_of_pos_right h.1

/-- Valid ranges that do not overlap. -/
structure Flat (l : List (FlatRange D)) : Prop where
  valid : ∀ r ∈ l, Valid r
  disjoint : l.Pairwise fun r s => Separate (span r) (span s)

theorem mem_overlaps {resolved : List (FlatRange D)} {cur stop : Nat} {q : Nat × Nat} :
    q ∈ overlaps resolved cur stop ↔ ∃ r ∈ resolved, (r.addr < stop ∧ cur < r.stop) ∧ span r = q := by
  simp [overlaps, span, and_assoc]

theorem overlaps_sorted (resolved : List (FlatRange D)) (cur stop : Nat) :
    (overlaps resolved cur stop).Pairwise fun p q => p.1 ≤ q.1 := pairwise_insertionSort_by _ _

theorem overlaps_start {resolved : List (FlatRange D)} {cur stop : Nat} :
    ∀ q ∈ overlaps resolved cur stop, q.1 < stop := by
  intro q hq
  obtain ⟨r, -, hover, rfl⟩ := mem_overlaps.mp hq
  exact hover.1

theorem Flat.insertRange {resolved : List (FlatRange D)} (h : Flat resolved) (raw : RawRange D) :
    Flat (insertRange resolved raw) := by
  have hsorted := overlaps_sorted resolved raw.addr (wadd raw.addr raw.size)
  have hne : ∀ q ∈ overlaps resolved raw.addr (wadd raw.addr raw.size), q.1 ≤ q.2 := by
    intro q hq
    obtain ⟨r, hr, -, rfl⟩ := mem_overlaps.mp hq
    exact (h.valid r hr).nonempty.le
  have htop : wadd raw.addr raw.size < 2 ^ 64 := Nat.mod_lt _ (by decide)
  have hfrag (p : Nat × Nat) (hp : p ∈ gaps raw.addr (wadd raw.addr raw.size)
      (overlaps resolved raw.addr (wadd raw.addr raw.size))) :
      Valid (pushFragment raw p) ∧ span (pushFragment raw p) = p := by
    obtain ⟨-, hlt, hle, -⟩ := gaps_spec hsorted overlaps_start p hp
    have hsum : p.1 + (p.2 - p.1) = p.2 := by omega
    have hvalid : Valid (pushFragment raw p) := ⟨Nat.sub_pos_of_lt hlt, hsum ▸ lt_of_le_of_lt hle htop⟩
    exact ⟨hvalid, Prod.ext rfl (hvalid.stop_eq.trans hsum)⟩
  refine ⟨fun r hr => ?_, List.pairwise_append.mpr ⟨h.disjoint, ?_, fun r hr s hs => ?_⟩⟩
  · rcases List.mem_append.mp hr with hr | hr
    · exact h.valid r hr
    · obtain ⟨p, hp, rfl⟩ := List.mem_map.mp hr
      exact (hfrag p hp).1
  · rw [List.pairwise_map]
    refine (gaps_pairwise hsorted overlaps_start hne).imp_of_mem fun {p q} hp hq hpq => ?_
    rwa [(hfrag p hp).2, (hfrag q hq).2]
  · obtain ⟨p, hp, rfl⟩ := List.mem_map.mp hs
    obtain ⟨hlow, -, hhigh, havoid⟩ := gaps_spec hsorted overlaps_start p hp
    rw [(hfrag p hp).2]
    by_cases hover : r.addr < wadd raw.addr raw.size ∧ raw.addr < r.stop
    · exact (havoid _ (mem_overlaps.mpr ⟨r, hr, hover, rfl⟩)).symm
    -- A range that is no overlap ends before the window or starts after it.
    simp only [Separate, span]
    omega

theorem flat_foldl_insertRange (raws : List (RawRange D)) {resolved : List (FlatRange D)} (h : Flat resolved) :
    Flat (raws.foldl insertRange resolved) := by
  induction raws generalizing resolved with
  | nil => exact h
  | cons raw raws ih => exact ih (h.insertRange raw)

/-- The map of a tree is flat, and each range ends before the next begins. -/
theorem fromRegion_flat (root : MemoryRegion D) :
    (∀ r ∈ fromRegion root, Valid r) ∧ (fromRegion root).Pairwise fun r s => (span r).2 ≤ (span s).1 := by
  have hflat : Flat (((collect 0 0 root).insertionSort RawRange.before).foldl insertRange []) :=
    flat_foldl_insertRange _ ⟨nofun, .nil⟩
  have hperm : (fromRegion root).Perm _ := List.perm_insertionSort _ _
  have hvalid : ∀ r ∈ fromRegion root, Valid r := fun r hr => hflat.valid r (hperm.mem_iff.mp hr)
  refine ⟨hvalid, pairwise_consecutive (fun r hr => (hvalid r hr).nonempty) (pairwise_insertionSort_by _ _) ?_⟩
  exact (hperm.pairwise_iff fun hrs => hrs.symm).mpr hflat.disjoint

theorem lookup_iff (root : MemoryRegion D) (a : Nat) (r : FlatRange D) :
    lookup (fromRegion root) a = some r ↔ r ∈ fromRegion root ∧ r.addr ≤ a ∧ a < r.addr + r.size := by
  obtain ⟨hvalid, hcons⟩ := fromRegion_flat root
  have hlast := last_started_iff (fun r hr => (hvalid r hr).nonempty) hcons a r
  have hstop (hr : r ∈ fromRegion root) : (span r).2 = r.addr + r.size := (hvalid r hr).stop_eq
  constructor
  · intro h
    unfold lookup at h
    split at h
    · cases h
    rename_i r' hr'
    split_ifs at h with hlt
    obtain rfl := Option.some.inj h
    obtain ⟨hmem, hle, -⟩ := hlast.mp ⟨hr', hlt⟩
    exact ⟨hmem, hle, hstop hmem ▸ hlt⟩
  · rintro ⟨hmem, hle, hlt⟩
    obtain ⟨hr', hlt'⟩ := hlast.mpr ⟨hmem, hle, (hstop hmem).symm ▸ hlt⟩
    have hr'' : ((fromRegion root).takeWhile fun r => decide (r.addr ≤ a)).getLast? = some r := hr'
    rw [lookup, hr'']
    exact if_pos hlt'

end Flat

section Words

theorem leWord_congr {f g : Nat → BitVec 8} {n : Nat} (h : ∀ i < n, f i = g i) : leWord f n = leWord g n := by
  induction n with
  | zero => rfl
  | succ n ih => rw [leWord, leWord, ih fun i hi => h i (Nat.lt_succ_of_lt hi), h n (Nat.lt_succ_self n)]

theorem leWord_one (f : Nat → BitVec 8) : leWord f 1 = (f 0).setWidth 64 := by
  simp [leWord]

theorem leByte_shift (val : BitVec 64) (i : Nat) : leByte (val >>> (8 * i)) 0 = leByte val i := by
  simp [leByte]

theorem storeBytes_succ (mem : RamBlock → Nat → BitVec 8) (block : RamBlock) (off n : Nat) (val : BitVec 64) :
    storeBytes (storeBytes mem block off n val) block (off + n) 1 (val >>> (8 * n)) =
      storeBytes mem block off (n + 1) val := by
  funext b i
  by_cases hlast : b = block ∧ i = off + n
  · obtain ⟨rfl, rfl⟩ := hlast
    simp [storeBytes, leByte_shift]
  have hone : ¬(b = block ∧ off + n ≤ i ∧ i < off + n + 1) := by
    rintro ⟨hb, hlo, hhi⟩
    exact hlast ⟨hb, by omega⟩
  have hiff : (b = block ∧ off ≤ i ∧ i < off + (n + 1)) ↔ (b = block ∧ off ≤ i ∧ i < off + n) := by
    constructor
    · rintro ⟨hb, hlo, hhi⟩
      have hne : i ≠ off + n := fun heq => hlast ⟨hb, heq⟩
      exact ⟨hb, hlo, by omega⟩
    · rintro ⟨hb, hlo, hhi⟩
      exact ⟨hb, hlo, by omega⟩
  simp only [storeBytes, if_neg hone, hiff]

end Words

section Access

def blockOf : FlatRangeKind D → Option RamBlock
  | .ram block | .rom block => some block
  | .io _ => none

variable (ranges : List (FlatRange D)) (addr size : Nat)

/-- All bytes of the access are in RAM or ROM. -/
def InMemory : Prop := ∀ i < size, ∃ fr block, lookup ranges (addr + i) = some fr ∧ blockOf fr.kind = some block

/-- What an access has to do, for every content of the blocks and every state of the devices. -/
structure AccessRight : Prop where
  inside : ∀ fr block, lookup ranges addr = some fr → blockOf fr.kind = some block →
    regionOff fr addr + size ≤ block.size.toNat
  readBytes : InMemory ranges addr size → ∀ s,
    read ranges addr size s = (leWord (fun i => (read ranges (addr + i) 1 s).1.setWidth 8) size, s)
  writeBytes : InMemory ranges addr size → ∀ s val, write ranges addr size val s =
    (List.range size).foldl (fun s i => write ranges (addr + i) 1 (val >>> (8 * i)) s) s
  rom : ∀ a fr block, lookup ranges a = some fr → fr.kind = .rom block → ∀ s val,
    (read ranges a 1 (write ranges addr size val s)).1 = (read ranges a 1 s).1
  mapped : isMapped ranges addr size = true ↔ ∀ i < size, ∃ fr, lookup ranges (addr + i) = some fr

/-- The address at which the block behind a range ends, where offsets have wrapped `laps` times: behind the end of
the range by what the block has more than the part of the region in the range, or before it by what it has less. -/
def blockStop (fr : FlatRange D) (block : RamBlock) (laps : Nat) : Int :=
  fr.stop + ((block.size.toNat + 2 ^ 64 * laps : Nat) - (fr.offsetInRegion + fr.size : Nat))

/-- The block behind the range of the first byte reaches to the end of the access, the access ends in the
range or runs into an unmapped byte, and no ROM range shows a byte that a write changes. -/
structure AccessFits : Prop where
  reaches : ∀ fr block, lookup ranges addr = some fr → blockOf fr.kind = some block →
    ∃ laps, 2 ^ 64 * laps ≤ fr.offsetInRegion + (addr - fr.addr) ∧ addr + size ≤ blockStop fr block laps
  ends : ∀ fr, lookup ranges addr = some fr → addr + size ≤ fr.stop ∨ ∃ i < size, lookup ranges (addr + i) = none
  unshared : ∀ fr block, lookup ranges addr = some fr → fr.kind = .ram block → ∀ a fr', lookup ranges a = some fr' →
    fr'.kind = .rom block → ¬(regionOff fr addr ≤ regionOff fr' a ∧ regionOff fr' a < regionOff fr addr + size)

variable {ranges addr size} {fr : FlatRange D} {block : RamBlock}

theorem read_block (hl : lookup ranges addr = some fr) (hb : blockOf fr.kind = some block) (s : Bus D) :
    read ranges addr size s = (leWord (fun i => s.mem block (regionOff fr addr + i)) size, s) := by
  unfold MachinaMemory.read
  rw [hl]
  dsimp only
  generalize fr.kind = k at hb
  cases k with
  | ram b | rom b =>
    obtain rfl := Option.some.inj hb
    rfl
  | io ops => cases hb

theorem write_ram (hl : lookup ranges addr = some fr) (hk : fr.kind = .ram block) (val : BitVec 64) (s : Bus D) :
    write ranges addr size val s = { s with mem := storeBytes s.mem block (regionOff fr addr) size val } := by
  simp [write, hl, hk]

theorem write_rom (hl : lookup ranges addr = some fr) (hk : fr.kind = .rom block)
    (val : BitVec 64) (s : Bus D) : write ranges addr size val s = s := by
  simp [write, hl, hk]

theorem read_byte (hl : lookup ranges addr = some fr) (hb : blockOf fr.kind = some block) (s : Bus D) :
    (read ranges addr 1 s).1.setWidth 8 = s.mem block (regionOff fr addr) := by
  rw [read_block hl hb, leWord_one, BitVec.setWidth_setWidth_of_le _ (by decide), BitVec.setWidth_eq, Nat.add_zero]

theorem read_byte_write {fr fr' : FlatRange D} {a : Nat} (hl : lookup ranges a = some fr')
    (hb : blockOf fr'.kind = some block) (s : Bus D) (val : BitVec 64)
    (h : ∀ b, lookup ranges addr = some fr → fr.kind = .ram b → b = block →
      ¬(regionOff fr addr ≤ regionOff fr' a ∧ regionOff fr' a < regionOff fr addr + size))
    (hfr : lookup ranges addr = some fr) :
    (read ranges a 1 (write ranges addr size val s)).1 = (read ranges a 1 s).1 := by
  rw [read_block hl hb, read_block hl hb, leWord_one, leWord_one]
  simp only [Nat.add_zero]
  rcases hk : fr.kind with b | b | ops
  · rw [write_ram hfr hk]
    have hout : ¬(block = b ∧ regionOff fr addr ≤ regionOff fr' a ∧ regionOff fr' a < regionOff fr addr + size) :=
      fun hc => h b hfr hk hc.1.symm hc.2
    simp [storeBytes, if_neg hout]
  · rw [write_rom hfr hk]
  · simp [write, hfr, hk]

theorem lookup_inside {root : MemoryRegion D} (hl : lookup (fromRegion root) addr = some fr) {i : Nat}
    (hi : addr + i < fr.stop) : lookup (fromRegion root) (addr + i) = some fr := by
  obtain ⟨hmem, hlo, hhi⟩ := (lookup_iff root addr fr).mp hl
  rw [((fromRegion_flat root).1 fr hmem).stop_eq] at hi
  exact (lookup_iff root (addr + i) fr).mpr ⟨hmem, by omega, hi⟩

theorem inside_iff {root : MemoryRegion D} (hl : lookup (fromRegion root) addr = some fr) :
    regionOff fr addr + size ≤ block.size.toNat ↔
      ∃ laps, 2 ^ 64 * laps ≤ fr.offsetInRegion + (addr - fr.addr) ∧ addr + size ≤ blockStop fr block laps := by
  obtain ⟨hmem, hlow, -⟩ := (lookup_iff root addr fr).mp hl
  have hblock := block.size.isLt
  unfold blockStop
  rw [((fromRegion_flat root).1 fr hmem).stop_eq, regionOff, wadd]
  constructor
  · intro h
    exact ⟨_, Nat.mul_div_le (fr.offsetInRegion + (addr - fr.addr)) (2 ^ 64), by omega⟩
  · rintro ⟨laps, hlaps, hend⟩
    omega

theorem stop_lt (fr : FlatRange D) : fr.stop < 2 ^ 64 := Nat.mod_lt _ (by decide)

theorem regionOff_add (hfr : fr.addr ≤ addr)
    (hfit : regionOff fr addr + size ≤ block.size.toNat) {i : Nat} (hi : i < size) :
    regionOff fr (addr + i) = regionOff fr addr + i := by
  have hsum : regionOff fr addr + i < 2 ^ 64 := by omega
  unfold regionOff wadd at *
  rw [show addr + i - fr.addr = addr - fr.addr + i by omega, ← Nat.add_assoc, ← Nat.mod_add_mod, Nat.mod_eq_of_lt hsum]

theorem write_bytes_ram (hk : fr.kind = .ram block) (n : Nat)
    (hl : ∀ i < n, lookup ranges (addr + i) = some fr)
    (hoff : ∀ i < n, regionOff fr (addr + i) = regionOff fr addr + i)
    (s : Bus D) (val : BitVec 64) : (List.range n).foldl (fun s i => write ranges (addr + i) 1 (val >>> (8 * i)) s) s =
      { s with mem := storeBytes s.mem block (regionOff fr addr) n val } := by
  induction n with
  | zero =>
    have hnone : storeBytes s.mem block (regionOff fr addr) 0 val = s.mem := by
      funext b i
      exact if_neg (by omega)
    rw [hnone]
    rfl
  | succ n ih =>
    rw [List.range_succ, List.foldl_append, ih (fun i hi => hl i (by omega)) fun i hi => hoff i (by omega)]
    rw [List.foldl_cons, List.foldl_nil, write_ram (hl n (by omega)) hk, hoff n (by omega), storeBytes_succ]

theorem write_bytes_rom (hk : fr.kind = .rom block) (n : Nat)
    (hl : ∀ i < n, lookup ranges (addr + i) = some fr) (s : Bus D) (val : BitVec 64) :
    (List.range n).foldl (fun s i => write ranges (addr + i) 1 (val >>> (8 * i)) s) s = s := by
  induction n with
  | zero => rfl
  | succ n ih =>
    rw [List.range_succ, List.foldl_append, ih fun i hi => hl i (by omega)]
    rw [List.foldl_cons, List.foldl_nil, write_rom (hl n (by omega)) hk]

theorem isMapped_of_some (hl : lookup ranges addr = some fr) :
    isMapped ranges addr size = true ↔ addr + size ≤ fr.stop := by
  have hlt := stop_lt fr
  simp only [isMapped, hl, decide_eq_true_eq]
  omega

theorem leByte_allOnes : ∀ i < 8, leByte (BitVec.allOnes 64) i = 255#8 := by decide

theorem accessRight_of_fits (root : MemoryRegion D) (hsize : 0 < size) (h : AccessFits (fromRegion root) addr size) :
    AccessRight (fromRegion root) addr size := by
  have hinside (fr : FlatRange D) (block : RamBlock) (hl : lookup (fromRegion root) addr = some fr)
      (hb : blockOf fr.kind = some block) := (inside_iff hl).mpr (h.reaches fr block hl hb)
  rcases hl : lookup (fromRegion root) addr with - | fr
  · -- Nothing happens when the first byte is not mapped.
    have hfirst (hall : ∀ i < size, ∃ fr, lookup (fromRegion root) (addr + i) = some fr) : False := by
      obtain ⟨fr, hfr⟩ := hall 0 hsize
      rw [Nat.add_zero, hl] at hfr
      cases hfr
    have hmem (hin : InMemory (fromRegion root) addr size) : False :=
      hfirst fun i hi => (hin i hi).imp fun _ ⟨_, hfr, _⟩ => hfr
    refine ⟨hinside, fun hin => (hmem hin).elim, fun hin => (hmem hin).elim, fun a fr block _ _ s val => ?_, ?_⟩
    · simp [MachinaMemory.write, hl]
    · refine ⟨fun hm => ?_, fun hall => (hfirst hall).elim⟩
      simp [isMapped, hl] at hm
  · have hrom : ∀ a fr' block, lookup (fromRegion root) a = some fr' → fr'.kind = .rom block → ∀ s val,
        (read (fromRegion root) a 1 (write (fromRegion root) addr size val s)).1 =
        (read (fromRegion root) a 1 s).1 := by
      intro a fr' block hl' hk' s val
      refine read_byte_write hl' (by rw [hk']; rfl) s val (fun b hfr hk hb => ?_) hl
      exact h.unshared fr b hfr hk a fr' hl' (hb ▸ hk')
    by_cases hends : addr + size ≤ fr.stop
    · have hin (i : Nat) (hi : i < size) := lookup_inside hl (show addr + i < fr.stop by omega)
      have hoff {block : RamBlock} (hb : blockOf fr.kind = some block) (i : Nat) (hi : i < size) :=
        regionOff_add ((lookup_iff root addr fr).mp hl).2.1 (hinside fr block hl hb) hi
      refine ⟨hinside, fun hmem s => ?_, fun hmem s val => ?_, hrom, ?_⟩
      · obtain ⟨fr', block, hl', hb⟩ := hmem 0 hsize
        obtain rfl := Option.some.inj (hl.symm.trans hl')
        rw [read_block hl hb]
        refine congrArg (·, s) (leWord_congr fun i hi => ?_)
        rw [read_byte (hin i hi) hb, hoff hb i hi]
      · obtain ⟨fr', block, hl', hb⟩ := hmem 0 hsize
        obtain rfl := Option.some.inj (hl.symm.trans hl')
        rcases hk : fr.kind with b | b | ops
        · rw [write_ram hl hk, write_bytes_ram hk size hin (hoff (by rw [hk]; rfl))]
        · rw [write_rom hl hk, write_bytes_rom hk size hin]
        · rw [hk] at hb
          cases hb
      · exact ⟨fun _ i hi => ⟨fr, hin i hi⟩, fun _ => (isMapped_of_some hl).mpr hends⟩
    · obtain ⟨i, hi, hnone⟩ := (h.ends fr hl).resolve_left hends
      have hmem (hin : InMemory (fromRegion root) addr size) : False := by
        obtain ⟨fr', block, hl', -⟩ := hin i hi
        rw [hnone] at hl'
        cases hl'
      refine ⟨hinside, fun hin => (hmem hin).elim, fun hin => (hmem hin).elim, hrom,
        fun hm => absurd ((isMapped_of_some hl).mp hm) hends, fun hall => ?_⟩
      obtain ⟨fr', hl'⟩ := hall i hi
      rw [hnone] at hl'
      cases hl'

/-- An access that is right fits: a write of ones into zeros shows every byte it changes. -/
theorem fits_of_accessRight [Inhabited D] (root : MemoryRegion D) (hsize : size ≤ 8)
    (h : AccessRight (fromRegion root) addr size) : AccessFits (fromRegion root) addr size := by
  refine ⟨fun fr block hl hb => (inside_iff hl).mp (h.inside fr block hl hb), fun fr hl => ?_,
    fun fr block hl hk a fr' hl' hk' hover => ?_⟩
  · by_contra hcon
    push Not at hcon
    obtain ⟨hstop, hall⟩ := hcon
    have hm := h.mapped.mpr fun i hi => Option.ne_none_iff_exists'.mp (hall i hi)
    have := (isMapped_of_some hl).mp hm
    omega
  · have hb' : blockOf fr'.kind = some block := by rw [hk']; rfl
    have hrom := h.rom a fr' block hl' hk' ⟨fun _ _ => 0#8, default⟩ (BitVec.allOnes 64)
    have hbyte := congrArg (BitVec.setWidth 8) hrom
    rw [read_byte hl' hb', read_byte hl' hb', write_ram hl hk] at hbyte
    simp only [storeBytes, true_and, if_pos hover] at hbyte
    rw [leByte_allOnes _ (by omega)] at hbyte
    exact absurd hbyte (by decide)

/-- Accesses of 1, 2, 4 or 8 bytes are right exactly when they fit. -/
theorem access_right_iff [Inhabited D] (root : MemoryRegion D) (addr : BitVec 64) (size : Nat)
    (hsize : size = 1 ∨ size = 2 ∨ size = 4 ∨ size = 8) :
    AccessRight (fromRegion root) addr.toNat size ↔ AccessFits (fromRegion root) addr.toNat size :=
  ⟨fits_of_accessRight root (by omega), accessRight_of_fits root (by omega)⟩

def twoBlocks : MemoryRegion Unit :=
  .mk 0x2000 .container 0
    [.mk (.mk 0x1000 (.ram ⟨0, 0x1000⟩) 0 [] true) 0, .mk (.mk 0x1000 (.ram ⟨1, 0x1000⟩) 0 [] true) 0x1000] true

theorem fromRegion_twoBlocks :
    fromRegion twoBlocks = [⟨0, 0x1000, .ram ⟨0, 0x1000⟩, 0⟩, ⟨0x1000, 0x1000, .ram ⟨1, 0x1000⟩, 0⟩] := rfl

theorem access_right_first_word : AccessRight (fromRegion twoBlocks) (0x10#64).toNat 4 := by
  have hl : lookup (fromRegion twoBlocks) (0x10#64).toNat = some ⟨0, 0x1000, .ram ⟨0, 0x1000⟩, 0⟩ := rfl
  refine (access_right_iff twoBlocks 0x10#64 4 (by decide)).mpr ⟨fun fr block hfr hb => ?_, fun fr hfr => ?_,
    fun fr block _ _ a fr' hl' hk' => ?_⟩
  · obtain rfl := Option.some.inj (hl.symm.trans hfr)
    obtain rfl := Option.some.inj hb
    exact ⟨0, by decide, by decide⟩
  · obtain rfl := Option.some.inj (hl.symm.trans hfr)
    exact .inl (by decide)
  have hmem := ((lookup_iff twoBlocks a fr').mp hl').1
  rw [fromRegion_twoBlocks] at hmem
  rcases List.mem_pair.mp hmem with rfl | rfl <;> cases hk'

/-- An access that starts in the last bytes of a block leaves it, and is answered as not mapped although it is. -/
theorem access_across_blocks_is_wrong :
    ¬AccessRight (fromRegion twoBlocks) (0xFFC#64).toNat 8 ∧
    isMapped (fromRegion twoBlocks) (0xFFC#64).toNat 8 = false ∧
      ∀ i < 8, (lookup (fromRegion twoBlocks) ((0xFFC#64).toNat + i)).isSome = true := by
  refine ⟨fun h => ?_, rfl, by decide⟩
  exact absurd (h.inside ⟨0, 0x1000, .ram ⟨0, 0x1000⟩, 0⟩ ⟨0, 0x1000⟩ rfl rfl) (by decide)

end Access

end MachinaMemorySpec
