import Machina.MemorySpec
import Machina.Priority

/-!
# What the flattened map shows

At every address the map leads to one leaf of the tree: of the leaves that cover the
address the one of greatest priority, then of lowest start, then the first in the tree.
-/

namespace MachinaMemoryFlat

open MachinaIntervals MachinaMemory MachinaMemorySpec MachinaPriority

variable {D : Type}

section Shown

instance : Std.Total fun a b : RawRange D => a.before b := ⟨fun a b => by unfold RawRange.before; omega⟩

instance : IsTrans (RawRange D) fun a b => a.before b := ⟨fun a b c => by unfold RawRange.before; omega⟩

/-- A leaf covers an address; its end wraps. -/
def Covers (raw : RawRange D) (a : Nat) : Prop := raw.addr ≤ a ∧ a < wadd raw.addr raw.size

instance (raw : RawRange D) (a : Nat) : Decidable (Covers raw a) :=
  inferInstanceAs (Decidable (raw.addr ≤ a ∧ a < wadd raw.addr raw.size))

/-- The leaf to be seen at an address. -/
def winner (leaves : List (RawRange D)) (a : Nat) : Option (RawRange D) :=
  leaves.foldr (fun raw best => if Covers raw a ∧ ∀ y ∈ best, raw.before y then some raw else best) none

theorem winner_eq_find (leaves : List (RawRange D)) (a : Nat) :
    winner leaves a = (leaves.insertionSort RawRange.before).find? fun raw => decide (Covers raw a) := by
  rw [find_insertionSort]
  simp only [decide_eq_true_eq]
  rfl

theorem winner_isSome {leaves : List (RawRange D)} {a : Nat} :
    (winner leaves a).isSome ↔ ∃ raw ∈ leaves, Covers raw a := by
  simp [winner_eq_find]

def Holds (a : Nat) (r : FlatRange D) : Prop := r.addr ≤ a ∧ a < r.addr + r.size

/-- A range leads to the byte of a leaf at an address. -/
def Shows (a : Nat) (r : FlatRange D) (raw : RawRange D) : Prop :=
  r.kind = raw.kind ∧ regionOff r a = wadd raw.offsetInRegion (a - raw.addr)

/-- The ranges show a given leaf at an address, or nothing. -/
def Shown (l : List (FlatRange D)) (a : Nat) : Option (RawRange D) → Prop
  | none => ∀ r ∈ l, ¬Holds a r
  | some raw => ∃ r ∈ l, Holds a r ∧ Shows a r raw

variable {resolved : List (FlatRange D)} {a : Nat}

theorem shows_pushFragment {raw : RawRange D} {p : Nat × Nat} (hraw : raw.addr ≤ p.1) (hp : p.1 ≤ a) :
    Shows a (pushFragment raw p) raw := by
  refine ⟨rfl, ?_⟩
  simp only [regionOff, pushFragment, wadd, Nat.mod_add_mod]
  rw [show raw.offsetInRegion + (p.1 - raw.addr) + (a - p.1) = raw.offsetInRegion + (a - raw.addr) by omega]

theorem Shown.insertRange (hflat : Flat resolved) (h : Shown resolved a none) (raw : RawRange D) :
    Shown (insertRange resolved raw) a (if Covers raw a then some raw else none) := by
  have hgap (p : Nat × Nat) (hp : p ∈ gaps raw.addr _ _) :=
    gaps_spec (overlaps_sorted resolved raw.addr (wadd raw.addr raw.size)) overlaps_start p hp
  rw [MachinaMemory.insertRange]
  split_ifs with hcov
  · have hfree : ∀ q ∈ overlaps resolved raw.addr (wadd raw.addr raw.size), a < q.1 ∨ q.2 ≤ a := by
      intro q hq
      obtain ⟨r, hr, -, rfl⟩ := mem_overlaps.mp hq
      have hout := h r hr
      rw [span, (hflat.valid r hr).stop_eq]
      unfold Holds at hout
      omega
    obtain ⟨p, hp, hlo, hhi⟩ := exists_gap hcov.1 hcov.2 hfree
    refine ⟨_, List.mem_append_right _ (List.mem_map_of_mem hp), ⟨hlo, ?_⟩, shows_pushFragment (hgap p hp).1 hlo⟩
    simp only [pushFragment]
    omega
  · intro r hr hin
    rcases List.mem_append.mp hr with hr | hr
    · exact h r hr hin
    obtain ⟨p, hp, rfl⟩ := List.mem_map.mp hr
    obtain ⟨hlo, hne, hhi, -⟩ := hgap p hp
    simp only [Holds, pushFragment] at hin
    exact hcov ⟨by omega, by omega⟩

theorem mem_foldl_insertRange (raws : List (RawRange D)) {r : FlatRange D} (h : r ∈ resolved) :
    r ∈ raws.foldl insertRange resolved := by
  induction raws generalizing resolved with
  | nil => exact h
  | cons raw raws ih => exact ih (List.mem_append_left _ h)

/-- Where nothing was shown, a list of leaves shows the first that covers the address. -/
theorem shown_foldl (raws : List (RawRange D)) (hflat : Flat resolved) (h : Shown resolved a none) :
    Shown (raws.foldl insertRange resolved) a (raws.find? fun raw => decide (Covers raw a)) := by
  induction raws generalizing resolved with
  | nil => exact h
  | cons raw raws ih =>
    have hstep := h.insertRange hflat raw
    rw [List.find?_cons]
    by_cases hcov : Covers raw a
    · rw [if_pos hcov] at hstep
      obtain ⟨r, hr, hshow⟩ := hstep
      rw [decide_eq_true hcov]
      exact ⟨r, mem_foldl_insertRange raws hr, hshow⟩
    · rw [if_neg hcov] at hstep
      rw [decide_eq_false hcov]
      exact ih (hflat.insertRange raw) hstep

variable (root : MemoryRegion D)

/-- The lookup of an address leads to the leaf to be seen there. -/
theorem lookup_shows (a : Nat) : Option.Rel (Shows a) (lookup (fromRegion root) a) (winner (collect 0 0 root) a) := by
  have hlook (r : FlatRange D) : lookup (fromRegion root) a = some r ↔ _ ∧ Holds a r :=
    (lookup_iff root a r).trans (and_congr_left' (List.perm_insertionSort _ _).mem_iff)
  have hshown : Shown (((collect 0 0 root).insertionSort RawRange.before).foldl insertRange []) a _ :=
    shown_foldl _ ⟨nofun, .nil⟩ nofun
  rw [← winner_eq_find] at hshown
  cases hw : winner (collect 0 0 root) a with
  | none =>
    rw [hw] at hshown
    rw [Option.eq_none_iff_forall_ne_some.mpr fun r hr => hshown r ((hlook r).mp hr).1 ((hlook r).mp hr).2]
    exact .none
  | some raw =>
    rw [hw] at hshown
    obtain ⟨r, hr, hin, hshow⟩ := hshown
    rw [(hlook r).mpr ⟨hr, hin⟩]
    exact .some hshow

theorem lookup_isSome (a : Nat) : (lookup (fromRegion root) a).isSome ↔ ∃ raw ∈ collect 0 0 root, Covers raw a := by
  have hrel := lookup_shows root a
  rw [← winner_isSome]
  generalize lookup (fromRegion root) a = r, winner (collect 0 0 root) a = raw at hrel
  cases hrel <;> simp

/-- The map of a tree whose leaves end in the address space is sorted, covers what the leaves cover, and leads every
address to the leaf of greatest priority there. -/
theorem fromRegion_shows_greatest (hfit : ∀ raw ∈ collect 0 0 root, raw.addr + raw.size < 2 ^ 64) :
    ((fromRegion root).Pairwise fun r s => r.addr + r.size ≤ s.addr) ∧
      (∀ a, (∃ r ∈ fromRegion root, Holds a r) ↔ ∃ raw ∈ collect 0 0 root, raw.addr ≤ a ∧ a < raw.addr + raw.size) ∧
      ∀ a, Option.Rel (Shows a) (lookup (fromRegion root) a) (winner (collect 0 0 root) a) := by
  obtain ⟨hvalid, hcons⟩ := fromRegion_flat root
  refine ⟨hcons.imp_of_mem fun {r s} hr _ h => (hvalid r hr).stop_eq ▸ h, fun a => ?_, lookup_shows root⟩
  have hsome : (lookup (fromRegion root) a).isSome ↔ ∃ r ∈ fromRegion root, Holds a r := by
    simp [Option.isSome_iff_exists, lookup_iff, Holds]
  rw [← hsome, lookup_isSome]
  refine exists_congr fun raw => and_congr_right fun hraw => ?_
  rw [Covers, wadd, Nat.mod_eq_of_lt (hfit raw hraw)]

def lowBlock : MemoryRegion Unit := .mk 0x2000 (.ram ⟨0, 0x2000⟩) 0 [] true
def highBlock : MemoryRegion Unit := .mk 0x1000 (.ram ⟨1, 0x1000⟩) 1 [] true

/-- A block with another one of priority 1 over its second half. -/
def overlapping : MemoryRegion Unit := .mk 0x2000 .container 0 [.mk lowBlock 0, .mk highBlock 0x1000] true

theorem overlapping_shows_greatest : (∀ raw ∈ collect 0 0 overlapping, Covers raw 0x1010) ∧
    Option.Rel (Shows 0x1010) (lookup (fromRegion overlapping) 0x1010) (winner (collect 0 0 overlapping) 0x1010) :=
  ⟨by decide, (fromRegion_shows_greatest overlapping (by decide)).2.2 0x1010⟩

end Shown

section Siblings

/-- A region of the tree with the address it is placed at and the priority it inherits. -/
inductive Placed (root : MemoryRegion D) : Nat → Int → MemoryRegion D → Prop
  | root : Placed root 0 0 root
  | sub {base size inherited regionType priority subregions region offset} :
      Placed root base inherited (.mk size regionType priority subregions true) → .mk region offset ∈ subregions →
      Placed root (wadd base offset.toNat) (max priority inherited) region

def SubRegion.priority : SubRegion D → Int
  | .mk (.mk _ _ priority _ _) _ => priority

variable (root : MemoryRegion D)

/-- The leaves of a subregion of a region at `base` that hands down the priority `prio`. -/
def leavesOf (base : Nat) (prio : Int) (s : SubRegion D) : List (RawRange D) := collectSubs base prio [s]

def Mapped (leaves : List (RawRange D)) (a : Nat) : Prop := ∃ raw ∈ leaves, Covers raw a

/-- The map leads to the byte of one of the leaves at an address. -/
def ShowsOne (leaves : List (RawRange D)) (a : Nat) : Prop :=
  ∃ r raw, lookup (fromRegion root) a = some r ∧ raw ∈ leaves ∧ Covers raw a ∧ Shows a r raw

/-- A subregion is visible only inside its parent, and is shown where a sibling of lower priority is mapped too. -/
def SiblingsOrdered : Prop :=
  ∀ base inherited size regionType p subs, Placed root base inherited (.mk size regionType p subs true) →
    ∀ s ∈ subs, (∀ a, ShowsOne root (leavesOf base (max p inherited) s) a → base ≤ a ∧ a < base + size.toNat) ∧
      ∀ t ∈ subs, SubRegion.priority t < SubRegion.priority s → ∀ a, Mapped (leavesOf base (max p inherited) s) a →
        Mapped (leavesOf base (max p inherited) t) a → ShowsOne root (leavesOf base (max p inherited) s) a

/-- A leaf of the tree, and the greatest of 0 and the priorities on the path to it. -/
def LeafOf (raw : RawRange D) (top : Int) : Prop :=
  ∃ base inherited size regionType p subs, Placed root base inherited (.mk size regionType p subs true) ∧
    raw ∈ collect base inherited (.mk size regionType p [] true) ∧ top = max p inherited

/-- The leaves of every subregion lie inside its parent; and where two siblings are mapped, only leaves of the greater
one have a priority on their path, or 0, that reaches the greater one's. -/
structure PathsBelow : Prop where
  inside : ∀ base inherited size regionType p subs, Placed root base inherited (.mk size regionType p subs true) →
    ∀ s ∈ subs, ∀ a, Mapped (leavesOf base (max p inherited) s) a → base ≤ a ∧ a < base + size.toNat
  below : ∀ base inherited size regionType p subs, Placed root base inherited (.mk size regionType p subs true) →
    ∀ s ∈ subs, ∀ t ∈ subs, SubRegion.priority t < SubRegion.priority s → ∀ a,
      Mapped (leavesOf base (max p inherited) s) a → Mapped (leavesOf base (max p inherited) t) a →
      ∀ raw top, LeafOf root raw top → Covers raw a →
        raw ∈ leavesOf base (max p inherited) s ∨ top < SubRegion.priority s

mutual

theorem collectAlias_priority (base aliasOff aliasSize : Nat) (prio : Int) (raw : RawRange D) :
    (region : MemoryRegion D) → raw ∈ collectAlias base aliasOff aliasSize prio region → raw.priority = prio
  | .mk _ regionType _ subregions enabled, h => by
    unfold collectAlias at h
    split at h
    · cases regionType with
      | ram | rom | io => rw [List.mem_singleton.mp h]
      | window inner innerOff => exact collectAlias_priority _ _ _ prio raw inner h
      | container => exact collectAliasSubs_priority _ _ _ prio raw subregions h
    · cases h

theorem collectAliasSubs_priority (base aliasOff aliasSize : Nat) (prio : Int) (raw : RawRange D) :
    (subs : List (SubRegion D)) → raw ∈ collectAliasSubs base aliasOff aliasSize prio subs → raw.priority = prio
  | [], h => by cases h
  | .mk region offset :: rest, h => by
    rw [collectAliasSubs] at h
    rcases List.mem_append.mp h with h | h
    · split at h
      · cases h
      · exact collectAlias_priority _ _ _ prio raw region h
    · exact collectAliasSubs_priority _ _ _ prio raw rest h

end

/-- A leaf of a region alone has the region's priority or the inherited one. -/
theorem own_priority {base : Nat} {inherited p : Int} {size : BitVec 64} {regionType : RegionType D} {raw : RawRange D}
    (h : raw ∈ collect base inherited (.mk size regionType p [] true)) : raw.priority = max p inherited := by
  simp only [collect, if_true, collectSubs, List.append_nil] at h
  cases regionType with
  | ram | rom | io => rw [List.mem_singleton.mp h]
  | window target aliasOff => exact collectAlias_priority _ _ _ _ raw target h
  | container => cases h

mutual

/-- The leaves of a region are its own or those of a region placed below it, and inherit from it. -/
theorem leafOf_collect (base : Nat) (inherited : Int) (raw : RawRange D) : (region : MemoryRegion D) →
    raw ∈ collect base inherited region → inherited ≤ raw.priority ∧
      (∀ offset, SubRegion.priority (.mk region offset) ≤ raw.priority) ∧
      (Placed root base inherited region → LeafOf root raw raw.priority)
  | .mk size regionType p subs enabled, h => by
    rw [collect] at h
    split at h
    · rename_i hen
      rcases List.mem_append.mp h with h | h
      · have hown : raw ∈ collect base inherited (.mk size regionType p [] true) := by
          simpa only [collect, if_true, collectSubs, List.append_nil] using h
        have hprio := own_priority hown
        refine ⟨hprio ▸ le_max_right _ _, fun _ => hprio ▸ le_max_left _ _, fun hplaced => ?_⟩
        exact ⟨base, inherited, size, regionType, p, subs, hen ▸ hplaced, hown, hprio⟩
      · obtain ⟨hle, hleaf⟩ := leafOf_collectSubs base (max p inherited) raw subs h
        refine ⟨(le_max_right _ _).trans hle, fun _ => (le_max_left _ _).trans hle, fun hplaced => ?_⟩
        subst hen
        exact hleaf fun region offset hmem => hplaced.sub hmem
    · cases h

theorem leafOf_collectSubs (base : Nat) (prio : Int) (raw : RawRange D) : (subs : List (SubRegion D)) →
    raw ∈ collectSubs base prio subs → prio ≤ raw.priority ∧
      ((∀ region offset, .mk region offset ∈ subs → Placed root (wadd base offset.toNat) prio region) →
        LeafOf root raw raw.priority)
  | [], h => by cases h
  | .mk region offset :: rest, h => by
    rw [collectSubs] at h
    rcases List.mem_append.mp h with h | h
    · obtain ⟨hle, -, hleaf⟩ := leafOf_collect _ prio raw region h
      exact ⟨hle, fun hplaced => hleaf (hplaced region offset List.mem_cons_self)⟩
    · obtain ⟨hle, hleaf⟩ := leafOf_collectSubs base prio raw rest h
      exact ⟨hle, fun hplaced => hleaf fun region offset hmem => hplaced region offset (List.mem_cons_of_mem _ hmem)⟩

end

theorem mem_collectSubs {base : Nat} {prio : Int} {s : SubRegion D} {subs : List (SubRegion D)} {raw : RawRange D}
    (hs : s ∈ subs) (h : raw ∈ leavesOf base prio s) : raw ∈ collectSubs base prio subs := by
  induction subs with
  | nil => cases hs
  | cons t rest ih =>
    obtain ⟨region, offset⟩ := t
    rw [collectSubs]
    rcases List.mem_cons.mp hs with rfl | hs
    · exact List.mem_append_left _ (by simpa [leavesOf, collectSubs] using h)
    · exact List.mem_append_right _ (ih hs)

theorem Placed.collect_subset {root : MemoryRegion D} {base : Nat} {inherited : Int} {region : MemoryRegion D}
    (h : Placed root base inherited region) : collect base inherited region ⊆ collect 0 0 root := by
  induction h with
  | root => exact fun _ => id
  | sub _ hmem ih =>
    intro raw hraw
    refine ih ?_
    rw [collect, if_pos rfl]
    exact List.mem_append_right _ (mem_collectSubs hmem (by simpa [leavesOf, collectSubs] using hraw))

theorem winner_spec {leaves : List (RawRange D)} {a : Nat} {raw : RawRange D} (hraw : raw ∈ leaves)
    (hcov : Covers raw a) :
    ∃ first ∈ leaves, winner leaves a = some first ∧ Covers first a ∧ first.before raw := by
  obtain ⟨first, hfirst⟩ := Option.isSome_iff_exists.mp (winner_isSome.mpr ⟨raw, hraw, hcov⟩)
  have hfind := hfirst
  rw [winner_eq_find] at hfind
  refine ⟨first, (List.mem_insertionSort _).mp (List.mem_of_find?_eq_some hfind), hfirst,
    by simpa using List.find?_some hfind, ?_⟩
  by_cases heq : raw = first
  · subst heq
    exact or_self_iff.mp (Std.Total.total (r := RawRange.before) raw raw)
  · exact before_of_find? (List.pairwise_insertionSort _ _) hfind ((List.mem_insertionSort _).mpr hraw)
      (by simpa using hcov) heq

theorem placed_overlapping {base : Nat} {inherited : Int} {region : MemoryRegion Unit}
    (h : Placed overlapping base inherited region) : inherited = 0 ∧
      (base = 0 ∧ region = overlapping ∨ base = 0 ∧ region = lowBlock ∨ base = 0x1000 ∧ region = highBlock) := by
  induction h with
  | root => exact ⟨rfl, Or.inl ⟨rfl, rfl⟩⟩
  | sub _ hmem ih =>
    obtain ⟨rfl, ⟨rfl, heq⟩ | ⟨-, heq⟩ | ⟨-, heq⟩⟩ := ih <;> cases heq
    · rcases List.mem_cons.mp hmem with hmem | hmem
      · cases hmem
        exact ⟨rfl, Or.inr (Or.inl ⟨rfl, rfl⟩)⟩
      · cases List.mem_singleton.mp hmem
        exact ⟨rfl, Or.inr (Or.inr ⟨rfl, rfl⟩)⟩
    · cases hmem
    · cases hmem

/-- Two blocks at one address, of priorities -2 and -1. -/
def negative : MemoryRegion Unit :=
  .mk 0x1000 .container 0
    [.mk (.mk 0x1000 (.ram ⟨0, 0x1000⟩) (-2) [] true) 0, .mk (.mk 0x1000 (.ram ⟨1, 0x1000⟩) (-1) [] true) 0] true

end Siblings

end MachinaMemoryFlat
