import Machina.Runs
import Machina.TbStore

/-!
# Chained blocks

The direct jumps between blocks, over any sequence of operations on the store. Only the part of a block that
chaining reads and writes matters here; the hash table and the page lists are left aside by `links`.
-/

namespace MachinaTbChain

open MachinaRuns MachinaTbStore
open Function (update update_self update_of_ne update_idem)

local instance neZero2 : NeZero 2 := ⟨by decide⟩

variable {gen i len : Nat} {l l' : Nat → Links} {s s' : TbStore}

/-- The part of a block that chaining reads and writes. -/
@[ext] structure Links where
  chainable : Slot → Bool
  jump : Slot → Option Nat
  jmpDest : Slot → Option Nat
  jmpList : List (Nat × Slot)
  invalid : Bool
  gen : Nat

def linksOf (t : Tb) : Links := ⟨t.chainable, t.jump, t.jmp.jmpDest, t.jmp.jmpList, t.invalid, t.gen⟩

def links (s : TbStore) (i : Nat) : Links := linksOf (s.tbs i)

@[simp] theorem links_modify (s : TbStore) (i : Nat) (f : Tb → Tb) :
    links (s.modify i f) = update (links s) i (linksOf (f (s.tbs i))) := by
  funext j
  rcases eq_or_ne j i with rfl | hj
  · simp [links]
  · simp [links, hj]

structure SameLinks (s s' : TbStore) : Prop where
  len : s'.len = s.len
  globalGen : s'.globalGen = s.globalGen
  links : links s' = links s

theorem SameLinks.trans {s'' : TbStore} (h : SameLinks s s') (h' : SameLinks s' s'') : SameLinks s s'' :=
  ⟨h'.len.trans h.len, h'.globalGen.trans h.globalGen, h'.links.trans h.links⟩

theorem sameLinks_modify {f : Tb → Tb} (h : linksOf (f (s.tbs i)) = linksOf (s.tbs i)) : SameLinks s (s.modify i f) :=
  ⟨rfl, rfl, by rw [links_modify, h]; exact Function.update_eq_self _ _⟩

theorem sameLinks_insert (s : TbStore) (i : Nat) : SameLinks s (s.insert i) :=
  (sameLinks_modify (f := fun t => { t with hashNext := s.hash (hashOf (s.tbs i).pc (s.tbs i).flags) }) rfl).trans
    ⟨rfl, rfl, rfl⟩

theorem sameLinks_markCodePage (s : TbStore) (page i : Nat) : SameLinks s (s.markCodePage page i) := by
  unfold TbStore.markCodePage
  split
  · exact ⟨rfl, rfl, rfl⟩
  · refine ⟨rfl, rfl, ?_⟩
    exact (sameLinks_modify (f := fun t => { t with pageNext := s.pageHeads page }) rfl).links

theorem sameLinks_decCodePage (s : TbStore) (page : Nat) : SameLinks s (s.decCodePage page) := by
  unfold TbStore.decCodePage
  split <;> exact ⟨rfl, rfl, rfl⟩

theorem sameLinks_unlinkPage {page : Nat} (h : s.unlinkPage page i = some s') : SameLinks s s' := by
  unfold TbStore.unlinkPage at h
  split at h
  · exact Option.some.inj h ▸ ⟨rfl, rfl, rfl⟩
  · obtain ⟨⟨next, head⟩, -, rfl⟩ := Option.map_eq_some_iff.mp h
    exact ⟨rfl, rfl, rfl⟩

theorem sameLinks_unlinkHash (h : s.unlinkHash i = some s') : SameLinks s s' := by
  obtain ⟨⟨next, head⟩, -, rfl⟩ := Option.map_eq_some_iff.mp h
  exact ⟨rfl, rfl, rfl⟩

/-- What holds of the links in every reachable state. A block that is invalid may still have its own jumps patched,
but no record of them; `current` is what `invalidate_all` can break. -/
structure ChainInv (len gen : Nat) (l : Nat → Links) : Prop where
  chainable : ∀ i slot d, (l i).jump slot = some d → (l i).chainable slot = true
  recorded : ∀ i slot, (l i).invalid = false → (l i).jump slot = (l i).jmpDest slot
  listed : ∀ i slot d, (l i).jmpDest slot = some d → d < len ∧ (l d).invalid = false ∧ (i, slot) ∈ (l d).jmpList
  current : ∀ i slot d, (l i).invalid = false → (l i).jmpDest slot = some d → (l d).gen = gen
  outside : ∀ i slot, len ≤ i → (l i).jmpDest slot = none

theorem ChainInv.fresh {x : Links} (h : ChainInv len gen l)
    (hjump : ∀ slot, x.jump slot = none) (hdest : ∀ slot, x.jmpDest slot = none) :
    ChainInv (len + 1) gen (update l len x) := by
  have hget : ∀ {i slot d}, (update l len x i).jmpDest slot = some d →
      i ≠ len ∧ (l i).jmpDest slot = some d := by
    intro i slot d hd
    rcases eq_or_ne i len with rfl | hi
    · rw [update_self, hdest] at hd
      exact nomatch hd
    · rw [update_of_ne hi] at hd
      exact ⟨hi, hd⟩
  constructor
  · intro i slot d hd
    rcases eq_or_ne i len with rfl | hi
    · rw [update_self, hjump] at hd
      exact nomatch hd
    · rw [update_of_ne hi] at hd ⊢
      exact h.chainable i slot d hd
  · intro i slot hinv
    rcases eq_or_ne i len with rfl | hi
    · rw [update_self, hjump, hdest]
    · rw [update_of_ne hi] at hinv ⊢
      exact h.recorded i slot hinv
  · intro i slot d hd
    obtain ⟨hlt, hrest⟩ := h.listed i slot d (hget hd).2
    rw [update_of_ne hlt.ne]
    exact ⟨hlt.trans (Nat.lt_succ_self _), hrest⟩
  · intro i slot d hinv hd
    obtain ⟨hi, hd⟩ := hget hd
    rw [update_of_ne hi] at hinv
    rw [update_of_ne (h.listed i slot d hd).1.ne]
    exact h.current i slot d hinv hd
  · intro i slot hi
    rw [update_of_ne (by omega)]
    exact h.outside i slot (by omega)

def resetLink (l : Nat → Links) (edge : Nat × Slot) : Nat → Links :=
  Function.update l edge.1
    { l edge.1 with
      jump := if (l edge.1).chainable edge.2 then Function.update (l edge.1).jump edge.2 none else (l edge.1).jump
      jmpDest := Function.update (l edge.1).jmpDest edge.2 none }

theorem links_resetJump (s : TbStore) (edge : Nat × Slot) : links (s.resetJump edge) = resetLink (links s) edge := by
  rw [TbStore.resetJump, links_modify]
  rfl

/-- What resetting a list of edges does to the links. -/
structure Reset (edges : List (Nat × Slot)) (l l' : Nat → Links) : Prop where
  chainable : ∀ j, (l' j).chainable = (l j).chainable
  jmpList : ∀ j, (l' j).jmpList = (l j).jmpList
  invalid : ∀ j, (l' j).invalid = (l j).invalid
  gen : ∀ j, (l' j).gen = (l j).gen
  jump : ∀ j slot, (l' j).jump slot =
    if (j, slot) ∈ edges ∧ (l j).chainable slot = true then none else (l j).jump slot
  jmpDest : ∀ j slot, (l' j).jmpDest slot = if (j, slot) ∈ edges then none else (l j).jmpDest slot

theorem resetLink_of_ne (l : Nat → Links) (edge : Nat × Slot) {j : Nat} (hj : j ≠ edge.1) :
    resetLink l edge j = l j := update_of_ne hj _ _

theorem reset_one (l : Nat → Links) (edge : Nat × Slot) : Reset [edge] l (resetLink l edge) := by
  obtain ⟨i, n⟩ := edge
  constructor
  case jump =>
    intro j slot
    rcases eq_or_ne j i with rfl | hj
    · by_cases hc : (l j).chainable n = true
      · rcases eq_or_ne slot n with rfl | hslot <;> simp [resetLink, *]
      · rcases eq_or_ne slot n with rfl | hslot <;> simp [resetLink, *]
    · rw [resetLink_of_ne _ _ hj]
      simp [hj]
  case jmpDest =>
    intro j slot
    rcases eq_or_ne j i with rfl | hj
    · simp [resetLink, Function.update_apply]
    · rw [resetLink_of_ne _ _ hj]
      simp [hj]
  all_goals
    intro j
    rcases eq_or_ne j i with rfl | hj
    · simp [resetLink]
    · rw [resetLink_of_ne _ _ hj]

theorem Reset.cons {edge : Nat × Slot} {edges : List (Nat × Slot)} {l'' : Nat → Links} (h : Reset [edge] l l')
    (h' : Reset edges l' l'') : Reset (edge :: edges) l l'' := by
  constructor
  · exact fun j => (h'.chainable j).trans (h.chainable j)
  · exact fun j => (h'.jmpList j).trans (h.jmpList j)
  · exact fun j => (h'.invalid j).trans (h.invalid j)
  · exact fun j => (h'.gen j).trans (h.gen j)
  · intro j slot
    rw [h'.jump, h.jump, h.chainable]
    simp only [List.mem_cons, List.not_mem_nil, or_false]
    grind
  · intro j slot
    rw [h'.jmpDest, h.jmpDest]
    simp only [List.mem_cons, List.not_mem_nil, or_false]
    grind

theorem reset_foldl (edges : List (Nat × Slot)) (s : TbStore) :
    Reset edges (links s) (links (edges.foldl TbStore.resetJump s)) ∧ (edges.foldl TbStore.resetJump s).len = s.len ∧
      (edges.foldl TbStore.resetJump s).globalGen = s.globalGen := by
  induction edges generalizing s with
  | nil => exact ⟨⟨fun _ => rfl, fun _ => rfl, fun _ => rfl, fun _ => rfl, fun _ _ => by simp, fun _ _ => by simp⟩,
      rfl, rfl⟩
  | cons edge edges ih =>
    obtain ⟨hreset, hlen, hgen⟩ := ih (s.resetJump edge)
    have hone : Reset [edge] (links s) (links (s.resetJump edge)) := by
      rw [links_resetJump]
      exact reset_one _ _
    exact ⟨hone.cons hreset, hlen, hgen⟩

/-- What `invalidate` does to the links. -/
structure Cut (i : Nat) (l l' : Nat → Links) : Prop where
  chainable : ∀ j, (l' j).chainable = (l j).chainable
  gen : ∀ j, (l' j).gen = (l j).gen
  invalid : ∀ j, (l' j).invalid = (l j).invalid ∨ j = i ∧ (l' j).invalid = true
  jump : ∀ j slot, (l' j).jump slot =
    if (j, slot) ∈ (l i).jmpList ∧ (l j).chainable slot = true then none else (l j).jump slot
  jmpDest : ∀ j slot, (l' j).jmpDest slot =
    if j = i ∨ (j, slot) ∈ (l i).jmpList then none else (l j).jmpDest slot
  jmpList : ∀ d, d ≠ i → ∀ edge ∈ (l d).jmpList, edge.1 ≠ i → edge ∈ (l' d).jmpList
  marked : (l' i).invalid = true

theorem ChainInv.cut (h : ChainInv len gen l) (hcut : Cut i l l') : ChainInv len gen l' := by
  have hdest : ∀ {j slot d}, (l' j).jmpDest slot = some d →
      j ≠ i ∧ d ≠ i ∧ (l j).jmpDest slot = some d := by
    intro j slot d hd
    rw [hcut.jmpDest] at hd
    split at hd
    · exact nomatch hd
    rename_i hj
    rw [not_or] at hj
    refine ⟨hj.1, ?_, hd⟩
    rintro rfl
    exact hj.2 (h.listed j slot d hd).2.2
  have hjump : ∀ {j slot d}, (l' j).jump slot = some d →
      ¬ (j, slot) ∈ (l i).jmpList ∧ (l j).jump slot = some d := by
    intro j slot d hd
    rw [hcut.jump] at hd
    split at hd
    · exact nomatch hd
    · rename_i hj
      exact ⟨fun hmem => hj ⟨hmem, h.chainable j slot d hd⟩, hd⟩
  have hvalid : ∀ {j}, (l' j).invalid = false → j ≠ i ∧ (l j).invalid = false := by
    intro j hj
    refine ⟨fun hji => ?_, ?_⟩
    · rw [hji, hcut.marked] at hj
      exact nomatch hj
    · rcases hcut.invalid j with heq | ⟨-, heq⟩
      · rwa [heq] at hj
      · rw [heq] at hj
        exact nomatch hj
  constructor
  · intro j slot d hd
    rw [hcut.chainable]
    exact h.chainable j slot d (hjump hd).2
  · intro j slot hinv
    obtain ⟨hji, hinv⟩ := hvalid hinv
    have hrec := h.recorded j slot hinv
    rw [hcut.jmpDest, hcut.jump]
    by_cases hmem : (j, slot) ∈ (l i).jmpList
    · rw [if_pos (Or.inr hmem)]
      cases hd : (l j).jump slot with
      | none => exact ite_self _
      | some d => rw [if_pos ⟨hmem, h.chainable j slot d hd⟩]
    · rw [if_neg fun hin => hmem hin.1, if_neg (not_or.mpr ⟨hji, hmem⟩)]
      exact hrec
  · intro j slot d hd
    obtain ⟨hji, hdi, hd⟩ := hdest hd
    obtain ⟨hlt, hinv, hmem⟩ := h.listed j slot d hd
    refine ⟨hlt, ?_, hcut.jmpList d hdi _ hmem hji⟩
    rcases hcut.invalid d with heq | ⟨heq, -⟩
    · rwa [heq]
    · exact absurd heq hdi
  · intro j slot d hinv hd
    rw [hcut.gen]
    exact h.current j slot d (hvalid hinv).2 (hdest hd).2.2
  · intro j slot hj
    rw [hcut.jmpDest, h.outside j slot hj, ite_self]

/-- Only incoming edges from block `i` are gone. -/
structure Dropped (i : Nat) (l l' : Nat → Links) : Prop where
  chainable : ∀ j, (l' j).chainable = (l j).chainable
  jump : ∀ j, (l' j).jump = (l j).jump
  jmpDest : ∀ j, (l' j).jmpDest = (l j).jmpDest
  invalid : ∀ j, (l' j).invalid = (l j).invalid
  gen : ∀ j, (l' j).gen = (l j).gen
  jmpList : ∀ d, ∀ edge ∈ (l d).jmpList, edge.1 ≠ i → edge ∈ (l' d).jmpList

theorem Dropped.trans {l'' : Nat → Links} (h : Dropped i l l') (h' : Dropped i l' l'') : Dropped i l l'' where
  chainable j := (h'.chainable j).trans (h.chainable j)
  jump j := (h'.jump j).trans (h.jump j)
  jmpDest j := (h'.jmpDest j).trans (h.jmpDest j)
  invalid j := (h'.invalid j).trans (h.invalid j)
  gen j := (h'.gen j).trans (h.gen j)
  jmpList d edge hmem hne := h'.jmpList d edge (h.jmpList d edge hmem hne) hne

theorem dropped_dropIncoming (s : TbStore) (i : Nat) (slot : Slot) (dst : Option Nat) :
    Dropped i (links s) (links (s.dropIncoming i slot dst)) := by
  cases dst with
  | none => exact ⟨fun _ => rfl, fun _ => rfl, fun _ => rfl, fun _ => rfl, fun _ => rfl, fun _ _ h _ => h⟩
  | some dst =>
    rw [TbStore.dropIncoming, links_modify]
    constructor
    case jmpList =>
      intro d edge hmem hne
      rcases eq_or_ne d dst with rfl | hd
      · rw [update_self]
        exact List.mem_filter.mpr ⟨hmem, by simp [hne]⟩
      · rwa [update_of_ne hd]
    all_goals
      intro j
      rcases eq_or_ne j dst with rfl | hj
      · rw [update_self]
        rfl
      · rw [update_of_ne hj]

@[simp] theorem dropIncoming_len (s : TbStore) (i : Nat) (slot : Slot) (dst : Option Nat) :
    (s.dropIncoming i slot dst).len = s.len := by cases dst <;> rfl

@[simp] theorem dropIncoming_globalGen (s : TbStore) (i : Nat) (slot : Slot) (dst : Option Nat) :
    (s.dropIncoming i slot dst).globalGen = s.globalGen := by cases dst <;> rfl

/-- The incoming and the outgoing edges of a block that has just been marked are unlinked. -/
theorem cut_unlink (h : links s = update l i { l i with invalid := true }) :
    Cut i l (links ((s.unlinkIncoming i).unlinkOutgoing i)) := by
  let s1 := s.modify i fun t => { t with jmp := { t.jmp with jmpList := [] } }
  have hlist : (s.tbs i).jmp.jmpList = (l i).jmpList := by
    change (links s i).jmpList = _
    rw [h, update_self]
  have hlinks1 : links s1 = update l i { l i with invalid := true, jmpList := [] } := by
    have hi : linksOf { s.tbs i with jmp := { (s.tbs i).jmp with jmpList := [] } } =
        { links s i with jmpList := [] } := rfl
    rw [links_modify, hi, h, update_self, update_idem]
  obtain ⟨hreset, -, -⟩ := reset_foldl (s.tbs i).jmp.jmpList s1
  have hin : s.unlinkIncoming i = (s.tbs i).jmp.jmpList.foldl TbStore.resetJump s1 := rfl
  rw [← hin, hlist, hlinks1] at hreset
  have hother : ∀ {j}, j ≠ i → update l i { l i with invalid := true, jmpList := [] } j = l j :=
    fun hj => update_of_ne hj _ _
  have hout : Dropped i (update (links (s.unlinkIncoming i)) i
      { links (s.unlinkIncoming i) i with jmpDest := fun _ => none })
      (links ((s.unlinkIncoming i).unlinkOutgoing i)) := by
    have hdrop := (dropped_dropIncoming ((s.unlinkIncoming i).modify i fun t =>
      { t with jmp := { t.jmp with jmpDest := fun _ => none } }) i 0
      (((s.unlinkIncoming i).tbs i).jmp.jmpDest 0)).trans
      (dropped_dropIncoming _ i 1 (((s.unlinkIncoming i).tbs i).jmp.jmpDest 1))
    rw [links_modify] at hdrop
    exact hdrop
  constructor
  · intro j
    rw [hout.chainable]
    rcases eq_or_ne j i with rfl | hj
    · rw [update_self, hreset.chainable, update_self]
    · rw [update_of_ne hj, hreset.chainable, hother hj]
  · intro j
    rw [hout.gen]
    rcases eq_or_ne j i with rfl | hj
    · rw [update_self, hreset.gen, update_self]
    · rw [update_of_ne hj, hreset.gen, hother hj]
  · intro j
    rw [hout.invalid]
    rcases eq_or_ne j i with rfl | hj
    · rw [update_self, hreset.invalid, update_self]
      exact Or.inr ⟨rfl, rfl⟩
    · rw [update_of_ne hj, hreset.invalid, hother hj]
      exact Or.inl rfl
  · intro j slot
    rw [hout.jump]
    rcases eq_or_ne j i with rfl | hj
    · rw [update_self, hreset.jump, update_self]
    · rw [update_of_ne hj, hreset.jump, hother hj]
  · intro j slot
    rw [hout.jmpDest]
    rcases eq_or_ne j i with rfl | hj
    · rw [update_self, if_pos (Or.inl rfl)]
    · rw [update_of_ne hj, hreset.jmpDest, hother hj]
      simp [hj]
  · intro d hd edge hmem hne
    refine hout.jmpList d edge ?_ hne
    rw [update_of_ne hd, hreset.jmpList, hother hd]
    exact hmem
  · rw [hout.invalid, update_self, hreset.invalid, update_self]

theorem invalidate_cut (h : s.invalidate i = some s') :
    Cut i (links s) (links s') ∧ s'.len = s.len ∧ s'.globalGen = s.globalGen := by
  obtain ⟨s2, hpage, hhash⟩ := Option.bind_eq_some_iff.mp h
  have hmark : links (s.modify i fun t => { t with invalid := true }) =
      update (links s) i { links s i with invalid := true } := links_modify _ _ _
  have hpage := (sameLinks_decCodePage _ _).trans (sameLinks_unlinkPage hpage)
  have hhash := sameLinks_unlinkHash hhash
  obtain ⟨-, hlen, hgen⟩ := reset_foldl (s2.tbs i).jmp.jmpList
    (s2.modify i fun t => { t with jmp := { t.jmp with jmpList := [] } })
  rw [hhash.links]
  refine ⟨cut_unlink (hpage.links.trans hmark), ?_, ?_⟩
  · rw [hhash.len, TbStore.unlinkOutgoing, dropIncoming_len, dropIncoming_len, modify_len]
    exact hlen.trans hpage.len
  · rw [hhash.globalGen, TbStore.unlinkOutgoing, dropIncoming_globalGen, dropIncoming_globalGen, modify_globalGen]
    exact hgen.trans hpage.globalGen

/-- What chaining slot `slot` of block `src` to block `dst` does to the links. -/
structure Joined (src : Nat) (slot : Slot) (dst : Nat) (l l' : Nat → Links) : Prop where
  chainable : ∀ j, (l' j).chainable = (l j).chainable
  invalid : ∀ j, (l' j).invalid = (l j).invalid
  gen : ∀ j, (l' j).gen = (l j).gen
  jump : ∀ j n, (l' j).jump n = if j = src ∧ n = slot then some dst else (l j).jump n
  jmpDest : ∀ j n, (l' j).jmpDest n = if j = src ∧ n = slot then some dst else (l j).jmpDest n
  jmpList : ∀ d, ∀ edge ∈ (l d).jmpList, edge ∈ (l' d).jmpList
  edge : (src, slot) ∈ (l' dst).jmpList

theorem ChainInv.joined {src dst : Nat} {slot : Slot} (h : ChainInv len gen l)
    (hjoin : Joined src slot dst l l') (hsrc : src < len) (hdst : dst < len)
    (hchain : (l src).chainable slot = true) (hvalid : (l dst).invalid = false) (hgen : (l dst).gen = gen) :
    ChainInv len gen l' := by
  constructor
  · intro i n d hd
    rw [hjoin.chainable]
    rw [hjoin.jump] at hd
    split at hd
    · rename_i hin
      rwa [hin.1, hin.2]
    · exact h.chainable i n d hd
  · intro i n hinv
    rw [hjoin.invalid] at hinv
    rw [hjoin.jump, hjoin.jmpDest, h.recorded i n hinv]
  · intro i n d hd
    rw [hjoin.invalid]
    rw [hjoin.jmpDest] at hd
    split at hd
    · rename_i hin
      obtain rfl := Option.some.inj hd
      rw [hin.1, hin.2]
      exact ⟨hdst, hvalid, hjoin.edge⟩
    · obtain ⟨hlt, hinv, hmem⟩ := h.listed i n d hd
      exact ⟨hlt, hinv, hjoin.jmpList d _ hmem⟩
  · intro i n d hinv hd
    rw [hjoin.invalid] at hinv
    rw [hjoin.gen]
    rw [hjoin.jmpDest] at hd
    split at hd
    · rw [← Option.some.inj hd]
      exact hgen
    · exact h.current i n d hinv hd
  · intro i n hi
    rw [hjoin.jmpDest, if_neg fun hin : i = src ∧ n = slot => by omega]
    exact h.outside i n hi

section

variable (s : TbStore)

/-- What the two updates of `tb_add_jump` do to the links. -/
theorem joined_modify (src : Nat) (slot : Slot) (dst : Nat) : Joined src slot dst (links s)
      (links ((s.modify src fun t =>
        { t with
          jump := update t.jump slot (some dst)
          jmp := { t.jmp with jmpDest := update t.jmp.jmpDest slot (some dst) } }).modify dst fun t =>
        { t with jmp := { t.jmp with jmpList := t.jmp.jmpList ++ [(src, slot)] } })) := by
  rw [links_modify, links_modify]
  constructor
  case edge => simp [linksOf]
  case jmpList =>
    intro d edge hmem
    have hmem : edge ∈ (s.tbs d).jmp.jmpList := hmem
    rcases eq_or_ne d dst with rfl | hd <;> rcases eq_or_ne d src with rfl | hsrc <;>
      simp [linksOf, links, *]
  all_goals
    intro j
    rcases eq_or_ne j dst with rfl | hdst <;> rcases eq_or_ne j src with rfl | hsrc <;>
      simp [linksOf, links, Function.update_apply, *]

/-- The operations on the store. `translate` is the part of `tb_gen_code` that makes a block ready to run, `failed` is
a call in which `gen_code` returned no code. -/
inductive StoreEvent where
  | alloc (pc : BitVec 64) (flags cflags : BitVec 32)
  | translate (pc : BitVec 64) (flags cflags : BitVec 32) (f : Fetched) (chainable : Slot → Bool)
  | failed (pc : BitVec 64) (flags cflags : BitVec 32)
  | insert (i : Nat)
  | addJump (src : Nat) (slot : Slot) (dst : Nat)
  | invalidate (i : Nat)
  | invalidatePhysPage (page : Nat)
  | invalidateAll
  | flush

def withAlloc (pc : BitVec 64) (flags cflags : BitVec 32) (f : Nat → TbStore → TbStore) : TbStore :=
  match s.alloc pc flags cflags with
  | none => s
  | some (i, s) => f i s

/-- One operation; an index that is not that of a block is a panic. -/
def storeStep : StoreEvent → Option TbStore
  | .alloc pc flags cflags => some (withAlloc s pc flags cflags fun _ s => s)
  | .translate pc flags cflags f chainable =>
    some (withAlloc s pc flags cflags fun i s => (s.stamp i f).setJumpSlots i chainable)
  | .failed pc flags cflags => some (withAlloc s pc flags cflags fun i s => s.markInvalid i)
  | .insert i => if i < s.len then some (s.insert i) else none
  | .addJump src slot dst => if src < s.len ∧ dst < s.len then some (s.tbAddJump src slot dst) else none
  | .invalidate i => if i < s.len then s.invalidate i else none
  | .invalidatePhysPage page => s.invalidatePhysPage page
  | .invalidateAll => some s.invalidateAll
  | .flush => some s.flush

/-- The generation only changes when no valid block is chained to another. -/
def unchained : StoreEvent → Prop
  | .invalidateAll => ∀ i < s.len, ∀ slot, (s.tbs i).invalid = false → (s.tbs i).jump slot = none
  | _ => True

/-- The host jump of a valid block goes to a valid block of the current generation, which lists it. -/
def ChainOk : Prop :=
  ∀ i < s.len, ∀ slot d, (s.tbs i).invalid = false → (s.tbs i).jump slot = some d →
    d < s.len ∧ (s.tbs d).invalid = false ∧ (s.tbs d).gen = s.globalGen ∧ (i, slot) ∈ (s.tbs d).jmp.jmpList

def StoreInv : Prop := ChainInv s.len s.globalGen (links s)

end

theorem StoreInv.chainOk (h : StoreInv s) : ChainOk s := by
  intro i _ slot d hinv hd
  have hdest : (links s i).jmpDest slot = some d := (h.recorded i slot hinv).symm.trans hd
  obtain ⟨hlt, hvalid, hmem⟩ := h.listed i slot d hdest
  exact ⟨hlt, hvalid, h.current i slot d hinv hdest, hmem⟩

theorem StoreInv.same (h : StoreInv s) (hsame : SameLinks s s') : StoreInv s' := by
  rw [StoreInv, hsame.len, hsame.globalGen, hsame.links]
  exact h

theorem storeInv_empty (gen : Nat) : StoreInv { TbStore.empty with globalGen := gen } where
  chainable _ _ _ h := nomatch h
  recorded _ _ _ := rfl
  listed _ _ _ h := nomatch h
  current _ _ _ _ h := nomatch h
  outside _ _ _ := rfl

theorem withAlloc_eq (s : TbStore) (pc : BitVec 64) (flags cflags : BitVec 32) (f : Nat → TbStore → TbStore) :
    withAlloc s pc flags cflags f = s ∨
      withAlloc s pc flags cflags f = f s.len (s.push { pc := pc, flags := flags, cflags := cflags }) := by
  unfold withAlloc
  rcases alloc_cases s pc flags cflags with heq | heq <;> rw [heq]
  · exact Or.inl rfl
  · exact Or.inr rfl

/-- A new block enters without any edge. -/
theorem StoreInv.push {x : Links} (h : StoreInv s) (hlen : s'.len = s.len + 1)
    (hgen : s'.globalGen = s.globalGen) (hlinks : links s' = update (links s) s.len x)
    (hjump : ∀ slot, x.jump slot = none) (hdest : ∀ slot, x.jmpDest slot = none) : StoreInv s' := by
  rw [StoreInv, hlen, hgen, hlinks]
  exact ChainInv.fresh h hjump hdest

@[simp] theorem links_push (s : TbStore) (t : Tb) : links (s.push t) = update (links s) s.len (linksOf t) := by
  funext j
  rcases eq_or_ne j s.len with rfl | hj
  · simp [links]
  · simp [links, hj]

theorem stamp_links (s : TbStore) (i : Nat) (f : Fetched) :
    (s.stamp i f).len = s.len ∧ (s.stamp i f).globalGen = s.globalGen ∧
      links (s.stamp i f) = update (links s) i { links s i with gen := s.globalGen } := by
  have hmark := sameLinks_markCodePage (s.modify i fun t =>
    { t with size := f.size, physPc := f.physPc, pages := f.pages, gen := s.globalGen }) (f.physPc >>> 12).toNat i
  exact ⟨hmark.len, hmark.globalGen, hmark.links.trans (links_modify _ _ _)⟩

theorem setJumpSlots_links (s : TbStore) (i : Nat) (chainable : Slot → Bool) :
    links (s.setJumpSlots i chainable) = update (links s) i { links s i with chainable := chainable } :=
  links_modify _ _ _

theorem StoreInv.addJump {src dst : Nat} {slot : Slot} (h : StoreInv s) (hsrc : src < s.len)
    (hdst : dst < s.len) : StoreInv (s.tbAddJump src slot dst) := by
  unfold TbStore.tbAddJump
  split
  · exact h
  rename_i hchain
  split
  · exact h
  rename_i hlive
  split
  · exact h
  rw [Bool.not_eq_true, Bool.not_eq_false'] at hchain hlive
  obtain ⟨hvalid, hgen⟩ := Bool.and_eq_true_iff.mp hlive
  rw [Bool.not_eq_true'] at hvalid
  exact ChainInv.joined h (joined_modify s src slot dst) hsrc hdst hchain hvalid (beq_iff_eq.mp hgen)

theorem StoreInv.invalidate (h : StoreInv s) (hi : s.invalidate i = some s') : StoreInv s' := by
  obtain ⟨hcut, hlen, hgen⟩ := invalidate_cut hi
  rw [StoreInv, hlen, hgen]
  exact ChainInv.cut h hcut

theorem StoreInv.foldlM {α : Type} {f : TbStore → α → Option TbStore}
    (hf : ∀ s a s', f s a = some s' → StoreInv s → StoreInv s') {as : List α} (h : StoreInv s)
    (hfold : as.foldlM f s = some s') : StoreInv s' := by
  induction as generalizing s with
  | nil => exact Option.some.inj hfold ▸ h
  | cons a as ih =>
    rw [List.foldlM_cons] at hfold
    obtain ⟨s1, hs1, hfold⟩ := Option.bind_eq_some_iff.mp hfold
    exact ih (hf s a s1 hs1 h) hfold

theorem StoreInv.invalidatePhysPage {page : Nat} (h : StoreInv s)
    (hpage : s.invalidatePhysPage page = some s') : StoreInv s' := by
  unfold TbStore.invalidatePhysPage at hpage
  split at hpage
  · exact Option.some.inj hpage ▸ h
  obtain ⟨met, -, hpage⟩ := Option.bind_eq_some_iff.mp hpage
  dsimp only at hpage
  split at hpage
  · split at hpage
    · refine StoreInv.foldlM (fun s i s' hs' hs => ?_) h hpage
      split at hs'
      · exact hs.invalidate hs'
      · exact Option.some.inj hs' ▸ hs
    · exact Option.some.inj hpage ▸ h
  · exact StoreInv.foldlM (fun s i s' hs' hs => hs.invalidate hs') h hpage

theorem StoreInv.invalidateAll (h : StoreInv s)
    (hcond : ∀ i < s.len, ∀ slot, (s.tbs i).invalid = false → (s.tbs i).jump slot = none) :
    StoreInv s.invalidateAll where
  chainable := h.chainable
  recorded := h.recorded
  listed := h.listed
  current i slot d hinv hd := by
    have hd : (links s i).jmpDest slot = some d := hd
    have hlt : i < s.len := by
      by_contra hge
      rw [h.outside i slot (Nat.le_of_not_lt hge)] at hd
      exact nomatch hd
    have hnone := (h.recorded i slot hinv).symm.trans (hcond i hlt slot hinv)
    rw [hnone] at hd
    exact nomatch hd
  outside := h.outside

theorem StoreInv.step {e : StoreEvent} (h : StoreInv s) (hok : unchained s e)
    (hstep : storeStep s e = some s') : StoreInv s' := by
  cases e with
  | alloc pc flags cflags =>
    obtain rfl := Option.some.inj hstep
    rcases withAlloc_eq s pc flags cflags fun _ s => s with heq | heq <;> rw [heq]
    · exact h
    · exact h.push rfl rfl (links_push _ _) (fun _ => rfl) fun _ => rfl
  | translate pc flags cflags f chainable =>
    obtain rfl := Option.some.inj hstep
    rcases withAlloc_eq s pc flags cflags fun i s => (s.stamp i f).setJumpSlots i chainable with heq | heq <;> rw [heq]
    · exact h
    obtain ⟨hlen, hgen, hlinks⟩ := stamp_links (s.push { pc := pc, flags := flags, cflags := cflags }) s.len f
    refine h.push (x := ⟨chainable, fun _ => none, fun _ => none, [], false, s.globalGen⟩) hlen hgen ?_
      (fun _ => rfl) fun _ => rfl
    rw [setJumpSlots_links, hlinks, links_push, update_idem, update_self, update_idem,
      update_self]
    rfl
  | failed pc flags cflags =>
    obtain rfl := Option.some.inj hstep
    rcases withAlloc_eq s pc flags cflags fun i s => s.markInvalid i with heq | heq <;> rw [heq]
    · exact h
    refine h.push (x := ⟨fun _ => false, fun _ => none, fun _ => none, [], true, 0⟩) rfl rfl ?_ (fun _ => rfl)
      fun _ => rfl
    rw [TbStore.markInvalid, links_modify, links_push, update_idem, push_tbs, update_self]
    rfl
  | insert i =>
    rw [storeStep] at hstep
    split at hstep
    · exact Option.some.inj hstep ▸ h.same (sameLinks_insert s i)
    · exact nomatch hstep
  | addJump src slot dst =>
    rw [storeStep] at hstep
    split at hstep
    · rename_i hlt
      exact Option.some.inj hstep ▸ h.addJump hlt.1 hlt.2
    · exact nomatch hstep
  | invalidate i =>
    rw [storeStep] at hstep
    split at hstep
    · exact h.invalidate hstep
    · exact nomatch hstep
  | invalidatePhysPage page => exact h.invalidatePhysPage hstep
  | invalidateAll => exact Option.some.inj hstep ▸ h.invalidateAll hok
  | flush => exact Option.some.inj hstep ▸ storeInv_empty _

/-- In every run in which the generation changes only while no valid block is chained, the jumps of the valid blocks
go to valid blocks of the current generation that list them; so no valid block jumps to an invalidated one. -/
theorem chains_lead_to_valid_blocks {es : List StoreEvent} {s : TbStore}
    (h : Run (guarded unchained (ofOption storeStep)) TbStore.empty es s) : ChainOk s ∧ ∀ d, (s.tbs d).invalid = true →
      ∀ i < s.len, ∀ slot, (s.tbs i).invalid = false → (s.tbs i).jump slot ≠ some d := by
  have hinv : StoreInv s := Run.invariant (I := StoreInv) (fun _ _ _ ⟨hok, hstep⟩ hs => hs.step hok hstep) h
    (storeInv_empty 1)
  refine ⟨hinv.chainOk, fun d hd i hi slot hvalid hjump => ?_⟩
  rw [(hinv.chainOk i hi slot d hvalid hjump).2.1] at hd
  exact nomatch hd

/-- Two blocks of one page, the first chained to the second. -/
def twoBlocks : List StoreEvent :=
  [.translate 0x80000000 0 0 ⟨4, 0x80000000, [0x80000]⟩ fun _ => true,
   .translate 0x80000004 0 0 ⟨4, 0x80000004, [0x80000]⟩ fun _ => true, .addJump 0 0 1]

theorem chains_lead_to_valid_blocks_twoBlocks :
    ∃ s, Run (guarded unchained (ofOption storeStep)) TbStore.empty (twoBlocks ++ [.invalidate 1]) s ∧
      (s.tbs 1).invalid = true ∧ (s.tbs 0).jump 0 ≠ some 1 := by
  have hrun : Run (guarded unchained (ofOption storeStep)) TbStore.empty (twoBlocks ++ [.invalidate 1]) _ :=
    .cons ⟨trivial, rfl⟩ (.cons ⟨trivial, rfl⟩ (.cons ⟨trivial, rfl⟩ (.cons ⟨trivial, rfl⟩ (.nil _))))
  exact ⟨_, hrun, rfl, (chains_lead_to_valid_blocks hrun).2 1 rfl 0 (by decide) 0 rfl⟩

/-- `invalidate_all` leaves the first block valid and chained to a block of the old generation. -/
theorem chain_survives_invalidateAll :
    ∃ s, Run (ofOption storeStep) TbStore.empty (twoBlocks ++ [.invalidateAll]) s ∧ ¬ ChainOk s := by
  have hrun : Run (ofOption storeStep) TbStore.empty (twoBlocks ++ [.invalidateAll]) _ :=
    .cons rfl (.cons rfl (.cons rfl (.cons rfl (.nil _))))
  refine ⟨_, hrun, fun h => ?_⟩
  exact absurd (h 0 (by decide) 0 1 rfl rfl).2.2.1 (by decide)

end MachinaTbChain
