import Machina.Runs
import Machina.TbStore

/-!
# Blocks and physical pages

Which blocks a lookup can still return once the physical page they were translated from has been invalidated, and
when the per-page count shows that a page holds code. The engine is the store together with the jump cache of each
CPU.
-/

namespace MachinaTbPages

open MachinaLinked MachinaRuns MachinaTbStore

variable {e : Engine} {f : Fetched} {i : Nat} {xs ys : Nat → List Nat} {t : Tb} {s s' s'' : TbStore}

structure Engine where
  store : TbStore
  caches : Nat → JumpCache

def start : Engine := ⟨TbStore.empty, fun _ => {}⟩

inductive Event where
  | find (cpu : Nat) (pc : BitVec 64) (flags : BitVec 32) (curPhys : Option (BitVec 64)) (w : Work)
  | genCode (cpu : Nat) (pc : BitVec 64) (flags cflags : BitVec 32) (w : Work)
  | cacheExit (src dst : Nat)
  | addJump (src : Nat) (slot : Slot) (dst : Nat)
  | invalidatePhysPage (page : Nat)
  | invalidateAll
  | invalidateCache (cpu : Nat)
  | flush

def setCache (e : Engine) (cpu : Nat) : Option Nat × TbStore × JumpCache → Engine
  | (_, s, c) => ⟨s, Function.update e.caches cpu c⟩

def onStore (e : Engine) (s : TbStore) : Engine := { e with store := s }

def step (e : Engine) : Event → Option Engine
  | .find cpu pc flags curPhys w => some (setCache e cpu (tbFind e.store (e.caches cpu) pc flags curPhys w))
  | .genCode cpu pc flags cflags w => some (setCache e cpu (tbGenCode e.store (e.caches cpu) pc flags cflags w))
  | .cacheExit src dst =>
    if src < e.store.len then some (onStore e
      (e.store.modify src fun t => { t with exitTarget := some dst })) else none
  | .addJump src slot dst =>
    if src < e.store.len ∧ dst < e.store.len then some (onStore e (e.store.tbAddJump src slot dst)) else none
  | .invalidatePhysPage page => (e.store.invalidatePhysPage page).map (onStore e)
  | .invalidateAll => some (onStore e e.store.invalidateAll)
  | .invalidateCache cpu => some { e with caches := Function.update e.caches cpu (e.caches cpu).invalidate }
  | .flush => some (onStore e e.store.flush)

/-- The three ways to find a block without translating. -/
inductive Lookup where
  | hash (pc : BitVec 64) (flags : BitVec 32)
  | jumpCache (cpu : Nat) (pc : BitVec 64) (flags : BitVec 32) (phys : BitVec 64)
  | exitTarget (src : Nat) (pc : BitVec 64) (flags : BitVec 32)

def Lookup.run (e : Engine) : Lookup → Option Nat
  | .hash pc flags => e.store.lookup pc flags
  | .jumpCache cpu pc flags phys => e.store.jumpCacheHit (e.caches cpu) pc flags phys
  | .exitTarget src pc flags => e.store.exitTargetHit src pc flags

theorem live_of_lookup {look : Lookup} (h : look.run e = some i) : e.store.live i = true := by
  cases look with
  | hash pc flags =>
    have hp := find_some h
    simp only [Bool.and_eq_true] at hp
    exact hp.1.1
  | jumpCache cpu pc flags phys =>
    have hp := (Option.filter_eq_some_iff.mp h).2
    simp only [Bool.and_eq_true] at hp
    exact hp.1.1.1.2
  | exitTarget src pc flags =>
    have hp := (Option.filter_eq_some_iff.mp h).2
    simp only [Bool.and_eq_true] at hp
    exact hp.1.1.2

/-- The page is one of those that the code was read from. -/
def covers (t : Tb) (page : Nat) : Prop := ∃ q ∈ t.pages, q.toNat = page

/-- The code lies in one page, and the store keeps a count for it. -/
def OnePage (f : Fetched) : Prop :=
  (f.physPc >>> 12).toNat < codeRefcountPages ∧ ∀ q ∈ f.pages, q = f.physPc >>> 12

def Work.OnePage (w : Work) : Prop :=
  (∀ f ∈ w.overflows, MachinaTbPages.OnePage f) ∧
    match w.ending with
    | .done f _ => MachinaTbPages.OnePage f
    | _ => True

/-- Code is translated from tracked pages, one at a time, and no generation comes back while one of its blocks is
still valid. -/
def tracked (e : Engine) : Event → Prop
  | .find _ _ _ _ w | .genCode _ _ _ _ w => Work.OnePage w
  | .invalidateAll => ∀ i < e.store.len, (e.store.tbs i).invalid = false → (e.store.tbs i).gen ≠
      nextGen e.store.globalGen
  | _ => True

/-- The block without its chaining, which pages do not depend on. -/
def bareTb (t : Tb) : Tb :=
  { t with chainable := fun _ => false, jump := fun _ => none, jmp := {}, exitTarget := none }

def bare (s : TbStore) : TbStore := { s with tbs := fun i => bareTb (s.tbs i) }

theorem bare_modify {f : Tb → Tb} (h : bareTb (f (s.tbs i)) = bareTb (s.tbs i)) : bare (s.modify i f) = bare s := by
  have htbs : (fun j => bareTb ((s.modify i f).tbs j)) = fun j => bareTb (s.tbs j) := by
    funext j
    rcases eq_or_ne j i with rfl | hj
    · rw [modify_tbs, Function.update_self]
      exact h
    · rw [modify_tbs, Function.update_of_ne hj]
  rw [bare, htbs]
  rfl

theorem bare_resetJumps (edges : List (Nat × Slot)) (s : TbStore) :
    bare (edges.foldl TbStore.resetJump s) = bare s := by
  induction edges generalizing s with
  | nil => rfl
  | cons edge edges ih =>
    rw [List.foldl_cons, ih, TbStore.resetJump]
    exact bare_modify rfl

theorem bare_dropIncoming (s : TbStore) (i : Nat) (slot : Slot) (dst : Option Nat) :
    bare (s.dropIncoming i slot dst) = bare s := by
  cases dst with
  | none => rfl
  | some dst =>
    rw [TbStore.dropIncoming]
    exact bare_modify rfl

theorem bare_unlinkEdges (s : TbStore) (i : Nat) : bare ((s.unlinkIncoming i).unlinkOutgoing i) = bare s := by
  have hin : bare (s.unlinkIncoming i) = bare s := by
    rw [TbStore.unlinkIncoming, bare_resetJumps]
    exact bare_modify rfl
  rw [TbStore.unlinkOutgoing, bare_dropIncoming, bare_dropIncoming]
  exact (bare_modify rfl).trans hin

theorem bare_tbAddJump (s : TbStore) (src : Nat) (slot : Slot) (dst : Nat) :
    bare (s.tbAddJump src slot dst) = bare s := by
  unfold TbStore.tbAddJump
  split
  · rfl
  split
  · rfl
  · split
    · rfl
    · exact (bare_modify rfl).trans (bare_modify rfl)

/-- The lists of the store: `xs` are those of the pages, `ys` those of the hash buckets. Every live block is in the
list of its page, which is a tracked one and the only one its code comes from. -/
structure Listed (s : TbStore) (xs ys : Nat → List Nat) : Prop where
  pages : Threads (fun i => (s.tbs i).pageNext) s.pageHeads (fun i => (s.tbs i).page) s.len xs
  hash : Threads (fun i => (s.tbs i).hashNext) s.hash (fun i => hashOf (s.tbs i).pc (s.tbs i).flags) s.len ys
  full : ∀ i < s.len, s.live i = true → i ∈ xs (s.tbs i).page
  inside : ∀ i < s.len, s.live i = true →
    (s.tbs i).page < codeRefcountPages ∧ ∀ q ∈ (s.tbs i).pages, q = (s.tbs i).physPc >>> 12

theorem Listed.of_bare (h : Listed s xs ys) (hbare : bare s' = bare s) : Listed s' xs ys := by
  have h' : Listed (bare s) xs ys := ⟨h.pages, h.hash, h.full, h.inside⟩
  rw [← hbare] at h'
  exact ⟨h'.pages, h'.hash, h'.full, h'.inside⟩

/-- Blocks may only have become invalid, and counts other than that of `page` are as before. -/
structure Shrunk (page : Nat) (s s' : TbStore) : Prop where
  len : s'.len = s.len
  globalGen : s'.globalGen = s.globalGen
  physPc : ∀ i, (s'.tbs i).physPc = (s.tbs i).physPc
  pages : ∀ i, (s'.tbs i).pages = (s.tbs i).pages
  gen : ∀ i, (s'.tbs i).gen = (s.tbs i).gen
  invalid : ∀ i, (s.tbs i).invalid = true → (s'.tbs i).invalid = true
  codePages : ∀ q, q ≠ page → s'.codePages q = s.codePages q

theorem Shrunk.refl (page : Nat) (s : TbStore) : Shrunk page s s :=
  ⟨rfl, rfl, fun _ => rfl, fun _ => rfl, fun _ => rfl, fun _ h => h, fun _ _ => rfl⟩

theorem Shrunk.trans {page : Nat} (h : Shrunk page s s') (h' : Shrunk page s' s'') : Shrunk page s s'' where
  len := h'.len.trans h.len
  globalGen := h'.globalGen.trans h.globalGen
  physPc i := (h'.physPc i).trans (h.physPc i)
  pages i := (h'.pages i).trans (h.pages i)
  gen i := (h'.gen i).trans (h.gen i)
  invalid i hi := h'.invalid i (h.invalid i hi)
  codePages q hq := (h'.codePages q hq).trans (h.codePages q hq)

theorem Shrunk.of_bare {page : Nat} (h : Shrunk page s s') (hbare : bare s'' = bare s') : Shrunk page s s'' := by
  have h' : Shrunk page s (bare s') := ⟨h.len, h.globalGen, h.physPc, h.pages, h.gen, h.invalid, h.codePages⟩
  rw [← hbare] at h'
  exact ⟨h'.len, h'.globalGen, h'.physPc, h'.pages, h'.gen, h'.invalid, h'.codePages⟩

theorem Shrunk.page {page : Nat} (h : Shrunk page s s') (i : Nat) : (s'.tbs i).page = (s.tbs i).page := by
  rw [Tb.page, h.physPc, Tb.page]

theorem Shrunk.live {page : Nat} (h : Shrunk page s s') (hlive : s'.live i = true) : s.live i = true := by
  rw [TbStore.live, h.gen, h.globalGen, Bool.and_eq_true] at hlive
  rw [TbStore.live, Bool.and_eq_true]
  refine ⟨?_, hlive.2⟩
  cases hinv : (s.tbs i).invalid with
  | false => rfl
  | true =>
    rw [h.invalid i hinv] at hlive
    exact nomatch hlive.1

theorem shrunk_markInvalid (page : Nat) (s : TbStore) (i : Nat) : Shrunk page s (s.markInvalid i) := by
  constructor
  case len | globalGen | codePages => intros; rfl
  all_goals
    intro j
    rcases eq_or_ne j i with rfl | hj
    · simp [TbStore.markInvalid]
    · simp [TbStore.markInvalid, hj]

theorem Listed.markInvalid (h : Listed s xs ys) (i : Nat) : Listed (s.markInvalid i) xs ys := by
  have hshrunk := shrunk_markInvalid 0 s i
  have hkeep : ∀ j, ((s.markInvalid i).tbs j).pageNext = (s.tbs j).pageNext ∧
      ((s.markInvalid i).tbs j).hashNext = (s.tbs j).hashNext ∧ ((s.markInvalid i).tbs j).pc = (s.tbs j).pc ∧
      ((s.markInvalid i).tbs j).flags = (s.tbs j).flags := by
    intro j
    rcases eq_or_ne j i with rfl | hj
    · simp [TbStore.markInvalid]
    · simp [TbStore.markInvalid, hj]
  constructor
  · exact h.pages.grow le_rfl (fun j _ => (hkeep j).1) fun j _ => hshrunk.page j
  · refine h.hash.grow le_rfl (fun j _ => (hkeep j).2.1) fun j _ => ?_
    rw [(hkeep j).2.2.1, (hkeep j).2.2.2]
  · intro j hj hlive
    rw [hshrunk.page]
    exact h.full j hj (hshrunk.live hlive)
  · intro j hj hlive
    rw [hshrunk.page, hshrunk.pages, hshrunk.physPc]
    exact h.inside j hj (hshrunk.live hlive)

theorem Listed.decCodePage (h : Listed s xs ys) (page : Nat) : Listed (s.decCodePage page) xs ys := by
  unfold TbStore.decCodePage
  split
  · exact ⟨h.pages, h.hash, h.full, h.inside⟩
  · exact h

theorem shrunk_decCodePage (s : TbStore) (page : Nat) : Shrunk page s (s.decCodePage page) := by
  unfold TbStore.decCodePage
  split
  · exact ⟨rfl, rfl, fun _ => rfl, fun _ => rfl, fun _ => rfl, fun _ h => h, fun _ hq => Function.update_of_ne hq _ _⟩
  · exact Shrunk.refl _ _

theorem Listed.unlinkPage {page : Nat} (h : Listed s xs ys)
    (hpage : page < codeRefcountPages) (hinv : (s.tbs i).invalid = true) :
    ∃ s' xs', s.unlinkPage page i = some s' ∧ Listed s' xs' ys ∧ Shrunk page s s' := by
  have hstop : ∀ j < s.len, decide (s.len ≤ j) = false := fun j hj => by simpa using hj
  obtain ⟨next, head, hunlink, hthreads⟩ := h.pages.unlink hstop i page
  have heq : s.unlinkPage page i =
      some { s.setPageNext next with pageHeads := Function.update s.pageHeads page head } := by
    rw [TbStore.unlinkPage, if_neg (Nat.not_le.mpr hpage), hunlink]
    rfl
  refine ⟨_, _, heq, ⟨hthreads, h.hash, fun j hj hlive => ?_, h.inside⟩,
    ⟨rfl, rfl, fun _ => rfl, fun _ => rfl, fun _ => rfl, fun _ h => h, fun _ _ => rfl⟩⟩
  have hlive : s.live j = true := hlive
  have hne : j ≠ i := by
    rintro rfl
    rw [TbStore.live, hinv] at hlive
    exact nomatch hlive
  have hmem := h.full j hj hlive
  change j ∈ Function.update xs page ((xs page).erase i) (s.tbs j).page
  rcases eq_or_ne (s.tbs j).page page with hp | hp
  · rw [hp] at hmem ⊢
    rw [Function.update_self]
    exact (List.mem_erase_of_ne hne).mpr hmem
  · rwa [Function.update_of_ne hp]

theorem Listed.unlinkHash (h : Listed s xs ys) (i page : Nat) :
    ∃ s' ys', s.unlinkHash i = some s' ∧ Listed s' xs ys' ∧ Shrunk page s s' := by
  obtain ⟨next, head, hunlink, hthreads⟩ := h.hash.unlink (fun _ _ => rfl) i (hashOf (s.tbs i).pc (s.tbs i).flags)
  have heq : s.unlinkHash i = some
      { s.setHashNext next with hash := Function.update s.hash (hashOf (s.tbs i).pc (s.tbs i).flags) head } := by
    rw [TbStore.unlinkHash, hunlink]
    rfl
  exact ⟨_, _, heq, ⟨h.pages, hthreads, h.full, h.inside⟩,
    ⟨rfl, rfl, fun _ => rfl, fun _ => rfl, fun _ => rfl, fun _ h => h, fun _ _ => rfl⟩⟩

/-- `invalidate` returns, and only the block and the count of its page change. -/
theorem Listed.invalidate (h : Listed s xs ys) (htracked : (s.tbs i).page < codeRefcountPages) :
    ∃ s' xs' ys', s.invalidate i = some s' ∧ Listed s' xs' ys' ∧ Shrunk (s.tbs i).page s s' ∧
      (s'.tbs i).invalid = true := by
  let s1 := s.markInvalid i
  have hpage : (s1.tbs i).page = (s.tbs i).page := (shrunk_markInvalid 0 s i).page i
  let s2 := s1.decCodePage (s1.tbs i).page
  have hshrunk2 : Shrunk (s.tbs i).page s s2 := by
    refine (shrunk_markInvalid _ s i).trans ?_
    rw [← hpage]
    exact shrunk_decCodePage _ _
  have hinv1 : (s1.tbs i).invalid = true := by simp [s1, TbStore.markInvalid]
  have hinv2 : (s2.tbs i).invalid = true := (shrunk_decCodePage s1 _).invalid i hinv1
  have hlisted2 : Listed s2 xs ys := (h.markInvalid i).decCodePage _
  obtain ⟨s3, xs', hunlink, hlisted3, hshrunk3⟩ := hlisted2.unlinkPage htracked hinv2
  obtain ⟨s5, ys', hhash, hlisted5, hshrunk5⟩ :=
    (hlisted3.of_bare (bare_unlinkEdges s3 i)).unlinkHash i (s.tbs i).page
  refine ⟨s5, xs', ys', ?_, hlisted5, ?_, ?_⟩
  · have hpage2 : (s2.tbs i).page = (s.tbs i).page := hshrunk2.page i
    refine Option.bind_eq_some_iff.mpr ⟨s3, ?_, hhash⟩
    rw [← hpage2] at hunlink
    exact hunlink
  · exact (hshrunk2.trans (hshrunk3.of_bare (bare_unlinkEdges s3 i))).trans hshrunk5
  · exact hshrunk5.invalid i (((Shrunk.refl 0 s3).of_bare (bare_unlinkEdges s3 i)).invalid i
      (hshrunk3.invalid i hinv2))

theorem Listed.invalidateEach {page : Nat} {is : List Nat}
    (h : Listed s xs ys) (hpage : page < codeRefcountPages) (his : ∀ i ∈ is, (s.tbs i).page = page) :
    ∃ s' xs' ys', s.invalidateEach is = some s' ∧ Listed s' xs' ys' ∧ Shrunk page s s' ∧
      ∀ i ∈ is, (s'.tbs i).invalid = true := by
  induction is generalizing s xs ys with
  | nil => exact ⟨s, xs, ys, rfl, h, Shrunk.refl _ _, fun _ hi => nomatch hi⟩
  | cons i is ih =>
    have hi : (s.tbs i).page = page := his i List.mem_cons_self
    obtain ⟨s1, xs1, ys1, hs1, hlisted1, hshrunk1, hinv1⟩ := h.invalidate (hi ▸ hpage)
    rw [hi] at hshrunk1
    obtain ⟨s2, xs2, ys2, hs2, hlisted2, hshrunk2, hinv2⟩ :=
      ih hlisted1 fun j hj => (hshrunk1.page j).trans (his j (List.mem_cons_of_mem _ hj))
    refine ⟨s2, xs2, ys2, ?_, hlisted2, hshrunk1.trans hshrunk2, ?_⟩
    · rw [TbStore.invalidateEach, List.foldlM_cons, hs1]
      exact hs2
    · intro j hj
      rcases List.mem_cons.mp hj with rfl | hj
      · exact hshrunk2.invalid _ hinv1
      · exact hinv2 j hj

/-- The full scan finds nothing when the page has no live block. -/
theorem scanPage_eq {page : Nat} (h : ∀ i < s.len, s.live i = true → (s.tbs i).page ≠ page) :
    s.scanPage page = some s := by
  have hfold : ∀ is : List Nat, (∀ i ∈ is, i < s.len) →
      is.foldlM (fun s i => if s.live i && (s.tbs i).page == page then s.invalidate i else some s) s = some s := by
    intro is his
    induction is with
    | nil => rfl
    | cons i is ih =>
      have hi : (s.live i && (s.tbs i).page == page) = false := by
        cases hlive : s.live i with
        | false => rfl
        | true => simpa using h i (his i List.mem_cons_self) hlive
      rw [List.foldlM_cons, hi]
      exact ih fun j hj => his j (List.mem_cons_of_mem _ hj)
  exact hfold _ fun i hi => List.mem_range.mp hi

/-- After `invalidate_phys_page` no block of the page is live. -/
theorem Listed.invalidatePhysPage (h : Listed s xs ys) (page : Nat) :
    ∃ s' xs' ys', s.invalidatePhysPage page = some s' ∧ Listed s' xs' ys' ∧ Shrunk page s s' ∧
      ∀ i < s.len, s'.live i = true → (s.tbs i).page ≠ page := by
  by_cases hpage : page < codeRefcountPages
  · have hstop : ∀ j < s.len, decide (s.len ≤ j) = false := fun j hj => by simpa using hj
    have hmet := h.pages.collect hstop page
    by_cases hempty : ((xs page).filter s.live).isEmpty = true
    · have hnone : ∀ i < s.len, s.live i = true → (s.tbs i).page ≠ page := by
        intro i hi hlive hp
        have hmem : i ∈ (xs page).filter s.live := List.mem_filter.mpr ⟨hp ▸ h.full i hi hlive, hlive⟩
        rw [List.isEmpty_iff.mp hempty] at hmem
        exact nomatch hmem
      refine ⟨s, xs, ys, ?_, h, Shrunk.refl _ _, hnone⟩
      rw [TbStore.invalidatePhysPage, if_neg (Nat.not_le.mpr hpage), hmet, Option.bind_eq_bind, Option.bind_some,
        if_pos hempty, scanPage_eq hnone, ite_self]
    · obtain ⟨s', xs', ys', hs', hlisted, hshrunk, hinv⟩ := h.invalidateEach hpage
        (fun i hi => (h.pages.bound page i (List.mem_of_mem_filter hi)).2)
      refine ⟨s', xs', ys', ?_, hlisted, hshrunk, ?_⟩
      · rw [TbStore.invalidatePhysPage, if_neg (Nat.not_le.mpr hpage), hmet, Option.bind_eq_bind, Option.bind_some,
          if_neg hempty]
        exact hs'
      · intro i hi hlive hp
        have hlive' := hshrunk.live hlive
        have hmem : i ∈ (xs page).filter s.live := List.mem_filter.mpr ⟨hp ▸ h.full i hi hlive', hlive'⟩
        rw [TbStore.live, hinv i hmem] at hlive
        exact nomatch hlive
  · refine ⟨s, xs, ys, ?_, h, Shrunk.refl _ _, fun i hi hlive hp => hpage (hp ▸ (h.inside i hi hlive).1)⟩
    rw [TbStore.invalidatePhysPage, if_pos (Nat.le_of_not_lt hpage)]

/-- The store after a new block has been stamped and entered in the list of its page. -/
theorem stamp_push (s : TbStore) (t : Tb) (hf : (f.physPc >>> 12).toNat < codeRefcountPages) :
    (s.push t).stamp s.len f =
      { tbs := Function.update s.tbs s.len
          { t with size := f.size, physPc := f.physPc, pages := f.pages, gen := s.globalGen
                   pageNext := s.pageHeads (f.physPc >>> 12).toNat }
        len := s.len + 1
        hash := s.hash
        codePages := Function.update s.codePages (f.physPc >>> 12).toNat
          (min (s.codePages (f.physPc >>> 12).toNat + 1) 255)
        pageHeads := Function.update s.pageHeads (f.physPc >>> 12).toNat (some s.len)
        globalGen := s.globalGen } := by
  rw [TbStore.stamp, TbStore.markCodePage, if_neg (Nat.not_le.mpr hf)]
  simp [TbStore.modify, TbStore.push]

theorem Listed.stamp (h : Listed s xs ys) (hf : OnePage f)
    (t : Tb) : ∃ xs', Listed ((s.push t).stamp s.len f) xs' ys := by
  rw [stamp_push s t hf.1]
  let page := (f.physPc >>> 12).toNat
  let t' : Tb := { t with size := f.size, physPc := f.physPc, pages := f.pages, gen := s.globalGen
                          pageNext := s.pageHeads page }
  let tbs := Function.update s.tbs s.len t'
  have hself : tbs s.len = t' := Function.update_self _ _ _
  have hother : ∀ i, i ≠ s.len → tbs i = s.tbs i := fun i hi => Function.update_of_ne hi _ _
  have hold : ∀ i < s.len, tbs i = s.tbs i := fun i hi => hother i hi.ne
  have hkept : ∀ i < s.len, (!(tbs i).invalid && (tbs i).gen == s.globalGen) = true → s.live i = true := by
    intro i hi hlive
    rwa [hold i hi] at hlive
  refine ⟨Function.update xs page (s.len :: xs page), ?_, ?_, ?_, ?_⟩
  · have hgrown : Threads (fun i => (s.tbs i).pageNext) s.pageHeads (fun i => (tbs i).page) (s.len + 1) xs :=
      h.pages.grow (Nat.le_succ _) (fun _ _ => rfl) fun i hi => by rw [hold i hi]
    have hpush := hgrown.push (Nat.lt_succ_self s.len) fun k hk => (h.pages.bound k _ hk).1.ne rfl
    have hkey : (tbs s.len).page = page := by
      rw [hself]
      rfl
    have hnext : Function.update (fun i => (s.tbs i).pageNext) s.len (s.pageHeads page) =
        fun i => (tbs i).pageNext := by
      funext i
      rcases eq_or_ne i s.len with rfl | hi
      · rw [Function.update_self, hself]
      · rw [Function.update_of_ne hi, hother i hi]
    rw [hkey, hnext] at hpush
    exact hpush
  · refine h.hash.grow (Nat.le_succ _) (fun i hi => ?_) fun i hi => ?_
    · exact congrArg Tb.hashNext (hold i hi)
    · exact congrArg (fun t : Tb => hashOf t.pc t.flags) (hold i hi)
  · intro i hi hlive
    change i ∈ Function.update xs page (s.len :: xs page) (tbs i).page
    rcases Nat.lt_succ_iff_lt_or_eq.mp hi with hi | rfl
    · have hmem := h.full i hi (hkept i hi hlive)
      rw [hold i hi]
      rcases eq_or_ne (s.tbs i).page page with hp | hp
      · rw [hp] at hmem ⊢
        rw [Function.update_self]
        exact List.mem_cons_of_mem _ hmem
      · rwa [Function.update_of_ne hp]
    · rw [hself]
      exact (Function.update_self page (s.len :: xs page) xs).symm ▸ List.mem_cons_self
  · intro i hi hlive
    change (tbs i).page < codeRefcountPages ∧ ∀ q ∈ (tbs i).pages, q = (tbs i).physPc >>> 12
    rcases Nat.lt_succ_iff_lt_or_eq.mp hi with hi | rfl
    · rw [hold i hi]
      exact h.inside i hi (hkept i hi hlive)
    · rw [hself]
      exact hf

/-- A block that failed to translate is in no list. -/
theorem Listed.push_invalid (h : Listed s xs ys) (ht : t.invalid = true) : Listed (s.push t) xs ys := by
  have hold : ∀ i < s.len, (s.push t).tbs i = s.tbs i := fun i hi => Function.update_of_ne hi.ne _ _
  have hlive : ∀ i < (s.push t).len, (s.push t).live i = true → i < s.len ∧ s.live i = true := by
    intro i hi hlive
    rcases Nat.lt_succ_iff_lt_or_eq.mp hi with hi | rfl
    · rw [TbStore.live, hold i hi] at hlive
      exact ⟨hi, hlive⟩
    · rw [TbStore.live, push_tbs, Function.update_self, ht] at hlive
      exact nomatch hlive
  constructor
  · exact h.pages.grow (Nat.le_succ _) (fun i hi => by rw [hold i hi]) fun i hi => by rw [hold i hi]
  · exact h.hash.grow (Nat.le_succ _) (fun i hi => by rw [hold i hi]) fun i hi => by rw [hold i hi]
  · intro i hi hl
    obtain ⟨hi, hl⟩ := hlive i hi hl
    rw [hold i hi]
    exact h.full i hi hl
  · intro i hi hl
    obtain ⟨hi, hl⟩ := hlive i hi hl
    rw [hold i hi]
    exact h.inside i hi hl

theorem insert_of_ne (s : TbStore) {j : Nat} (hj : j ≠ i) : (s.insert i).tbs j = s.tbs j :=
  Function.update_of_ne hj _ _

theorem insert_self (s : TbStore) (i : Nat) :
    (s.insert i).tbs i = { s.tbs i with hashNext := s.hash (hashOf (s.tbs i).pc (s.tbs i).flags) } :=
  Function.update_self _ _ _

/-- `insert` changes nothing but the successor in the hash bucket. -/
theorem insert_keep (s : TbStore) (i j : Nat) :
    ((s.insert i).tbs j).pageNext = (s.tbs j).pageNext ∧ ((s.insert i).tbs j).physPc = (s.tbs j).physPc ∧
      ((s.insert i).tbs j).pages = (s.tbs j).pages ∧ (s.insert i).live j = s.live j ∧
      hashOf ((s.insert i).tbs j).pc ((s.insert i).tbs j).flags = hashOf (s.tbs j).pc (s.tbs j).flags := by
  unfold TbStore.live
  rcases eq_or_ne j i with rfl | hj
  · rw [insert_self]
    exact ⟨rfl, rfl, rfl, rfl, rfl⟩
  · rw [insert_of_ne s hj]
    exact ⟨rfl, rfl, rfl, rfl, rfl⟩

theorem insert_page (s : TbStore) (i j : Nat) : ((s.insert i).tbs j).page = (s.tbs j).page := by
  rw [Tb.page, (insert_keep s i j).2.1, Tb.page]

theorem Listed.insert (h : Listed s xs ys) (hi : i < s.len)
    (hnot : ∀ k, i ∉ ys k) : ∃ ys', Listed (s.insert i) xs ys' := by
  let bucket := hashOf (s.tbs i).pc (s.tbs i).flags
  refine ⟨Function.update ys bucket (i :: ys bucket), ?_, ?_, ?_, ?_⟩
  · exact h.pages.grow le_rfl (fun j _ => (insert_keep s i j).1) fun j _ => insert_page s i j
  · have hpush := h.hash.push hi hnot
    have hnext : Function.update (fun j => (s.tbs j).hashNext) i (s.hash bucket) =
        fun j => ((s.insert i).tbs j).hashNext := by
      funext j
      rcases eq_or_ne j i with rfl | hj
      · rw [Function.update_self, insert_self]
      · rw [Function.update_of_ne hj, insert_of_ne s hj]
    rw [hnext] at hpush
    exact hpush.grow le_rfl (fun _ _ => rfl) fun j _ => (insert_keep s i j).2.2.2.2
  · intro j hj hlive
    rw [insert_page]
    exact h.full j hj ((insert_keep s i j).2.2.2.1 ▸ hlive)
  · intro j hj hlive
    rw [insert_page, (insert_keep s i j).2.1, (insert_keep s i j).2.2.1]
    exact h.inside j hj ((insert_keep s i j).2.2.2.1 ▸ hlive)

/-- The lists are in order, and the count of a page with a live block is not zero. -/
structure Good (s : TbStore) : Prop where
  lists : ∃ xs ys, Listed s xs ys
  counted : ∀ i < s.len, s.live i = true → 0 < s.codePages (s.tbs i).page

/-- The blocks are still there, and none has come back to life. -/
structure Later (s s' : TbStore) : Prop where
  len : s.len ≤ s'.len
  pages : ∀ i < s.len, (s'.tbs i).pages = (s.tbs i).pages
  live : ∀ i < s.len, s'.live i = true → s.live i = true

theorem Later.refl (s : TbStore) : Later s s := ⟨le_rfl, fun _ _ => rfl, fun _ _ h => h⟩

theorem Later.trans (h : Later s s') (h' : Later s' s'') : Later s s'' where
  len := h.len.trans h'.len
  pages i hi := (h'.pages i (hi.trans_le h.len)).trans (h.pages i hi)
  live i hi hlive := h.live i hi (h'.live i (hi.trans_le h.len) hlive)

theorem later_insert (s : TbStore) (i : Nat) : Later s (s.insert i) where
  len := le_rfl
  pages j _ := (insert_keep s i j).2.2.1
  live j _ hlive := (insert_keep s i j).2.2.2.1 ▸ hlive

theorem Good.of_bare (h : Good s) (hbare : bare s' = bare s) : Good s' := by
  obtain ⟨⟨xs, ys, hlisted⟩, hcounted⟩ := h
  refine ⟨⟨xs, ys, hlisted.of_bare hbare⟩, ?_⟩
  have h' : ∀ i < (bare s).len, (bare s).live i = true → 0 < (bare s).codePages ((bare s).tbs i).page := hcounted
  rw [← hbare] at h'
  exact h'

theorem later_of_bare (hbare : bare s' = bare s) : Later s s' := by
  have h : Later s (bare s) := ⟨le_rfl, fun _ _ => rfl, fun _ _ h => h⟩
  rw [← hbare] at h
  exact ⟨h.len, h.pages, h.live⟩

theorem later_push (s : TbStore) (htbs : s'.tbs = Function.update s.tbs s.len t)
    (hlen : s'.len = s.len + 1) (hgen : s'.globalGen = s.globalGen) : Later s s' where
  len := hlen ▸ Nat.le_succ _
  pages i hi := by rw [htbs, Function.update_of_ne hi.ne]
  live i hi hlive := by
    rw [TbStore.live, htbs, Function.update_of_ne hi.ne, hgen] at hlive
    exact hlive

theorem Good.stamp (h : Good s) (hf : OnePage f) (t : Tb) : Good ((s.push t).stamp s.len f) := by
  obtain ⟨⟨xs, ys, hlisted⟩, hcounted⟩ := h
  obtain ⟨xs', hlisted'⟩ := hlisted.stamp hf t
  refine ⟨⟨xs', ys, hlisted'⟩, ?_⟩
  rw [stamp_push s t hf.1]
  intro i hi hlive
  dsimp only at hi ⊢
  rw [Function.update_apply]
  split
  · exact Nat.lt_min.mpr ⟨Nat.succ_pos _, by decide⟩
  rename_i hpage
  rcases Nat.lt_succ_iff_lt_or_eq.mp hi with hi | rfl
  · rw [TbStore.live] at hlive
    dsimp only at hlive
    rw [Function.update_of_ne hi.ne] at hlive ⊢
    exact hcounted i hi hlive
  · rw [Function.update_self] at hpage
    exact absurd rfl hpage

theorem later_stamp (s : TbStore) (t : Tb) (hf : OnePage f) : Later s ((s.push t).stamp s.len f) := by
  rw [stamp_push s t hf.1]
  exact later_push s rfl rfl rfl

section

variable (h : Good s)
include h

theorem Good.push_invalid (ht : t.invalid = true) : Good (s.push t) := by
  obtain ⟨⟨xs, ys, hlisted⟩, hcounted⟩ := h
  refine ⟨⟨xs, ys, hlisted.push_invalid ht⟩, fun i hi hlive => ?_⟩
  rcases Nat.lt_succ_iff_lt_or_eq.mp hi with hi | rfl
  · rw [TbStore.live] at hlive
    rw [push_tbs, Function.update_of_ne hi.ne] at hlive ⊢
    exact hcounted i hi hlive
  · rw [TbStore.live, push_tbs, Function.update_self, ht] at hlive
    exact nomatch hlive

theorem Good.overflows (pc : BitVec 64) (flags cflags : BitVec 32) {fs : List Fetched} (hfs : ∀ f ∈ fs, OnePage f) :
    Good (fs.foldl (TbStore.overflow pc flags cflags) s) ∧
    Later s (fs.foldl (TbStore.overflow pc flags cflags) s) := by
  induction fs generalizing s with
  | nil => exact ⟨h, Later.refl s⟩
  | cons f fs ih =>
    have hf : OnePage f := hfs f List.mem_cons_self
    have hone : Good (s.overflow pc flags cflags f) ∧ Later s (s.overflow pc flags cflags f) := by
      unfold TbStore.overflow
      rcases alloc_cases s pc flags cflags with heq | heq <;> rw [heq]
      · exact ⟨h, Later.refl s⟩
      · exact ⟨h.stamp hf _, later_stamp s _ hf⟩
    obtain ⟨hgood, hlater⟩ := ih hone.1 fun g hg => hfs g (List.mem_cons_of_mem _ hg)
    exact ⟨hgood, hone.2.trans hlater⟩

/-- A finished block of the normal path is entered in the hash table as well. -/
theorem Good.enter (hf : OnePage f) (t : Tb) (chainable : Slot → Bool) :
    Good ((((s.push t).stamp s.len f).setJumpSlots s.len chainable).insert s.len) := by
  have hbare : bare (((s.push t).stamp s.len f).setJumpSlots s.len chainable) = bare ((s.push t).stamp s.len f) := by
    rw [TbStore.setJumpSlots]
    exact bare_modify rfl
  have hgood := (h.stamp hf t).of_bare hbare
  obtain ⟨xs, ys, hlisted⟩ := h.lists
  obtain ⟨xs', hlisted'⟩ := hlisted.stamp hf t
  have hlen : (((s.push t).stamp s.len f).setJumpSlots s.len chainable).len = s.len + 1 := by
    rw [stamp_push s t hf.1]
    rfl
  obtain ⟨ys', hinsert⟩ := (hlisted'.of_bare hbare).insert (i := s.len) (hlen ▸ Nat.lt_succ_self _)
    fun k hk => (hlisted.hash.bound k _ hk).1.ne rfl
  refine ⟨⟨xs', ys', hinsert⟩, fun j hj hlive => ?_⟩
  rw [insert_page]
  exact hgood.counted j hj ((insert_keep _ _ j).2.2.2.1 ▸ hlive)

theorem Good.genCode (c : JumpCache) (pc : BitVec 64) (flags cflags : BitVec 32) {w : Work} (hw : Work.OnePage w) :
    Good (tbGenCode s c pc flags cflags w).2.1 ∧ Later s (tbGenCode s c pc flags cflags w).2.1 := by
  unfold tbGenCode
  split
  · exact ⟨h, Later.refl s⟩
  split
  · exact ⟨h, Later.refl s⟩
  · obtain ⟨hover, hending⟩ := hw
    obtain ⟨hgood, hlater⟩ := h.overflows pc flags cflags hover
    generalize w.overflows.foldl (TbStore.overflow pc flags cflags) s = s1 at hgood hlater
    cases hend : w.ending with
    | giveUp => exact ⟨hgood, hlater⟩
    | fault =>
      rcases alloc_cases s1 pc flags cflags with heq | heq <;> simp only [heq]
      · exact ⟨hgood, hlater⟩
      have hpush : (s1.push { pc := pc, flags := flags, cflags := cflags }).markInvalid s1.len =
          s1.push { pc := pc, flags := flags, cflags := cflags, invalid := true } := by
        simp [TbStore.markInvalid, TbStore.modify, TbStore.push]
      rw [hpush]
      exact ⟨hgood.push_invalid rfl, hlater.trans (later_push s1 rfl rfl rfl)⟩
    | done f chainable =>
      rw [hend] at hending
      rcases alloc_cases s1 pc flags cflags with heq | heq <;> simp only [heq]
      · exact ⟨hgood, hlater⟩
      have hbare : ∀ s : TbStore, bare (s.setJumpSlots s1.len chainable) = bare s := fun s => by
        rw [TbStore.setJumpSlots]
        exact bare_modify rfl
      have hready := (later_stamp s1 { pc := pc, flags := flags, cflags := cflags } hending).trans
        (later_of_bare (hbare _))
      split
      · exact ⟨hgood.enter hending _ chainable, hlater.trans (hready.trans (later_insert _ _))⟩
      · exact ⟨(hgood.stamp hending _).of_bare (hbare _), hlater.trans hready⟩

theorem Good.find (c : JumpCache) (pc : BitVec 64) (flags : BitVec 32)
    (curPhys : Option (BitVec 64)) {w : Work} (hw : Work.OnePage w) :
    Good (tbFind s c pc flags curPhys w).2.1 ∧ Later s (tbFind s c pc flags curPhys w).2.1 := by
  unfold tbFind
  split
  · exact h.genCode c pc flags 0 hw
  split
  · exact ⟨h, Later.refl s⟩
  · split
    · exact ⟨h, Later.refl s⟩
    · exact h.genCode c pc flags 0 hw

/-- `invalidate_phys_page` returns; the page has no live block any more, and every other page keeps its own. -/
theorem Good.invalidatePhysPage (page : Nat) : ∃ s', s.invalidatePhysPage page = some s' ∧ Good s' ∧ Later s s' ∧
      ∀ i < s.len, covers (s.tbs i) page → s'.live i = false := by
  obtain ⟨⟨xs, ys, hlisted⟩, hcounted⟩ := h
  obtain ⟨s', xs', ys', hs', hlisted', hshrunk, hnone⟩ := hlisted.invalidatePhysPage page
  refine ⟨s', hs', ⟨⟨xs', ys', hlisted'⟩, fun i hi hlive => ?_⟩,
    ⟨hshrunk.len.ge, fun i _ => hshrunk.pages i, fun i _ => hshrunk.live⟩, ?_⟩
  · rw [hshrunk.len] at hi
    rw [hshrunk.page, hshrunk.codePages _ (hnone i hi hlive)]
    exact hcounted i hi (hshrunk.live hlive)
  rintro i hi ⟨q, hq, rfl⟩
  rw [Bool.eq_false_iff]
  intro hlive
  have hin := (hlisted.inside i hi (hshrunk.live hlive)).2 q hq
  exact hnone i hi hlive (congrArg BitVec.toNat hin).symm

theorem Good.invalidateAll (hfresh : ∀ i < s.len, (s.tbs i).invalid = false → (s.tbs i).gen ≠ nextGen s.globalGen) :
    Good s.invalidateAll ∧ Later s s.invalidateAll := by
  have hdead : ∀ i < s.len, ¬ s.invalidateAll.live i = true := by
    intro i hi hlive
    obtain ⟨hinv, hgen⟩ := Bool.and_eq_true_iff.mp hlive
    rw [Bool.not_eq_true'] at hinv
    exact hfresh i hi hinv (beq_iff_eq.mp hgen)
  obtain ⟨⟨xs, ys, hlisted⟩, -⟩ := h
  exact ⟨⟨⟨xs, ys, hlisted.pages, hlisted.hash, fun i hi hlive => absurd hlive (hdead i hi),
    fun i hi hlive => absurd hlive (hdead i hi)⟩, fun i hi hlive => absurd hlive (hdead i hi)⟩,
    le_rfl, fun _ _ => rfl, fun i hi hlive => absurd hlive (hdead i hi)⟩

end

theorem good_flush (gen : Nat) : Good { TbStore.empty with globalGen := gen } where
  lists := ⟨fun _ => [], fun _ => [],
    ⟨Threads.empty _ _ _, Threads.empty _ _ _, (fun _ hi => nomatch hi), fun _ hi => nomatch hi⟩⟩
  counted _ hi := nomatch hi

theorem Good.step {e' : Engine} {ev : Event} (h : Good e.store) (hok : tracked e ev) (hstep : step e ev = some e') :
    Good e'.store ∧ (ev ≠ .flush → Later e.store e'.store) := by
  cases ev with
  | find cpu pc flags curPhys w =>
    obtain rfl := Option.some.inj hstep
    have hfind := h.find (e.caches cpu) pc flags curPhys hok
    exact ⟨hfind.1, fun _ => hfind.2⟩
  | genCode cpu pc flags cflags w =>
    obtain rfl := Option.some.inj hstep
    have hgen := h.genCode (e.caches cpu) pc flags cflags hok
    exact ⟨hgen.1, fun _ => hgen.2⟩
  | cacheExit src dst =>
    rw [MachinaTbPages.step] at hstep
    split at hstep
    · obtain rfl := Option.some.inj hstep
      have hbare : bare (e.store.modify src fun t => { t with exitTarget := some dst }) = bare e.store :=
        bare_modify rfl
      exact ⟨h.of_bare hbare, fun _ => later_of_bare hbare⟩
    · exact nomatch hstep
  | addJump src slot dst =>
    rw [MachinaTbPages.step] at hstep
    split at hstep
    · obtain rfl := Option.some.inj hstep
      exact ⟨h.of_bare (bare_tbAddJump _ _ _ _), fun _ => later_of_bare (bare_tbAddJump _ _ _ _)⟩
    · exact nomatch hstep
  | invalidatePhysPage page =>
    obtain ⟨s', hs', hgood, hlater, -⟩ := h.invalidatePhysPage page
    rw [MachinaTbPages.step, hs'] at hstep
    obtain rfl := Option.some.inj hstep
    exact ⟨hgood, fun _ => hlater⟩
  | invalidateAll =>
    obtain rfl := Option.some.inj hstep
    have hall := h.invalidateAll hok
    exact ⟨hall.1, fun _ => hall.2⟩
  | invalidateCache cpu =>
    obtain rfl := Option.some.inj hstep
    exact ⟨h, fun _ => Later.refl _⟩
  | flush =>
    obtain rfl := Option.some.inj hstep
    exact ⟨good_flush _, fun hne => absurd rfl hne⟩

/-- Until a flush, blocks stay where they are and none comes back to life. -/
theorem later_of_run {e' : Engine} {es : List Event} (h : Run (guarded tracked (ofOption step)) e es e')
    (hgood : Good e.store) : Good e'.store ∧ (.flush ∈ es ∨ Later e.store e'.store) := by
  induction h with
  | nil e => exact ⟨hgood, Or.inr (Later.refl _)⟩
  | @cons e0 e1 e2 ev es hstep _ ih =>
    obtain ⟨hgood1, hlater⟩ := hgood.step hstep.1 hstep.2
    obtain ⟨hgood2, hrest⟩ := ih hgood1
    refine ⟨hgood2, ?_⟩
    by_cases hflush : ev = .flush
    · exact Or.inl (hflush ▸ List.mem_cons_self)
    · exact hrest.imp (List.mem_cons_of_mem _) (hlater hflush).trans

/-- In every run whose blocks each lie in one tracked page, and in which no generation comes back: `is_code_page`
holds for each page that a live block covers, `invalidate_phys_page` returns, and whatever follows it, no lookup
returns a block translated from that page before the call, unless a flush has handed its index to a new block. -/
theorem invalidated_page_is_not_found {es : List Event} {e : Engine}
    (h : Run (guarded tracked (ofOption step)) start es e) (page : Nat) :
    (∀ i < e.store.len, e.store.live i = true → covers (e.store.tbs i) page → e.store.isCodePage page = true) ∧
      ∃ e', step e (.invalidatePhysPage page) = some e' ∧ ∀ es' e'', Run (guarded tracked (ofOption step)) e' es' e'' →
          ∀ (look : Lookup) (i : Nat), look.run e'' = some i → covers (e''.store.tbs i) page →
            .flush ∈ es' ∨ e.store.len ≤ i := by
  have hgood : Good e.store := (later_of_run h (good_flush 1)).1
  refine ⟨fun i hi hlive ⟨q, hq, hqp⟩ => ?_, ?_⟩
  · obtain ⟨xs, ys, hlisted⟩ := hgood.lists
    obtain ⟨hlt, hin⟩ := hlisted.inside i hi hlive
    have hpage : (e.store.tbs i).page = page := by rw [← hqp, hin q hq, Tb.page]
    rw [← hpage, TbStore.isCodePage, if_pos hlt, decide_eq_true_iff]
    exact hgood.counted i hi hlive
  · obtain ⟨s', hs', hgood', hlater, hdead⟩ := hgood.invalidatePhysPage page
    refine ⟨onStore e s', by rw [step, hs']; rfl, fun es' e'' hrun look i hlook hcovers => ?_⟩
    obtain ⟨-, hflush | hlater'⟩ := later_of_run hrun hgood'
    · exact Or.inl hflush
    refine Or.inr (Nat.le_of_not_lt fun hi => ?_)
    have hi' : i < s'.len := hi.trans_le hlater.len
    have hpages : (e''.store.tbs i).pages = (e.store.tbs i).pages :=
      (hlater'.pages i hi').trans (hlater.pages i hi)
    have hlive := hlater'.live i hi' (live_of_lookup hlook)
    rw [covers, hpages] at hcovers
    exact absurd hlive (Bool.eq_false_iff.mp (hdead i hi hcovers))

/-- A block of one instruction, found by CPU 0 at the given physical address. -/
def findAt (pc phys : BitVec 64) (pages : List (BitVec 64)) : Event :=
  .find 0 pc 0 (some phys) ⟨true, some phys, [], .done ⟨4, phys, pages⟩ fun _ => true⟩

theorem invalidated_page_is_not_found_ram :
    ∃ e, Run (guarded tracked (ofOption step)) start [findAt 0x80000000 0x80000000 [0x80000]] e ∧
      e.store.lookup 0x80000000 0 = some 0 ∧ e.store.isCodePage 0x80000 = true := by
  have hone : tracked start (findAt 0x80000000 0x80000000 [0x80000]) := by
    refine ⟨(fun _ hf => nomatch hf), by decide, fun q hq => ?_⟩
    rw [List.mem_singleton.mp hq]
    decide
  have hrun : Run (guarded tracked (ofOption step)) start [findAt 0x80000000 0x80000000 [0x80000]] _ :=
    .cons ⟨hone, rfl⟩ (.nil _)
  exact ⟨_, hrun, by decide, (invalidated_page_is_not_found hrun 0x80000).1 0 (by decide) (by decide)
    ⟨0x80000, by decide, by decide⟩⟩

/-- A block translated from the first page above 4 GiB is not counted, and invalidating its page leaves it in the
hash table. -/
theorem high_page_is_not_invalidated : ∃ e e', Run (ofOption step) start
    [findAt 0x100000000 0x100000000 [0x100000]] e ∧
      step e (.invalidatePhysPage 0x100000) = some e' ∧ e.store.live 0 = true ∧ covers (e.store.tbs 0) 0x100000 ∧
      e.store.isCodePage 0x100000 = false ∧ (Lookup.hash 0x100000000 0).run e' = some 0 := by
  have hrun : Run (ofOption step) start [findAt 0x100000000 0x100000000 [0x100000]] _ := .cons rfl (.nil _)
  exact ⟨_, _, hrun, rfl, by decide, ⟨0x100000, by decide, by decide⟩, by decide, by decide⟩

end MachinaTbPages
