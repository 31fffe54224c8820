import Mathlib

/-!
# Gaps between intervals

Half-open intervals of natural numbers. The gaps of a window between a list of
intervals that is sorted by start are the parts of the window that no interval of
the list meets. In a list of disjoint intervals sorted by start each one ends before
the next begins, so the interval of a number is the last one that does not start
after it.
-/

namespace MachinaIntervals

/-- One interval ends before the other begins. -/
def Separate (p q : Nat × Nat) : Prop := p.2 ≤ q.1 ∨ q.2 ≤ p.1

theorem Separate.symm {p q : Nat × Nat} (h : Separate p q) : Separate q p := Or.symm h

/-- The parts of the window from `cur` to `stop` between the intervals of a list. -/
def gaps (cur stop : Nat) : List (Nat × Nat) → List (Nat × Nat)
  | [] => if cur < stop then [(cur, stop)] else []
  | (a, b) :: rest =>
    (if cur < a then [(cur, min a stop)] else []) ++
      if stop ≤ max cur b then [] else gaps (max cur b) stop rest

/-- A gap is a nonempty part of the window that meets no interval of the list. -/
theorem gaps_spec {cur stop : Nat} {l : List (Nat × Nat)} (hsorted : l.Pairwise fun p q => p.1 ≤ q.1)
    (hstart : ∀ q ∈ l, q.1 < stop) : ∀ p ∈ gaps cur stop l, cur ≤ p.1 ∧ p.1 < p.2 ∧ p.2 ≤ stop ∧
    ∀ q ∈ l, Separate p q := by
  induction l generalizing cur with
  | nil =>
    intro p hp
    rw [gaps] at hp
    split_ifs at hp with hlt
    · obtain rfl := List.mem_singleton.mp hp
      exact ⟨le_rfl, hlt, le_rfl, nofun⟩
    · cases hp
  | cons o rest ih =>
    obtain ⟨a, b⟩ := o
    obtain ⟨hfirst, hrest⟩ := List.pairwise_cons.mp hsorted
    have ha : a < stop := hstart (a, b) (List.mem_cons_self ..)
    intro p hp
    rw [gaps, List.mem_append] at hp
    rcases hp with hp | hp
    · split_ifs at hp with hlt
      · obtain rfl := List.mem_singleton.mp hp
        refine ⟨le_rfl, by simp only; omega, by simp only; omega, fun q hq => .inl ?_⟩
        rcases List.mem_cons.mp hq with rfl | hq
        · exact Nat.min_le_left ..
        · exact (Nat.min_le_left ..).trans (hfirst q hq)
      · cases hp
    · split_ifs at hp with hend
      · cases hp
      · obtain ⟨hlow, hne, hhigh, hdisj⟩ := ih hrest (fun q hq => hstart q (List.mem_cons_of_mem _ hq)) p hp
        refine ⟨by omega, hne, hhigh, fun q hq => ?_⟩
        rcases List.mem_cons.mp hq with rfl | hq
        · exact .inr (show b ≤ p.1 by omega)
        · exact hdisj q hq

theorem gaps_pairwise {cur stop : Nat} {l : List (Nat × Nat)} (hsorted : l.Pairwise fun p q => p.1 ≤ q.1)
    (hstart : ∀ q ∈ l, q.1 < stop) (hne : ∀ q ∈ l, q.1 ≤ q.2) : (gaps cur stop l).Pairwise Separate := by
  induction l generalizing cur with
  | nil =>
    rw [gaps]
    split_ifs
    · exact List.pairwise_singleton ..
    · exact .nil
  | cons o rest ih =>
    obtain ⟨a, b⟩ := o
    have hrest := (List.pairwise_cons.mp hsorted).2
    have hstart' : ∀ q ∈ rest, q.1 < stop := fun q hq => hstart q (List.mem_cons_of_mem _ hq)
    rw [gaps]
    refine List.pairwise_append.mpr ⟨?_, ?_, fun p hp q hq => .inl ?_⟩
    · split_ifs
      · exact List.pairwise_singleton ..
      · exact .nil
    · split_ifs
      · exact .nil
      · exact ih hrest hstart' fun q hq => hne q (List.mem_cons_of_mem _ hq)
    split_ifs at hp hq with hlt hend
    · cases hq
    · obtain rfl := List.mem_singleton.mp hp
      have hlow := (gaps_spec hrest hstart' q hq).1
      have hab : a ≤ b := hne (a, b) (List.mem_cons_self ..)
      simp only
      omega
    · cases hp
    · cases hp

/-- A number of the window that no interval of the list contains is in a gap. -/
theorem exists_gap {cur stop a : Nat} {l : List (Nat × Nat)} (hlo : cur ≤ a) (hhi : a < stop)
    (hfree : ∀ q ∈ l, a < q.1 ∨ q.2 ≤ a) : ∃ p ∈ gaps cur stop l, p.1 ≤ a ∧ a < p.2 := by
  induction l generalizing cur with
  | nil => exact ⟨(cur, stop), by simp [gaps, hlo.trans_lt hhi], hlo, hhi⟩
  | cons q rest ih =>
    obtain ⟨b, c⟩ := q
    rcases hfree (b, c) (List.mem_cons_self ..) with hb | hc
    · exact ⟨(cur, min b stop), by simp [gaps, hlo.trans_lt hb], hlo, lt_min hb hhi⟩
    obtain ⟨p, hp, hin⟩ := ih (max_le hlo hc) fun q hq => hfree q (List.mem_cons_of_mem _ hq)
    refine ⟨p, ?_, hin⟩
    rw [gaps, if_neg (not_le.mpr ((max_le hlo hc).trans_lt hhi))]
    exact List.mem_append_right _ hp

theorem pairwise_insertionSort_by {α : Type} (f : α → Nat) (l : List α) :
    (l.insertionSort fun r s => f r ≤ f s).Pairwise fun r s => f r ≤ f s := by
  have : Std.Total fun r s : α => f r ≤ f s := ⟨fun r s => Nat.le_total (f r) (f s)⟩
  have : IsTrans α fun r s => f r ≤ f s := ⟨fun _ _ _ => Nat.le_trans⟩
  exact List.pairwise_insertionSort _ l

section

variable {α : Type} {r : α → α → Prop} [DecidableRel r] [IsTrans α r] (p : α → Bool)

theorem find_orderedInsert (x : α) {l : List α} (hsorted : l.Pairwise r) :
    (l.orderedInsert r x).find? p = if p x ∧ ∀ y ∈ l.find? p, r x y then some x else l.find? p := by
  induction l with
  | nil => cases h : p x <;> simp [h]
  | cons y l ih =>
    obtain ⟨hy, hl⟩ := List.pairwise_cons.mp hsorted
    by_cases hxy : r x y
    · have hall : ∀ z ∈ (y :: l).find? p, r x z := by
        intro z hz
        rcases List.mem_cons.mp (List.mem_of_find?_eq_some hz) with rfl | hmem
        · exact hxy
        · exact IsTrans.trans _ _ _ hxy (hy z hmem)
      simp only [List.orderedInsert, if_pos hxy, and_iff_left hall]
      cases h : p x <;> simp [h]
    · rw [List.orderedInsert, if_neg hxy, List.find?_cons, List.find?_cons, ih hl]
      cases p y <;> simp [hxy]

/-- The first element with a property after sorting is the least of those with the property, the first among equals. -/
theorem find_insertionSort [Std.Total r] (l : List α) : (l.insertionSort r).find? p =
    l.foldr (fun x best => if p x ∧ ∀ y ∈ best, r x y then some x else best) none := by
  induction l with
  | nil => rfl
  | cons x l ih =>
    rw [List.insertionSort_cons, find_orderedInsert p x (List.pairwise_insertionSort r l), ih]
    rfl

end

/-- Separate intervals in the order of their starts come one after the other. -/
theorem pairwise_consecutive {α : Type} {span : α → Nat × Nat} {l : List α} (hne : ∀ r ∈ l, (span r).1 < (span r).2)
    (hsorted : l.Pairwise fun r s => (span r).1 ≤ (span s).1)
    (hdisj : l.Pairwise fun r s => Separate (span r) (span s)) :
    l.Pairwise fun r s => (span r).2 ≤ (span s).1 := by
  induction l with
  | nil => exact .nil
  | cons r l ih =>
    obtain ⟨hr, hsorted⟩ := List.pairwise_cons.mp hsorted
    obtain ⟨hd, hdisj⟩ := List.pairwise_cons.mp hdisj
    refine List.pairwise_cons.mpr ⟨fun s hs => ?_, ih (fun s hs => hne s (List.mem_cons_of_mem _ hs)) hsorted hdisj⟩
    have hrs := hr s hs
    have hlt := hne s (List.mem_cons_of_mem _ hs)
    rcases hd s hs with h | h <;> omega

/-- Among consecutive intervals the last one that does not start after `a` is the one that can contain it. -/
theorem last_started_iff {α : Type} {span : α → Nat × Nat} {l : List α} (hne : ∀ r ∈ l, (span r).1 < (span r).2)
    (hcons : l.Pairwise fun r s => (span r).2 ≤ (span s).1) (a : Nat) (r : α) :
    (l.takeWhile fun s => decide ((span s).1 ≤ a)).getLast? = some r ∧ a < (span r).2 ↔
      r ∈ l ∧ (span r).1 ≤ a ∧ a < (span r).2 := by
  constructor
  · rintro ⟨hlast, hlt⟩
    have hmem := List.mem_of_getLast? hlast
    exact ⟨(List.takeWhile_sublist _).subset hmem, by simpa using List.mem_takeWhile_imp hmem, hlt⟩
  · rintro ⟨hmem, hle, hlt⟩
    obtain ⟨before, after, rfl⟩ := List.append_of_mem hmem
    obtain ⟨-, hafter, hbefore⟩ := List.pairwise_append.mp hcons
    have hin : ∀ s ∈ before, decide ((span s).1 ≤ a) = true := by
      intro s hs
      have h1 := hne s (List.mem_append_left _ hs)
      have h2 := hbefore s hs r (List.mem_cons_self ..)
      simp only [decide_eq_true_eq]
      omega
    have hout : after.takeWhile (fun s => decide ((span s).1 ≤ a)) = [] := by
      cases after with
      | nil => rfl
      | cons s after =>
        have h1 := (List.pairwise_cons.mp hafter).1 s (List.mem_cons_self ..)
        rw [List.takeWhile_cons_of_neg]
        simp only [decide_eq_true_eq]
        omega
    refine ⟨?_, hlt⟩
    rw [List.takeWhile_append_of_pos hin, List.takeWhile_cons_of_pos (by simpa using hle), hout]
    exact List.getLast?_concat ..

end MachinaIntervals
