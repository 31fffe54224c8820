import Mathlib

/-!
# Linked lists in an array of successors

The nodes are numbers, `next i` is the node after `i`. A list is given by its head. Walks take fuel, so that they
stop on a cyclic list too; a walk that runs out of fuel is one that does not return.
-/

namespace MachinaLinked

open Function (update update_self update_of_ne)

variable {xs : List Nat} {fuel i target : Nat} {stop : Nat → Bool} {next : Nat → Option Nat} {cur head : Option Nat}

/-- The nodes of the list that starts at the given head are `xs`, in order. -/
def Chain (next : Nat → Option Nat) : Option Nat → List Nat → Prop
  | head, [] => head = none
  | head, i :: xs => head = some i ∧ Chain next (next i) xs

@[simp] theorem chain_nil : Chain next head [] ↔ head = none := Iff.rfl

/-- A list only depends on the successors of its own nodes. -/
theorem Chain.congr {next' : Nat → Option Nat}
    (h : Chain next head xs) (heq : ∀ i ∈ xs, next' i = next i) : Chain next' head xs := by
  induction xs generalizing head with
  | nil => exact h
  | cons i xs ih =>
    obtain ⟨hhead, hrest⟩ := h
    refine ⟨hhead, ?_⟩
    rw [heq i (List.mem_cons_self)]
    exact ih hrest fun j hj => heq j (List.mem_cons_of_mem _ hj)

theorem Chain.push (h : Chain next head xs) (hi : i ∉ xs) : Chain (update next i head) (some i) (i :: xs) := by
  refine ⟨rfl, ?_⟩
  rw [update_self]
  exact h.congr fun j hj => update_of_ne (ne_of_mem_of_not_mem hj hi) _ _

/-- The nodes met from `cur` on, up to the first at which the walk is broken off. -/
def collect (next : Nat → Option Nat) (stop : Nat → Bool) : Nat → Option Nat → Option (List Nat)
  | 0, _ => none
  | _ + 1, none => some []
  | fuel + 1, some i => if stop i then some [] else (collect next stop fuel (next i)).map (i :: ·)

theorem collect_eq (h : Chain next cur xs) (hstop : ∀ i ∈ xs, stop i = false) (hfuel : xs.length < fuel) :
    collect next stop fuel cur = some xs := by
  induction xs generalizing cur fuel with
  | nil =>
    obtain ⟨fuel, rfl⟩ := Nat.exists_eq_succ_of_ne_zero (Nat.ne_zero_of_lt hfuel)
    rw [chain_nil] at h
    subst h
    rfl
  | cons i xs ih =>
    obtain ⟨fuel, rfl⟩ := Nat.exists_eq_succ_of_ne_zero (Nat.ne_zero_of_lt hfuel)
    obtain ⟨rfl, hrest⟩ := h
    have hfuel' : xs.length < fuel := Nat.lt_of_succ_lt_succ hfuel
    have htail := ih hrest (fun j hj => hstop j (List.mem_cons_of_mem _ hj)) hfuel'
    simp [collect, hstop i List.mem_cons_self, htail]

/-- The first node from `cur` on that satisfies `p`. -/
def find (next : Nat → Option Nat) (p : Nat → Bool) : Nat → Option Nat → Option Nat
  | 0, _ => none
  | _ + 1, none => none
  | fuel + 1, some i => if p i then some i else find next p fuel (next i)

theorem find_some {p : Nat → Bool} (h : find next p fuel cur = some i) : p i = true := by
  induction fuel generalizing cur with
  | zero => exact nomatch h
  | succ fuel ih =>
    cases cur with
    | none => exact nomatch h
    | some j =>
      rw [find] at h
      split at h
      · exact Option.some.inj h ▸ ‹p j = true›
      · exact ih h

/-- The outcome of looking for a node: it is not in the list, or it is there, behind `prev`. -/
inductive Place where
  | absent
  | behind (prev : Option Nat)
  deriving DecidableEq, Repr

/-- Look for `target` from `cur` on; `prev` is the node before `cur`. -/
def search (next : Nat → Option Nat) (stop : Nat → Bool) (target : Nat) : Nat → Option Nat → Option Nat → Option Place
  | 0, _, _ => none
  | _ + 1, _, none => some .absent
  | fuel + 1, prev, some i =>
    if stop i then some .absent
    else if i = target then some (.behind prev)
    else search next stop target fuel (some i) (next i)

/-- Take `target` out of the list: the new successors and the new head. -/
def unlink (next : Nat → Option Nat) (stop : Nat → Bool) (fuel : Nat) (head : Option Nat) (target : Nat) :
    Option ((Nat → Option Nat) × Option Nat) :=
  (search next stop target fuel none head).map fun
    | .absent => (next, head)
    | .behind none => (Function.update next target none, next target)
    | .behind (some p) => (Function.update (Function.update next p (next target)) target none, head)

/-- A search passes over the nodes before the target. -/
theorem search_append {ys : List Nat} (fuel : Nat) {prev : Option Nat} (h : Chain next cur (xs ++ ys))
    (hstop : ∀ i ∈ xs, stop i = false) (htarget : target ∉ xs) :
    ∃ cur', Chain next cur' ys ∧ search next stop target (xs.length + fuel) prev cur =
      search next stop target fuel (xs.getLast?.or prev) cur' := by
  induction xs generalizing cur prev with
  | nil => exact ⟨cur, h, by rw [List.length_nil, Nat.zero_add]; rfl⟩
  | cons i xs ih =>
    obtain ⟨rfl, hrest⟩ := h
    rw [List.mem_cons, not_or] at htarget
    obtain ⟨cur', hcur, htail⟩ :=
      @ih (next i) (some i) hrest (fun j hj => hstop j (List.mem_cons_of_mem _ hj)) htarget.2
    refine ⟨cur', hcur, ?_⟩
    rw [List.length_cons, Nat.succ_add, search, hstop i List.mem_cons_self, if_neg Bool.false_ne_true,
      if_neg (Ne.symm htarget.1), htail]
    cases xs with
    | nil => rfl
    | cons j xs => simp [List.getLast?_cons]

theorem Chain.cut {p : Nat} {ys : List Nat}
    (h : Chain next head (xs ++ p :: target :: ys)) (hnodup : (xs ++ p :: target :: ys).Nodup) :
    Chain (update (update next p (next target)) target none) head (xs ++ p :: ys) := by
  induction xs generalizing head with
  | nil =>
    obtain ⟨rfl, -, hrest⟩ := h
    simp only [List.nil_append, List.nodup_cons, List.mem_cons, not_or] at hnodup
    obtain ⟨⟨hpt, hpy⟩, hty, -⟩ := hnodup
    refine ⟨rfl, ?_⟩
    rw [update_of_ne hpt, update_self]
    refine hrest.congr fun j hj => ?_
    rw [update_of_ne (ne_of_mem_of_not_mem hj hty), update_of_ne (ne_of_mem_of_not_mem hj hpy)]
  | cons i xs ih =>
    obtain ⟨rfl, hrest⟩ := h
    rw [List.cons_append, List.nodup_cons] at hnodup
    obtain ⟨hi, hnodup⟩ := hnodup
    simp only [List.mem_append, List.mem_cons, not_or] at hi
    refine ⟨rfl, ?_⟩
    rw [update_of_ne hi.2.2.1, update_of_ne hi.2.1]
    exact ih hrest hnodup

theorem unlink_of_not_mem (h : Chain next head xs) (hstop : ∀ i ∈ xs, stop i = false) (hfuel : xs.length < fuel)
    (hmem : target ∉ xs) : unlink next stop fuel head target = some (next, head) := by
  obtain ⟨k, rfl⟩ := Nat.exists_eq_add_of_lt hfuel
  rw [← List.append_nil xs] at h
  obtain ⟨_, rfl, hsearch⟩ := search_append (k + 1) h hstop hmem
  rw [unlink, Nat.add_assoc, hsearch]
  rfl

/-- Taking a node out of a list leaves the list of the others, and every other list as it is. -/
theorem unlink_spec (target : Nat) (h : Chain next head xs) (hnodup : xs.Nodup) (hstop : ∀ i ∈ xs, stop i = false)
    (hfuel : xs.length < fuel) :
    ∃ next' head', unlink next stop fuel head target = some (next', head') ∧ Chain next' head' (xs.erase target) ∧
      ∀ i ∉ xs, next' i = next i := by
  by_cases hmem : target ∈ xs
  · obtain ⟨as, bs, rfl⟩ := List.append_of_mem hmem
    have has : target ∉ as := fun hin => (List.nodup_append.mp hnodup).2.2 _ hin _ List.mem_cons_self rfl
    have hlen : as.length < fuel := by
      rw [List.length_append] at hfuel
      omega
    have hsearch : search next stop target fuel none head = some (.behind as.getLast?) := by
      obtain ⟨k, rfl⟩ := Nat.exists_eq_add_of_lt hlen
      obtain ⟨_, ⟨rfl, -⟩, hpass⟩ := search_append (k + 1) h (fun i hi => hstop i (List.mem_append_left _ hi)) has
      rw [Nat.add_assoc, hpass, search, hstop target hmem, if_neg Bool.false_ne_true, if_pos rfl, Option.or_none]
    rw [unlink, hsearch, List.erase_append_right _ has, List.erase_cons_head]
    rcases List.eq_nil_or_concat as with rfl | ⟨as, p, rfl⟩
    · obtain ⟨rfl, hrest⟩ := h
      have htarget : target ∉ bs := (List.nodup_cons.mp hnodup).1
      exact ⟨_, _, rfl, hrest.congr fun j hj => update_of_ne (ne_of_mem_of_not_mem hj htarget) _ _,
        fun i hi => update_of_ne (ne_of_mem_of_not_mem hmem hi).symm _ _⟩
    · simp only [List.concat_eq_append, List.append_assoc, List.singleton_append] at h hnodup ⊢
      rw [List.getLast?_concat]
      refine ⟨_, _, rfl, h.cut hnodup, fun i hi => ?_⟩
      simp only [List.mem_append, List.mem_cons, not_or] at hi
      rw [update_of_ne hi.2.2.1, update_of_ne hi.2.1]
  · exact ⟨next, head, unlink_of_not_mem h hstop hfuel hmem, by rwa [List.erase_of_not_mem hmem], fun _ _ => rfl⟩

/-- Disjoint lists over one array of successors: the list of key `k` starts at `heads k`, its nodes are `xs k`, and
they all have that key. -/
structure Threads (next heads : Nat → Option Nat) (key : Nat → Nat) (len : Nat) (xs : Nat → List Nat) : Prop where
  chain : ∀ k, Chain next (heads k) (xs k)
  nodup : ∀ k, (xs k).Nodup
  bound : ∀ k, ∀ i ∈ xs k, i < len ∧ key i = k

section

variable {next heads : Nat → Option Nat} {key : Nat → Nat} {len : Nat} {xs : Nat → List Nat}

theorem Threads.empty (next : Nat → Option Nat) (key : Nat → Nat) (len : Nat) :
    Threads next (fun _ => none) key len fun _ => [] :=
  ⟨fun _ => rfl, fun _ => List.nodup_nil, fun _ _ h => nomatch h⟩

variable (h : Threads next heads key len xs)
include h

/-- New nodes may be added to the array, as long as the old ones keep their successors and keys. -/
theorem Threads.grow {next' : Nat → Option Nat} {key' : Nat → Nat} {len' : Nat}
    (hlen : len ≤ len') (hnext : ∀ i < len, next' i = next i) (hkey : ∀ i < len, key' i = key i) :
    Threads next' heads key' len' xs where
  chain k := (h.chain k).congr fun i hi => hnext i (h.bound k i hi).1
  nodup := h.nodup
  bound k i hi := by
    obtain ⟨hlt, hk⟩ := h.bound k i hi
    exact ⟨hlt.trans_le hlen, (hkey i hlt).trans hk⟩

theorem Threads.length_lt (k : Nat) : (xs k).length < len + 1 := by
  have hsub : (xs k).toFinset ⊆ Finset.range len := fun i hi =>
    Finset.mem_range.mpr (h.bound k i (List.mem_toFinset.mp hi)).1
  have hcard := Finset.card_le_card hsub
  rw [List.toFinset_card_of_nodup (h.nodup k), Finset.card_range] at hcard
  exact Nat.lt_succ_of_le hcard

theorem Threads.push (hi : i < len) (hnot : ∀ k, i ∉ xs k) :
    Threads (update next i (heads (key i))) (update heads (key i) (some i)) key len
      (update xs (key i) (i :: xs (key i))) := by
  constructor
  all_goals
    intro k
    rcases eq_or_ne k (key i) with rfl | hk
  · rw [update_self, update_self]
    exact (h.chain _).push (hnot _)
  · rw [update_of_ne hk, update_of_ne hk]
    exact (h.chain k).congr fun j hj => update_of_ne (ne_of_mem_of_not_mem hj (hnot k)) _ _
  · rw [update_self]
    exact List.nodup_cons.mpr ⟨hnot _, h.nodup _⟩
  · rw [update_of_ne hk]
    exact h.nodup k
  · rw [update_self]
    rintro j hj
    rcases List.mem_cons.mp hj with rfl | hj
    · exact ⟨hi, rfl⟩
    · exact h.bound _ j hj
  · rw [update_of_ne hk]
    exact h.bound k

theorem Threads.collect (hstop : ∀ i < len, stop i = false)
    (k : Nat) : collect next stop (len + 1) (heads k) = some (xs k) :=
  collect_eq (h.chain k) (fun i hi => hstop i (h.bound k i hi).1) (h.length_lt k)

theorem Threads.unlink (hstop : ∀ i < len, stop i = false)
    (i k : Nat) : ∃ next' head', unlink next stop (len + 1) (heads k) i = some (next', head') ∧
      Threads next' (update heads k head') key len (update xs k ((xs k).erase i)) := by
  obtain ⟨next', head', hunlink, hchain, hsame⟩ := unlink_spec i (h.chain k) (h.nodup k)
    (fun i hi => hstop i (h.bound k i hi).1) (h.length_lt k)
  refine ⟨next', head', hunlink, ?_⟩
  constructor
  all_goals
    intro j
    rcases eq_or_ne j k with rfl | hj
  · rw [update_self, update_self]
    exact hchain
  · rw [update_of_ne hj, update_of_ne hj]
    refine (h.chain j).congr fun n hn => hsame n fun hn' => hj ?_
    rw [← (h.bound j n hn).2, (h.bound k n hn').2]
  · rw [update_self]
    exact (h.nodup _).erase _
  · rw [update_of_ne hj]
    exact h.nodup j
  · rw [update_self]
    exact fun n hn => h.bound _ n (List.mem_of_mem_erase hn)
  · rw [update_of_ne hj]
    exact h.bound j

end

end MachinaLinked
