import Mathlib

/-!
# Blocks of a stream

A block is read item by item from an address on, until an item ends it, the count
runs out or an item cannot be had. A stream that provides more items than another
one has its blocks, or goes on where they got stuck.
-/

namespace MachinaBlocks

variable {α ι : Type}

/-- How a stream is read: the address after an item, and the items that end a block. -/
structure Rules (α ι : Type) where
  next : α → ι → α
  last : α → ι → Bool

/-- The items of a block of at most `n`, and the address of the one that cannot be had. -/
def block (R : Rules α ι) (get : α → Option ι) : Nat → α → List (α × ι) × Option α
  | 0, _ => ([], none)
  | n + 1, a =>
    match get a with
    | none => ([], some a)
    | some i =>
      if R.last a i then ([(a, i)], none)
      else ((a, i) :: (block R get n (R.next a i)).1, (block R get n (R.next a i)).2)

/-- Go on by one last item where a block got stuck. -/
def resume (get : α → Option ι) (b : List (α × ι) × Option α) : List (α × ι) × Option α :=
  match b.2 with
  | none => b
  | some w =>
    match get w with
    | none => b
    | some i => (b.1 ++ [(w, i)], none)

variable {R : Rules α ι} {get get' : α → Option ι} {a : α}

theorem resume_done {b : List (α × ι) × Option α} (h : b.2 = none) : resume get b = b := by
  rw [resume, h]

theorem resume_stuck {b : List (α × ι) × Option α} {w : α} (h : b.2 = some w) (hget : get w = none) :
    resume get b = b := by
  rw [resume, h]
  dsimp only
  rw [hget]

theorem resume_item {b : List (α × ι) × Option α} {w : α} {i : ι} (h : b.2 = some w) (hget : get w = some i) :
    resume get b = (b.1 ++ [(w, i)], none) := by
  rw [resume, h]
  dsimp only
  rw [hget]

theorem block_none (h : get a = none) (n : Nat) : block R get (n + 1) a = ([], some a) := by
  rw [block, h]

theorem block_last {i : ι} (h : get a = some i) (hlast : R.last a i = true) (n : Nat) :
    block R get (n + 1) a = ([(a, i)], none) := by
  rw [block, h]
  exact if_pos hlast

theorem block_next {i : ι} (h : get a = some i) (hlast : R.last a i = false) (n : Nat) : block R get (n + 1) a =
      ((a, i) :: (block R get n (R.next a i)).1, (block R get n (R.next a i)).2) := by
  rw [block, h]
  exact if_neg (by rw [hlast]; decide)

/-- The addresses of a block satisfy what its steps keep. -/
def Keeps (R : Rules α ι) (get : α → Option ι) (Inv : α → Prop) : Prop :=
  ∀ a i, Inv a → get a = some i → R.last a i = false → Inv (R.next a i)

variable {Inv : α → Prop}

theorem mem_block (hkeeps : Keeps R get Inv) (n : Nat) (ha : Inv a) :
    ∀ x ∈ (block R get n a).1, Inv x.1 ∧ get x.1 = some x.2 := by
  induction n generalizing a with
  | zero => exact List.forall_mem_nil _
  | succ n ih =>
    cases hget : get a with
    | none =>
      rw [block_none hget]
      exact List.forall_mem_nil _
    | some i =>
      cases hlast : R.last a i with
      | true =>
        rw [block_last hget hlast]
        exact List.forall_mem_singleton.mpr ⟨ha, hget⟩
      | false =>
        rw [block_next hget hlast]
        exact List.forall_mem_cons.mpr ⟨⟨ha, hget⟩, ih (hkeeps a i ha hget hlast)⟩

theorem block_stuck (hkeeps : Keeps R get Inv) (n : Nat) (ha : Inv a) {w : α} (h : (block R get n a).2 = some w) :
    Inv w ∧ get w = none := by
  induction n generalizing a with
  | zero => cases h
  | succ n ih =>
    cases hget : get a with
    | none =>
      rw [block_none hget] at h
      cases h
      exact ⟨ha, hget⟩
    | some i =>
      cases hlast : R.last a i with
      | true =>
        rw [block_last hget hlast] at h
        cases h
      | false =>
        rw [block_next hget hlast] at h
        exact ih (hkeeps a i ha hget hlast) h

/-- A stream with more items, as far as they end the block, has the same block or one more item. -/
theorem block_extend (hkeeps : Keeps R get Inv) (hmore : ∀ a i, Inv a → get a = some i → get' a = some i)
    (hend : ∀ a i, Inv a → get a = none → get' a = some i → R.last a i = true) (n : Nat) (ha : Inv a) :
    block R get' n a = resume get' (block R get n a) := by
  induction n generalizing a with
  | zero => rfl
  | succ n ih =>
    cases hget : get a with
    | none =>
      rw [block_none hget]
      cases hget' : get' a with
      | none => rw [block_none hget', resume_stuck rfl hget']
      | some i => rw [block_last hget' (hend a i ha hget hget'), resume_item rfl hget', List.nil_append]
    | some i =>
      have hget' := hmore a i ha hget
      cases hlast : R.last a i with
      | true => rw [block_last hget' hlast, block_last hget hlast, resume_done rfl]
      | false =>
        rw [block_next hget' hlast, block_next hget hlast, ih (hkeeps a i ha hget hlast)]
        rcases block R get n (R.next a i) with ⟨is, _ | w⟩
        · rfl
        cases hw : get' w with
        | none => rw [resume_stuck rfl hw, resume_stuck rfl hw]
        | some j => rw [resume_item rfl hw, resume_item rfl hw, List.cons_append]

end MachinaBlocks
