import Mathlib

/-!
# Readers of bytes

A reader takes bytes from the front of its input, or fails, and counts what it does.
Each reader has a rule that says when it gives a value and one that says when it
stops. A reader is paid for if every step it counts is covered by a byte it has taken.
-/

namespace MachinaByteReader

abbrev Bytes := List UInt8

/-- The `n` low bytes of a number, the lowest first. -/
def leBytes : Nat → Nat → Bytes
  | 0, _ => []
  | n + 1, v => UInt8.ofNat v :: leBytes n (v / 256)

/-- The number that bytes stand for, the lowest first. -/
def leValue : Bytes → Nat
  | [] => 0
  | x :: xs => x.toNat + 256 * leValue xs

@[simp] theorem length_leBytes (n v : Nat) : (leBytes n v).length = n := by
  induction n generalizing v with
  | zero => rfl
  | succ n ih => simp [leBytes, ih]

theorem leValue_lt (bs : Bytes) : leValue bs < 256 ^ bs.length := by
  induction bs with
  | nil => simp [leValue]
  | cons x xs ih =>
    have hx := x.toNat_lt
    rw [leValue, List.length_cons, Nat.pow_succ]
    omega

theorem leValue_leBytes {n v : Nat} (hv : v < 256 ^ n) : leValue (leBytes n v) = v := by
  induction n generalizing v with
  | zero => exact (Nat.lt_one_iff.mp hv).symm
  | succ n ih =>
    have hrest : v / 256 < 256 ^ n := by
      rw [Nat.pow_succ] at hv
      omega
    rw [leBytes, leValue, ih hrest, UInt8.toNat_ofNat']
    omega

theorem leBytes_leValue (bs : Bytes) : leBytes bs.length (leValue bs) = bs := by
  induction bs with
  | nil => rfl
  | cons x xs ih =>
    have hx := x.toNat_lt
    have hdiv : (x.toNat + 256 * leValue xs) / 256 = leValue xs := by omega
    have hlow : UInt8.ofNat (x.toNat + 256 * leValue xs) = x := by
      apply UInt8.toNat_inj.mp
      rw [UInt8.toNat_ofNat']
      omega
    rw [List.length_cons, leValue, leBytes, hdiv, hlow, ih]

/-- A reader of `α` that fails with `ε` and counts in `κ`. -/
def Reader (κ ε α : Type) : Type := Bytes → κ × Except ε (α × Bytes)

namespace Reader

variable {κ ε α β : Type}

/-- The reader gives `a` and leaves `rest`. -/
def Gives (r : Reader κ ε α) (b : Bytes) (a : α) (rest : Bytes) : Prop := (r b).2 = .ok (a, rest)

def Stops (r : Reader κ ε α) (b : Bytes) (e : ε) : Prop := (r b).2 = .error e

theorem gives_or_stops (r : Reader κ ε α) (b : Bytes) : (∃ a rest, Gives r b a rest) ∨ ∃ e, Stops r b e := by
  unfold Gives Stops
  cases (r b).2 with
  | ok x => exact .inl ⟨x.1, x.2, rfl⟩
  | error e => exact .inr ⟨e, rfl⟩

theorem Gives.unique {r : Reader κ ε α} {b rest rest' : Bytes} {a a' : α} (h : Gives r b a rest)
    (h' : Gives r b a' rest') : a = a' ∧ rest = rest' := by
  simpa using Except.ok.inj (h.symm.trans h')

theorem Gives.not_stops {r : Reader κ ε α} {b rest : Bytes} {a : α} {e : ε} (h : Gives r b a rest) : ¬Stops r b e :=
  fun hstop => nomatch h.symm.trans hstop

def count (k : κ) : Reader κ ε Unit := fun b => (k, .ok ((), b))

@[simp] theorem gives_count {k : κ} {u : Unit} {b rest : Bytes} :
    Gives (count k : Reader κ ε Unit) b u rest ↔ rest = b := by
  show (Except.ok ((), b) : Except ε _) = .ok (u, rest) ↔ _
  simp [eq_comm]

@[simp] theorem not_stops_count {k : κ} {b : Bytes} {e : ε} : ¬Stops (count k : Reader κ ε Unit) b e := nofun

/-- Which reader goes on depends on whether there are `n` bytes. -/
def ifShort (n : Nat) (short long : Reader κ ε α) : Reader κ ε α := fun b =>
  if b.length < n then short b else long b

theorem run_short {n : Nat} {short long : Reader κ ε α} {b : Bytes} (h : b.length < n) :
    ifShort n short long b = short b := if_pos h

theorem run_long {n : Nat} {short long : Reader κ ε α} {b : Bytes} (h : ¬b.length < n) :
    ifShort n short long b = long b := if_neg h

variable [AddMonoid κ]

def give (a : α) : Reader κ ε α := fun b => (0, .ok (a, b))

def andThen (r : Reader κ ε α) (f : α → Reader κ ε β) : Reader κ ε β := fun b =>
  match (r b).2 with
  | .error e => ((r b).1, .error e)
  | .ok (a, rest) => ((r b).1 + (f a rest).1, (f a rest).2)

instance : Monad (Reader κ ε) where
  pure := give
  bind := andThen

theorem give_andThen (a : α) (f : α → Reader κ ε β) : andThen (give a) f = f a := by
  funext b
  simp [andThen, give]

theorem andThen_give (r : Reader κ ε α) : andThen r give = r := by
  funext b
  rw [andThen]
  cases h : (r b).2 with
  | error e => exact Prod.ext rfl h.symm
  | ok x => exact Prod.ext (add_zero _) h.symm

theorem andThen_assoc {γ : Type} (r : Reader κ ε α) (f : α → Reader κ ε β) (g : β → Reader κ ε γ) :
    andThen (andThen r f) g = andThen r fun a => andThen (f a) g := by
  funext b
  simp only [andThen]
  cases (r b).2 with
  | error e => rfl
  | ok x =>
    dsimp only
    cases (f x.1 x.2).2 with
    | error e => rfl
    | ok y => simp [add_assoc]

instance : LawfulMonad (Reader κ ε) :=
  LawfulMonad.mk' _ andThen_give give_andThen andThen_assoc

def fail (e : ε) : Reader κ ε α := fun _ => (0, .error e)

def exact (eof : ε) (n : Nat) : Reader κ ε Bytes := fun b =>
  if n ≤ b.length then (0, .ok (b.take n, b.drop n)) else (0, .error eof)

def number (eof : ε) (n : Nat) : Reader κ ε Nat := do
  let bs ← exact eof n
  pure (leValue bs)

/-- `n` values one after the other; the reader is told which one it reads. -/
def times (r : Nat → Reader κ ε α) : Nat → Nat → Reader κ ε (List α)
  | 0, _ => pure []
  | n + 1, i => do
    let a ← r i
    let as ← times r n (i + 1)
    pure (a :: as)

section Rules

variable {r : Reader κ ε α} {f : α → Reader κ ε β} {b rest : Bytes} {e e' eof : ε} {n : Nat}

@[simp] theorem gives_pure {a a' : α} : Gives (pure a : Reader κ ε α) b a' rest ↔ a' = a ∧ rest = b := by
  show (Except.ok (a, b) : Except ε _) = .ok (a', rest) ↔ _
  simp [eq_comm]

@[simp] theorem not_stops_pure {a : α} : ¬Stops (pure a : Reader κ ε α) b e := nofun

theorem run_bind_gives {a : α} {mid : Bytes} (h : Gives r b a mid) :
    (r >>= f) b = ((r b).1 + (f a mid).1, (f a mid).2) := by
  show andThen r f b = _
  rw [andThen, h]

theorem run_bind_stops (h : Stops r b e) : (r >>= f) b = ((r b).1, .error e) := by
  show andThen r f b = _
  rw [andThen, h]

theorem gives_bind {c : β} : Gives (r >>= f) b c rest ↔ ∃ a mid, Gives r b a mid ∧ Gives (f a) mid c rest := by
  show (andThen r f b).2 = _ ↔ _
  unfold andThen Gives
  cases hr : (r b).2 with
  | ok x =>
    obtain ⟨a, mid⟩ := x
    simp
  | error e => simp

theorem stops_bind : Stops (r >>= f) b e ↔ Stops r b e ∨ ∃ a mid, Gives r b a mid ∧ Stops (f a) mid e := by
  show (andThen r f b).2 = _ ↔ _
  unfold andThen Gives Stops
  cases hr : (r b).2 with
  | ok x =>
    obtain ⟨a, mid⟩ := x
    simp
  | error e => simp

@[simp] theorem not_gives_fail {a : α} : ¬Gives (fail e : Reader κ ε α) b a rest := nofun

@[simp] theorem stops_fail : Stops (fail e' : Reader κ ε α) b e ↔ e = e' := by
  show (Except.error e' : Except ε (α × Bytes)) = .error e ↔ _
  simp [eq_comm]

theorem gives_check {p : Prop} [Decidable p] {a : α} :
    Gives (if p then fail e else r) b a rest ↔ ¬p ∧ Gives r b a rest := by
  split
  · rename_i h
    simp [h]
  · rename_i h
    simp [h]

theorem stops_check {p : Prop} [Decidable p] :
    Stops (if p then fail e' else r) b e ↔ p ∧ e = e' ∨ ¬p ∧ Stops r b e := by
  split
  · rename_i h
    simp [h]
  · rename_i h
    simp [h]

theorem gives_exact {a : Bytes} : Gives (exact eof n : Reader κ ε Bytes) b a rest ↔ a.length = n ∧ b = a ++ rest := by
  unfold Gives exact
  split
  · rename_i h
    constructor
    · intro heq
      obtain ⟨rfl, rfl⟩ := Prod.mk.inj (Except.ok.inj heq)
      exact ⟨List.length_take_of_le h, (List.take_append_drop n b).symm⟩
    · rintro ⟨rfl, rfl⟩
      simp
  · rename_i h
    constructor
    · nofun
    · rintro ⟨rfl, rfl⟩
      simp at h

theorem stops_exact : Stops (exact eof n : Reader κ ε Bytes) b e ↔ b.length < n ∧ e = eof := by
  unfold Stops exact
  split
  · simp
    omega
  · rename_i h
    simp [Nat.lt_of_not_le h, eq_comm]

theorem gives_number {v : Nat} :
    Gives (number eof n : Reader κ ε Nat) b v rest ↔ v < 256 ^ n ∧ b = leBytes n v ++ rest := by
  unfold number
  simp only [gives_bind, gives_exact, gives_pure]
  constructor
  · rintro ⟨bs, _, ⟨rfl, rfl⟩, rfl, rfl⟩
    exact ⟨leValue_lt bs, by rw [leBytes_leValue]⟩
  · rintro ⟨hv, rfl⟩
    exact ⟨leBytes n v, rest, ⟨length_leBytes n v, rfl⟩, (leValue_leBytes hv).symm, rfl⟩

theorem stops_number : Stops (number eof n : Reader κ ε Nat) b e ↔ b.length < n ∧ e = eof := by
  unfold number
  simp only [stops_bind, stops_exact, not_stops_pure, and_false, exists_false, or_false]

end Rules

section Formats

variable {X : Type} {r : Nat → Reader κ ε α} {good : X → Prop} {value : Nat → X → α} {write : X → Bytes}

/-- The reader reads the format that `write` writes: good items and nothing else. -/
def Parses (r : Nat → Reader κ ε α) (good : X → Prop) (value : Nat → X → α) (write : X → Bytes) : Prop :=
  ∀ i b a rest, Gives (r i) b a rest ↔ ∃ x, good x ∧ a = value i x ∧ b = write x ++ rest

/-- A loop over a format reads its items one after the other. -/
theorem Parses.gives_times (h : Parses r good value write) (n i : Nat) (b rest : Bytes) (as : List α) :
    Gives (times r n i) b as rest ↔
      ∃ xs : List X, xs.length = n ∧ (∀ x ∈ xs, good x) ∧ as = (xs.zipIdx i).map (fun p => value p.2 p.1) ∧
        b = xs.flatMap write ++ rest := by
  induction n generalizing i b rest as with
  | zero =>
    rw [times, gives_pure]
    constructor
    · rintro ⟨rfl, rfl⟩
      exact ⟨[], rfl, nofun, rfl, rfl⟩
    · rintro ⟨xs, hlen, -, rfl, rfl⟩
      obtain rfl := List.eq_nil_of_length_eq_zero hlen
      exact ⟨rfl, rfl⟩
  | succ n ih =>
    rw [times, gives_bind]
    simp only [gives_bind, gives_pure, h i _ _ _, ih]
    constructor
    · rintro ⟨_, mid, ⟨x, hx, rfl, rfl⟩, _, _, ⟨xs, hlen, hxs, rfl, rfl⟩, rfl, rfl⟩
      refine ⟨x :: xs, by rw [List.length_cons, hlen], ?_, rfl, by simp⟩
      exact List.forall_mem_cons.mpr ⟨hx, hxs⟩
    · rintro ⟨xs, hlen, hxs, rfl, rfl⟩
      cases xs with
      | nil => cases hlen
      | cons x xs =>
        obtain ⟨hx, hxs⟩ := List.forall_mem_cons.mp hxs
        exact ⟨_, xs.flatMap write ++ rest, ⟨x, hx, rfl, by simp⟩, _, rest,
          ⟨xs, by simpa using hlen, hxs, rfl, rfl⟩, rfl, rfl⟩

/-- A loop stops where one of its items does. -/
theorem Parses.stops_times (h : Parses r good value write) (n i : Nat) (b : Bytes) (e : ε) : Stops (times r n i) b e ↔
      ∃ (xs : List X) (s : Bytes), xs.length < n ∧ (∀ x ∈ xs, good x) ∧ b = xs.flatMap write ++ s ∧
      Stops (r (i + xs.length)) s e := by
  induction n generalizing i b with
  | zero =>
    rw [times]
    simp
  | succ n ih =>
    rw [times, stops_bind]
    simp only [stops_bind, not_stops_pure, and_false, exists_false, or_false, h i _ _ _, ih]
    constructor
    · rintro (hstop | ⟨_, mid, ⟨x, hx, rfl, rfl⟩, xs, s, hlen, hxs, rfl, hstop⟩)
      · exact ⟨[], b, Nat.succ_pos n, nofun, rfl, hstop⟩
      · refine ⟨x :: xs, s, Nat.succ_lt_succ hlen, List.forall_mem_cons.mpr ⟨hx, hxs⟩, by simp, ?_⟩
        rw [List.length_cons, Nat.add_comm xs.length, ← Nat.add_assoc]
        exact hstop
    · rintro ⟨xs, s, hlen, hxs, rfl, hstop⟩
      cases xs with
      | nil => exact .inl hstop
      | cons x xs =>
        obtain ⟨hx, hxs⟩ := List.forall_mem_cons.mp hxs
        rw [List.length_cons, Nat.add_comm xs.length, ← Nat.add_assoc] at hstop
        exact .inr ⟨_, _, ⟨x, hx, rfl, by simp⟩, xs, s, Nat.lt_of_succ_lt_succ hlen, hxs, rfl, hstop⟩

end Formats

section Costs

variable {c c' : Nat} {w : α → Nat} {w' : β → Nat} {cost : κ →+ Nat}

/-- The reader counts nothing. -/
def Free (cost : κ →+ Nat) (r : Reader κ ε α) : Prop := ∀ b, cost (r b).1 = 0

/-- What the reader counts, and the credit it leaves for its value, is covered by the credit it has and by the bytes
it takes. -/
structure Paid (cost : κ →+ Nat) (c : Nat) (w : α → Nat) (r : Reader κ ε α) : Prop where
  gives : ∀ b a rest, Gives r b a rest → cost (r b).1 + w a + rest.length ≤ b.length + c
  stops : ∀ b e, Stops r b e → cost (r b).1 ≤ b.length + c

theorem Paid.pure {a : α} (h : w a ≤ c) : Paid cost c w (pure a : Reader κ ε α) := by
  refine ⟨fun b a' rest hgives => ?_, fun b e hstop => absurd hstop not_stops_pure⟩
  obtain ⟨rfl, rfl⟩ := gives_pure.mp hgives
  show cost 0 + w a' + rest.length ≤ rest.length + c
  rw [map_zero]
  omega

theorem Paid.fail {e : ε} : Paid cost c w (Reader.fail e : Reader κ ε α) := by
  refine ⟨nofun, fun b e' hstop => ?_⟩
  show cost 0 ≤ _
  rw [map_zero]
  omega

theorem Paid.count {k : κ} {w : Unit → Nat} (h : cost k + w () ≤ c) :
    Paid cost c w (Reader.count k : Reader κ ε Unit) := by
  refine ⟨fun b a rest hgives => ?_, nofun⟩
  obtain rfl := gives_count.mp hgives
  show cost k + w () + rest.length ≤ rest.length + c
  omega

theorem Free.exact {eof : ε} {n : Nat} : Free cost (Reader.exact eof n) := by
  intro b
  unfold Reader.exact
  split <;> exact map_zero cost

theorem Paid.exact {eof : ε} {n : Nat} {w : Bytes → Nat} (h : ∀ a, a.length = n → w a ≤ n + c) :
    Paid cost c w (Reader.exact eof n) := by
  refine ⟨fun b a rest hgives => ?_, fun b e hstop => ?_⟩
  · obtain ⟨hlen, rfl⟩ := gives_exact.mp hgives
    have := h a hlen
    rw [Free.exact _, List.length_append]
    omega
  · rw [Free.exact _]
    omega

theorem Paid.bind {r : Reader κ ε α} {f : α → Reader κ ε β} (hr : Paid cost c w r)
    (hf : ∀ a, Paid cost (w a) w' (f a)) :
    Paid cost c w' (r >>= f) := by
  constructor
  · intro b a' rest hgives
    obtain ⟨a, mid, hmid, hrest⟩ := gives_bind.mp hgives
    have hpaid := hr.gives b a mid hmid
    have hpaid' := (hf a).gives mid a' rest hrest
    rw [run_bind_gives hmid, map_add]
    omega
  · intro b e hstop
    rcases stops_bind.mp hstop with h | ⟨a, mid, hmid, hrest⟩
    · rw [run_bind_stops h]
      exact hr.stops b e h
    have hpaid := hr.gives b a mid hmid
    have hpaid' := (hf a).stops mid e hrest
    rw [run_bind_gives hmid, map_add]
    omega

theorem Paid.number {eof : ε} {n : Nat} {w : Nat → Nat} (h : ∀ v, w v ≤ n + c) : Paid cost c w (Reader.number eof n) :=
  Paid.bind (w := fun _ => n + c) (Paid.exact fun _ _ => Nat.le_refl _) fun _ => Paid.pure (h _)

/-- Credit that is not used is left. -/
theorem Paid.frame {r : Reader κ ε α} (h : Paid cost c w r) (k : Nat) : Paid cost (c + k) (fun a => w a + k) r := by
  refine ⟨fun b a rest hgives => ?_, fun b e hstop => ?_⟩
  · have := h.gives b a rest hgives
    omega
  · have := h.stops b e hstop
    omega

theorem Paid.weaken {r : Reader κ ε α} {w2 : α → Nat} (h : Paid cost c w r) (hc : c ≤ c') (hw : ∀ a, w2 a ≤ w a) :
    Paid cost c' w2 r := by
  refine ⟨fun b a rest hgives => ?_, fun b e hstop => ?_⟩
  · have := h.gives b a rest hgives
    have := hw a
    omega
  · have := h.stops b e hstop
    omega

theorem Paid.ifShort {n : Nat} {short long : Reader κ ε α} (hs : Paid cost c w short) (hl : Paid cost c w long) :
    Paid cost c w (Reader.ifShort n short long) := by
  constructor
  · intro b a rest h
    by_cases hb : b.length < n
    · rw [Gives, run_short hb] at h
      rw [run_short hb]
      exact hs.gives b a rest h
    rw [Gives, run_long hb] at h
    rw [run_long hb]
    exact hl.gives b a rest h
  · intro b e h
    by_cases hb : b.length < n
    · rw [Stops, run_short hb] at h
      rw [run_short hb]
      exact hs.stops b e h
    rw [Stops, run_long hb] at h
    rw [run_long hb]
    exact hl.stops b e h

/-- A loop whose every turn gives back the credit it starts with. -/
theorem Paid.times {r : Nat → Reader κ ε α} (h : ∀ i, Paid cost c (fun a => c + w a) (r i)) (n i : Nat) :
    Paid cost c (fun as => c + (as.map w).sum) (Reader.times r n i) := by
  induction n generalizing i with
  | zero => exact Paid.pure (Nat.le_refl c)
  | succ n ih =>
    refine Paid.bind (h i) fun a => Paid.bind ((ih (i + 1)).frame (w a)) fun as => Paid.pure ?_
    rw [List.map_cons, List.sum_cons]
    omega

theorem Free.pure {a : α} : Free cost (pure a : Reader κ ε α) := fun _ => map_zero cost

theorem Free.fail {e : ε} : Free cost (Reader.fail e : Reader κ ε α) := fun _ => map_zero cost

theorem Free.count {k : κ} (h : cost k = 0) : Free cost (Reader.count k : Reader κ ε Unit) := fun _ => h

theorem Free.bind {r : Reader κ ε α} {f : α → Reader κ ε β} (hr : Free cost r) (hf : ∀ a, Free cost (f a)) :
    Free cost (r >>= f) := by
  intro b
  rcases gives_or_stops r b with ⟨a, mid, h⟩ | ⟨e, h⟩
  · rw [run_bind_gives h, map_add, hr b, hf a mid]
  · rw [run_bind_stops h]
    exact hr b

theorem Free.number {eof : ε} {n : Nat} : Free cost (Reader.number eof n) := Free.bind Free.exact fun _ => Free.pure

theorem Free.times {r : Nat → Reader κ ε α} (h : ∀ i, Free cost (r i)) (n i : Nat) :
    Free cost (Reader.times r n i) := by
  induction n generalizing i with
  | zero => exact Free.pure
  | succ n ih => exact Free.bind (h i) fun a => Free.bind (ih (i + 1)) fun as => Free.pure

end Costs

end Reader

end MachinaByteReader
