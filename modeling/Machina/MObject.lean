import Machina.Runs

/-!
# The object tree

The paths of objects put them into a tree, and `MObjectTree` keeps an entry for every attached one. Nothing forbids a
slash in an id, so a child `b/c` and the child `c` of a child `b` get one path, as do two roots of one id. Where no id
has a slash and no root takes the id of another, the tree agrees with the objects after every sequence of calls.
-/

namespace MachinaMObject

open MachinaRuns
open Function (update update_apply)

abbrev Text := List Char

inductive MObjectError where
  | emptyLocalId | parentDetached | childAlreadyAttached | childHasChildren
  | duplicateChildId (id : Text)
  | childPathMismatch
  deriving DecidableEq, Repr

structure MObjectState where
  localId : Text
  objectPath : Option Text
  parentPath : Option Text
  childPaths : List Text
  deriving DecidableEq, Repr

/-- The description of an object copies every field. -/
abbrev MObjectInfo := MObjectState

def validateLocalId (localId : Text) : Except MObjectError Unit :=
  if localId = [] then .error .emptyLocalId else .ok ()

def rootPath (localId : Text) : Text := '/' :: localId

def childPath (parentPath childLocalId : Text) : Text := parentPath ++ '/' :: childLocalId

def newRoot (localId : Text) : Except MObjectError MObjectState := do
  validateLocalId localId
  pure ⟨localId, some (rootPath localId), none, []⟩

def newDetached (localId : Text) : Except MObjectError MObjectState := do
  validateLocalId localId
  pure ⟨localId, none, none, []⟩

/-- The parent and the child after the call. -/
def MObjectState.attachChild (self child : MObjectState) : Except MObjectError (MObjectState × MObjectState) :=
  match self.objectPath with
  | none => .error .parentDetached
  | some parentPath =>
    let path := childPath parentPath child.localId
    if child.parentPath.isSome ∨ child.objectPath.isSome then .error .childAlreadyAttached
    else if path ∈ self.childPaths then .error (.duplicateChildId child.localId)
    else .ok ({ self with childPaths := self.childPaths ++ [path] },
      { child with parentPath := some parentPath, objectPath := some path })

def MObjectState.detachChild (self child : MObjectState) : Except MObjectError (MObjectState × MObjectState) :=
  match child.objectPath with
  | none => .error .childPathMismatch
  | some path =>
    if path ∉ self.childPaths then .error .childPathMismatch
    else if child.childPaths ≠ [] then .error .childHasChildren
    else .ok ({ self with childPaths := self.childPaths.filter (· ≠ path) },
      { child with parentPath := none, objectPath := none })

/-- The entry that `lookup` finds at a path. -/
abbrev MObjectTree := Text → Option MObjectInfo

section

variable (tree : MObjectTree)

def MObjectTree.insert (info : MObjectInfo) : MObjectTree :=
  fun path => if info.objectPath = some path then some info else tree path

def MObjectTree.trackInfo (info : MObjectInfo) : Except MObjectError MObjectTree :=
  if info.objectPath = none then .error .parentDetached else .ok (tree.insert info)

def MObjectTree.trackRoot (root : MObjectState) : Except MObjectError MObjectTree := tree.trackInfo root

def MObjectTree.attachChild (parent child : MObjectState) :
    Except MObjectError (MObjectTree × MObjectState × MObjectState) := do
  if parent.objectPath = none then throw .parentDetached
  let (parent, child) ← parent.attachChild child
  pure ((tree.insert parent).insert child, parent, child)

/-- Besides the entry of the child, all entries below it go. -/
def MObjectTree.detachChild (parent child : MObjectState) :
    Except MObjectError (MObjectTree × MObjectState × MObjectState) :=
  match child.objectPath with
  | none => .error .childPathMismatch
  | some path => do
    if parent.objectPath = none then throw .parentDetached
    let (parent, child) ← parent.detachChild child
    pure (fun q => if q ≠ path ∧ ¬ path ++ ['/'] <+: q then tree.insert parent q else none, parent, child)

end

/-- The objects, by number, and the tree. -/
structure Sys where
  objects : Nat → Option MObjectState
  tree : MObjectTree

inductive Call where
  | newRoot (i : Nat) (localId : Text)
  | newDetached (i : Nat) (localId : Text)
  | attachChild (p c : Nat)
  | detachChild (p c : Nat)

/-- A call on two distinct objects. -/
def Sys.onPair (s : Sys) (p c : Nat)
    (call : MObjectState → MObjectState → Except MObjectError (MObjectTree × MObjectState × MObjectState)) :
    Option Sys :=
  match s.objects p, s.objects c with
  | some parent, some child =>
    if p = c then none
    else (call parent child).toOption.map fun (tree, parent, child) =>
      ⟨Function.update (Function.update s.objects p (some parent)) c (some child), tree⟩
  | _, _ => none

/-- The calls that succeed. A new root is tracked at once. -/
def step (s : Sys) : Call → Option Sys
  | .newRoot i localId => if s.objects i = none then do
      let root ← (newRoot localId).toOption
      let tree ← (s.tree.trackRoot root).toOption
      pure ⟨Function.update s.objects i (some root), tree⟩
    else none
  | .newDetached i localId => if s.objects i = none then
      (newDetached localId).toOption.map fun object => { s with objects := Function.update s.objects i (some object) }
    else none
  | .attachChild p c => s.onPair p c s.tree.attachChild
  | .detachChild p c => s.onPair p c s.tree.detachChild

/-- A call that fails changes nothing. -/
def next (s : Sys) (call : Call) : Sys := (step s call).getD s

/-- Object `i` is `o`, attached at `path`. -/
def At (objects : Nat → Option MObjectState) (i : Nat) (o : MObjectState) (path : Text) : Prop :=
  objects i = some o ∧ o.objectPath = some path

/-- The tree agrees with the objects. -/
structure Agrees (s : Sys) : Prop where
  distinct : ∀ {i j o o' path}, At s.objects i o path → At s.objects j o' path → i = j
  current : ∀ {i o path}, At s.objects i o path → s.tree path = some o
  listed : ∀ {i o path parent}, At s.objects i o path → o.parentPath = some parent →
    ∃ info, s.tree parent = some info ∧ path ∈ info.childPaths

/-- It does, and detaching an object removes exactly the entry of that object. -/
def Consistent (s : Sys) : Prop :=
  Agrees s ∧ ∀ p c o path s', At s.objects c o path → step s (.detachChild p c) = some s' →
    ∀ q, (s'.tree q).isSome ↔ (s.tree q).isSome ∧ q ≠ path

/-- A new id has no slash, and that of a new root is not the id of another root. -/
def Plain (s : Sys) : Call → Prop
  | .newRoot _ localId => '/' ∉ localId ∧ ∀ i o, ¬ At s.objects i o (rootPath localId)
  | .newDetached _ localId => '/' ∉ localId
  | _ => True

structure Inv (s : Sys) : Prop extends Agrees s where
  attached : ∀ {path o}, s.tree path = some o → ∃ i, At s.objects i o path
  plain : ∀ {i o}, s.objects i = some o → '/' ∉ o.localId
  shape : ∀ {i o path}, At s.objects i o path → path = childPath (o.parentPath.getD []) o.localId

/-- The last slash of a path is the one before a plain id. -/
theorem childPath_split {a t b id : Text} (hid : '/' ∉ id) (h : childPath a t = childPath b id) :
    a = b ∨ ∃ t', b = childPath a t' := by
  obtain ⟨c, rfl, hc⟩ | ⟨c, rfl, hc⟩ := List.append_eq_append_iff.mp h
  · cases c with
    | nil => exact .inl (List.append_nil a).symm
    | cons x c =>
      obtain ⟨rfl, -⟩ := List.cons.inj hc
      exact .inr ⟨c, rfl⟩
  · cases c with
    | nil => exact .inl (List.append_nil b)
    | cons x c =>
      obtain ⟨-, rfl⟩ := List.cons.inj hc
      exact absurd (List.mem_append_right c (.head _)) hid

/-- What is attached after a change of object `i`. -/
theorem at_update {f : Nat → Option MObjectState} {i j : Nat} {o x : MObjectState} {path : Text} :
    At (update f i (some o)) j x path ↔ if j = i then x = o ∧ o.objectPath = some path else At f j x path := by
  unfold At
  grind [update_apply]

namespace Inv

variable {s : Sys} {i p c : Nat} {o parent child : MObjectState} {path q t : Text}

/-- An object with a path below another is a child of it, or below a child of it. -/
theorem above (hs : Inv s) (hc : At s.objects c child path) (ho : At s.objects i o (childPath path t)) :
    childPath path t ∈ child.childPaths ∨
      ∃ j o' t' id, At s.objects j o' (childPath path t') ∧ t = childPath t' id := by
  have hshape := hs.shape ho
  have hsplit := childPath_split (hs.plain ho.1) hshape
  cases hpar : o.parentPath with
  | none =>
    have hpath := hs.shape hc
    rw [hpar] at hsplit
    obtain rfl | ⟨t', hnil⟩ := hsplit
    · simp [childPath] at hpath
    · simp [childPath] at hnil
  | some par =>
    rw [hpar] at hshape hsplit
    obtain ⟨o', hentry, hmem⟩ := hs.listed ho hpar
    obtain rfl | ⟨t', rfl⟩ := hsplit
    · obtain rfl := Option.some.inj ((hs.current hc).symm.trans hentry)
      exact .inl hmem
    obtain ⟨j, ho'⟩ := hs.attached hentry
    refine .inr ⟨j, o', t', o.localId, ho', ?_⟩
    simpa [childPath] using hshape

/-- There is nothing below an object without children. -/
theorem not_below (hs : Inv s) (hc : At s.objects c child path) (hl : child.childPaths = [])
    (ho : At s.objects i o q) : ¬ path ++ ['/'] <+: q := by
  rintro ⟨t, rfl⟩
  rw [List.append_assoc] at ho
  induction h : t.length using Nat.strong_induction_on generalizing i o t with
  | _ n ih =>
    obtain hmem | ⟨j, o', t', id, ho', rfl⟩ := hs.above hc ho
    · rw [hl] at hmem
      cases hmem
    refine ih t'.length ?_ t' ho' rfl
    rw [← h, childPath, List.length_append]
    exact Nat.lt_add_of_pos_right (Nat.succ_pos _)

theorem create (hs : Inv s) (hfree : s.objects i = none) (hid : '/' ∉ o.localId) (hpar : o.parentPath = none)
    (hpath : ∀ path, o.objectPath = some path → path = rootPath o.localId ∧ ∀ j o', ¬ At s.objects j o' path) :
    Inv ⟨update s.objects i (some o), s.tree.insert o⟩ := by
  have hne : ∀ {j o' q}, At s.objects j o' q → j ≠ i := by
    rintro j o' q ho rfl
    cases hfree.symm.trans ho.1
  obtain ⟨⟨distinct, current, listed⟩, attached, plain, shape⟩ := hs
  refine ⟨⟨?_, ?_, ?_⟩, ?attached, ?_, ?_⟩
  all_goals simp only [at_update, MObjectTree.insert, update_apply]
  case attached =>
    intro q o' h
    split at h
    · exact ⟨i, by grind⟩
    · obtain ⟨j, hj⟩ := attached h
      exact ⟨j, by grind⟩
  all_goals grind [childPath, rootPath]

variable {r : MObjectTree × MObjectState × MObjectState}

theorem attachChild (hs : Inv s) (hne : p ≠ c) (hp : s.objects p = some parent) (hc : s.objects c = some child)
    (h : s.tree.attachChild parent child = .ok r) :
    Inv ⟨update (update s.objects p (some r.2.1)) c (some r.2.2), r.1⟩ := by
  cases hpath : parent.objectPath with
  | none =>
    simp only [MObjectTree.attachChild, hpath] at h
    cases h
  | some path =>
    simp only [MObjectTree.attachChild, MObjectState.attachChild, hpath, reduceCtorEq, if_false] at h
    split_ifs at h with hdet hlist <;> cases h
    have hat : At s.objects p parent path := ⟨hp, hpath⟩
    have hfree : ∀ j o', ¬ At s.objects j o' (childPath path child.localId) := by
      intro j o' ho
      obtain hmem | ⟨_, _, t', id, -, ht⟩ := hs.above hat ho
      · exact hlist hmem
      refine hs.plain hc ?_
      rw [ht]
      exact List.mem_append_right _ (.head _)
    have hplain := hs.plain hc
    obtain ⟨⟨distinct, current, listed⟩, attached, plain, shape⟩ := hs
    refine ⟨⟨?_, ?_, ?_⟩, ?attached, ?_, ?_⟩
    all_goals simp only [at_update, MObjectTree.insert, update_apply]
    case attached =>
      intro q o' h
      split at h
      · exact ⟨c, by grind⟩
      split at h
      · exact ⟨p, by grind⟩
      · obtain ⟨j, hj⟩ := attached h
        exact ⟨j, by grind [At]⟩
    all_goals grind [At]

theorem detachChild (hs : Inv s) (hne : p ≠ c) (hp : s.objects p = some parent) (hc : s.objects c = some child)
    (h : s.tree.detachChild parent child = .ok r) :
    Inv ⟨update (update s.objects p (some r.2.1)) c (some r.2.2), r.1⟩ ∧
      ∀ q, (r.1 q).isSome ↔ (s.tree q).isSome ∧ some q ≠ child.objectPath := by
  cases hpath : child.objectPath with
  | none =>
    simp only [MObjectTree.detachChild, hpath] at h
    cases h
  | some path =>
    cases hpp : parent.objectPath with
    | none =>
      simp only [MObjectTree.detachChild, hpath, hpp] at h
      cases h
    | some pp =>
      simp only [MObjectTree.detachChild, MObjectState.detachChild, hpath, hpp, reduceCtorEq, if_false] at h
      split_ifs at h with hlist hleaf <;> cases h
      have hatp : At s.objects p parent pp := ⟨hp, hpp⟩
      have hatc : At s.objects c child path := ⟨hc, hpath⟩
      have hbelow {i o q} (ho : At s.objects i o q) := hs.not_below hatc (not_not.mp hleaf) ho
      obtain ⟨⟨distinct, current, listed⟩, attached, plain, shape⟩ := hs
      refine ⟨⟨⟨?_, ?_, ?_⟩, ?attached, ?_, ?_⟩, ?removed⟩
      all_goals simp only [at_update, MObjectTree.insert, update_apply]
      case removed =>
        intro q
        cases hq : s.tree q with
        | none => grind
        | some o' =>
          obtain ⟨j, hj⟩ := attached hq
          grind
      case attached =>
        intro q o' h
        split at h
        · split at h
          · exact ⟨p, by grind⟩
          · obtain ⟨j, hj⟩ := attached h
            exact ⟨j, by grind [At]⟩
        · cases h
      all_goals grind [At]

end Inv

variable {s s' : Sys} {p c : Nat} {call : Call}

theorem onPair_cases {call : MObjectState → MObjectState →
    Except MObjectError (MObjectTree × MObjectState × MObjectState)}
    (h : s.onPair p c call = some s') : p ≠ c ∧ ∃ parent child r, s.objects p = some parent ∧
      s.objects c = some child ∧ call parent child = .ok r ∧
      s' = ⟨update (update s.objects p (some r.2.1)) c (some r.2.2), r.1⟩ := by
  unfold Sys.onPair at h
  split at h
  · rename_i parent child hp hc
    obtain ⟨hne, h⟩ := Option.ite_none_left_eq_some.mp h
    cases hcall : call parent child with
    | error e =>
      rw [hcall] at h
      cases h
    | ok r =>
      rw [hcall] at h
      exact ⟨hne, parent, child, r, hp, hc, hcall, (Option.some.inj h).symm⟩
  · cases h

theorem Inv.step (hs : Inv s) (hplain : Plain s call) (h : step s call = some s') : Inv s' := by
  cases call with
  | newRoot i localId =>
    obtain ⟨hnone, h⟩ := Option.ite_none_right_eq_some.mp h
    rw [newRoot, validateLocalId] at h
    split_ifs at h
    · cases h
    · cases h
      exact hs.create hnone hplain.1 rfl fun path hpath => Option.some.inj hpath ▸ ⟨rfl, hplain.2⟩
  | newDetached i localId =>
    obtain ⟨hnone, h⟩ := Option.ite_none_right_eq_some.mp h
    rw [newDetached, validateLocalId] at h
    split_ifs at h
    · cases h
    · cases h
      exact hs.create hnone hplain rfl nofun
  | attachChild p c =>
    obtain ⟨hne, parent, child, r, hp, hc, hcall, rfl⟩ := onPair_cases h
    exact hs.attachChild hne hp hc hcall
  | detachChild p c =>
    obtain ⟨hne, parent, child, r, hp, hc, hcall, rfl⟩ := onPair_cases h
    exact (hs.detachChild hne hp hc hcall).1

theorem Inv.next (hs : Inv s) (hplain : Plain s call) : Inv (next s call) := by
  unfold MachinaMObject.next
  cases h : MachinaMObject.step s call with
  | none => exact hs
  | some s' => exact hs.step hplain h

theorem Inv.consistent (hs : Inv s) : Consistent s := by
  refine ⟨hs.toAgrees, fun p c o path s' ho h q => ?_⟩
  obtain ⟨hne, parent, child, r, hp, hc, hcall, rfl⟩ := onPair_cases h
  obtain rfl := Option.some.inj (hc.symm.trans ho.1)
  simpa [ho.2] using (hs.detachChild hne hp hc hcall).2 q

/-- Before any call there are no objects. -/
def Sys.empty : Sys := ⟨fun _ => none, fun _ => none⟩

/-- As long as ids are plain and root ids are new, the tree agrees with the objects. -/
theorem tree_consistent {calls : List Call} (h : Run (guarded Plain (ofStep next)) Sys.empty calls s) :
    Consistent s := by
  have hinit : Inv Sys.empty := ⟨⟨nofun, nofun, nofun⟩, nofun, nofun, nofun⟩
  refine (h.invariant (I := Inv) ?_ hinit).consistent
  rintro s call _ ⟨hplain, rfl⟩ hs
  exact hs.next hplain

theorem tree_consistent_child :
    Consistent ([Call.newRoot 0 ['a'], .newDetached 1 ['b'], .attachChild 0 1].foldl next Sys.empty) := by
  apply @tree_consistent _ [.newRoot 0 ['a'], .newDetached 1 ['b'], .attachChild 0 1]
  exact .cons ⟨⟨by decide, nofun⟩, rfl⟩ (.cons ⟨(by decide : '/' ∉ ['b']), rfl⟩ (.cons ⟨trivial, rfl⟩ (.nil _)))

/-- The child `b/c` and the child `c` of `b` get one path. -/
theorem slash_in_id_wrong : ¬ Consistent ([Call.newRoot 0 ['a'], .newDetached 1 ['b', '/', 'c'], .attachChild 0 1,
    .newDetached 2 ['b'], .attachChild 0 2, .newDetached 3 ['c'], .attachChild 2 3].foldl next Sys.empty) := by
  intro h
  have hsame : 1 = 3 := h.1.distinct ⟨rfl, rfl⟩ ⟨rfl, rfl⟩
  cases hsame

end MachinaMObject
