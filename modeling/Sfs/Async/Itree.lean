import Sfs.Foundations.RedBlack

/-!
# Intrusive trees

The red-black trees of `async/itree.C` and `async/itree.h`. An element contains the
pointers to its parent and its children, so a tree is a root and what is stored in
the elements. A null pointer that is followed, or an assertion that fails, ends the
program; loops run on fuel. The code has every branch twice, for left and right;
here the side is an argument.
-/

namespace SelfCertifyingFS.Async

open Foundations

/-- `itree_entry`. -/
structure ItreeEntry (ν : Type*) where
  up : Option ν
  left : Option ν
  right : Option ν
  color : Color
  deriving DecidableEq, Repr

namespace ItreeEntry

variable {ν : Type*}

def child (e : ItreeEntry ν) : Side → Option ν
  | .left => e.left
  | .right => e.right

def setChild (d : Side) (v : Option ν) (e : ItreeEntry ν) : ItreeEntry ν :=
  match d with
  | .left => { e with left := v }
  | .right => { e with right := v }

end ItreeEntry

/-- A tree: its root, and the entries of all elements, whether they are in the tree or not. -/
structure Itree (ν : Type*) where
  root : Option ν
  entry : ν → ItreeEntry ν

namespace Itree

variable {ν : Type*} (t : Itree ν)

def up (n : ν) : Option ν := (t.entry n).up

def child (d : Side) (n : ν) : Option ν := (t.entry n).child d

/-- The macro `color`. -/
def color : Option ν → Color
  | none => .black
  | some n => (t.entry n).color

def extreme (d : Side) (t : Itree ν) : ℕ → ν → Option ν
  | 0, _ => none
  | fuel + 1, x =>
      match t.child d x with
      | some y => extreme d t fuel y
      | none => some x

variable (t : Itree ν) (fuel : ℕ)

def itreeMinimum (x : ν) : Option ν := t.extreme .left fuel x

def itreeMaximum (x : ν) : Option ν := t.extreme .right fuel x

def first : Option (Option ν) :=
  match t.root with
  | none => some none
  | some n => (t.itreeMinimum fuel n).map some

/-- The loop of `itree_core::search`. -/
def searchLoop (cb : ν → ℤ) (t : Itree ν) : ℕ → Option ν → Option ν → Option (Option ν)
  | 0, _, _ => none
  | _ + 1, ret, none => some ret
  | fuel + 1, ret, some n =>
      if cb n < 0 then searchLoop cb t fuel ret (t.child .left n)
      else if cb n > 0 then searchLoop cb t fuel ret (t.child .right n)
      else searchLoop cb t fuel (some n) (t.child .left n)

def search (cb : ν → ℤ) (t : Itree ν) (fuel : ℕ) : Option (Option ν) :=
  t.searchLoop cb fuel none t.root

variable [DecidableEq ν]

def setEntry (n : ν) (e : ItreeEntry ν) (t : Itree ν) : Itree ν :=
  { t with entry := Function.update t.entry n e }

def setUp (n : ν) (v : Option ν) (t : Itree ν) : Itree ν :=
  t.setEntry n { t.entry n with up := v }

def setChild (d : Side) (n : ν) (v : Option ν) (t : Itree ν) : Itree ν :=
  t.setEntry n ((t.entry n).setChild d v)

/-- Assignment to the macro `lcolor`. -/
def setColor (n : ν) (c : Color) (t : Itree ν) : Itree ν :=
  t.setEntry n { t.entry n with color := c }

/-- Assignment to the parent of a child that may be missing. -/
def setUpOf (n : Option ν) (v : Option ν) (t : Itree ν) : Itree ν :=
  match n with
  | some n => t.setUp n v
  | none => t

/-- What pointed to `old`, the root or a child of `p`, points to `new`. -/
def relink (d : Side) (p : Option ν) (old : ν) (new : Option ν) (t : Itree ν) : Itree ν :=
  match p with
  | none => { t with root := new }
  | some p =>
      if t.child d p = some old then t.setChild d p new else t.setChild d.other p new

def rotate (d : Side) (x : ν) (t : Itree ν) : Option (Itree ν) := do
  let y ← t.child d.other x
  let t := t.setChild d.other x (t.child d y)
  let t := t.setUpOf (t.child d y) (some x)
  let t := t.setUp y (t.up x)
  let t := t.relink d (t.up x) x (some y)
  let t := t.setChild d y (some x)
  pure (t.setUp x (some y))

variable (x : ν) (t : Itree ν)

def itreeLeftRotate : Option (Itree ν) := t.rotate .left x

def itreeRightRotate : Option (Itree ν) := t.rotate .right x

section Insertion

/-- The step of `itree_insert_fix` that turns `x` to the outside of its parent, which is on
side `d` of the grandparent. -/
def turnOut (d : Side) (x px : ν) (t : Itree ν) : Option (ν × Itree ν) :=
  if t.child d.other px = some x then do
    let t ← t.rotate d px
    pure (px, t)
  else pure (x, t)

/-- The loop of `itree_insert_fix`, and the colour of the root behind it. -/
def insertFixLoop : ℕ → ν → Itree ν → Option (Itree ν)
  | 0, _, _ => none
  | fuel + 1, x, t =>
      if t.color (t.up x) = .red then do
        let px ← t.up x
        let gp ← t.up px
        let d := if t.child .left gp = some px then Side.left else Side.right
        let y := t.child d.other gp
        if t.color y = .red then
          let y ← y
          insertFixLoop fuel gp (((t.setColor px .black).setColor y .black).setColor gp .red)
        else
          let (x, t) ← t.turnOut d x px
          let px ← t.up x
          let t := t.setColor px .black
          let gp ← t.up px
          let t ← (t.setColor gp .red).rotate d.other gp
          insertFixLoop fuel x t
      else do
        let r ← t.root
        pure (t.setColor r .black)

def itreeInsertFix (fuel : ℕ) (x : ν) (t : Itree ν) : Option (Itree ν) :=
  insertFixLoop fuel x (t.setColor x .red)

variable (cmp : ν → ν → ℤ)

/-- The loop of `itree_insert`: the element that `z` goes below, and the result of the last
comparison. -/
def descend (z : ν) (t : Itree ν) : ℕ → Option ν → Option ν → ℤ → Option (Option ν × ℤ)
  | 0, _, _, _ => none
  | _ + 1, none, y, cmpres => some (y, cmpres)
  | fuel + 1, some x, _, _ =>
      let cmpres := cmp z x
      descend z t fuel (if cmpres < 0 then t.child .left x else t.child .right x) (some x) cmpres

def itreeInsert (fuel : ℕ) (z : ν) (t : Itree ν) : Option (Itree ν) := do
  let t := (t.setChild .right z none).setChild .left z none
  let (y, cmpres) ← t.descend cmp z fuel t.root none 0
  let t := t.setUp z y
  let t :=
    match y with
    | none => { t with root := some z }
    | some y =>
        if cmpres < 0 then t.setChild .left y (some z) else t.setChild .right y (some z)
  t.itreeInsertFix fuel z

end Insertion

/-- The first ancestor that is not left from the far side. -/
def climb (d : Side) (t : Itree ν) : ℕ → ν → Option (Option ν)
  | 0, _ => none
  | fuel + 1, x =>
      match t.up x with
      | none => some none
      | some y => if t.child d.other y = some x then climb d t fuel y else some (some y)

/-- The neighbour of `x` that is farther from side `d`. -/
def neighbour (d : Side) (t : Itree ν) (fuel : ℕ) (x : ν) : Option (Option ν) :=
  match t.child d.other x with
  | some y => (t.extreme d fuel y).map some
  | none => t.climb d fuel x

variable (t : Itree ν) (fuel : ℕ)

def itreeSuccessor (x : ν) : Option (Option ν) :=
  t.neighbour .left fuel x

def itreePredecessor (x : ν) : Option (Option ν) :=
  t.neighbour .right fuel x

def next (n : ν) : Option (Option ν) := t.itreeSuccessor fuel n

def prev (n : ν) : Option (Option ν) := t.itreePredecessor fuel n

variable (d : Side) (p w : ν) (t : Itree ν)

/-- The step of `itree_delete_fixup` for a red sibling `w`. -/
def lowerRed : Option (ν × Itree ν) :=
  if t.color (some w) = .red then do
    let t ← ((t.setColor w .black).setColor p .red).rotate d p
    let w ← t.child d.other p
    pure (w, t)
  else pure (w, t)

/-- The step for a sibling `w` whose far child is black. -/
def turnFar : Option (ν × Itree ν) :=
  if t.color (t.child d.other w) = .black then do
    let l ← t.child d w
    let t ← ((t.setColor l .black).setColor w .red).rotate d.other w
    let w ← t.child d.other p
    pure (w, t)
  else pure (w, t)

/-- The loop of `itree_delete_fixup`, and the colour of `x` behind it. -/
def deleteFixupLoop : ℕ → Option ν → Option ν → Itree ν → Option (Itree ν)
  | 0, _, _, _ => none
  | fuel + 1, x, p, t =>
      if x ≠ t.root ∧ t.color x = .black then do
        let p ← match x with
          | some x => t.up x
          | none => p
        let d := if x = t.child .left p then Side.left else Side.right
        let w ← t.child d.other p
        let (w, t) ← t.lowerRed d p w
        if t.color (t.child d w) = .black ∧ t.color (t.child d.other w) = .black then
          deleteFixupLoop fuel (some p) (some p) (t.setColor w .red)
        else
          let (w, t) ← t.turnFar d p w
          let t := (t.setColor w (t.color (some p))).setColor p .black
          let r ← t.child d.other w
          let t ← (t.setColor r .black).rotate d p
          deleteFixupLoop fuel t.root (some p) t
      else
        match x with
        | some x => some (t.setColor x .black)
        | none => some t

def itreeDeleteFixup (fuel : ℕ) (x p : Option ν) (t : Itree ν) : Option (Itree ν) :=
  if ∀ x' ∈ x, t.up x' = p then t.deleteFixupLoop fuel x p else none

/-- The element whose place in the tree `itree_delete` gives up: that of `z`, or of the next
element if `z` has two children. -/
def spliced (t : Itree ν) (fuel : ℕ) (z : ν) : Option ν :=
  if (t.child .left z).isSome ∧ (t.child .right z).isSome then
    (t.itreeSuccessor fuel z).join
  else some z

/-- The child of an element that has at most one. -/
def onlyChild (t : Itree ν) (y : ν) : Option ν := (t.child .left y).or (t.child .right y)

/-- The first part of `itree_delete`: `y`, which has at most one child `x`, is taken out. -/
def unlink (y : ν) (x : Option ν) (t : Itree ν) : Itree ν :=
  let p := t.up y
  (t.setUpOf x p).relink .left p y x

/-- The second part: `y` takes the place of `z`. -/
def takePlace (y z : ν) (t : Itree ν) : Itree ν :=
  let t := t.relink .left (t.up z) z (some y)
  let t := t.setUpOf (t.child .left z) (some y)
  let t := t.setUpOf (t.child .right z) (some y)
  t.setEntry y (t.entry z)

def itreeDelete (fuel : ℕ) (z : ν) (t : Itree ν) : Option (Itree ν) := do
  let y ← t.spliced fuel z
  let p := t.up y
  let x := t.onlyChild y
  let t := t.unlink y x
  let c := t.color (some y)
  let (p, t) :=
    if y ≠ z then (if p = some z then some y else p, t.takePlace y z) else (p, t)
  if c = .black then t.itreeDeleteFixup fuel x p else some t

end Itree

end SelfCertifyingFS.Async
