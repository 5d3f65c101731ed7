import Jnu.Lib.RedBlack

namespace Jnu.Rbtree

open Lib.RedBlack

abbrev RbColor := Color

structure RbNode (ι : Type) where
  parent : Option ι
  left : Option ι
  right : Option ι
  color : RbColor
deriving DecidableEq, Repr

-- One store holds every node of a caller, linked or not. `root` is the only field of `struct rb_root`.
structure RbState (ι : Type) where
  node : ι → RbNode ι
  root : Option ι

def RbNode.child (n : RbNode ι) : Side → Option ι
  | .left => n.left
  | .right => n.right

def RbNode.setChild (n : RbNode ι) (side : Side) (c : Option ι) : RbNode ι :=
  match side with
  | .left => { n with left := c }
  | .right => { n with right := c }

def rbInit (s : RbState ι) : RbState ι := { s with root := none }

variable {ι : Type} [DecidableEq ι]

namespace RbState

def modify (s : RbState ι) (i : ι) (f : RbNode ι → RbNode ι) : RbState ι :=
  { s with node := Function.update s.node i (f (s.node i)) }

def setParent (s : RbState ι) (i : ι) (p : Option ι) : RbState ι :=
  s.modify i fun n => { n with parent := p }

def setChild (s : RbState ι) (side : Side) (i : ι) (c : Option ι) : RbState ι :=
  s.modify i fun n => n.setChild side c

def setColor (s : RbState ι) (i : ι) (c : RbColor) : RbState ι :=
  s.modify i fun n => { n with color := c }

-- `if (p) p->parent = q` and `if (p) p->color = c`.
def setParent? (s : RbState ι) (p q : Option ι) : RbState ι :=
  match p with
  | none => s
  | some i => s.setParent i q

def setColor? (s : RbState ι) (p : Option ι) (c : RbColor) : RbState ι :=
  match p with
  | none => s
  | some i => s.setColor i c

-- A null link counts as black, as in `!n || n->color == RB_BLACK`.
def isBlack (s : RbState ι) (p : Option ι) : Bool :=
  match p with
  | none => true
  | some i => (s.node i).color = .black

end RbState

-- `struct rb_node **slot`: the root pointer or a child field of a node.
inductive Slot (ι : Type) where
  | root
  | child (side : Side) (i : ι)
deriving DecidableEq, Repr

def Slot.read (s : RbState ι) : Slot ι → Option ι
  | .root => s.root
  | .child side i => (s.node i).child side

def Slot.write (s : RbState ι) (v : Option ι) : Slot ι → RbState ι
  | .root => { s with root := v }
  | .child side i => s.setChild side i v

def rbLinkNode (s : RbState ι) (node : ι) (parent : Option ι) (slot : Slot ι) : RbState ι :=
  slot.write (s.modify node fun _ => ⟨parent, none, none, .red⟩) (some node)

-- The search for the slot of a new node, as in `rb_test_insert`; `goLeft cur` is its comparison with `cur`.
def findSlot (goLeft : ι → Bool) (s : RbState ι) (parent : Option ι) (slot : Slot ι) :
    Option (Option ι × Slot ι) :=
  match slot.read s with
  | none => some (parent, slot)
  | some cur =>
    by apply findSlot; exacts [goLeft, s, some cur, .child (if goLeft cur then .left else .right) cur]
partial_fixpoint

def rbGrandparent (s : RbState ι) (n : ι) : Option ι :=
  match (s.node n).parent with
  | none => none
  | some p => (s.node p).parent

-- The link of the parent to `u`, or the root pointer, is redirected to `v`; the link on `side` is tested.
def relink (side : Side) (s : RbState ι) (parent : Option ι) (u : ι) (v : Option ι) :
    RbState ι :=
  match parent with
  | none => { s with root := v }
  | some p =>
    if (s.node p).child side = some u then s.setChild side p v else s.setChild side.flip p v

-- `rotate_left` and `rotate_right`: `x` moves down on `side` and its other child takes its place; `none`
-- when the code would follow a null pointer.
def rotate (side : Side) (s : RbState ι) (x : ι) : Option (RbState ι) := do
  let y ← (s.node x).child side.flip
  let inner := (s.node y).child side
  let s := s.setChild side.flip x inner
  let s := s.setParent? inner (some x)
  let s := s.setParent y (s.node x).parent
  let s := relink side s (s.node x).parent x (some y)
  let s := s.setChild side y (some x)
  return s.setParent x (some y)

def rotateLeft (s : RbState ι) (x : ι) : Option (RbState ι) := rotate .left s x

def rotateRight (s : RbState ι) (x : ι) : Option (RbState ι) := rotate .right s x

-- An inner `z` first changes places with its parent.
def rotateOutward (side : Side) (s : RbState ι) (z p : ι) : Option (RbState ι × ι) :=
  if (s.node p).child side.flip = some z then (rotate side s p).map (·, p) else some (s, z)

-- The branch with a black uncle: once `z` is on the outside, the grandparent moves down.
def insertRotate (side : Side) (s : RbState ι) (z p : ι) : Option (RbState ι × ι) := do
  let (s, z) ← rotateOutward side s z p
  let q ← (s.node z).parent
  let s := s.setColor q .black
  match rbGrandparent s z with
  | none => some (s, z)
  | some gp => (rotate side.flip (s.setColor gp .red) gp).map (·, z)

-- The loop of `rb_insert_color`, with its two mirrored halves as one.
def insertLoop (s : RbState ι) (z : ι) : Option (RbState ι) :=
  match (s.node z).parent with
  | none => some s
  | some p =>
    if (s.node p).color = .red then
      match rbGrandparent s z with
      | none => some s
      | some gp =>
        let side : Side := if (s.node gp).left = some p then .left else .right
        let u := (s.node gp).child side.flip
        if s.isBlack u then do
          let (s, z) ← insertRotate side s z p
          by apply insertLoop; exacts [s, z]
        else
          by apply insertLoop; exacts [((s.setColor p .black).setColor? u .black).setColor gp .red, gp]
    else some s
partial_fixpoint

def rbInsertColor (s : RbState ι) (node : ι) : Option (RbState ι) := do
  let s ← insertLoop s node
  return s.setColor? s.root .black

-- The idiom for inserting a node: search, link and recolour.
def rbInsert (goLeft : ι → Bool) (s : RbState ι) (node : ι) : Option (RbState ι) := do
  let (parent, slot) ← findSlot goLeft s none .root
  rbInsertColor (rbLinkNode s node parent slot) node

def rbMin (s : RbState ι) (n : ι) : Option ι :=
  match (s.node n).left with
  | none => some n
  | some l => by apply rbMin; exacts [s, l]
partial_fixpoint

-- The outer option is the fault of a null dereference or of a loop that does not
-- end, the inner one is the returned pointer.
def rbFirst (s : RbState ι) : Option (Option ι) :=
  match s.root with
  | none => some none
  | some r => (rbMin s r).map some

def nextLoop (s : RbState ι) (n : ι) : Option (Option ι) :=
  match (s.node n).parent with
  | none => some none
  | some p =>
    if (s.node p).right = some n then by apply nextLoop; exacts [s, p]
    else some (some p)
partial_fixpoint

def rbNext (s : RbState ι) (n : ι) : Option (Option ι) :=
  match (s.node n).right with
  | some r => (rbMin s r).map some
  | none => nextLoop s n

def transplant (s : RbState ι) (u : ι) (v : Option ι) : RbState ι :=
  let s := relink .left s (s.node u).parent u v
  s.setParent? v (s.node u).parent

-- First case of `erase_fixup`: a red sibling is rotated away, so that the sibling
-- read next is black.
def siblingBlack (side : Side) (s : RbState ι) (p : ι) : Option (RbState ι) :=
  match (s.node p).child side.flip with
  | none => some s
  | some w =>
    if (s.node w).color = .red then rotate side ((s.setColor w .black).setColor p .red) p
    else some s

-- A sibling `w` whose only red child is the inner one changes places with it.
def redOutward (side : Side) (s : RbState ι) (p w : ι) : Option (RbState ι × Option ι) :=
  if s.isBlack ((s.node w).child side.flip) then
    let s := (s.setColor? ((s.node w).child side) .black).setColor w .red
    (rotate side.flip s w).map fun s => (s, (s.node p).child side.flip)
  else some (s, some w)

-- Last cases of `erase_fixup`: the sibling `w` has a red child.
def eraseRotate (side : Side) (s : RbState ι) (p w : ι) : Option (RbState ι) := do
  let (s, w) ← redOutward side s p w
  let s := (s.setColor? w (s.node p).color).setColor p .black
  let s := match w with
    | none => s
    | some j => s.setColor? ((s.node j).child side.flip) .black
  rotate side s p

def fixupParent (s : RbState ι) (x xp : Option ι) : Option ι :=
  match x with
  | some i => (s.node i).parent
  | none => xp

-- The loop of `erase_fixup` with its mirrored halves as one; it ends with the node to make black.
def eraseLoop (s : RbState ι) (x xp : Option ι) : Option (RbState ι × Option ι) :=
  if x = s.root ∨ s.isBlack x = false then some (s, x)
  else
    match fixupParent s x xp with
    | none => some (s, x)
    | some p =>
      let side : Side := if x = (s.node p).left then .left else .right
      do
        let s ← siblingBlack side s p
        match (s.node p).child side.flip with
        | none => by apply eraseLoop; exacts [s, some p, (s.node p).parent]
        | some w =>
          if s.isBlack (s.node w).left ∧ s.isBlack (s.node w).right then
            let s := s.setColor w .red
            by apply eraseLoop; exacts [s, some p, (s.node p).parent]
          else
            let s ← eraseRotate side s p w
            by apply eraseLoop; exacts [s, s.root, xp]
partial_fixpoint

def eraseFixup (s : RbState ι) (x xp : Option ι) : Option (RbState ι) := do
  let (s, x) ← eraseLoop s x xp
  return s.setColor? x .black

-- The successor `y` of `z` leaves its place further down on the right of `z`.
def detachSuccessor (s : RbState ι) (z y : ι) : Option (RbState ι × Option ι) :=
  if (s.node y).parent = some z then some (s, some y)
  else do
    let s := transplant s y (s.node y).right
    let s := s.setChild .right y (s.node z).right
    let r ← (s.node y).right
    let s := s.setParent r (some y)
    some (s, (s.node y).parent)

-- The node `y` takes the place of `z`, with its left subtree and its colour.
def replaceNode (s : RbState ι) (z y : ι) : Option (RbState ι) := do
  let s := transplant s z (some y)
  let s := s.setChild .left y (s.node z).left
  let l ← (s.node y).left
  let s := s.setParent l (some y)
  some (s.setColor y (s.node z).color)

-- The part of `rb_erase` before the fixup. The result is the state with the `y_orig`,
-- `x` and `xp` of the code.
def unlinkNode (s : RbState ι) (z : ι) : Option (RbState ι × RbColor × Option ι × Option ι) :=
  match (s.node z).left, (s.node z).right with
  | none, right => some (transplant s z right, (s.node z).color, right, (s.node z).parent)
  | some left, none =>
    some (transplant s z (some left), (s.node z).color, some left, (s.node z).parent)
  | some _, some right => do
      let y ← rbMin s right
      let (s', xp) ← detachSuccessor s z y
      let s' ← replaceNode s' z y
      some (s', (s.node y).color, (s.node y).right, xp)

def rbErase (s : RbState ι) (z : ι) : Option (RbState ι) := do
  let (s, yOrig, x, xp) ← unlinkNode s z
  if yOrig = .black then eraseFixup s x xp else some s

end Jnu.Rbtree
