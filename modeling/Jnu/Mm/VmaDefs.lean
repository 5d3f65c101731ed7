import Jnu.Paging.Defs
import Jnu.Rbtree.Defs

namespace Jnu.Mm

open Pmm Rbtree

-- The bits `VMA_READ`, `VMA_WRITE`, `VMA_EXEC` and `VMA_USER`.
structure VmaFlags where
  read : Bool
  write : Bool
  exec : Bool
  user : Bool
  deriving DecidableEq, Repr

structure Vma where
  start : Nat
  stop : Nat
  flags : VmaFlags
  deriving DecidableEq, Repr

-- The tree of an address space. A VMA is known by the object it was allocated as; `rb` is the
-- node embedded in it.
structure VmaTree where
  rb : RbState Nat
  vma : Nat → Vma

def VmaTree.empty : VmaTree where
  rb := rbInit ⟨fun _ => ⟨none, none, none, .red⟩, none⟩
  vma _ := ⟨0, 0, ⟨false, false, false, false⟩⟩

def VmaTree.set (t : VmaTree) (id : Nat) (v : Vma) : VmaTree :=
  { t with vma := Function.update t.vma id v }

def VmaTree.setStop (t : VmaTree) (id stop : Nat) : VmaTree :=
  t.set id { t.vma id with stop }

def VmaTree.setFlags (t : VmaTree) (id : Nat) (flags : VmaFlags) : VmaTree :=
  t.set id { t.vma id with flags }

-- The descent of `vma_insert` to an empty slot.
def insertSlot (t : VmaTree) (v : Vma) (parent : Option Nat) (slot : Slot Nat) :
    Option (Except Errno (Option Nat × Slot Nat)) :=
  match slot.read t.rb with
  | none => some (.ok (parent, slot))
  | some cur =>
    if v.stop ≤ (t.vma cur).start then
      by apply insertSlot; exacts [t, v, some cur, .child .left cur]
    else if v.start ≥ (t.vma cur).stop then
      by apply insertSlot; exacts [t, v, some cur, .child .right cur]
    else some (.error .eexist)
  partial_fixpoint

def vmaInsert (t : VmaTree) (id : Nat) : Option (Except Errno VmaTree) := do
  match ← insertSlot t (t.vma id) none .root with
  | .error e => return .error e
  | .ok (parent, slot) =>
    let rb ← rbInsertColor (rbLinkNode t.rb id parent slot) id
    return .ok { t with rb }

def findFrom (t : VmaTree) (addr : Nat) (n : Option Nat) : Option (Option Nat) :=
  match n with
  | none => some none
  | some cur =>
    if addr < (t.vma cur).start then by apply findFrom; exacts [t, addr, (t.rb.node cur).left]
    else if addr ≥ (t.vma cur).stop then by apply findFrom; exacts [t, addr, (t.rb.node cur).right]
    else some (some cur)
  partial_fixpoint

def vmaFind (t : VmaTree) (addr : Nat) : Option (Option Nat) := findFrom t addr t.rb.root

def vmaRemove (t : VmaTree) (id : Nat) : Option VmaTree := do
  let rb ← rbErase t.rb id
  return { t with rb }

def vmaFirst (t : VmaTree) : Option (Option Nat) := rbFirst t.rb

def vmaNext (t : VmaTree) (id : Nat) : Option (Option Nat) := rbNext t.rb id

-- `while (v && v->end <= start) v = vma_next(v)`.
def skipBelow (t : VmaTree) (start : Nat) (v : Option Nat) : Option (Option Nat) :=
  match v with
  | none => some none
  | some id =>
    if (t.vma id).stop ≤ start then do
      let next ← vmaNext t id
      by apply skipBelow; exacts [t, start, next]
    else some v
  partial_fixpoint

-- The VMA at `start`, or else the first one above it.
def vmaAtOrAbove (t : VmaTree) (start : Nat) : Option (Option Nat) := do
  match ← vmaFind t start with
  | some id => return some id
  | none => skipBelow t start (← vmaFirst t)

def sub64 (a b : Nat) : Nat := wrap64 (a + (2 ^ 64 - b))

def gapBest (best candidate : Nat) : Nat :=
  if best = 0 ∨ candidate > best then candidate else best

-- The walk over the VMAs below the ceiling. It returns `prev_end` and `best`.
def gapWalk (t : VmaTree) (size ceiling : Nat) (v : Option Nat) (prevEnd best : Nat) :
    Option (Nat × Nat) :=
  match v with
  | none => some (prevEnd, best)
  | some id =>
    let cur := t.vma id
    if cur.start ≥ ceiling then some (prevEnd, best)
    else do
      let candidate := sub64 cur.start size
      let best :=
        if cur.start > prevEnd ∧ sub64 cur.start prevEnd ≥ size ∧ candidate ≥ prevEnd ∧
          candidate ≥ pageSize then gapBest best candidate else best
      let next ← vmaNext t id
      by apply gapWalk; exacts [t, size, ceiling, next, cur.stop, best]
  partial_fixpoint

def vmaFindGapTopDown (t : VmaTree) (size ceiling : Nat) : Option Nat := do
  if size = 0 ∨ size % pageSize ≠ 0 then return 0
  match ← vmaFirst t with
  | none =>
    -- `floor + size` wraps around
    if ceiling ≥ wrap64 (pageSize + size) then return sub64 ceiling size
    else return 0
  | some v =>
    let (prevEnd, best) ← gapWalk t size ceiling (some v) pageSize 0
    let candidate := sub64 ceiling size
    if prevEnd < ceiling ∧ sub64 ceiling prevEnd ≥ size ∧ candidate ≥ prevEnd then
      return gapBest best candidate
    else return best

end Jnu.Mm
