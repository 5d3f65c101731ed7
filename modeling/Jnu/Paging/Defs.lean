import Jnu.Errno
import Jnu.Lib.Effect
import Jnu.Pmm.Run

namespace Jnu

namespace Paging

open Lib.Effect Pmm

abbrev PhysM := Prog Panic Errno Phys

def ptePresent : BitVec 64 := BitVec.twoPow 64 0

def pteWrite : BitVec 64 := BitVec.twoPow 64 1

def pteUser : BitVec 64 := BitVec.twoPow 64 2

def pteHuge : BitVec 64 := BitVec.twoPow 64 7

def pteNx : BitVec 64 := BitVec.twoPow 64 63

def pteAddrMask : BitVec 64 := 0x000FFFFFFFFFF000#64

def has (e flag : BitVec 64) : Bool := e &&& flag != 0#64

def pteAddr (e : BitVec 64) : Nat := (e &&& pteAddrMask).toNat

namespace PhysM

def allocPages (order : Nat) : PhysM Nat := fun s =>
  some (.ok (.ok (pmmAllocPages s.pmm order).1, { s with pmm := (pmmAllocPages s.pmm order).2 }))

def allocUserPage : PhysM Nat := fun s =>
  some (.ok (.ok (pmmAllocUserPage s.pmm).1, { s with pmm := (pmmAllocUserPage s.pmm).2 }))

def orPanic (f : Phys → Except Panic Phys) : PhysM Unit := fun s =>
  match f s with
  | .error p => some (.error p)
  | .ok s => some (.ok (.ok (), s))

def freePages (pa order : Nat) : PhysM Unit := orPanic (pmmFreePages · pa order)

def getUserPage (pa : Nat) : PhysM Unit :=
  orPanic fun s => (pmmGetUserPage s.pmm pa).map fun pmm => { s with pmm }

def putUserPage (pa : Nat) : PhysM Unit := orPanic (pmmPutUserPage · pa)

def readEntry (table idx : Nat) : PhysM (BitVec 64) := Prog.read fun s => s.mem (table / 8 + idx)

def writeEntry (table idx : Nat) (e : BitVec 64) : PhysM Unit :=
  Prog.write fun s => { s with mem := Function.update s.mem (table / 8 + idx) e }

def clearPage (pa : Nat) : PhysM Unit :=
  Prog.write fun s => { s with mem := memsetZero s.mem pa pageSize }

-- `memcpy(phys_to_virt(dst), phys_to_virt(src), PAGE_SIZE)`.
def copyPage (dst src : Nat) : PhysM Unit :=
  Prog.write fun s => { s with mem := fun w =>
    if dst / 8 ≤ w ∧ w < dst / 8 + 512 then s.mem (src / 8 + (w - dst / 8)) else s.mem w }

end PhysM

open PhysM

def tableFor (parent idx : Nat) (create : Bool) (pflags : BitVec 64) : PhysM (Option Nat) := do
  let e ← readEntry parent idx
  if has e ptePresent then
    if has e pteHuge then return none
    else return some (pteAddr e)
  else if create then
    let pa ← allocPages 0
    if pa = 0 then return none
    else
      clearPage pa
      writeEntry parent idx (BitVec.ofNat 64 pa ||| ptePresent ||| pteWrite ||| pflags)
      return some pa
  else return none

def pml4Idx (v : Nat) : Nat := v / 2 ^ 39 % 512

def pdptIdx (v : Nat) : Nat := v / 2 ^ 30 % 512

def pdIdx (v : Nat) : Nat := v / 2 ^ 21 % 512

def ptIdx (v : Nat) : Nat := v / 2 ^ 12 % 512

-- The three calls of `table_for` that lead to the page table of `v`.
def ptFor (pml4 v : Nat) (create : Bool) (pflags : BitVec 64) : PhysM (Option Nat) := do
  match ← tableFor pml4 (pml4Idx v) create pflags with
  | none => return none
  | some pdpt =>
    match ← tableFor pdpt (pdptIdx v) create pflags with
    | none => return none
    | some pd => tableFor pd (pdIdx v) create pflags

def pagingMap (pml4 virt phys pages : Nat) (flags : BitVec 64) : PhysM Unit :=
  Prog.forRange (fun i => do
    let v := wrap64 (virt + i * pageSize)
    let p := wrap64 (phys + i * pageSize)
    match ← ptFor pml4 v true (if has flags pteUser then pteUser else 0) with
    | none => Prog.error .enomem
    | some pt =>
      writeEntry pt (ptIdx v) ((BitVec.ofNat 64 p &&& pteAddrMask) ||| ptePresent ||| flags)) pages

-- The reference that a present entry holds on its frame is dropped.
def putEntry (e : BitVec 64) : PhysM Unit := do
  if has e pteUser then
    let zeroPage ← Prog.read fun s => s.pmm.mmZeroPage
    if pteAddr e ≠ zeroPage then putUserPage (pteAddr e)

def pagingUnmap (pml4 virt pages : Nat) : PhysM Unit :=
  Prog.forRange (fun i => do
    let v := wrap64 (virt + i * pageSize)
    match ← ptFor pml4 v false 0 with
    | none => return
    | some pt =>
      let e ← readEntry pt (ptIdx v)
      if has e ptePresent then
        putEntry e
        writeEntry pt (ptIdx v) 0) pages

def pagingProtect (pml4 virt pages : Nat) (newFlags : BitVec 64) : PhysM Unit :=
  Prog.forRange (fun i => do
    let v := wrap64 (virt + i * pageSize)
    match ← ptFor pml4 v false 0 with
    | none => Prog.error .enoent
    | some pt =>
      let e ← readEntry pt (ptIdx v)
      if has e ptePresent then
        writeEntry pt (ptIdx v) ((e &&& pteAddrMask) ||| ptePresent ||| newFlags)
      else Prog.error .enoent) pages

def pagingGetFlags (pml4 virt : Nat) : PhysM (BitVec 64) := do
  match ← tableFor pml4 (pml4Idx virt) false 0 with
  | none => Prog.error .enoent
  | some pdpt =>
    let e ← readEntry pdpt (pdptIdx virt)
    if has e ptePresent = false then Prog.error .enoent
    else if has e pteHuge then return e
    else
      match ← tableFor pdpt (pdptIdx virt) false 0 with
      | none => Prog.error .enoent
      | some pd =>
        let e ← readEntry pd (pdIdx virt)
        if has e ptePresent = false then Prog.error .enoent
        else if has e pteHuge then return e
        else
          match ← tableFor pd (pdIdx virt) false 0 with
          | none => Prog.error .enoent
          | some pt =>
            let e ← readEntry pt (ptIdx virt)
            if has e ptePresent then return e
            else Prog.error .enoent

def pagingCloneKernelHalf (kernelPml4 newPml4 : Nat) : PhysM Unit :=
  Prog.forRange (fun i => do
    let e ← readEntry kernelPml4 (256 + i)
    writeEntry newPml4 (256 + i) e) 256

def putHugeUserRange (base span : Nat) : PhysM Unit :=
  Prog.forRange (fun i => do
    let pa := base + i * pageSize
    let s ← Prog.read id
    if pa = s.pmm.mmZeroPage then return
    else if pmmUserRefcount s.pmm pa = 0 then return
    else putUserPage pa) (span / pageSize)

-- The innermost loop of `paging_destroy_user_half`.
def destroyPt (pt : Nat) : PhysM Unit :=
  Prog.forRange (fun i => do
    let e ← readEntry pt i
    if has e ptePresent then
      let zeroPage ← Prog.read fun s => s.pmm.mmZeroPage
      if pteAddr e ≠ zeroPage then putUserPage (pteAddr e)) 512

def destroyPd (pd : Nat) : PhysM Unit :=
  Prog.forRange (fun i => do
    let e ← readEntry pd i
    if has e ptePresent then
      if has e pteHuge then putHugeUserRange (pteAddr e) (2 ^ 21)
      else
        destroyPt (pteAddr e)
        freePages (pteAddr e) 0) 512

def destroyPdpt (pdpt : Nat) : PhysM Unit :=
  Prog.forRange (fun i => do
    let e ← readEntry pdpt i
    if has e ptePresent then
      if has e pteHuge then putHugeUserRange (pteAddr e) (2 ^ 30)
      else
        destroyPd (pteAddr e)
        freePages (pteAddr e) 0) 512

def pagingDestroyUserHalf (kernelPml4 pml4 : Nat) : PhysM Unit := do
  if pml4 = kernelPml4 then return
  else
    Prog.forRange (fun i => do
      let e ← readEntry pml4 i
      if has e ptePresent then
        destroyPdpt (pteAddr e)
        freePages (pteAddr e) 0
        writeEntry pml4 i 0) 256

-- What the processor finds for an address: where it is and what user code may do there.
structure Translation where
  pa : Nat
  user : Bool
  write : Bool
  exec : Bool
  deriving DecidableEq, Repr

def Translation.ofEntry (e : BitVec 64) (pa : Nat) : Translation where
  pa := pa
  user := has e pteUser
  write := has e pteWrite
  exec := !has e pteNx

-- The rights of an entry further up limit those below it.
def Translation.under (e : BitVec 64) (t : Translation) : Translation where
  pa := t.pa
  user := has e pteUser && t.user
  write := has e pteWrite && t.write
  exec := !has e pteNx && t.exec

-- The page walk of the processor, through large pages as well.
def translate (mem : Mem) (pml4 v : Nat) : Option Translation := do
  let e4 := mem (pml4 / 8 + pml4Idx v)
  guard (has e4 ptePresent)
  let e3 := mem (pteAddr e4 / 8 + pdptIdx v)
  guard (has e3 ptePresent)
  if has e3 pteHuge then
    return .under e4 (.ofEntry e3 (pteAddr e3 / 2 ^ 30 * 2 ^ 30 + v % 2 ^ 30))
  let e2 := mem (pteAddr e3 / 8 + pdIdx v)
  guard (has e2 ptePresent)
  if has e2 pteHuge then
    return .under e4 (.under e3 (.ofEntry e2 (pteAddr e2 / 2 ^ 21 * 2 ^ 21 + v % 2 ^ 21)))
  let e1 := mem (pteAddr e2 / 8 + ptIdx v)
  guard (has e1 ptePresent)
  return .under e4 (.under e3 (.under e2 (.ofEntry e1 (pteAddr e1 + v % 2 ^ 12))))

end Paging

end Jnu
