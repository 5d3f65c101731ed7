import Jnu.Mm.VmaDefs

namespace Jnu.Mm

open Lib.Effect Paging Pmm
open Function

structure AddrSpace where
  pml4Phys : Nat
  vmas : VmaTree
  mmapBase : Nat

-- The slab heap: objects are numbered as they are handed out, `live` has those in use with their pages. Any
-- history of the other users is possible.
structure Heap where
  next : Nat
  live : List (Nat × Nat)
  calls : Nat
  room : Nat → Option Nat

def Heap.slabs (h : Heap) : List Nat := (h.live.map Prod.snd).dedup

structure Kern where
  phys : Phys
  kernelPml4 : Nat
  space : Nat → Option AddrSpace
  heap : Heap
  rand : Nat → Nat
  draws : Nat

abbrev KM := Prog Panic Errno Kern

def onPhys (m : PhysM α) : KM α := m.zoom (fun k => k.phys) fun k s => { k with phys := s }

def spaceOf (sp : Nat) : KM AddrSpace := do
  let o ← Prog.read fun k => k.space sp
  Prog.known o

def pml4Of (sp : Nat) : KM Nat := do
  let a ← spaceOf sp
  return a.pml4Phys

def vmasOf (sp : Nat) : KM VmaTree := do
  let a ← spaceOf sp
  return a.vmas

def Kern.setSpace (k : Kern) (sp : Nat) (a : Option AddrSpace) : Kern :=
  { k with space := update k.space sp a }

def Kern.setVmas (k : Kern) (sp : Nat) (t : VmaTree) : Kern :=
  k.setSpace sp ((k.space sp).map fun a => { a with vmas := t })

def setVmas (sp : Nat) (t : VmaTree) : KM Unit := Prog.write fun k => k.setVmas sp t

def Heap.called (h : Heap) : Heap := { h with calls := h.calls + 1 }

def Heap.give (h : Heap) (pa : Nat) : Heap :=
  { h.called with next := h.next + 1, live := (h.next, pa) :: h.live }

def Heap.drop (h : Heap) (id : Nat) : Heap :=
  { h.called with live := h.live.filter fun o => o.1 != id }

-- The page in which the call finds room.
def Heap.spot (h : Heap) : Option Nat := (h.room h.calls).bind fun i => h.slabs[i]?

def kzalloc : KM (Option Nat) := do
  let h ← Prog.read fun k => k.heap
  match h.spot with
  | some pa =>
    Prog.write fun k => { k with heap := h.give pa }
    return some h.next
  | none =>
    let pa ← onPhys (PhysM.allocPages 0)
    if pa = 0 then
      Prog.write fun k => { k with heap := h.called }
      return none
    else
      Prog.write fun k => { k with heap := h.give pa }
      return some h.next

-- A page goes back with the last object in it. Nothing happens for what is not in use.
def kfree (id : Nat) : KM Unit := do
  let h ← Prog.read fun k => k.heap
  match h.live.lookup id with
  | none => Prog.write fun k => { k with heap := h.called }
  | some pa =>
    if pa ∈ (h.drop id).slabs then Prog.write fun k => { k with heap := h.drop id }
    else
      onPhys (PhysM.freePages pa 0)
      Prog.write fun k => { k with heap := h.drop id }

-- `(void)vma_insert(root, vma)`.
def reinsert (t : VmaTree) (id : Nat) : Option VmaTree := do
  match ← vmaInsert t id with
  | .ok t => return t
  | .error _ => return t

def vmaSplitAt (root id boundary : Nat) : KM Nat := do
  let t ← vmasOf root
  let v := t.vma id
  if boundary ≤ v.start ∨ boundary ≥ v.stop then Prog.error .einval
  else if boundary % pageSize ≠ 0 then Prog.error .einval
  else
    match ← kzalloc with
    | none => Prog.error .enomem
    | some upper =>
      let t ← Prog.known (vmaRemove (t.set upper ⟨boundary, v.stop, v.flags⟩) id)
      let t := t.setStop id boundary
      match ← Prog.known (vmaInsert t id) with
      | .error e =>
        let t ← Prog.known (reinsert (t.setStop id v.stop) id)
        setVmas root t
        kfree upper
        Prog.error e
      | .ok t =>
        match ← Prog.known (vmaInsert t upper) with
        | .error e =>
          let t ← Prog.known (vmaRemove t id)
          let t ← Prog.known (reinsert (t.setStop id v.stop) id)
          setVmas root t
          kfree upper
          Prog.error e
        | .ok t =>
          setVmas root t
          return upper

-- A VMA that straddles the left boundary of a range is split there.
def splitLeft (root start : Nat) : KM Unit := do
  let t ← vmasOf root
  match ← Prog.known (vmaFind t start) with
  | none => return
  | some v =>
    if (t.vma v).start < start then
      let _ ← vmaSplitAt root v start

def splitRight (root stop : Nat) : KM Unit := do
  let t ← vmasOf root
  match ← Prog.known (vmaFind t (stop - 1)) with
  | none => return
  | some v =>
    if (t.vma v).stop > stop then
      let _ ← vmaSplitAt root v stop

-- `paging_unmap(space, v->start, (v->end - v->start) / PAGE_SIZE)` if `space` is not null.
def unmapVma (space : Option Nat) (v : Vma) : KM Unit :=
  match space with
  | none => return
  | some sp => do
      let pml4 ← pml4Of sp
      onPhys (pagingUnmap pml4 v.start (sub64 v.stop v.start / pageSize))

def removeLoop (root : Nat) (space : Option Nat) (start stop : Nat) (v : Option Nat) : KM Unit :=
  match v with
  | none => return
  | some id => do
      let t ← vmasOf root
      if (t.vma id).start < stop then
        let next ← Prog.known (vmaNext t id)
        if (t.vma id).start ≥ start ∧ (t.vma id).stop ≤ stop then
          unmapVma space (t.vma id)
          let t ← Prog.known (vmaRemove t id)
          setVmas root t
          kfree id
        by apply removeLoop; exacts [root, space, start, stop, next]
  partial_fixpoint

def vmaRemoveRange (root : Nat) (space : Option Nat) (start stop : Nat) : KM Unit := do
  if start ≥ stop then Prog.error .einval
  else
    splitLeft root start
    splitRight root stop
    let t ← vmasOf root
    let v ← Prog.known (vmaAtOrAbove t start)
    removeLoop root space start stop v

def mmapBaseTop : Nat := 0x0000555500000000

def userTop : Nat := 0x0000800000000000

def csprngPageOffset (maxPages : Nat) : KM Nat := do
  let r ← Prog.read fun k => k.rand k.draws
  Prog.write fun k => { k with draws := k.draws + 1 }
  return r % maxPages * pageSize

-- The pages on the free lists are zero already.
def allocZeroedPages (order : Nat) : PhysM Nat := PhysM.allocPages order

def vmmCreateSpace : KM (Option Nat) := do
  match ← kzalloc with
  | none => return none
  | some sp =>
    let pml4 ← onPhys (allocZeroedPages 0)
    if pml4 = 0 then
      kfree sp
      return none
    else
      let offset ← csprngPageOffset 262144
      Prog.write fun k => k.setSpace sp (some ⟨pml4, .empty, mmapBaseTop - offset⟩)
      let kernel ← Prog.read fun k => k.kernelPml4
      onPhys (pagingCloneKernelHalf kernel pml4)
      return some sp

def freeVmas (sp : Nat) : KM Unit := do
  let t ← vmasOf sp
  match ← Prog.known (vmaFirst t) with
  | none => return
  | some id =>
    let t ← Prog.known (vmaRemove t id)
    setVmas sp t
    kfree id
    by apply freeVmas; exact sp
  partial_fixpoint

def vmmDestroySpace (sp : Nat) : KM Unit := do
  freeVmas sp
  let pml4 ← pml4Of sp
  let kernel ← Prog.read fun k => k.kernelPml4
  onPhys do
    pagingDestroyUserHalf kernel pml4
    PhysM.freePages pml4 0
  Prog.write fun k => k.setSpace sp none
  kfree sp

def vmmHandleCowFault (pml4 va : Nat) : PhysM Unit := do
  let va := va / pageSize * pageSize
  let oldPte ← pagingGetFlags pml4 va
  if has oldPte pteHuge then Prog.error .einval
  else
    let oldPa := pteAddr oldPte
    let flags := (oldPte &&& pteUser) ||| pteWrite ||| pteNx
    let pmm ← Prog.read fun s => s.pmm
    if oldPa ≠ pmm.mmZeroPage ∧ pmmUserRefcount pmm oldPa = 1 then pagingProtect pml4 va 1 flags
    else
      let newPa ← PhysM.allocUserPage
      if newPa = 0 then Prog.error .enomem
      else
        PhysM.copyPage newPa oldPa
        match ← (pagingMap pml4 va newPa 1 flags).attempt with
        | .error e =>
          PhysM.putUserPage newPa
          Prog.error e
        | .ok _ =>
          if oldPa ≠ pmm.mmZeroPage then PhysM.putUserPage oldPa

-- The bits of a page-fault error code: page present, write, user mode, instruction fetch.
structure FaultCode where
  p : Bool
  w : Bool
  u : Bool
  id : Bool
  deriving DecidableEq, Repr

-- `paging_map` of the page that a lazy fault has chosen, and the way back.
def lazyInstall (pml4 va pa : Nat) (flags : BitVec 64) : PhysM Unit := do
  let zeroPage ← Prog.read fun s => s.pmm.mmZeroPage
  match ← (pagingMap pml4 va pa 1 flags).attempt with
  | .ok _ => return
  | .error e =>
    if pa ≠ zeroPage then PhysM.putUserPage pa
    Prog.error e

def vmmHandleLazyFault (pml4 : Nat) (v : Vma) (va : Nat) (ec : FaultCode) : PhysM Unit := do
  if ec.id then
    if v.flags.exec = false then Prog.error .eacces
    else
      let pa ← PhysM.allocUserPage
      if pa = 0 then Prog.error .enomem
      else lazyInstall pml4 va pa pteUser
  else if ec.w then
    if v.flags.write = false then Prog.error .eacces
    else
      let pa ← PhysM.allocUserPage
      if pa = 0 then Prog.error .enomem
      else lazyInstall pml4 va pa (pteUser ||| pteWrite ||| pteNx)
  else if v.flags.read = false then Prog.error .eacces
  else
    let zeroPage ← Prog.read fun s => s.pmm.mmZeroPage
    lazyInstall pml4 va zeroPage (pteUser ||| pteNx)

def protRead : BitVec 32 := 1#32

def protWrite : BitVec 32 := 2#32

def protExec : BitVec 32 := 4#32

def mapPrivate : BitVec 32 := 0x02#32

def mapFixed : BitVec 32 := 0x10#32

def mapAnonymous : BitVec 32 := 0x20#32

def hasBit (bits flag : BitVec 32) : Bool := bits &&& flag != 0#32

def protToVma (prot : BitVec 32) : VmaFlags where
  read := hasBit prot protRead
  write := hasBit prot protWrite
  exec := hasBit prot protExec
  user := true

def vmaFlagsToPte (vf : VmaFlags) : BitVec 64 :=
  let pte := pteUser
  let pte := if vf.write then pte ||| pteWrite else pte
  if vf.exec then pte else pte ||| pteNx

def pageAlignUp (v : Nat) : Nat := wrap64 (v + (pageSize - 1)) / pageSize * pageSize

def insertAnonymous (sp chosen len : Nat) (flags : VmaFlags) : KM Nat := do
  match ← kzalloc with
  | none => Prog.error .enomem
  | some id =>
    let t ← vmasOf sp
    match ← Prog.known (vmaInsert (t.set id ⟨chosen, wrap64 (chosen + len), flags⟩) id) with
    | .error e =>
      kfree id
      Prog.error e
    | .ok t =>
      setVmas sp t
      return chosen

def vmmMapAnonymous (sp addr length : Nat) (prot flags : BitVec 32) : KM Nat := do
  let len := pageAlignUp length
  if length = 0 then Prog.error .einval
  else if len = 0 then Prog.error .einval
  else if hasBit flags (~~~(mapPrivate ||| mapAnonymous ||| mapFixed)) then Prog.error .einval
  else if ¬ hasBit flags mapPrivate ∨ ¬ hasBit flags mapAnonymous then Prog.error .einval
  else if hasBit prot protWrite ∧ hasBit prot protExec then Prog.error .einval
  else if hasBit flags mapFixed then
    if addr % pageSize ≠ 0 then Prog.error .einval
    else if addr < pageSize ∨ addr ≥ userTop then Prog.error .einval
    else if wrap64 (addr + len) < addr ∨ wrap64 (addr + len) > userTop then Prog.error .einval
    else
      vmaRemoveRange sp (some sp) addr (wrap64 (addr + len))
      insertAnonymous sp addr len (protToVma prot)
  else
    let a ← spaceOf sp
    let chosen ← Prog.known (vmaFindGapTopDown a.vmas len a.mmapBase)
    if chosen = 0 then Prog.error .enomem
    else insertAnonymous sp chosen len (protToVma prot)

-- `current` is what `current_user_space` returns.
def sysMunmap (current : Option Nat) (addr length : Nat) : KM Unit := do
  let len := pageAlignUp length
  let stop := wrap64 (addr + len)
  if addr % pageSize ≠ 0 then Prog.error .einval
  else
    match current with
    | none => Prog.error .einval
    | some sp =>
      if len = 0 then Prog.error .einval
      else if stop < addr ∨ stop > userTop then Prog.error .einval
      else vmaRemoveRange sp (some sp) addr stop

def protectPage (pml4 va : Nat) (newFlags : VmaFlags) : PhysM Unit := do
  match ← (pagingGetFlags pml4 va).attempt with
  | .error .enoent => return
  | .error e => Prog.error e
  | .ok pte =>
    let pa := pteAddr pte
    let newPte := vmaFlagsToPte newFlags
    let pmm ← Prog.read fun s => s.pmm
    -- no write access to a page that is shared
    if has newPte pteWrite ∧ (pa = pmm.mmZeroPage ∨ pmmUserRefcount pmm pa > 1) then
      pagingProtect pml4 va 1 (newPte &&& ~~~pteWrite)
    else pagingProtect pml4 va 1 newPte

-- How often `for (va = start; va < end; va += PAGE_SIZE)` runs.
def pagesIn (start stop : Nat) : Nat := (stop - start + (pageSize - 1)) / pageSize

def protectPages (pml4 : Nat) (v : Vma) (newFlags : VmaFlags) : PhysM Unit :=
  Prog.forRange (fun i => protectPage pml4 (v.start + i * pageSize) newFlags)
    (pagesIn v.start v.stop)

def protectVma (sp id : Nat) (newFlags : VmaFlags) : KM Unit := do
  let t ← vmasOf sp
  let pml4 ← pml4Of sp
  setVmas sp (t.setFlags id newFlags)
  match ← (onPhys (protectPages pml4 (t.vma id) newFlags)).attempt with
  | .ok _ => return
  | .error e =>
    setVmas sp (t.setFlags id (t.vma id).flags)
    Prog.error e

def protectLoop (sp start stop : Nat) (newFlags : VmaFlags) (v : Option Nat) : KM Unit :=
  match v with
  | none => return
  | some id => do
      let t ← vmasOf sp
      if (t.vma id).start < stop then
        let next ← Prog.known (vmaNext t id)
        if (t.vma id).start ≥ start ∧ (t.vma id).stop ≤ stop then protectVma sp id newFlags
        by apply protectLoop; exacts [sp, start, stop, newFlags, next]
  partial_fixpoint

def sysMprotect (current : Option Nat) (addr length : Nat) (prot : BitVec 32) : KM Unit := do
  let len := pageAlignUp length
  let stop := wrap64 (addr + len)
  if hasBit prot protWrite ∧ hasBit prot protExec then Prog.error .einval
  else if addr % pageSize ≠ 0 then Prog.error .einval
  else
    match current with
    | none => Prog.error .einval
    | some sp =>
      if len = 0 then Prog.error .einval
      else if stop < addr ∨ stop > userTop then Prog.error .einval
      else
        splitLeft sp addr
        splitRight sp stop
        let t ← vmasOf sp
        let v ← Prog.known (vmaAtOrAbove t addr)
        protectLoop sp addr stop (protToVma prot) v

def clonePteFlagsMask : BitVec 64 := pteWrite ||| pteUser ||| pteNx

def clonePage (src dst va : Nat) : PhysM Unit := do
  match ← (pagingGetFlags src va).attempt with
  | .error .enoent => return
  | .error e => Prog.error e
  | .ok pte =>
    let flags := pte &&& clonePteFlagsMask &&& ~~~pteWrite
    if has pte pteHuge then Prog.error .einval
    else
      if has pte pteWrite then pagingProtect src va 1 flags
      pagingMap dst va (pteAddr pte) 1 flags
      let zeroPage ← Prog.read fun s => s.pmm.mmZeroPage
      if pteAddr pte ≠ zeroPage then PhysM.getUserPage (pteAddr pte)

def cloneOneVma (src dst : Nat) (v : Vma) : KM Unit := do
  match ← kzalloc with
  | none => Prog.error .enomem
  | some id =>
    let t ← vmasOf dst
    match ← Prog.known (vmaInsert (t.set id v) id) with
    | .error e =>
      kfree id
      Prog.error e
    | .ok t =>
      setVmas dst t
      let srcPml4 ← pml4Of src
      let dstPml4 ← pml4Of dst
      onPhys (Prog.forRange (fun i => clonePage srcPml4 dstPml4 (v.start + i * pageSize))
        (pagesIn v.start v.stop))

def cloneLoop (src dst : Nat) (node : Option Nat) : KM Unit :=
  match node with
  | none => return
  | some id => do
      let t ← vmasOf src
      cloneOneVma src dst (t.vma id)
      let t ← vmasOf src
      let next ← Prog.known (vmaNext t id)
      by apply cloneLoop; exacts [src, dst, next]
  partial_fixpoint

def vmmCloneSpace (src : Nat) : KM Nat := do
  match ← vmmCreateSpace with
  | none => Prog.error .enomem
  | some dst =>
    let t ← vmasOf src
    let first ← Prog.known (vmaFirst t)
    match ← (cloneLoop src dst first).attempt with
    | .ok _ => return dst
    | .error e =>
      vmmDestroySpace dst
      Prog.error e

inductive Handled
  | resumed
  | killed
  deriving DecidableEq, Repr

-- A page fault of user code at `cr2`. A killed process gives up its memory later.
def exceptionsHandle (current : Option Nat) (cr2 : Nat) (ec : FaultCode) : KM Handled :=
  match current with
  | none => return .killed
  | some sp => do
      let a ← spaceOf sp
      let found ← Prog.known (vmaFind a.vmas cr2)
      match found with
      | none => return .killed
      | some id =>
        let v := a.vmas.vma id
        if ec.p then
          if ec.w ∧ v.flags.write then
            match ← (onPhys (vmmHandleCowFault a.pml4Phys (cr2 / pageSize * pageSize))).attempt with
            | .ok _ => return .resumed
            | .error _ => return .killed
          else return .killed
        else
          match ← (onPhys (vmmHandleLazyFault a.pml4Phys v (cr2 / pageSize * pageSize) ec)).attempt with
          | .ok _ => return .resumed
          | .error _ => return .killed

inductive Access
  | load
  | store (b : BitVec 8)
  | fetch
  deriving DecidableEq, Repr

def Access.isStore : Access → Bool
  | .store _ => true
  | _ => false

def Access.isFetch : Access → Bool
  | .fetch => true
  | _ => false

-- The processor lets the access through.
def Access.passes (a : Access) (t : Translation) : Bool :=
  t.user && (!a.isStore || t.write) && (!a.isFetch || t.exec)

def setByte (mem : Mem) (pa : Nat) (b : BitVec 8) : Mem :=
  update mem (pa / 8)
    ((mem (pa / 8) &&& ~~~(0xFF#64 <<< (8 * (pa % 8)))) ||| (b.setWidth 64 <<< (8 * (pa % 8))))

def copyTo (mem : Mem) (pa : Nat) : List (BitVec 8) → Mem
  | [] => mem
  | b :: bs => copyTo (setByte mem pa b) (pa + 1) bs

inductive Reply
  | value (b : BitVec 8)
  | handled (h : Handled)
  deriving DecidableEq, Repr

-- One attempt of an access: it completes, or it faults and the handler runs.
def userAccess (sp va : Nat) (a : Access) : KM Reply := do
  let pml4 ← pml4Of sp
  let mem ← Prog.read fun k => k.phys.mem
  match translate mem pml4 va with
  | none =>
    let h ← exceptionsHandle (some sp) va ⟨false, a.isStore, true, a.isFetch⟩
    return .handled h
  | some t =>
    if a.passes t then
      match a with
      | .store b =>
        Prog.write fun k => { k with phys := { k.phys with mem := setByte k.phys.mem t.pa b } }
        return .value b
      | _ => return .value (byteAt mem t.pa)
    else
      let h ← exceptionsHandle (some sp) va ⟨true, a.isStore, true, a.isFetch⟩
      return .handled h

end Jnu.Mm
