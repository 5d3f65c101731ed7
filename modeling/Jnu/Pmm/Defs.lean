import Mathlib

namespace Jnu.Pmm

open Function

def pageSize : Nat := 4096

def pmmMaxOrder : Nat := 11

def pmmOrderSize (order : Nat) : Nat := 2 ^ (12 + order)

def wrap64 (n : Nat) : Nat := n % 2 ^ 64

inductive PmmZone
  | dma
  | normal
  deriving DecidableEq, Repr

-- One entry of `pfn_table`; `none` in a link is `NO_LINK`.
structure PmmPfn where
  free : Bool
  order : Nat
  refcount : Nat
  next : Option Nat
  prev : Option Nat
  deriving DecidableEq, Repr

structure PmmStats where
  totalPages : Nat
  freePages : Nat
  freeByOrder : Nat → Nat
  zoneTotal : PmmZone → Nat
  zoneFree : PmmZone → Nat

structure PmmState where
  pfnTable : Nat → PmmPfn
  pfnCount : Nat
  freeListHead : PmmZone → Nat → Option Nat
  stats : PmmStats
  mmZeroPage : Nat

-- Physical memory, as 8-byte words indexed by address / 8.
abbrev Mem := Nat → BitVec 64

def byteAt (mem : Mem) (pa : Nat) : BitVec 8 := (mem (pa / 8)).extractLsb' (8 * (pa % 8)) 8

structure Phys where
  pmm : PmmState
  mem : Mem

inductive Panic
  | freeBadOrder (order : Nat)
  | freeMisaligned (pa order : Nat)
  | freeOutOfRange
  | freeDoubleFree (pa : Nat)
  | getZeroPage (pa : Nat)
  | getOutOfRange (pa : Nat)
  | getFree (pa : Nat)
  | getRefcountZero (pa : Nat)
  | getOverflow (pa : Nat)
  | putZeroPage (pa : Nat)
  | putOutOfRange (pa : Nat)
  | putFree (pa : Nat)
  | putUnderflow (pa : Nat)
  | noMemoryMap
  | noUsableMemory
  | noMetadataRoom
  | noZeroPage
  deriving DecidableEq, Repr

def pfnToPa (pfn : Nat) : Nat := pfn * pageSize

def paToPfn (pa : Nat) : Nat := pa / pageSize

def zoneOf (pa : Nat) : PmmZone :=
  if pa < 16 * 1024 * 1024 then .dma else .normal

-- `memset(phys_to_virt(pa), 0, bytes)`; the callers pass multiples of 8.
def memsetZero (mem : Mem) (pa bytes : Nat) : Mem :=
  fun w => if pa / 8 ≤ w ∧ w < (pa + bytes) / 8 then 0 else mem w

namespace PmmState

def modify (s : PmmState) (pfn : Nat) (f : PmmPfn → PmmPfn) : PmmState :=
  { s with pfnTable := update s.pfnTable pfn (f (s.pfnTable pfn)) }

def modify? (s : PmmState) (pfn : Option Nat) (f : PmmPfn → PmmPfn) : PmmState :=
  match pfn with
  | some pfn => s.modify pfn f
  | none => s

def setHead (s : PmmState) (z : PmmZone) (order : Nat) (v : Option Nat) : PmmState :=
  { s with freeListHead := fun z' o =>
      if z' = z ∧ o = order then v else s.freeListHead z' o }

-- `stats.free_pages`, `free_by_order[o]` and `zone_free[z]` gain a block.
def countFree (s : PmmState) (z : PmmZone) (o : Nat) : PmmState :=
  { s with stats := { s.stats with
      freePages := s.stats.freePages + 2 ^ o
      freeByOrder := update s.stats.freeByOrder o (s.stats.freeByOrder o + 1)
      zoneFree := update s.stats.zoneFree z (s.stats.zoneFree z + 2 ^ o) } }

def uncountFree (s : PmmState) (z : PmmZone) (o : Nat) : PmmState :=
  { s with stats := { s.stats with
      freePages := s.stats.freePages - 2 ^ o
      freeByOrder := update s.stats.freeByOrder o (s.stats.freeByOrder o - 1)
      zoneFree := update s.stats.zoneFree z (s.stats.zoneFree z - 2 ^ o) } }

end PmmState

-- The predecessor of `e`, or the list head if there is none, is made to point past `e`.
def unlinkNext (s : PmmState) (pfn : Nat) (e : PmmPfn) : PmmState :=
  match e.prev with
  | some p => s.modify p fun p => { p with next := e.next }
  | none => s.setHead (zoneOf (pfnToPa pfn)) e.order e.next

def listRemove (s : PmmState) (pfn : Nat) : PmmState :=
  let e := s.pfnTable pfn
  let s := unlinkNext s pfn e
  let s := s.modify? e.next fun n => { n with prev := e.prev }
  s.modify pfn fun e => { e with next := none, prev := none }

def listPush (s : PmmState) (z : PmmZone) (order pfn : Nat) : PmmState :=
  let head := s.freeListHead z order
  let s := s.modify pfn fun e => { e with prev := none, next := head, order := order, free := true }
  let s := s.modify? head fun h => { h with prev := some pfn }
  s.setHead z order (some pfn)

def clearFree (s : PmmState) (pfn : Nat) : PmmState :=
  s.modify pfn fun e => { e with free := false }

def listPop (s : PmmState) (z : PmmZone) (order : Nat) : Option Nat × PmmState :=
  match s.freeListHead z order with
  | none => (none, s)
  | some head => (some head, clearFree (listRemove s head) head)

def buddyPfn (pfn order : Nat) : Nat := pfn ^^^ 2 ^ order

-- The smallest order from `o` on with a free block in the zone; the first argument counts the
-- orders left to try.
def firstFit (s : PmmState) (z : PmmZone) : Nat → Nat → Nat
  | 0, o => o
  | n + 1, o => if s.freeListHead z o = none then firstFit s z n (o + 1) else o

-- Halve the block at `pfn`, which is `d` orders too large, giving the upper halves back.
def splitDown (z : PmmZone) (pfn order : Nat) : Nat → PmmState → PmmState
  | 0, s => s
  | d + 1, s =>
    splitDown z pfn order d
      ((listPush s z (order + d) (pfn + 2 ^ (order + d))).countFree z (order + d))

def allocFromZone (s : PmmState) (z : PmmZone) (order : Nat) : Option (Nat × PmmState) :=
  let o := firstFit s z (pmmMaxOrder - order) order
  if o < pmmMaxOrder then
    match listPop s z o with
    | (none, _) => none
    | (some pfn, s) =>
      let s := splitDown z pfn order (o - order) (s.uncountFree z o)
      some (pfn, s.modify pfn fun e => { e with free := false, order := order })
  else none

def pmmAllocPagesLocked (s : PmmState) (order : Nat) : Nat × PmmState :=
  if order ≥ pmmMaxOrder then (0, s)
  else
    match allocFromZone s .normal order with
    | some (pfn, s) => (pfnToPa pfn, s)
    | none =>
      match allocFromZone s .dma order with
      | some (pfn, s) => (pfnToPa pfn, s)
      | none => (0, s)

def pmmAllocPages (s : PmmState) (order : Nat) : Nat × PmmState := pmmAllocPagesLocked s order

def pmmAllocZeroedPages (s : PmmState) (order : Nat) : Nat × PmmState := pmmAllocPages s order

def pmmAllocUserPage (s : PmmState) : Nat × PmmState :=
  let (pa, s) := pmmAllocPagesLocked s 0
  if pa ≠ 0 then (pa, s.modify (paToPfn pa) fun e => { e with refcount := 1 })
  else (pa, s)

def pmmAllocDma (s : PmmState) (order : Nat) : Nat × PmmState :=
  match allocFromZone s .dma order with
  | some (pfn, s) => (pfnToPa pfn, s)
  | none => (0, s)

-- The coalescing loop; the first argument counts the orders above `order`.
def coalesce (z : PmmZone) : Nat → PmmState → Nat → Nat → PmmState × Nat × Nat
  | 0, s, pfn, order => (s, pfn, order)
  | n + 1, s, pfn, order =>
    let bpfn := buddyPfn pfn order
    let bp := s.pfnTable bpfn
    if bpfn ≥ s.pfnCount then (s, pfn, order)
    else if bp.free = false ∨ bp.order ≠ order then (s, pfn, order)
    else if zoneOf (pfnToPa bpfn) ≠ z then (s, pfn, order)
    else
      coalesce z n (clearFree ((listRemove s bpfn).uncountFree z order) bpfn)
        (if bpfn < pfn then bpfn else pfn) (order + 1)

def pmmFreePagesLocked (s : PmmState) (pa order : Nat) : PmmState :=
  let z := zoneOf pa
  let (s, pfn, order) := coalesce z (pmmMaxOrder - 1 - order) s (paToPfn pa) order
  (listPush s z order pfn).countFree z order

def pmmFreeValidateLocked (s : PmmState) (pa order : Nat) : Except Panic Unit :=
  if order ≥ pmmMaxOrder then .error (.freeBadOrder order)
  else if pa % 2 ^ (12 + order) ≠ 0 then .error (.freeMisaligned pa order)
  else if paToPfn pa ≥ s.pfnCount then .error .freeOutOfRange
  else if (s.pfnTable (paToPfn pa)).free then .error (.freeDoubleFree pa)
  else .ok ()

def pmmFreePages (s : Phys) (pa order : Nat) : Except Panic Phys := do
  pmmFreeValidateLocked s.pmm pa order
  let mem := memsetZero s.mem pa (pmmOrderSize order)
  return { pmm := pmmFreePagesLocked s.pmm pa order, mem }

def pmmGetUserPage (s : PmmState) (pa : Nat) : Except Panic PmmState :=
  let pfn := paToPfn pa
  if pa = s.mmZeroPage then .error (.getZeroPage pa)
  else if pfn ≥ s.pfnCount then .error (.getOutOfRange pa)
  else if (s.pfnTable pfn).free then .error (.getFree pa)
  else if (s.pfnTable pfn).refcount = 0 then .error (.getRefcountZero pa)
  else if (s.pfnTable pfn).refcount = 0xFFFF then .error (.getOverflow pa)
  else .ok (s.modify pfn fun e => { e with refcount := e.refcount + 1 })

-- The locked part of `pmm_put_user_page`; the flag is `do_free`.
def putUserPageLocked (s : PmmState) (pa : Nat) : Except Panic (Bool × PmmState) :=
  let pfn := paToPfn pa
  if pa = s.mmZeroPage then .error (.putZeroPage pa)
  else if pfn ≥ s.pfnCount then .error (.putOutOfRange pa)
  else if (s.pfnTable pfn).free then .error (.putFree pa)
  else if (s.pfnTable pfn).refcount = 0 then .error (.putUnderflow pa)
  else .ok ((s.pfnTable pfn).refcount - 1 = 0,
    s.modify pfn fun e => { e with refcount := e.refcount - 1 })

def pmmPutUserPage (s : Phys) (pa : Nat) : Except Panic Phys := do
  let (doFree, pmm) ← putUserPageLocked s.pmm pa
  if doFree then pmmFreePages { s with pmm } pa 0
  else return { s with pmm }

def pmmUserRefcount (s : PmmState) (pa : Nat) : Nat :=
  if paToPfn pa ≥ s.pfnCount then 0 else (s.pfnTable (paToPfn pa)).refcount

-- An entry of the Limine memory map; `usable` is `type == LIMINE_MEMMAP_USABLE`.
structure MemmapEntry where
  base : Nat
  length : Nat
  usable : Bool
  deriving DecidableEq, Repr

def pmmRegisterBlock (s : Phys) (pfn order : Nat) : Phys :=
  let z := zoneOf (pfnToPa pfn)
  let mem := memsetZero s.mem (pfnToPa pfn) (pmmOrderSize order)
  let pmm := (listPush s.pmm z order pfn).countFree z order
  { mem
    pmm := { pmm with stats := { pmm.stats with
      zoneTotal := update pmm.stats.zoneTotal z (pmm.stats.zoneTotal z + 2 ^ order) } } }

-- The largest order at which `start` is aligned and the block ends by `stop`.
def naturalOrder (start stop : Nat) : Nat → Nat → Nat
  | 0, order => order
  | n + 1, order =>
    if start % 2 ^ (order + 1) = 0 ∧ start + 2 ^ (order + 1) ≤ stop then
      naturalOrder start stop n (order + 1)
    else order

-- The `while (start < end)` loop; every round advances by at least one page.
def registerLoop : Nat → Phys → Nat → Nat → Phys
  | 0, s, _, _ => s
  | n + 1, s, start, stop =>
    if start < stop then
      let order := naturalOrder start stop (pmmMaxOrder - 1) 0
      registerLoop n (pmmRegisterBlock s start order) (start + 2 ^ order) stop
    else s

def pmmRegisterRange (s : Phys) (startPa endPa : Nat) : Phys :=
  let start := paToPfn (wrap64 (startPa + pageSize - 1))
  let stop := paToPfn endPa
  registerLoop (stop - start) s start stop

def highestEnd (mm : List MemmapEntry) : Nat :=
  mm.foldl (fun hi e => if e.usable ∧ wrap64 (e.base + e.length) > hi
    then wrap64 (e.base + e.length) else hi) 0

def pmmPfnSize : Nat := 32

def metaPages (pfnCount : Nat) : Nat := (pfnCount * pmmPfnSize + pageSize - 1) / pageSize

-- Take `bytes` from the first usable region that has them; the first component is `meta_pa` or 0.
def carve (bytes : Nat) : List MemmapEntry → Nat × List MemmapEntry
  | [] => (0, [])
  | e :: mm =>
    if e.usable ∧ e.length ≥ bytes then
      (e.base, { e with base := e.base + bytes, length := e.length - bytes } :: mm)
    else
      let (pa, mm) := carve bytes mm
      (pa, e :: mm)

def registerAll (s : Phys) (mm : List MemmapEntry) : Phys :=
  mm.foldl (fun s e => if e.usable then
    pmmRegisterRange s e.base (wrap64 (e.base + e.length)) else s) s

-- The allocator with `pfn_count` cleared entries and nothing on the lists.
def emptyPmm (pfnCount : Nat) : PmmState where
  pfnTable _ := ⟨false, 0, 0, none, none⟩
  pfnCount := pfnCount
  freeListHead _ _ := none
  stats := ⟨0, 0, fun _ => 0, fun _ => 0, fun _ => 0⟩
  mmZeroPage := 0

def pmmInit (mm : Option (List MemmapEntry)) (mem : Mem) : Except Panic Phys :=
  match mm with
  | none => .error .noMemoryMap
  | some mm =>
    if highestEnd mm = 0 then .error .noUsableMemory
    else
      let pfnCount := highestEnd mm / pageSize
      let (metaPa, mm) := carve (metaPages pfnCount * pageSize) mm
      if metaPa = 0 then .error .noMetadataRoom
      else
        let s := registerAll { pmm := emptyPmm pfnCount, mem } mm
        let pmm := { s.pmm with stats := { s.pmm.stats with totalPages := s.pmm.stats.freePages } }
        let (zeroPage, pmm) := pmmAllocZeroedPages pmm 0
        if zeroPage = 0 then .error .noZeroPage
        else .ok { s with pmm := { pmm with mmZeroPage := zeroPage } }

end Jnu.Pmm
