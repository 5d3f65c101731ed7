import Jnu.Errno
import Jnu.Lib.Bytes
import Jnu.Lib.Effect

namespace Jnu.Minix

open Lib.Bytes Lib.Effect
open Function

inductive Panic
  | bitmapUnreadable
  | doubleFree (idx : Nat)
  | freeInvalidInode (ino : Nat)
  | freeInvalidZone (zone : Nat)
  deriving DecidableEq, Repr

def blockSize : Nat := 1024

-- Zone numbers in an indirect table.
def perBlock : Nat := 512

def bitsPerBlock : Nat := 8192

def nameLen : Nat := 14

def dirEntrySize : Nat := 16

def rawInodeSize : Nat := 32

-- `struct minix_super`, as far as the mounted filesystem reads it.
structure Super where
  ninodes : Nat
  nzones : Nat
  imapBlocks : Nat
  zmapBlocks : Nat
  firstdatazone : Nat
  logZoneSize : Nat
  magic : Nat
  deriving DecidableEq

structure RawInode where
  mode : BitVec 16
  uid : BitVec 16
  size : BitVec 32
  time : BitVec 32
  gid : BitVec 8
  nlinks : BitVec 8
  zone : Fin 9 → BitVec 16

namespace RawInode

def izone (r : RawInode) (i : Nat) : Nat := if h : i < 9 then (r.zone ⟨i, h⟩).toNat else 0

def setZone (r : RawInode) (i z : Nat) : RawInode :=
  if h : i < 9 then { r with zone := update r.zone ⟨i, h⟩ (BitVec.ofNat 16 z) } else r

def zeroed : RawInode := ⟨0, 0, 0, 0, 0, 0, fun _ => 0⟩

def byte (r : RawInode) (j : Nat) : Byte :=
  if j < 2 then BitVec.ofNat 8 (r.mode.toNat / 256 ^ j)
  else if j < 4 then BitVec.ofNat 8 (r.uid.toNat / 256 ^ (j - 2))
  else if j < 8 then BitVec.ofNat 8 (r.size.toNat / 256 ^ (j - 4))
  else if j < 12 then BitVec.ofNat 8 (r.time.toNat / 256 ^ (j - 8))
  else if j < 13 then r.gid
  else if j < 14 then r.nlinks
  else BitVec.ofNat 8 (r.izone ((j - 14) / 2) / 256 ^ ((j - 14) % 2))

def put (r : RawInode) (m : Mem) (off : Nat) : Mem := fun i =>
  if off ≤ i ∧ i < off + rawInodeSize then r.byte (i - off) else m i

def get (m : Mem) (off : Nat) : RawInode where
  mode := BitVec.ofNat 16 (load m off 2)
  uid := BitVec.ofNat 16 (load m (off + 2) 2)
  size := BitVec.ofNat 32 (load m (off + 4) 4)
  time := BitVec.ofNat 32 (load m (off + 8) 4)
  gid := m (off + 12)
  nlinks := m (off + 13)
  zone i := BitVec.ofNat 16 (load m (off + 14 + 2 * i.val) 2)

-- `i_mode & 040000`.
def isDir (r : RawInode) : Bool := r.mode.getLsbD 14

end RawInode

-- A `struct vfs_inode` of the mount with its `struct minix_inode_info`.
structure Node where
  ino : Nat
  size : Nat
  isDir : Bool
  mode : BitVec 16
  raw : RawInode
  dirty : Bool
  refcount : Nat

-- What the machine under the filesystem decides: which buffer reads and which allocations
-- fail, and the readings of the clock.
structure Env where
  ioFails : Nat → Bool
  memFails : Nat → Bool
  rtc : Nat → BitVec 32

-- How many buffer reads, allocations and clock readings there were.
structure Clock where
  ios : Nat
  mems : Nat
  ticks : Nat

-- A mounted MINIX filesystem: superblock, device, the blocks as the buffer cache shows them, the inode
-- objects, and the inode cache.
structure Fs where
  sb : Super
  nblocks : Nat
  block : Nat → Mem
  device : Nat → Mem
  node : Nat → Option Node
  next : Nat
  icache : Nat → Option Nat
  env : Env
  clock : Clock

abbrev FsM := Prog Panic Errno Fs

def superOf : FsM Super := Prog.read Fs.sb

def nodeOf (o : Nat) : FsM Node := do
  let nd ← Prog.read fun s => s.node o
  Prog.known nd

def setNode (o : Nat) (nd : Node) : FsM Unit :=
  Prog.write fun s => { s with node := update s.node o (some nd) }

def dataOf (b : Nat) : FsM Mem := Prog.read fun s => s.block b

def setData (b : Nat) (m : Mem) : FsM Unit :=
  Prog.write fun s => { s with block := update s.block b m }

-- Whether the buffer is there. Its data stays `dataOf b` until it is put back.
def bufcacheGet (b : Nat) : FsM Bool := do
  let s ← Prog.read id
  Prog.write fun s => { s with clock := { s.clock with ios := s.clock.ios + 1 } }
  return decide (b < s.nblocks) && !s.env.ioFails s.clock.ios

def kmalloc : FsM Bool := do
  let s ← Prog.read id
  Prog.write fun s => { s with clock := { s.clock with mems := s.clock.mems + 1 } }
  return !s.env.memFails s.clock.mems

def rtcNowUnix : FsM (BitVec 32) := do
  let s ← Prog.read id
  Prog.write fun s => { s with clock := { s.clock with ticks := s.clock.ticks + 1 } }
  return s.env.rtc s.clock.ticks

def testBit (m : Mem) (bit : Nat) : Bool := (m (bit / 8)).getLsbD (bit % 8)

def setBit (m : Mem) (bit : Nat) : Mem :=
  update m (bit / 8) (m (bit / 8) ||| BitVec.twoPow 8 (bit % 8))

def clearBit (m : Mem) (bit : Nat) : Mem :=
  update m (bit / 8) (m (bit / 8) &&& ~~~BitVec.twoPow 8 (bit % 8))

-- The first clear bit of a bitmap block from `bit` on; bit 0 of the map is never given out.
def firstClear (m : Mem) (base limit : Nat) : Nat → Nat → Option Nat
  | 0, _ => none
  | n + 1, bit =>
    if base + bit = 0 then firstClear m base limit n (bit + 1)
    else if limit < base + bit then none
    else if testBit m bit then firstClear m base limit n (bit + 1)
    else some bit

-- `minix_alloc_from_map` from block `blk` of the map on, with `n` blocks to go.
def minixAllocFromMap (start limit : Nat) : Nat → Nat → FsM Nat
  | 0, _ => return 0
  | n + 1, blk => do
      if ← bufcacheGet (start + blk) then
        let m ← dataOf (start + blk)
        match firstClear m (blk * bitsPerBlock) limit bitsPerBlock 0 with
        | some bit =>
          setData (start + blk) (setBit m bit)
          return blk * bitsPerBlock + bit
        | none => minixAllocFromMap start limit n (blk + 1)
      else return 0

def minixFreeFromMap (start idx : Nat) : FsM Unit := do
  if ← bufcacheGet (start + idx / bitsPerBlock) then
    let m ← dataOf (start + idx / bitsPerBlock)
    if testBit m (idx % bitsPerBlock) then
      setData (start + idx / bitsPerBlock) (clearBit m (idx % bitsPerBlock))
    else Prog.halt (.doubleFree idx)
  else Prog.halt .bitmapUnreadable

def minixAllocZone : FsM Nat := do
  let sb ← superOf
  let zidx ← minixAllocFromMap (2 + sb.imapBlocks) (sb.nzones - sb.firstdatazone) sb.zmapBlocks 0
  if zidx = 0 then return 0
  else return sb.firstdatazone + zidx - 1

def minixFreeZone (zone : Nat) : FsM Unit := do
  let sb ← superOf
  if zone < sb.firstdatazone ∨ sb.nzones ≤ zone then Prog.halt (.freeInvalidZone zone)
  else minixFreeFromMap (2 + sb.imapBlocks) (zone - sb.firstdatazone + 1)

def entry (m : Mem) (i : Nat) : Nat := load m (2 * i) 2

def putEntry (m : Mem) (i z : Nat) : Mem := store m (2 * i) 2 (z % 2 ^ 16)

def inodesStart (sb : Super) : Nat := 2 + sb.imapBlocks + sb.zmapBlocks

def inodeBlock (sb : Super) (ino : Nat) : Nat :=
  inodesStart sb + (ino - 1) / (blockSize / rawInodeSize)

def inodeOffset (ino : Nat) : Nat := (ino - 1) % (blockSize / rawInodeSize) * rawInodeSize

def minixGetRawInode (ino : Nat) : FsM RawInode := do
  let sb ← superOf
  if ino = 0 ∨ sb.ninodes < ino then Prog.error .einval
  else if ← bufcacheGet (inodeBlock sb ino) then
    let m ← dataOf (inodeBlock sb ino)
    return RawInode.get m (inodeOffset ino)
  else Prog.error .eio

def minixAllocDataZone : FsM Nat := do
  let zone ← minixAllocZone
  if zone = 0 then return 0
  else if ← bufcacheGet zone then
    setData zone fun _ => 0
    return zone
  else
    minixFreeZone zone
    return 0

def inData (sb : Super) (z : Nat) : Bool := decide (sb.firstdatazone ≤ z ∧ z < sb.nzones)

-- The check at the end of `minix_bmap`.
def checked (sb : Super) (b : Nat) : Nat := if b ≠ 0 ∧ ¬ inData sb b then 0 else b

-- `i_zone[slot]`, filled first where `create` asks for it.
def zoneSlot (o slot : Nat) (create : Bool) : FsM Nat := do
  let nd ← nodeOf o
  if nd.raw.izone slot = 0 ∧ create then
    let z ← minixAllocDataZone
    let nd ← nodeOf o
    setNode o { nd with raw := nd.raw.setZone slot z, dirty := true }
  let nd ← nodeOf o
  return nd.raw.izone slot

-- Entry `i` of the table in zone `t`, filled first where `create` asks for it; 0 if the
-- table cannot be read.
def entrySlot (t i : Nat) (create : Bool) : FsM Nat := do
  if ← bufcacheGet t then
    let m ← dataOf t
    if entry m i = 0 ∧ create then
      let z ← minixAllocDataZone
      let m ← dataOf t
      setData t (putEntry m i z)
    let m ← dataOf t
    return entry m i
  else return 0

def minixBmap (o block : Nat) (create : Bool) : FsM Nat := do
  let sb ← superOf
  if block < 7 then
    let b ← zoneSlot o block create
    return checked sb b
  else if block - 7 < perBlock then
    let t ← zoneSlot o 7 create
    if t = 0 ∨ ¬ inData sb t then return 0
    else
      let b ← entrySlot t (block - 7) create
      return checked sb b
  else if block - 7 - perBlock < perBlock * perBlock then
    let t ← zoneSlot o 8 create
    if t = 0 ∨ ¬ inData sb t then return 0
    else
      let ind1 ← entrySlot t ((block - 7 - perBlock) / perBlock) create
      if ind1 = 0 ∨ ¬ inData sb ind1 then return 0
      else
        -- the entry of the inner table is only read
        let b ← entrySlot ind1 ((block - 7 - perBlock) % perBlock) false
        return checked sb b
  else return 0

-- `minix_write_inode` of an inode whose `dirty` flag is set.
def writeRawInode (ino : Nat) (raw : RawInode) : FsM Unit := do
  let sb ← superOf
  if ino = 0 ∨ sb.ninodes < ino then Prog.error .einval
  else if ← bufcacheGet (inodeBlock sb ino) then
    let m ← dataOf (inodeBlock sb ino)
    setData (inodeBlock sb ino) (raw.put m (inodeOffset ino))
  else Prog.error .eio

def minixWriteInode (o : Nat) : FsM Unit := do
  let nd ← nodeOf o
  if nd.dirty then
    writeRawInode nd.ino nd.raw
    setNode o { nd with dirty := false }

-- A fresh inode object, known by its identity.
def minixInodeFromRaw (ino : Nat) (raw : RawInode) : FsM Nat := do
  if ← kmalloc then
    if ← kmalloc then
      let o ← Prog.read Fs.next
      setNode o ⟨ino, raw.size.toNat, raw.isDir, raw.mode, raw, false, 0⟩
      Prog.write fun s => { s with next := s.next + 1 }
      return o
    else Prog.error .enomem
  else Prog.error .enomem

def minixClose (o : Nat) : FsM Unit := do
  let _ ← (minixWriteInode o).attempt
  Prog.write fun s => { s with node := update s.node o none }

def minixSafeFreeZone (zone : Nat) : FsM Unit := do
  let sb ← superOf
  if zone = 0 ∨ zone < sb.firstdatazone ∨ sb.nzones ≤ zone then return ()
  else minixFreeZone zone

-- A part of one block for `minix_read`; zeroes where there is none.
def readBlock (pblk boff chunk : Nat) : FsM (List Byte) := do
  if pblk = 0 then return List.replicate chunk 0
  else if ← bufcacheGet pblk then
    let m ← dataOf pblk
    return slice m boff chunk
  else Prog.error .eio

-- The loop of `minix_read`; `fuel` bounds the rounds and is at least `left`.
def readLoop (o : Nat) : Nat → Nat → Nat → FsM (List Byte)
  | 0, _, _ => return []
  | fuel + 1, left, curr => do
      if left = 0 then return []
      else
        let pblk ← minixBmap o (curr / blockSize % 2 ^ 32) false
        let chunk := min (blockSize - curr % blockSize) left
        let bs ← readBlock pblk (curr % blockSize) chunk
        let rest ← readLoop o fuel (left - chunk) (curr + chunk)
        return bs ++ rest

def minixRead (o offset len : Nat) : FsM (List Byte) := do
  let nd ← nodeOf o
  if nd.size ≤ offset then return []
  else readLoop o (min len (nd.size - offset)) (min len (nd.size - offset)) offset

-- Entry `i` of the table in zone `t` and the zone it names, dropped.
def clearEntry (t i : Nat) : FsM Unit := do
  if ← bufcacheGet t then
    let m ← dataOf t
    if entry m i ≠ 0 then
      minixSafeFreeZone (entry m i)
      let m ← dataOf t
      setData t (putEntry m i 0)

-- `i_zone[slot]` and the zone it names, dropped.
def clearZone (o slot : Nat) : FsM Unit := do
  let nd ← nodeOf o
  if nd.raw.izone slot ≠ 0 then
    minixSafeFreeZone (nd.raw.izone slot)
    let nd ← nodeOf o
    setNode o { nd with raw := nd.raw.setZone slot 0 }

def minixClearBlockMapping (o lblk : Nat) : FsM Unit := do
  if lblk < 7 then clearZone o lblk
  else
    let nd ← nodeOf o
    if lblk - 7 < perBlock then
      if nd.raw.izone 7 = 0 then return ()
      else clearEntry (nd.raw.izone 7) (lblk - 7)
    else if nd.raw.izone 8 = 0 then return ()
    else if ← bufcacheGet (nd.raw.izone 8) then
      -- past entry 511 the code reads behind the buffer
      if perBlock ≤ (lblk - 7 - perBlock) / perBlock then Prog.known none
      else
        let m ← dataOf (nd.raw.izone 8)
        if entry m ((lblk - 7 - perBlock) / perBlock) = 0 then return ()
        else
          clearEntry (entry m ((lblk - 7 - perBlock) / perBlock)) ((lblk - 7 - perBlock) % perBlock)

def emptyTable (m : Mem) : Bool := (List.range perBlock).all fun i => entry m i = 0

def minixIndirectEmpty (zone : Nat) : FsM Bool := do
  if zone = 0 then return true
  else if ← bufcacheGet zone then
    let m ← dataOf zone
    return emptyTable m
  else return false

def pruneEntry (t i : Nat) : FsM Unit := do
  let m ← dataOf t
  if entry m i ≠ 0 then
    if ← minixIndirectEmpty (entry m i) then
      minixSafeFreeZone (entry m i)
      let m ← dataOf t
      setData t (putEntry m i 0)

-- `i_zone[slot]` dropped if its table is empty.
def pruneZone (o slot : Nat) : FsM Unit := do
  let nd ← nodeOf o
  if ← minixIndirectEmpty (nd.raw.izone slot) then
    clearZone o slot

def minixPruneEmptyIndirects (o : Nat) : FsM Unit := do
  pruneZone o 7
  let nd ← nodeOf o
  if nd.raw.izone 8 = 0 then return ()
  else if ← bufcacheGet (nd.raw.izone 8) then
    Prog.forRange (pruneEntry (nd.raw.izone 8)) perBlock
    pruneZone o 8

-- The blocks of a write made present: whether all are, and those that were missing.
def allocLoop (o : Nat) : Nat → Nat → FsM (Bool × List Nat)
  | 0, _ => return (true, [])
  | n + 1, i => do
      let old ← minixBmap o i false
      let pblk ← minixBmap o i true
      if pblk = 0 then return (false, [])
      else
        let rest ← allocLoop o n (i + 1)
        return (rest.1, if old = 0 then i :: rest.2 else rest.2)

-- The data of a write put into its blocks: the number of bytes left when it stops.
def writeLoop (o : Nat) : Nat → List Byte → Nat → FsM Nat
  | 0, bs, _ => return bs.length
  | fuel + 1, bs, curr => do
      if bs = [] then return 0
      else
        let pblk ← minixBmap o (curr / blockSize) false
        if pblk = 0 then return bs.length
        else if ← bufcacheGet pblk then
          let chunk := min (blockSize - curr % blockSize) bs.length
          let m ← dataOf pblk
          setData pblk (blit m (curr % blockSize) (bs.take chunk))
          writeLoop o fuel (bs.drop chunk) (curr + chunk)
        else return bs.length

-- The old bytes put back, as far as the blocks can be read.
def restoreLoop (o : Nat) : Nat → List Byte → Nat → FsM Unit
  | 0, _, _ => return ()
  | fuel + 1, bs, curr => do
      if bs = [] then return ()
      else
        let chunk := min (blockSize - curr % blockSize) bs.length
        let pblk ← minixBmap o (curr / blockSize) false
        if pblk ≠ 0 then
          if ← bufcacheGet pblk then
            let m ← dataOf pblk
            setData pblk (blit m (curr % blockSize) (bs.take chunk))
        restoreLoop o fuel (bs.drop chunk) (curr + chunk)

def clearAll (o : Nat) : List Nat → FsM Unit
  | [] => return ()
  | lblk :: rest => do
      minixClearBlockMapping o lblk
      clearAll o rest

def rollbackAlloc (o : Nat) (created : List Nat) (oldSize : Nat) (oldTime : BitVec 32) :
    FsM Unit := do
  clearAll o created
  minixPruneEmptyIndirects o
  let nd ← nodeOf o
  setNode o { nd with
    size := oldSize
    raw := { nd.raw with size := BitVec.ofNat 32 oldSize, time := oldTime }
    dirty := true }

def minixWriteMaxChunk : Nat := 64 * 1024

-- The old bytes under a write, with zeroes behind the end of the file.
def backupOf (o offset len size : Nat) : FsM (List Byte) := do
  if offset < size then
    let got ← (minixRead o offset (min len (size - offset))).attempt
    match got with
    | .ok bs =>
      if bs.length ≠ min len (size - offset) then Prog.error .eio
      else return bs ++ List.replicate (len - bs.length) 0
    | .error _ => Prog.error .eio
  else return List.replicate len 0

-- `minix_write` of the `len` bytes `bs`, after the cap on the length.
def writeChunk (o offset : Nat) (bs : List Byte) : FsM Nat := do
  let nd ← nodeOf o
  if 0xffffffff < offset + bs.length then Prog.error .einval
  else if ¬ (← kmalloc) then Prog.error .enomem
  else if ¬ (← kmalloc) then Prog.error .enomem
  else
    let backup ← backupOf o offset bs.length nd.size
    let first := offset / blockSize
    let last := (offset + bs.length - 1) / blockSize
    let (ok, created) ← allocLoop o (last - first + 1) first
    if ¬ ok then
      rollbackAlloc o created nd.size nd.raw.time
      Prog.error .enospc
    else
      let left ← writeLoop o bs.length bs offset
      if left ≠ 0 then
        restoreLoop o bs.length (backup.take (bs.length - left)) offset
        rollbackAlloc o created nd.size nd.raw.time
        Prog.error .eio
      else
        let now ← rtcNowUnix
        let nd ← nodeOf o
        let size := max nd.size (offset + bs.length)
        setNode o { nd with
          size := size
          raw := { nd.raw with
            size := if nd.size < offset + bs.length then BitVec.ofNat 32 size else nd.raw.size
            time := now }
          dirty := true }
        return bs.length

def minixWrite (o offset : Nat) (bs : List Byte) : FsM Nat :=
  if bs = [] then return 0
  else writeChunk o offset (bs.take minixWriteMaxChunk)

def minixFreeIndirect (zone : Nat) : FsM Unit := do
  if zone = 0 then return ()
  else if ← bufcacheGet zone then
    Prog.forRange (fun i => do
      let m ← dataOf zone
      if entry m i ≠ 0 then
        minixSafeFreeZone (entry m i)) perBlock
    minixSafeFreeZone zone

def minixFreeDoubleIndirect (zone : Nat) : FsM Unit := do
  if zone = 0 then return ()
  else if ← bufcacheGet zone then
    let copy ← dataOf zone
    Prog.forRange (fun i => do
      if entry copy i ≠ 0 then
        minixFreeIndirect (entry copy i)) perBlock
    minixSafeFreeZone zone

-- The end of every truncate that changes the size.
def setSize (o size : Nat) : FsM Unit := do
  let now ← rtcNowUnix
  let nd ← nodeOf o
  setNode o { nd with
    size := size
    raw := { nd.raw with size := BitVec.ofNat 32 size, time := now }
    dirty := true }

def blocksOf (size : Nat) : Nat := (size + blockSize - 1) % 2 ^ 64 / blockSize % 2 ^ 32

def minixTruncate (o size : Nat) : FsM Unit := do
  let nd ← nodeOf o
  if 0 < size ∧ nd.size < size then
    setSize o size
  else if size = nd.size then return ()
  else if blocksOf size ≠ 0 then
    Prog.forRange (fun i => minixClearBlockMapping o (blocksOf size + i))
      (blocksOf nd.size - blocksOf size)
    minixPruneEmptyIndirects o
    setSize o size
  else
    Prog.forRange (clearZone o) 7
    let nd ← nodeOf o
    minixFreeIndirect (nd.raw.izone 7)
    minixFreeDoubleIndirect (nd.raw.izone 8)
    let nd ← nodeOf o
    setNode o { nd with raw := (nd.raw.setZone 7 0).setZone 8 0 }
    setSize o size

end Jnu.Minix
