import Jnu.Minix.Dir

namespace Jnu.Minix

open Lib.Bytes Lib.Effect

-- The fields of the superblock, without `s_max_size` and `s_state`, which nothing reads.
def Super.get (m : Mem) : Super where
  ninodes := load m 0 2
  nzones := load m 2 2
  imapBlocks := load m 4 2
  zmapBlocks := load m 6 2
  firstdatazone := load m 8 2
  logZoneSize := load m 10 2
  magic := load m 16 2

def minixV1Magic : Nat := 0x137f

-- `struct block_device`, as far as the check of the superblock reads it.
structure BlockDevice where
  sectorSize : Nat
  sectorCount : Nat

def minixValidateSuper (sb : Super) (bdev : BlockDevice) : Except Errno Unit :=
  if sb.magic ≠ minixV1Magic then .error .einval
  else if sb.ninodes = 0 ∨ sb.nzones = 0 then .error .einval
  else if sb.imapBlocks = 0 ∨ sb.zmapBlocks = 0 then .error .einval
  else if sb.logZoneSize ≠ 0 then .error .einval
  else if sb.firstdatazone < 2 then .error .einval
  else if sb.nzones ≤ sb.firstdatazone then .error .einval
  else if bdev.sectorSize ≠ 512 then .error .einval
  else if sb.firstdatazone < inodesStart sb + (sb.ninodes * rawInodeSize + blockSize - 1) / blockSize then
    .error .einval
  else if bdev.sectorCount / (blockSize / 512) % 2 ^ 32 < sb.nzones then .error .einval
  else .ok ()

-- `minix_mount` on a device of which nothing is known yet; it returns the root inode.
def minixMount (bdev : BlockDevice) : FsM Nat := do
  if ← bufcacheGet 1 then
    let m ← dataOf 1
    match minixValidateSuper (Super.get m) bdev with
    | .error e => Prog.error e
    | .ok _ =>
      if ← kmalloc then
        Prog.write fun s => { s with sb := Super.get m }
        let raw ← minixGetRawInode rootIno
        minixInodeFromRaw rootIno raw
      else Prog.error .enomem
  else Prog.error .eio

-- `bufcache_sync` on a device that takes every write: dirty are the blocks in which cache and device differ.
def bufcacheSync : FsM Unit := Prog.write fun s => { s with device := s.block }

def minixFsync (o : Nat) : FsM Unit := do
  minixWriteInode o
  bufcacheSync

-- A device and the kernel around it before the mount.
def Fs.unmounted (device : Nat → Mem) (nblocks : Nat) (env : Env) : Fs where
  sb := ⟨0, 0, 0, 0, 0, 0, 0⟩
  nblocks := nblocks
  block := device
  device := device
  node _ := none
  next := 0
  icache _ := none
  env := env
  clock := ⟨0, 0, 0⟩

end Jnu.Minix
