import Jnu.Minix.Defs

namespace Jnu.Minix

open Lib.Bytes Lib.Effect

-- A C string without its terminator.
abbrev Name := List Byte

def dot : Name := [0x2e]

def dotdot : Name := [0x2e, 0x2e]

def slash : Byte := 0x2f

def rootIno : Nat := 1

-- `struct minix_dir_entry`: the inode number and the 14 bytes of the name.
structure DirEntry where
  inode : Nat
  bytes : List Byte
  deriving DecidableEq, Repr

namespace DirEntry

-- The name as `strcmp` sees it after `minix_dirent_name`.
def text (de : DirEntry) : Name := de.bytes.takeWhile (· ≠ 0)

def read (m : Mem) (i : Nat) : DirEntry := ⟨load m i 2, slice m (i + 2) nameLen⟩

end DirEntry

-- The offsets of the entries in the first `chunk` bytes of a block that satisfy `ok`.
def hits (ok : DirEntry → Bool) (m : Mem) (chunk : Nat) : List Nat :=
  ((List.range ((chunk + dirEntrySize - 1) / dirEntrySize)).map (dirEntrySize * ·)).filter
    fun i => ok (DirEntry.read m i)

-- The loop over the blocks of a directory with its 32-bit offset, which looks for entry number `index` of
-- those that satisfy `ok`. Without fuel there is no result.
def dirScan (o size : Nat) (ok : DirEntry → Bool) : Nat → Nat → Nat → FsM (Option (Nat × DirEntry))
  | 0, _, _ => Prog.known none
  | fuel + 1, offset, index => do
      if size ≤ offset then return none
      else
        let b ← minixBmap o (offset / blockSize) false
        if b = 0 then dirScan o size ok fuel ((offset + blockSize) % 2 ^ 32) index
        else if ← bufcacheGet b then
          let m ← dataOf b
          let found := hits ok m (min (size - offset) blockSize)
          match found[index]? with
          | some i => return some (offset + i, DirEntry.read m i)
          | none => dirScan o size ok fuel ((offset + blockSize) % 2 ^ 32) (index - found.length)
        else Prog.error .eio

-- One pass over the blocks. In a directory larger than 2^32 - 1024 bytes the offset then starts over, and
-- there is no result here.
def dirPass (size : Nat) : Nat := min ((size + blockSize - 1) / blockSize + 1) (2 ^ 32 / blockSize)

def dirFind (o : Nat) (ok : DirEntry → Bool) (index : Nat) : FsM (Option (Nat × DirEntry)) := do
  let nd ← nodeOf o
  dirScan o nd.raw.size.toNat ok (dirPass nd.raw.size.toNat) 0 index

def minixCloneInode (o : Nat) : FsM Nat := do
  let nd ← nodeOf o
  minixInodeFromRaw nd.ino nd.raw

-- The entries that `minix_lookup` and `minix_readdir` do not skip.
def listed (sb : Super) (de : DirEntry) : Bool := de.inode ≠ 0 ∧ de.inode ≤ sb.ninodes

def minixLookup (o : Nat) (name : Name) : FsM Nat := do
  let nd ← nodeOf o
  if ¬ nd.isDir then Prog.error .enotdir
  else if name = dot then minixCloneInode o
  else
    let sb ← superOf
    match ← dirFind o (fun de => listed sb de && de.text == name) 0 with
    | none => Prog.error .enoent
    | some (_, de) =>
      match ← (minixGetRawInode de.inode).attempt with
      | .error _ => Prog.error .eio
      | .ok raw => minixInodeFromRaw de.inode raw

-- The entry with number `index`, or nothing at the end of the directory.
def minixReaddir (o index : Nat) : FsM (Option DirEntry) := do
  let nd ← nodeOf o
  if ¬ nd.isDir then Prog.error .enotdir
  else
    let sb ← superOf
    let found ← dirFind o (listed sb) index
    return found.map Prod.snd

end Jnu.Minix
