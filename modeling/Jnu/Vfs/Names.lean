import Jnu.Vfs.Defs

namespace Jnu.Vfs.Names

open Lib.Bytes Lib.Effect
open Minix (Name Panic nameLen dot dotdot slash rootIno)
open Function

-- A slot of a directory; it is free if the number is 0.
structure Entry where
  inode : Nat
  name : Name
  deriving DecidableEq

-- A MINIX volume as its directories show it. `env` says which calls below fail, and `clock` how many there
-- were.
structure Fs where
  ninodes : Nat
  imap : Nat → Bool
  isDir : Nat → Bool
  executable : Nat → Bool
  nlinks : Nat → Nat
  entries : Nat → List Entry
  env : Nat → Option Errno
  clock : Nat

abbrev FsM := Prog Panic Errno Fs

def minixNameValid (name : Name) : Bool := name ≠ [] ∧ name.length ≤ nameLen ∧ slash ∉ name

def minixRenameMaxDepth : Nat := 256

def below : FsM Unit := do
  let s ← Prog.read id
  Prog.write fun s => { s with clock := s.clock + 1 }
  match s.env s.clock with
  | some e => Prog.error e
  | none => return ()

def setEntries (d : Nat) (es : List Entry) : FsM Unit :=
  Prog.write fun s => { s with entries := update s.entries d es }

def Fs.freeInode (s : Fs) : Option Nat :=
  (List.range' 1 s.ninodes).find? fun ino => !s.imap ino

def minixAllocInode : FsM Nat := do
  match ← below.attempt with
  | .error _ => return 0
  | .ok _ =>
    let free ← Prog.read Fs.freeInode
    match free with
    | none => return 0
    | some ino =>
      Prog.write fun s => { s with imap := update s.imap ino true }
      return ino

def minixFreeInode (ino : Nat) : FsM Unit := do
  let s ← Prog.read id
  if ino = 0 ∨ s.ninodes < ino then Prog.halt (.freeInvalidInode ino)
  else
    match ← below.attempt with
    | .error _ => Prog.halt .bitmapUnreadable
    | .ok _ =>
      if s.imap ino then Prog.write fun s => { s with imap := update s.imap ino false }
      else Prog.halt (.doubleFree ino)

def minixWriteInode (ino : Nat) (isDir : Bool) (mode : BitVec 16) (nlinks : Nat) : FsM Unit := do
  below
  Prog.write fun s => { s with
    isDir := update s.isDir ino isDir
    executable := update s.executable ino (Vfs.executable mode)
    nlinks := update s.nlinks ino nlinks }

-- Whether the inode is a directory, by the inode table.
def minixGetRawInode (ino : Nat) : FsM Bool := do
  let s ← Prog.read id
  if ino = 0 ∨ s.ninodes < ino then Prog.error .einval
  else
    below
    return s.isDir ino

-- The slot that `minix_find_dirent` finds, with its place.
def findEntry (name : Name) (es : List Entry) : Option (Nat × Entry) :=
  es.zipIdx.findSome? fun p => if p.1.inode ≠ 0 ∧ p.1.name = name then some (p.2, p.1) else none

def minixFindDirent (d : Nat) (name : Name) : FsM (Nat × Entry) := do
  match ← below.attempt with
  | .error _ => Prog.error .eio
  | .ok _ =>
    let es ← Prog.read fun s => s.entries d
    match findEntry name es with
    | none => Prog.error .enoent
    | some found => return found

def minixWriteDirentAt (d i : Nat) (e : Entry) : FsM Unit := do
  below
  let es ← Prog.read fun s => s.entries d
  setEntries d (if i < es.length then es.set i e else es ++ [e])

def minixAddDirent (d : Nat) (name : Name) (ino : Nat) : FsM Unit := do
  if ¬ minixNameValid name then Prog.error .einval
  else if nameLen < name.length then Prog.error .enametoolong
  else
    match ← (minixFindDirent d name).attempt with
    | .ok _ => Prog.error .eexist
    | .error _ =>
      let es ← Prog.read fun s => s.entries d
      minixWriteDirentAt d (es.findIdx fun e => e.inode = 0) ⟨ino, name⟩

def minixZeroDirent (d : Nat) (name : Name) : FsM Entry := do
  let (i, old) ← minixFindDirent d name
  minixWriteDirentAt d i ⟨0, []⟩
  return old

def minixRestoreDirent (d : Nat) (name : Name) (e : Entry) : FsM Unit := do
  match ← (minixFindDirent d name).attempt with
  | .ok _ => Prog.error .eexist
  | .error _ => minixAddDirent d name e.inode

-- The entries that `minix_lookup` and `minix_readdir` do not skip.
def Fs.listed (s : Fs) (e : Entry) : Bool := e.inode ≠ 0 ∧ e.inode ≤ s.ninodes

-- An error ends the loop over the directory, and so does the end of a copy on disk that is
-- behind the directory in memory.
def minixDirEmpty (d : Nat) : FsM Bool := do
  match ← below.attempt with
  | .error _ => return true
  | .ok _ =>
    let s ← Prog.read id
    return (s.entries d).all fun e => !s.listed e || e.name == dot || e.name == dotdot

-- `minix_is_ancestor_or_self` from the directory with inode `curr` on.
def ancestorLoop (target : Nat) : Nat → Nat → FsM Bool
  | 0, _ => return true
  | n + 1, curr => do
      if curr = target then return true
      else if curr = rootIno then return false
      else
        match ← (minixGetRawInode curr).attempt with
        | .error _ => return true
        | .ok _ =>
          match ← (minixFindDirent curr dotdot).attempt with
          | .error _ => return true
          | .ok (_, parent) =>
            if parent.inode = 0 ∨ parent.inode = curr then return false
            else ancestorLoop target n parent.inode

def minixReplaceDotdot (d parent : Nat) : FsM Unit := do
  let (i, e) ← minixFindDirent d dotdot
  minixWriteDirentAt d i { e with inode := parent }

def minixTruncate (d : Nat) : FsM Unit := do
  below
  setEntries d []

def minixFreeTreeInode (ino : Nat) (isDir : Bool) : FsM Unit := do
  below
  let empty ← if isDir then minixDirEmpty ino else pure true
  if ¬ empty then Prog.error .ebusy
  else
    minixTruncate ino
    minixFreeInode ino

-- The field `i_nlinks` is a byte.
def setLinks (d : Nat) (f : Nat → Nat) : FsM Unit :=
  Prog.write fun s => { s with nlinks := update s.nlinks d (f (s.nlinks d) % 2 ^ 8) }

def failInode {α : Type} (ino : Nat) (e : Errno) : FsM α := do
  minixFreeInode ino
  Prog.error e

def minixCreate (d : Nat) (name : Name) (mode : BitVec 16) : FsM Nat := do
  let s ← Prog.read id
  if ¬ s.isDir d then Prog.error .enotdir
  else
    let ino ← minixAllocInode
    if ino = 0 then Prog.error .enospc
    else
      match ← (minixWriteInode ino false mode 1).attempt with
      | .error e => failInode ino e
      | .ok _ =>
        setEntries ino []
        match ← (minixAddDirent d name ino).attempt with
        | .error e => failInode ino e
        | .ok _ =>
          below
          return ino

def minixUnlink (d : Nat) (name : Name) : FsM Unit := do
  let (_, e) ← minixFindDirent d name
  let isDir ← minixGetRawInode e.inode
  if isDir then Prog.error .eisdir
  else
    let e ← minixZeroDirent d name
    match ← (minixFreeTreeInode e.inode isDir).attempt with
    | .ok _ => return ()
    | .error err =>
      let _ ← (minixRestoreDirent d name e).attempt
      Prog.error err

-- The new directory with its two entries, put into the directory `d`.
def mkdirEntries (d : Nat) (name : Name) (mode : BitVec 16) (ino : Nat) : FsM Unit := do
  setEntries ino []
  minixAddDirent ino dot ino
  minixAddDirent ino dotdot d
  minixWriteInode ino true mode 2
  minixAddDirent d name ino

-- Whether `d` is a directory is not looked at.
def minixMkdir (d : Nat) (name : Name) (mode : BitVec 16) : FsM Unit := do
  let s ← Prog.read id
  if 0xff ≤ s.nlinks d then Prog.error .emlink
  else
    let ino ← minixAllocInode
    if ino = 0 then Prog.error .enospc
    else
      match ← (mkdirEntries d name mode ino).attempt with
      | .ok _ => setLinks d (· + 1)
      | .error e =>
        let _ ← (minixTruncate ino).attempt
        failInode ino e

def minixLookup (d : Nat) (name : Name) : FsM Nat := do
  let s ← Prog.read id
  if ¬ s.isDir d then Prog.error .enotdir
  else
    below
    match (s.entries d).find? fun e => s.listed e && e.name == name with
    | none => Prog.error .enoent
    | some e => return e.inode

def minixRmdir (d : Nat) (name : Name) : FsM Unit := do
  if name = dot ∨ name = dotdot then Prog.error .einval
  else
    let victim ← minixLookup d name
    let isDir ← Prog.read fun s => s.isDir victim
    if ¬ isDir then Prog.error .enotdir
    else if ¬ (← minixDirEmpty victim) then Prog.error .ebusy
    else
      minixTruncate victim
      let e ← minixZeroDirent d name
      minixFreeInode e.inode
      setLinks d (· - 1)

-- The entry of the new name that gives way, if there is one.
def renameTarget (oldIsDir : Bool) (new : Nat) (newName : Name) : FsM (Option (Entry × Bool)) := do
  match ← (minixFindDirent new newName).attempt with
  | .error e => if e = .enoent then return none else Prog.error e
  | .ok (_, e) =>
    let isDir ← minixGetRawInode e.inode
    if oldIsDir ∧ ¬ isDir then Prog.error .enotdir
    else if ¬ oldIsDir ∧ isDir then Prog.error .eisdir
    else
      let empty ← if isDir then minixDirEmpty e.inode else pure true
      if ¬ empty then Prog.error .ebusy
      else
        let replaced ← minixZeroDirent new newName
        return some (replaced, isDir)

-- The entry of a replaced name put back, as far as that is possible.
def restoreTarget (new : Nat) (newName : Name) : Option (Entry × Bool) → FsM Unit
  | none => return ()
  | some (e, _) => do
      let _ ← (minixRestoreDirent new newName e).attempt

def renameEntries (old : Nat) (oldName : Name) (new : Nat) (newName : Name) (ino : Nat)
    (target : Option (Entry × Bool)) : FsM Unit := do
  match ← (minixAddDirent new newName ino).attempt with
  | .error e =>
    restoreTarget new newName target
    Prog.error e
  | .ok _ =>
    match ← (minixZeroDirent old oldName).attempt with
    | .ok _ => return ()
    | .error e =>
      let _ ← (minixZeroDirent new newName).attempt
      restoreTarget new newName target
      Prog.error e

-- A directory that goes to another one: its `..` and the link counts.
def renameLinks (old new ino : Nat) (isDir : Bool) : FsM Unit := do
  if isDir ∧ old ≠ new then
    minixReplaceDotdot ino new
    setLinks old (· - 1)
    setLinks new (· + 1)
  else return ()

def freeTarget : Option (Entry × Bool) → FsM Unit
  | none => return ()
  | some (e, isDir) => minixFreeTreeInode e.inode isDir

def minixRename (old : Nat) (oldName : Name) (new : Nat) (newName : Name) : FsM Unit := do
  if old = new ∧ oldName = newName then return ()
  else if oldName = dot ∨ oldName = dotdot ∨ newName = dot ∨ newName = dotdot then
    Prog.error .einval
  else
    let (_, e) ← minixFindDirent old oldName
    let isDir ← minixGetRawInode e.inode
    below
    let cycle ← if isDir ∧ old ≠ new then ancestorLoop e.inode minixRenameMaxDepth new
      else pure false
    if cycle then Prog.error .einval
    else
      let target ← renameTarget isDir new newName
      renameEntries old oldName new newName e.inode target
      renameLinks old new e.inode isDir
      freeTarget target

-- A used slot of the mount table: the device and the directory it covers. Slot 0 is the root mount.
structure Mountpoint where
  bdev : Nat
  covered : Option (Nat × Nat)

-- The block devices hold MINIX volumes or FAT32 volumes.
structure State where
  fs : Nat → Fs
  fat : Nat → Option FatVolume
  mount : Nat → Option Mountpoint

abbrev VfsM := Prog Panic Errno State

structure Inode where
  mnt : Nat
  ino : Nat
  isDir : Bool
  executable : Bool
  deriving DecidableEq

namespace State

variable (s : State)

def bdev (mnt : Nat) : Nat := ((s.mount mnt).map Mountpoint.bdev).getD 0

def minixInode (mnt ino : Nat) : Inode :=
  ⟨mnt, ino, (s.fs (s.bdev mnt)).isDir ino, (s.fs (s.bdev mnt)).executable ino⟩

def root (mnt : Nat) : Inode :=
  match s.fat (s.bdev mnt) with
  | none => s.minixInode mnt Minix.rootIno
  | some v => ⟨mnt, v.root, true, true⟩

def opsLookup (cur : Inode) (name : Name) : Except Errno Inode :=
  if ¬ cur.isDir then .error .enotdir
  else
    match s.fat (s.bdev cur.mnt) with
    | none =>
      match ((s.fs (s.bdev cur.mnt)).entries cur.ino).find? fun e =>
          (s.fs (s.bdev cur.mnt)).listed e && e.name == name with
      | none => .error .enoent
      | some e => .ok (s.minixInode cur.mnt e.inode)
    | some v =>
      match v.lookup cur.ino name with
      | none => .error .enoent
      | some c => .ok ⟨cur.mnt, c.ino, c.isDir, c.isDir⟩

def mountedOn (mnt ino : Nat) : Option Nat :=
  (List.range vfsMountMax).find? fun i =>
    i ≠ 0 ∧ (s.mount i).any fun m => m.covered = some (mnt, ino)

-- A mount covers a directory of an earlier one, so the loop ends.
def crossMounts : Nat → Inode → Inode
  | 0, cur => cur
  | n + 1, cur =>
    match s.mountedOn cur.mnt cur.ino with
    | none => cur
    | some i => crossMounts n (s.root i)

def walkStart (path : List Byte) : Except Errno (List Name × Inode) :=
  match s.mount 0 with
  | none => .error .enoent
  | some _ =>
    match normalizePath path with
    | .error e => .error e
    | .ok comps => .ok (comps, s.crossMounts vfsMountMax (s.root 0))

def walkStep (curr : Inode) (comp : Name) : Except Errno Inode :=
  (s.opsLookup curr comp).map (s.crossMounts vfsMountMax)

def parentLoop : List Name → Inode → Except Errno (Inode × Name)
  | [], _ => .error .einval
  | [name], curr => if vfsNameMax ≤ name.length then .error .enametoolong else .ok (curr, name)
  | comp :: rest, curr =>
    if ¬ curr.isDir then .error .enotdir
    else (s.walkStep curr comp).bind (parentLoop rest)

def openLoop : List Name → Inode → Except Errno Inode
  | [], curr => .ok curr
  | comp :: rest, curr =>
    if ¬ curr.isDir then .error .enotdir
    else if ¬ curr.executable then .error .eacces
    else (s.walkStep curr comp).bind (openLoop rest)

-- What `vfs_parent` and `vfs_open` find as long as no lookup fails for other reasons.
def parentOf (path : List Byte) : Except Errno (Inode × Name) :=
  (s.walkStart path).bind fun p => s.parentLoop p.1 p.2

def target (path : List Byte) : Except Errno Inode :=
  (s.walkStart path).bind fun p => s.openLoop p.1 p.2

end State

def onDevice {α : Type} (b : Nat) (m : FsM α) : VfsM α :=
  m.zoom (fun v => v.fs b) fun v s => { v with fs := update v.fs b s }

def ofExcept {α : Type} : Except Errno α → VfsM α
  | .ok a => pure a
  | .error e => Prog.error e

-- The lookups of a walk change nothing, so it does not matter which of them fails.
def vfsParent (path : List Byte) : VfsM (Inode × Name) := do
  let r ← Prog.read fun v => v.parentOf path
  onDevice 0 below
  ofExcept r

def vfsOpen (path : List Byte) : VfsM Inode := do
  let r ← Prog.read fun v => v.target path
  onDevice 0 below
  ofExcept r

-- An operation that only MINIX has.
def onDirectory {α : Type} (dir : Inode) (m : FsM α) : VfsM α := do
  let v ← Prog.read id
  match v.fat (v.bdev dir.mnt) with
  | none => onDevice (v.bdev dir.mnt) m
  | some _ => Prog.error .enosys

def vfsCreate (path : List Byte) (mode : BitVec 16) : VfsM Nat := do
  let (dir, name) ← vfsParent path
  onDirectory dir (minixCreate dir.ino name mode)

def vfsUnlink (path : List Byte) : VfsM Unit := do
  let (dir, name) ← vfsParent path
  onDirectory dir (minixUnlink dir.ino name)

def vfsMkdir (path : List Byte) (mode : BitVec 16) : VfsM Unit := do
  let (dir, name) ← vfsParent path
  onDirectory dir (minixMkdir dir.ino name mode)

def vfsRmdir (path : List Byte) : VfsM Unit := do
  let (dir, name) ← vfsParent path
  onDirectory dir (minixRmdir dir.ino name)

-- The second walk sees what the first one sees.
def vfsRename (oldPath newPath : List Byte) : VfsM Unit := do
  let r ← Prog.read fun v => v.parentOf newPath
  let (old, oldName) ← vfsParent oldPath
  onDevice 0 below
  let (new, newName) ← ofExcept r
  if old.mnt ≠ new.mnt then Prog.error .exdev
  else onDirectory old (minixRename old.ino oldName new.ino newName)

def State.freeSlot (s : State) : Option Nat :=
  (List.range vfsMountMax).find? fun i => i ≠ 0 ∧ (s.mount i).isNone

def State.setMount (s : State) (i : Nat) (m : Mountpoint) : State :=
  { s with mount := update s.mount i (some m) }

def setMount (i : Nat) (m : Mountpoint) : VfsM Unit := Prog.write fun v => v.setMount i m

inductive FsType
  | minix
  | fat32
  deriving DecidableEq

-- The strings "minix" and "fat32".
def minixType : Name := [0x6d, 0x69, 0x6e, 0x69, 0x78]

def fat32Type : Name := [0x66, 0x61, 0x74, 0x33, 0x32]

def opsForFstype (fstype : Name) : Option FsType :=
  if fstype = minixType then some .minix
  else if fstype = fat32Type then some .fat32
  else none

-- `ops->mount`: a volume of the other type has no superblock that passes.
def opsMount (ops : FsType) (b : Nat) : VfsM Unit := do
  onDevice b below
  let v ← Prog.read id
  if (v.fat b).isSome = (ops == .fat32) then return () else Prog.error .einval

def vfsMountRoot (b : Nat) (ops : FsType) : VfsM Unit := do
  let v ← Prog.read id
  if (v.mount 0).isSome then Prog.error .ebusy
  else
    opsMount ops b
    setMount 0 ⟨b, none⟩

def vfsMountOn (b : Nat) (ops : FsType) (path : List Byte) : VfsM Unit := do
  let v ← Prog.read id
  if (v.mount 0).isNone then Prog.error .enoent
  else
    let dir ← vfsOpen path
    if ¬ dir.isDir then Prog.error .enotdir
    else if (v.mountedOn dir.mnt dir.ino).isSome then Prog.error .ebusy
    else
      match v.freeSlot with
      | none => Prog.error .enospc
      | some i =>
        opsMount ops b
        setMount i ⟨b, some (dir.mnt, dir.ino)⟩

-- The device is the one that `block_lookup` finds.
def vfsMount (dev : Option Nat) (fstype : Name) (path : List Byte) : VfsM Unit :=
  match opsForFstype fstype, dev with
  | some ops, some b => if path = [slash] then vfsMountRoot b ops else vfsMountOn b ops path
  | _, _ => Prog.error .enodev

-- The calls, the change of a file, and the entries of a directory that are lost with its write-back.
inductive Move
  | create (path : List Byte) (mode : BitVec 16)
  | unlink (path : List Byte)
  | mkdir (path : List Byte) (mode : BitVec 16)
  | rmdir (path : List Byte)
  | rename (old new : List Byte)
  | mount (dev : Option Nat) (fstype : Name) (path : List Byte)
  | write (b ino : Nat) (es : List Entry)
  | lose (b d n : Nat)

def writeFile (ino : Nat) (es : List Entry) : FsM Unit := do
  let s ← Prog.read id
  if s.isDir ino then Prog.error .eisdir else setEntries ino es

def loseEntries (d n : Nat) : FsM Unit := do
  let es ← Prog.read fun s => s.entries d
  setEntries d (es.take n)

def Move.exec : Move → VfsM Unit
  | .create path mode => vfsCreate path mode >>= fun _ => pure ()
  | .unlink path => vfsUnlink path
  | .mkdir path mode => vfsMkdir path mode
  | .rmdir path => vfsRmdir path
  | .rename old new => vfsRename old new
  | .mount dev fstype path => vfsMount dev fstype path
  | .write b ino es => onDevice b (writeFile ino es)
  | .lose b d n => onDevice b (loseEntries d n)

def Step (s : State) (e : Move × Except Errno Unit) (s' : State) : Prop :=
  (e.1.exec).run s = some (.ok (e.2, s'))

def initial (fs : Nat → Fs) (fat : Nat → Option FatVolume) : State := ⟨fs, fat, fun _ => none⟩

end Jnu.Vfs.Names
