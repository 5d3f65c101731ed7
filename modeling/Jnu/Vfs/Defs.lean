import Jnu.Minix.Super

namespace Jnu.Vfs

open Lib.Bytes Minix

-- What a directory entry of a FAT32 volume leads to.
structure FatChild where
  ino : Nat
  isDir : Bool

-- A FAT32 volume, which is never written, with the inode of its root.
structure FatVolume where
  root : Nat
  lookup : Nat → Name → Option FatChild

def vfsMountMax : Nat := 8

def vfsNameMax : Nat := 64

def vfsPathMax : Nat := 256

-- `next_component` again and again: the parts between the slashes.
def components : List Byte → List Name
  | [] => []
  | c :: rest =>
    if c = slash then components rest
    else match rest with
      | [] => [[c]]
      | d :: _ =>
        if d = slash then [c] :: components rest
        else match components rest with
          | [] => [[c]]
          | comp :: comps => (c :: comp) :: comps

def pathLength : List Name → Nat
  | [] => 1
  | comps => (comps.map fun comp => comp.length + 1).sum

-- One component of `normalize_path`; the components so far are in reverse.
def normalizeStep (out : List Name) (comp : Name) : Except Errno (List Name) :=
  if vfsNameMax ≤ comp.length then .error .enametoolong
  else if comp = dot then .ok out
  else if comp = dotdot then .ok out.tail
  else if vfsPathMax < pathLength (comp :: out) + 1 then .error .enametoolong
  else .ok (comp :: out)

def normalizePath (path : List Byte) : Except Errno (List Name) :=
  if path.head? ≠ some slash then .error .einval
  else ((components path).foldlM normalizeStep []).map List.reverse

def executable (mode : BitVec 16) : Bool := mode &&& 0o111 ≠ 0

end Jnu.Vfs
