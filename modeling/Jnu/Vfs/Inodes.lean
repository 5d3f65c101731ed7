import Jnu.Lib.Trace
import Jnu.Vfs.Defs

namespace Jnu.Vfs.Inodes

open Lib.Bytes Minix
open Function

-- The counts of references are of type uint32_t.
abbrev refLimit : Nat := 2 ^ 32

-- struct vfs_inode, as far as the inode cache and the walks read it.
structure Inode where
  mnt : Nat
  ino : Nat
  isDir : Bool
  mode : BitVec 16
  refcount : Nat

-- struct vfs_mountpoint with the root of its struct vfs_mount.
structure Mountpoint where
  used : Bool
  covered : Option (Nat × Nat)
  root : Option Nat

-- How the critical section of vfs_iput ends: the inode was never cached, it has
-- references left, or it was unlinked.
inductive Put
  | direct
  | kept
  | victim

inductive Result
  | error
  | done
  | inode (o : Nat)
  deriving DecidableEq

-- The rest of an operation: a node is one critical section of icache_lock, one call into the filesystem, or
-- one access to the mount table.
inductive Prog
  | ret (r : Result)
  | spin
  | ready (k : Bool → Prog)
  | stat (o : Nat) (k : Inode → Prog)
  | lookup (dir : Nat) (name : Name) (k : Option Nat → Prog)
  | lookupRoot (i : Nat) (k : Option Nat → Prog)
  | create (dir : Nat) (name : Name) (k : Option Nat → Prog)
  | change (k : Bool → Prog)
  | mountOn (o : Nat) (k : Option Nat → Prog)
  | fold (cand : Nat) (k : Option Nat → Prog)
  | put (o : Nat) (k : Put → Prog)
  | close (o : Nat) (k : Prog)
  | claimRoot (k : Bool → Prog)
  | claimSlot (covered : Nat × Nat) (k : Option Nat → Prog)
  | fsMount (i : Nat) (k : Bool → Prog)
  | readRoot (i : Nat) (k : Nat → Prog)
  | writeRoot (i o : Nat) (k : Prog)
  | publish (i : Nat) (covered : Option (Nat × Nat)) (k : Prog)

def vfsIcacheCanonicalize (cand : Nat) (k : Nat → Prog) : Prog :=
  .fold cand fun
    | some p => .close cand (k p)
    | none => k cand

def vfsIput (o : Nat) (k : Prog) : Prog :=
  .put o fun
    | .direct => .close o k
    | .kept => k
    | .victim => .close o k

-- The loop of cross_mounts, for at most `n` rounds; the continuation gets the
-- inode or nothing on an error.
def crossMounts : Nat → Nat → (Option Nat → Prog) → Prog
  | 0, _, _ => .spin
  | n + 1, cur, k =>
    .mountOn cur fun
      | none => k (some cur)
      | some i =>
        .lookupRoot i fun
          | none => vfsIput cur (k none)
          | some sub =>
            vfsIcacheCanonicalize sub fun sub => vfsIput cur (crossMounts n sub k)

def walkStart (n : Nat) (path : List Byte) (k : Option (List Name × Nat) → Prog) : Prog :=
  .ready fun
    | false => k none
    | true =>
      match normalizePath path with
      | .error _ => k none
      | .ok comps =>
        .lookupRoot 0 fun
          | none => k none
          | some curr =>
            vfsIcacheCanonicalize curr fun curr =>
              crossMounts n curr fun
                | none => k none
                | some curr => k (some (comps, curr))

def walkStep (n : Nat) (curr : Nat) (comp : Name) (k : Option Nat → Prog) : Prog :=
  .lookup curr comp fun
    | none => vfsIput curr (k none)
    | some next =>
      vfsIcacheCanonicalize next fun next => vfsIput curr (crossMounts n next k)

def parentLoop (n : Nat) : List Name → Nat → (Option (Nat × Name) → Prog) → Prog
  | [], curr, k => vfsIput curr (k none)
  | [name], curr, k =>
    if vfsNameMax ≤ name.length then vfsIput curr (k none) else k (some (curr, name))
  | comp :: rest, curr, k =>
    .stat curr fun nd =>
      if nd.isDir then
        walkStep n curr comp fun
          | none => k none
          | some next => parentLoop n rest next k
      else vfsIput curr (k none)

def vfsParent (n : Nat) (path : List Byte) (k : Option (Nat × Name) → Prog) : Prog :=
  walkStart n path fun
    | none => k none
    | some (comps, curr) => parentLoop n comps curr k

def openLoop (n : Nat) : List Name → Nat → (Option Nat → Prog) → Prog
  | [], curr, k => k (some curr)
  | comp :: rest, curr, k =>
    .stat curr fun nd =>
      if nd.isDir then
        if executable nd.mode then
          walkStep n curr comp fun
            | none => k none
            | some next => openLoop n rest next k
        else vfsIput curr (k none)
      else vfsIput curr (k none)

def openPath (n : Nat) (path : List Byte) (k : Option Nat → Prog) : Prog :=
  walkStart n path fun
    | none => k none
    | some (comps, curr) => openLoop n comps curr k

def vfsOpen (n : Nat) (path : List Byte) : Prog :=
  openPath n path fun
    | none => .ret .error
    | some o => .ret (.inode o)

def vfsClose (o : Nat) : Prog := vfsIput o (.ret .done)

-- A filesystem without the operation answers like one whose call fails.
def vfsCreate (n : Nat) (path : List Byte) : Prog :=
  vfsParent n path fun
    | none => .ret .error
    | some (dir, name) =>
      .create dir name fun
        | none => vfsIput dir (.ret .error)
        | some o => vfsIcacheCanonicalize o fun o => vfsIput dir (.ret (.inode o))

def result (ok : Bool) : Result := if ok then .done else .error

-- vfs_unlink, vfs_mkdir and vfs_rmdir: the filesystem changes the directory
-- and hands nothing out.
def onParent (n : Nat) (path : List Byte) : Prog :=
  vfsParent n path fun
    | none => .ret .error
    | some (dir, _) => .change fun ok => vfsIput dir (.ret (result ok))

def vfsUnlink (n : Nat) (path : List Byte) : Prog := onParent n path

def vfsMkdir (n : Nat) (path : List Byte) : Prog := onParent n path

def vfsRmdir (n : Nat) (path : List Byte) : Prog := onParent n path

def vfsRename (n : Nat) (oldPath newPath : List Byte) : Prog :=
  vfsParent n oldPath fun
    | none => .ret .error
    | some (old, _) =>
      vfsParent n newPath fun
        | none => vfsIput old (.ret .error)
        | some (new, _) => .change fun ok => vfsIput new (vfsIput old (.ret (result ok)))

-- ops->mount, the canonical root and the entry in the mount table.
def mountAt (i : Nat) (covered : Option (Nat × Nat)) : Prog :=
  .fsMount i fun
    | false => .ret .error
    | true =>
      .readRoot i fun cand =>
        .fold cand fun
          | none => .publish i covered (.ret .done)
          | some p => .close cand (.writeRoot i p (.publish i covered (.ret .done)))

def vfsMountRoot : Prog :=
  .claimRoot fun
    | false => .ret .error
    | true => mountAt 0 none

def vfsMount (n : Nat) (target : List Byte) : Prog :=
  .ready fun
    | false => .ret .error
    | true =>
      openPath n target fun
        | none => .ret .error
        | some tdir =>
          .stat tdir fun nd =>
            if nd.isDir then
              vfsIput tdir <|
                .claimSlot (nd.mnt, nd.ino) fun
                  | none => .ret .error
                  | some slot => mountAt slot (some (nd.mnt, nd.ino))
            else vfsIput tdir (.ret .error)

-- The calls; the number bounds the rounds of each mount crossing.
inductive Call
  | open (n : Nat) (path : List Byte)
  | create (n : Nat) (path : List Byte)
  | unlink (n : Nat) (path : List Byte)
  | mkdir (n : Nat) (path : List Byte)
  | rmdir (n : Nat) (path : List Byte)
  | rename (n : Nat) (oldPath newPath : List Byte)
  | mountRoot
  | mount (n : Nat) (target : List Byte)
  | close (o : Nat)

def Call.prog : Call → Prog
  | .open n path => vfsOpen n path
  | .create n path => vfsCreate n path
  | .unlink n path => vfsUnlink n path
  | .mkdir n path => vfsMkdir n path
  | .rmdir n path => vfsRmdir n path
  | .rename n oldPath newPath => vfsRename n oldPath newPath
  | .mountRoot => vfsMountRoot
  | .mount n target => vfsMount n target
  | .close o => vfsClose o

-- What a call into the filesystem comes to: it succeeds, it fails, or it
-- builds an inode.
inductive Outcome
  | ok
  | fail
  | made (ino : Nat) (isDir : Bool) (mode : BitVec 16)

-- Inode objects, cache buckets and mount table. `handles` are inodes that nobody has closed. No function
-- reads the other fields: the references and uncached inodes of an operation, the slot it mounts into, and
-- how often an inode was closed.
structure State (τ : Type) where
  inode : Nat → Inode
  next : Nat
  icache : Nat → List Nat
  mounts : Nat → Mountpoint
  prog : τ → Option Prog
  handles : Multiset Nat
  refs : τ → Multiset Nat
  temps : τ → Multiset Nat
  window : τ → Option (Nat × Option Nat)
  closes : Nat → Nat

inductive Move (τ : Type)
  | start (t : τ) (c : Call)
  | step (t : τ) (out : Outcome)
  | finish (t : τ)

namespace State

variable {τ : Type} [DecidableEq τ] (hash : Nat → Nat → Nat) (s : State τ) (t : τ)

def goto (p : Prog) : State τ := { s with prog := update s.prog t (some p) }

def alloc (nd : Inode) : State τ :=
  { s with
    inode := update s.inode s.next nd
    next := s.next + 1
    temps := update s.temps t (s.next ::ₘ s.temps t) }

def setRefcount (o n : Nat) : State τ :=
  { s with inode := update s.inode o { s.inode o with refcount := n } }

def bucket (o : Nat) : Nat := hash (s.inode o).mnt (s.inode o).ino

def SameKey (o p : Nat) : Prop := (s.inode p).mnt = (s.inode o).mnt ∧ (s.inode p).ino = (s.inode o).ino

instance (o p : Nat) : Decidable (s.SameKey o p) := inferInstanceAs (Decidable (_ ∧ _))

-- The critical section of vfs_icache_canonicalize.
def findCached (cand : Nat) : Option Nat :=
  (s.icache (s.bucket hash cand)).find? fun p => s.SameKey cand p

def share (p : Nat) : State τ :=
  { s.setRefcount p (((s.inode p).refcount + 1) % refLimit) with
    refs := update s.refs t (p ::ₘ s.refs t) }

def insert (cand : Nat) : State τ :=
  { s.setRefcount cand 1 with
    icache := update s.icache (s.bucket hash cand)
      (cand :: s.icache (s.bucket hash cand))
    temps := update s.temps t ((s.temps t).erase cand)
    refs := update s.refs t (cand ::ₘ s.refs t) }

-- The critical section of vfs_iput.
def release (o : Nat) : State τ :=
  { s.setRefcount o ((s.inode o).refcount - 1) with
    refs := update s.refs t ((s.refs t).erase o) }

def unlink (o : Nat) : State τ :=
  { s.release t o with
    icache := update s.icache (s.bucket hash o)
      ((s.icache (s.bucket hash o)).erase o)
    temps := update s.temps t (o ::ₘ s.temps t) }

def closed (o : Nat) : State τ :=
  { s with
    temps := update s.temps t ((s.temps t).erase o)
    closes := update s.closes o (s.closes o + 1) }

def mountedOn (o : Nat) : Option Nat :=
  (List.range vfsMountMax).find? fun i =>
    i ≠ 0 ∧ (s.mounts i).used ∧ (s.mounts i).covered = some ((s.inode o).mnt, (s.inode o).ino)

def freeSlot (covered : Nat × Nat) : Option Nat :=
  if (List.range vfsMountMax).any fun i =>
      i ≠ 0 ∧ (s.mounts i).used ∧ (s.mounts i).covered = some covered then none
  else (List.range vfsMountMax).find? fun i => i ≠ 0 ∧ (s.mounts i).used = false

def setMount (i : Nat) (m : Mountpoint) : State τ :=
  { s with mounts := update s.mounts i m }

def setRoot (i o : Nat) : State τ :=
  { s.setMount i { s.mounts i with root := some o } with
    window := update s.window t (some (i, some o)) }

def claim (i : Nat) : State τ :=
  { s with window := update s.window t (some (i, none)) }

-- The slot is used from now on, and what was the task's reference is the pin.
def publish (i o : Nat) (covered : Option (Nat × Nat)) : State τ :=
  { s.setMount i { used := true, covered := covered, root := some o } with
    refs := update s.refs t ((s.refs t).erase o)
    window := update s.window t none }

-- One node of a task's operation.
def exec : Prog → Outcome → Option (State τ)
  | .ret _, _ => none
  | .spin, _ => none
  | .ready k, .ok => some (s.goto t (k ((s.mounts 0).used && (s.mounts 0).root.isSome)))
  | .stat o k, .ok => some (s.goto t (k (s.inode o)))
  | .lookup _ _ k, .fail => some (s.goto t (k none))
  | .lookup dir _ k, .made ino isDir mode =>
    some ((s.alloc t ⟨(s.inode dir).mnt, ino, isDir, mode, 0⟩).goto t (k (some s.next)))
  | .lookupRoot _ k, .fail => some (s.goto t (k none))
  | .lookupRoot i k, .made ino isDir mode =>
    some ((s.alloc t ⟨i, ino, isDir, mode, 0⟩).goto t (k (some s.next)))
  | .create _ _ k, .fail => some (s.goto t (k none))
  | .create dir _ k, .made ino isDir mode =>
    some ((s.alloc t ⟨(s.inode dir).mnt, ino, isDir, mode, 0⟩).goto t (k (some s.next)))
  | .change k, .ok => some (s.goto t (k true))
  | .change k, .fail => some (s.goto t (k false))
  | .mountOn o k, .ok => some (s.goto t (k (s.mountedOn o)))
  | .fold cand k, .ok =>
    match s.findCached hash cand with
    | some p => some ((s.share t p).goto t (k (some p)))
    | none => some ((s.insert hash t cand).goto t (k none))
  | .put o k, .ok =>
    if (s.inode o).refcount = 0 then some (s.goto t (k .direct))
    else if (s.inode o).refcount = 1 then some ((s.unlink hash t o).goto t (k .victim))
    else some ((s.release t o).goto t (k .kept))
  | .close o k, .ok => some ((s.closed t o).goto t k)
  | .claimRoot k, .ok =>
    if (s.mounts 0).used then some (s.goto t (k false))
    else some ((s.claim t 0).goto t (k true))
  | .claimSlot covered k, .ok =>
    match s.freeSlot covered with
    | none => some (s.goto t (k none))
    | some i => some ((s.claim t i).goto t (k (some i)))
  | .fsMount _ k, .fail => some (s.goto t (k false))
  | .fsMount i k, .made ino isDir mode =>
    some (((s.alloc t ⟨i, ino, isDir, mode, 0⟩).setRoot t i s.next).goto t (k true))
  | .readRoot i k, .ok => (s.mounts i).root.map fun o => s.goto t (k o)
  | .writeRoot i o k, .ok => some ((s.setRoot t i o).goto t k)
  | .publish i covered k, .ok =>
    (s.mounts i).root.map fun o => (s.publish t i o covered).goto t k
  | _, _ => none

-- A call begins. vfs_close is called with an inode that an operation returned.
def begin (c : Call) : Option (State τ) :=
  if s.prog t ≠ none then none
  else
    match c with
    | .close o =>
      if o ∈ s.handles then
        some ({ s with
          handles := s.handles.erase o
          refs := update s.refs t (o ::ₘ s.refs t) }.goto t c.prog)
      else none
    | _ => some (s.goto t c.prog)

-- The operation is over; what it returns is the caller's.
def finish (r : Result) : State τ :=
  { s with
    prog := update s.prog t none
    window := update s.window t none
    handles :=
      match r with
      | .inode o => o ::ₘ s.handles
      | _ => s.handles
    refs :=
      match r with
      | .inode o => update s.refs t ((s.refs t).erase o)
      | _ => s.refs }

def move : Move τ → Option (State τ)
  | .start t c => s.begin t c
  | .step t out => (s.prog t).bind fun p => s.exec hash t p out
  | .finish t =>
    match s.prog t with
    | some (.ret r) => some (s.finish t r)
    | _ => none

-- The cached inode of which a step takes one more reference, and a step at
-- which the count has room for it.
def takes : Move τ → Option Nat
  | .step t _ =>
    match s.prog t with
    | some (.fold cand _) => s.findCached hash cand
    | _ => none
  | _ => none

def Fits (e : Move τ) : Prop := ∀ p ∈ s.takes hash e, (s.inode p).refcount + 1 < refLimit

instance fits_dec (e : Move τ) : Decidable (s.Fits hash e) := inferInstanceAs (Decidable (∀ p ∈ _, _))

end State

def Step {τ : Type} [DecidableEq τ] (hash : Nat → Nat → Nat) (s : State τ) (e : Move τ)
    (s' : State τ) : Prop :=
  s.move hash e = some s'

def initial {τ : Type} : State τ where
  inode := fun _ => ⟨0, 0, false, 0, 0⟩
  next := 0
  icache := fun _ => []
  mounts := fun _ => ⟨false, none, none⟩
  prog := fun _ => none
  handles := 0
  refs := fun _ => 0
  temps := fun _ => 0
  window := fun _ => none
  closes := fun _ => 0

end Jnu.Vfs.Inodes
