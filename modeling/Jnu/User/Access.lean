import Jnu.Errno
import Jnu.User.Append

namespace Jnu.User.Access

open User.Append
open Function

def oCreat : BitVec 32 := 0o100#32

def oLargefile : BitVec 32 := 0o100000#32

structure Inode where
  isDir : Bool
  mode : BitVec 16
  data : List Byte

inductive Kind
  | chardev
  | initramfs
  | vfs (i : Nat)

structure File where
  kind : Kind
  flags : BitVec 32
  offset : Nat

structure State where
  inode : Nat → Option Inode
  file : Nat × Nat → Option File

-- What the layers below do, which can be anything: the path cannot be copied or there is no memory
-- (`refuse`), `ops->create`, `fd_alloc`, `copy_from_user`, a write to the log, `ops->write`, `ops->truncate`.
structure Below where
  refuse : Option Errno
  create : Except Errno Nat
  fdAlloc : Except Errno Nat
  copyFromUser : Nat → Option Errno
  log : Except Errno Nat
  write : List Byte → Nat → List Byte → Except Errno Nat × List Byte
  truncate : List Byte → Nat → Except Errno Unit × List Byte

-- `found` is what the path of an open names.
inductive Call
  | open (flags : BitVec 32) (found : Except Errno Kind)
  | creat (found : Except Errno Kind)
  | write (fd : Nat) (buf : List Byte)
  | ftruncate (fd : Nat) (length : Int)

variable (b : Below) (s : State) {offset done fd : Nat} {buf rest : List Byte}

def State.set (i : Nat) (n : Inode) : State := { s with inode := update s.inode i (some n) }

@[grind =] theorem set_inode (i j : Nat) (n : Inode) :
    (s.set i n).inode j = if j = i then some n else s.inode j := update_apply ..

def vfsTruncate (i size : Nat) : Except Errno Unit × State :=
  match s.inode i with
  | none => (.error .einval, s)
  | some n =>
    if n.isDir then (.error .eisdir, s)
    else ((b.truncate n.data size).1, s.set i { n with data := (b.truncate n.data size).2 })

def vfsWrite (i offset : Nat) (buf : List Byte) : Except Errno Nat × State :=
  match s.inode i with
  | none => (.error .einval, s)
  | some n =>
    if n.isDir then (.error .eisdir, s)
    else if n.mode &&& 0o222 = 0 then (.error .eacces, s)
    else ((b.write n.data offset buf).1, s.set i { n with data := (b.write n.data offset buf).2 })

-- `vfs_open`, and `vfs_create` for a name that is not there.
def locate (flags : BitVec 32) : Except Errno Kind → Except Errno Kind × State
  | .error .enoent =>
    if flags &&& oCreat ≠ 0 then
      match b.create with
      | .error e => (.error e, s)
      | .ok i =>
        match s.inode i with
        | some _ => (.error .eexist, s)
        | none => (.ok (.vfs i), s.set i ⟨false, 0o666, []⟩)
    else (.error .enoent, s)
  | r => (r, s)

def install (p : Nat) (f : File) : Except Errno Nat × State :=
  match b.fdAlloc with
  | .error e => (.error e, s)
  | .ok fd => (.ok fd, { s with file := update s.file (p, fd) (some f) })

def accepted (flags : BitVec 32) : Prop :=
  flags &&& ~~~(oAccmode ||| oCreat ||| oTrunc ||| oAppend ||| oLargefile) = 0
  deriving Decidable

def installVfs (p : Nat) (flags : BitVec 32) (i : Nat) : Except Errno Nat × State :=
  install b s p ⟨.vfs i, flags, openOffset flags (((s.inode i).map (·.data.length)).getD 0)⟩

def sysOpen (p : Nat) (flags : BitVec 32) (found : Except Errno Kind) : Except Errno Nat × State :=
  if ¬ accepted flags then (.error .einval, s)
  else match b.refuse with
  | some e => (.error e, s)
  | none =>
    match locate b s flags found with
    | (.error e, s) => (.error e, s)
    | (.ok (.vfs i), s) =>
      if flags &&& oTrunc ≠ 0 then
        match vfsTruncate b s i 0 with
        | (.error e, s) => (.error e, s)
        | (.ok _, s) => installVfs b s p flags i
      else installVfs b s p flags i
    | (.ok k, s) => install b s p ⟨k, flags, 0⟩

-- The loop of `sys_write`, with the offset at its end.
def writeLoop (b : Below) (i : Nat) (s : State) (offset done : Nat) (rest : List Byte) :
    Except Errno Nat × Nat × State :=
  if _hr : rest = [] then (.ok done, offset, s)
  else match b.copyFromUser done with
  | some e => (if done = 0 then .error e else .ok done, offset, s)
  | none =>
    match vfsWrite b s i offset (rest.take writeChunk) with
    | (.error e, s) => (if done = 0 then .error e else .ok done, offset, s)
    | (.ok n, s) =>
      if _hn : n < (rest.take writeChunk).length then (.ok (done + n), offset + n, s)
      else writeLoop b i s (offset + n) (done + n) (rest.drop n)
termination_by rest.length
decreasing_by
  have hpos := List.length_pos_iff.2 _hr
  simp only [List.length_take, List.length_drop, writeChunk] at _hn ⊢
  omega

def sysWrite (p fd : Nat) (buf : List Byte) : Except Errno Nat × State :=
  if fd = 1 ∨ fd = 2 then (b.log, s)
  else match s.file (p, fd) with
  | some ⟨.vfs i, flags, offset⟩ =>
    if flags &&& oAccmode = oRdonly then (.error .eacces, s)
    else
      let w := writeLoop b i s offset 0 buf
      (w.1, { w.2.2 with file := update w.2.2.file (p, fd) (some ⟨.vfs i, flags, w.2.1⟩) })
  | _ => (.error .einval, s)

def sysFtruncate (p fd : Nat) (length : Int) : Except Errno Nat × State :=
  if length < 0 then (.error .einval, s)
  else match s.file (p, fd) with
  | some ⟨.vfs i, _, _⟩ => ((vfsTruncate b s i length.toNat).1.map fun _ => 0,
      (vfsTruncate b s i length.toNat).2)
  | _ => (.error .einval, s)

def exec (p : Nat) : Call → Except Errno Nat × State
  | .open flags found => sysOpen b s p flags found
  | .creat found => sysOpen b s p (oCreat ||| oTrunc) found
  | .write fd buf => sysWrite b s p fd buf
  | .ftruncate fd length => sysFtruncate b s p fd length

def seen (flags : BitVec 32) : Except Errno Kind → Option (BitVec 32 × Nat)
  | .ok (.vfs i) => some (flags, i)
  | _ => none

-- The file that a call works on, with the flags it was opened with.
def Call.access (p : Nat) : Call → Option (BitVec 32 × Nat)
  | .open flags found => seen flags found
  | .creat found => seen (oCreat ||| oTrunc) found
  | .write fd _ => (s.file (p, fd)).bind fun f => seen f.flags (.ok f.kind)
  | .ftruncate fd _ => (s.file (p, fd)).bind fun f => seen f.flags (.ok f.kind)

theorem seen_eq_some {flags flags' : BitVec 32} {found : Except Errno Kind} {i : Nat} :
    seen flags found = some (flags', i) ↔ found = .ok (.vfs i) ∧ flags' = flags := by
  unfold seen
  grind

-- The call is an open or an `ftruncate` that needs write access.
def Call.Asks : Call → Prop
  | .open flags _ => accepted flags ∧ (flags &&& oTrunc ≠ 0 ∨ flags &&& oAccmode ≠ oRdonly)
  | .creat _ => True
  | .write .. => False
  | .ftruncate _ length => 0 ≤ length

def Permits (flags : BitVec 32) (n : Inode) : Prop := flags &&& oAccmode ≠ oRdonly ∧ n.mode &&& 0o222 ≠ 0

structure Guarded (p : Nat) (c : Call) (r : Except Errno Nat × State) : Prop where
  changed : ∀ i n, s.inode i = some n → r.2.inode i ≠ some n →
    ∃ flags, c.access s p = some (flags, i) ∧ Permits flags n
  refused : ∀ flags i n, c.access s p = some (flags, i) → s.inode i = some n → n.isDir = false → c.Asks →
    ¬ Permits flags n → (∃ e, r.1 = .error e) ∧ r.2.inode i = some n

variable {b s} {i j p size : Nat} {n : Inode} {flags : BitVec 32} {found : Except Errno Kind}

theorem vfsTruncate_keeps (hk : j ≠ i ∨ n.isDir = true) (hj : s.inode j = some n) :
    (vfsTruncate b s i size).2.inode j = some n := by
  unfold vfsTruncate
  grind

theorem vfsWrite_keeps (hk : j ≠ i ∨ n.mode &&& 0o222 = 0) (hj : s.inode j = some n) :
    (vfsWrite b s i offset buf).2.inode j = some n := by
  unfold vfsWrite
  grind

theorem writeLoop_keeps (hk : j ≠ i ∨ n.mode &&& 0o222 = 0)
    (hj : s.inode j = some n) : (writeLoop b i s offset done rest).2.2.inode j = some n := by
  fun_induction writeLoop b i s offset done rest with
  | case1 => exact hj
  | case2 => exact hj
  | case3 s offset done rest _ _ _ _ hw => exact (congrArg (·.2.inode j) hw).symm.trans (vfsWrite_keeps hk hj)
  | case4 s offset done rest _ _ _ _ hw => exact (congrArg (·.2.inode j) hw).symm.trans (vfsWrite_keeps hk hj)
  | case5 s offset done rest _ _ _ _ hw _ ih =>
    exact ih ((congrArg (·.2.inode j) hw).symm.trans (vfsWrite_keeps hk hj))

theorem locate_keeps (hj : s.inode j = some n) : (locate b s flags found).2.inode j = some n := by
  unfold locate
  grind

theorem locate_vfs (h : (locate b s flags found).1 = .ok (.vfs i)) :
    found = .ok (.vfs i) ∨ s.inode i = none := by
  unfold locate at h
  repeat' split at h
  all_goals grind

theorem install_keeps {f : File} : (install b s p f).2.inode j = s.inode j := by
  unfold install
  grind

-- An open changes a file only if it truncates it.
theorem sysOpen_keeps
    (hk : accepted flags → flags &&& oTrunc ≠ 0 → ∀ i, found = .ok (.vfs i) → j ≠ i ∨ n.isDir = true)
    (hj : s.inode j = some n) : (sysOpen b s p flags found).2.inode j = some n := by
  have hl : (locate b s flags found).2.inode j = some n := locate_keeps hj
  have hv : ∀ i, (locate b s flags found).1 = .ok (.vfs i) → _ := fun i => locate_vfs
  have ht : ∀ s i, _ → _ → (vfsTruncate b s i 0).2.inode j = some n := fun s i => vfsTruncate_keeps
  unfold sysOpen
  grind [installVfs, install_keeps]

theorem sysWrite_keeps (hk : ∀ i flags offset, s.file (p, fd) = some ⟨.vfs i, flags, offset⟩ →
    flags &&& oAccmode ≠ oRdonly → j ≠ i ∨ n.mode &&& 0o222 = 0) (hj : s.inode j = some n) :
    (sysWrite b s p fd buf).2.inode j = some n := by
  unfold sysWrite
  split
  · exact hj
  split
  next i flags offset hf =>
    split
    · exact hj
    next ha => exact writeLoop_keeps (hk i flags offset hf ha) hj
  · exact hj

theorem sysFtruncate_keeps {length : Int} (hk : 0 ≤ length → ∀ i flags offset,
    s.file (p, fd) = some ⟨.vfs i, flags, offset⟩ → j ≠ i ∨ n.isDir = true) (hj : s.inode j = some n) :
    (sysFtruncate b s p fd length).2.inode j = some n := by
  unfold sysFtruncate
  split
  · exact hj
  next hl =>
    split
    next i flags offset hf => exact vfsTruncate_keeps (hk (by omega) i flags offset hf) hj
    · exact hj

theorem exec_keeps {c : Call} (h : ∀ flags i n, c.access s p = some (flags, i) → s.inode i = some n →
      n.isDir = false → c.Asks → Permits flags n) (hi : s.inode i = some n)
    (hno : ∀ flags, c.access s p = some (flags, i) → ¬ Permits flags n) :
    (exec b s p c).2.inode i = some n := by
  have hdir : ∀ flags j, c.access s p = some (flags, j) → c.Asks → i ≠ j ∨ n.isDir = true := by
    intro flags j hacc hask
    by_contra hc
    obtain ⟨hij, hd⟩ := not_or.1 hc
    cases not_not.1 hij
    exact hno flags hacc (h flags i n hacc hi (by simpa using hd) hask)
  cases c with
  | «open» flags found =>
    exact sysOpen_keeps (fun ha ht j hj => hdir flags j (seen_eq_some.2 ⟨hj, rfl⟩) ⟨ha, .inl ht⟩) hi
  | creat found => exact sysOpen_keeps (fun _ _ j hj => hdir _ j (seen_eq_some.2 ⟨hj, rfl⟩) trivial) hi
  | write fd buf =>
    refine sysWrite_keeps (fun j fl offset hf ha => ?_) hi
    by_contra hc
    obtain ⟨hij, hm⟩ := not_or.1 hc
    cases not_not.1 hij
    exact hno fl (Option.bind_eq_some_iff.2 ⟨_, hf, rfl⟩) ⟨ha, hm⟩
  | ftruncate fd length =>
    refine sysFtruncate_keeps (fun hl j fl offset hf => ?_) hi
    exact hdir fl j (Option.bind_eq_some_iff.2 ⟨_, hf, rfl⟩) hl

def obliging : Below :=
  ⟨none, .ok 0, .ok 3, fun _ => none, .ok 0, fun d _ buf => (.ok buf.length, d),
    fun d size => (.ok (), d.take size)⟩

theorem obliging_open (ha : accepted flags) (hn : s.inode i = some n) (hd : n.isDir = false) :
    (sysOpen obliging s p flags (.ok (.vfs i))).1 = .ok 3 := by
  simp only [sysOpen, ha, not_true_eq_false, if_false, obliging, locate, vfsTruncate, hn, hd, installVfs,
    install]
  grind

theorem obliging_truncate (hn : s.inode i = some n) (hd : n.isDir = false) :
    (vfsTruncate obliging s i size).1 = .ok () := by
  simp [vfsTruncate, hn, hd, obliging]

theorem accepted_creat : accepted (oCreat ||| oTrunc) := by decide

theorem write_access {c : Call} : (∀ b, Guarded s p c (exec b s p c)) ↔
    ∀ flags i n, c.access s p = some (flags, i) → s.inode i = some n → n.isDir = false → c.Asks →
      Permits flags n := by
  constructor
  · intro h flags i n hacc hn hd hask
    by_contra hp
    obtain ⟨⟨e, he⟩, -⟩ := (h obliging).refused flags i n hacc hn hd hask hp
    have hopen {flags} (ha : accepted flags) := obliging_open (p := p) ha hn hd
    cases c with
    | «open» =>
      obtain ⟨rfl, rfl⟩ := seen_eq_some.1 hacc
      cases he.symm.trans (hopen hask.1)
    | creat =>
      obtain ⟨rfl, rfl⟩ := seen_eq_some.1 hacc
      cases he.symm.trans (hopen accepted_creat)
    | write => exact hask
    | ftruncate fd length =>
      obtain ⟨⟨kind, fl, offset⟩, hf, hseen⟩ := Option.bind_eq_some_iff.1 hacc
      obtain ⟨hk, -⟩ := seen_eq_some.1 hseen
      cases hk
      have hlen : ¬ length < 0 := Int.not_lt.2 hask
      simp [exec, sysFtruncate, hlen, hf, obliging_truncate hn hd, Except.map] at he
  · intro h b
    refine ⟨fun i n hi hne => ?_, fun flags i n hacc hi hd hask hp => absurd (h flags i n hacc hi hd hask) hp⟩
    by_contra hno
    exact hne (exec_keeps h hi fun flags hacc hp => hno ⟨flags, hacc, hp⟩)

-- A file that nobody may write, opened for reading only.
theorem read_only_truncated : ∃ s : State, s.inode 0 = some ⟨false, 0o444, [1]⟩ ∧
    (exec obliging s 0 (.open oTrunc (.ok (.vfs 0)))).1 = .ok 3 ∧
      (exec obliging s 0 (.open oTrunc (.ok (.vfs 0)))).2.inode 0 = some ⟨false, 0o444, []⟩ :=
  ⟨⟨fun _ => some ⟨false, 0o444, [1]⟩, fun _ => none⟩, rfl, rfl, rfl⟩

end Jnu.User.Access
