import Jnu.Vfs.Inodes

namespace Jnu.Vfs.Inodes

open Lib.Bytes Minix

-- The rest of an operation with references `R`, uncached inodes `T` and the slot `w` drops or returns every
-- reference, and closes or inserts every inode.
def Prog.Safe : Prog → Multiset Nat → Multiset Nat → Option (Nat × Option Nat) → Prop
  | .ret r, R, T, _ =>
    T = 0 ∧
      match r with
      | .inode o => R = {o}
      | _ => R = 0
  | .spin, _, _, _ => True
  | .ready k, R, T, w => ∀ b, (k b).Safe R T w
  | .stat _ k, R, T, w => ∀ nd, (k nd).Safe R T w
  | .lookup _ _ k, R, T, w => (k none).Safe R T w ∧ ∀ o, (k (some o)).Safe R (o ::ₘ T) w
  | .lookupRoot _ k, R, T, w => (k none).Safe R T w ∧ ∀ o, (k (some o)).Safe R (o ::ₘ T) w
  | .create _ _ k, R, T, w => (k none).Safe R T w ∧ ∀ o, (k (some o)).Safe R (o ::ₘ T) w
  | .change k, R, T, w => ∀ b, (k b).Safe R T w
  | .mountOn _ k, R, T, w => ∀ i, (k i).Safe R T w
  | .fold c k, R, T, w =>
    c ∈ T ∧ (k none).Safe (c ::ₘ R) (T.erase c) w ∧ ∀ p, (k (some p)).Safe (p ::ₘ R) T w
  | .put o k, R, T, w =>
    o ∈ R ∧ (k .kept).Safe (R.erase o) T w ∧ (k .victim).Safe (R.erase o) (o ::ₘ T) w
  | .close o k, R, T, w => o ∈ T ∧ k.Safe R (T.erase o) w
  | .claimRoot k, R, T, w => (k false).Safe R T w ∧ (k true).Safe R T (some (0, none))
  | .claimSlot _ k, R, T, w =>
    (k none).Safe R T w ∧ ∀ i, (k (some i)).Safe R T (some (i, none))
  | .fsMount i k, R, T, w =>
    (∃ o, w = some (i, o)) ∧ (k false).Safe R T w ∧
      ∀ o, (k true).Safe R (o ::ₘ T) (some (i, some o))
  | .readRoot i k, R, T, w => ∃ o, w = some (i, some o) ∧ (k o).Safe R T w
  | .writeRoot i p k, R, T, w => (∃ o, w = some (i, o)) ∧ k.Safe R T (some (i, some p))
  | .publish i _ k, R, T, w =>
    ∃ o, w = some (i, some o) ∧ o ∈ R ∧ k.Safe (R.erase o) T none

variable {R T : Multiset Nat} {w : Option (Nat × Option Nat)} {n o next i : Nat}
  {oldPath newPath target : List Byte}
variable {k : Option Nat → Prog} {path : List Byte}

theorem safe_vfsIput {k : Prog} (hk : k.Safe R T w) : (vfsIput o k).Safe (o ::ₘ R) T w := by
  refine ⟨Multiset.mem_cons_self o R, ?_, Multiset.mem_cons_self o T, ?_⟩
  · rw [Multiset.erase_cons_head]
    exact hk
  · rw [Multiset.erase_cons_head, Multiset.erase_cons_head]
    exact hk

theorem safe_vfsIcacheCanonicalize {k : Nat → Prog} (hk : ∀ p, (k p).Safe (p ::ₘ R) T w) :
    (vfsIcacheCanonicalize o k).Safe R (o ::ₘ T) w := by
  refine ⟨Multiset.mem_cons_self o T, ?_, fun p => ⟨Multiset.mem_cons_self o T, ?_⟩⟩
  · rw [Multiset.erase_cons_head]
    exact hk o
  · rw [Multiset.erase_cons_head]
    exact hk p

theorem safe_exchange {k : Nat → Prog} (hk : ∀ p, (k p).Safe (p ::ₘ R) T w) :
    (vfsIcacheCanonicalize next fun next => vfsIput o (k next)).Safe (o ::ₘ R) (next ::ₘ T) w := by
  refine safe_vfsIcacheCanonicalize fun p => ?_
  rw [Multiset.cons_swap]
  exact safe_vfsIput (hk p)

theorem safe_crossMounts (hnone : (k none).Safe R T w) (hsome : ∀ p, (k (some p)).Safe (p ::ₘ R) T w)
    (cur : Nat) : (crossMounts n cur k).Safe (cur ::ₘ R) T w := by
  induction n generalizing cur with
  | zero => exact trivial
  | succ n ih =>
    rintro (_ | i)
    · exact hsome cur
    · exact ⟨safe_vfsIput hnone, fun sub => safe_exchange ih⟩

theorem safe_walkStart {k : Option (List Name × Nat) → Prog} (hnone : (k none).Safe R T w)
    (hsome : ∀ comps p, (k (some (comps, p))).Safe (p ::ₘ R) T w) : (walkStart n path k).Safe R T w := by
  rintro (_ | _)
  · exact hnone
  cases normalizePath path with
  | error e => exact hnone
  | ok comps =>
    refine ⟨hnone, fun curr => safe_vfsIcacheCanonicalize fun p => ?_⟩
    exact safe_crossMounts hnone (hsome comps) p

theorem safe_walkStep {comp : Name} (hnone : (k none).Safe R T w)
    (hsome : ∀ p, (k (some p)).Safe (p ::ₘ R) T w) (curr : Nat) :
    (walkStep n curr comp k).Safe (curr ::ₘ R) T w :=
  ⟨safe_vfsIput hnone, fun _ => safe_exchange (safe_crossMounts hnone hsome)⟩

theorem safe_parentLoop {k : Option (Nat × Name) → Prog} (hnone : (k none).Safe R T w)
    (hsome : ∀ p name, (k (some (p, name))).Safe (p ::ₘ R) T w) (comps : List Name) (curr : Nat) :
    (parentLoop n comps curr k).Safe (curr ::ₘ R) T w := by
  induction comps generalizing curr with
  | nil => exact safe_vfsIput hnone
  | cons comp rest ih =>
    cases rest with
    | nil =>
      unfold parentLoop
      split_ifs
      · exact safe_vfsIput hnone
      · exact hsome curr comp
    | cons next rest =>
      intro nd
      dsimp only
      split_ifs
      · exact safe_walkStep hnone ih curr
      · exact safe_vfsIput hnone

theorem safe_vfsParent {k : Option (Nat × Name) → Prog} (hnone : (k none).Safe R T w)
    (hsome : ∀ p name, (k (some (p, name))).Safe (p ::ₘ R) T w) : (vfsParent n path k).Safe R T w :=
  safe_walkStart hnone fun comps p => safe_parentLoop hnone hsome comps p

theorem safe_openLoop (hnone : (k none).Safe R T w) (hsome : ∀ p, (k (some p)).Safe (p ::ₘ R) T w)
    (comps : List Name) (curr : Nat) : (openLoop n comps curr k).Safe (curr ::ₘ R) T w := by
  induction comps generalizing curr with
  | nil => exact hsome curr
  | cons comp rest ih =>
    intro nd
    dsimp only
    split_ifs
    · refine safe_walkStep ?_ ?_ curr
      · exact hnone
      · exact ih
    · exact safe_vfsIput hnone
    · exact safe_vfsIput hnone

theorem safe_openPath (hnone : (k none).Safe R T w)
    (hsome : ∀ p, (k (some p)).Safe (p ::ₘ R) T w) : (openPath n path k).Safe R T w :=
  safe_walkStart hnone fun comps p => safe_openLoop hnone hsome comps p

theorem safe_vfsOpen : (vfsOpen n path).Safe 0 0 w :=
  safe_openPath ⟨rfl, rfl⟩ fun _ => ⟨rfl, rfl⟩

theorem safe_vfsClose : (vfsClose o).Safe {o} 0 w := safe_vfsIput (R := 0) ⟨rfl, rfl⟩

theorem safe_vfsCreate : (vfsCreate n path).Safe 0 0 w := by
  refine safe_vfsParent ⟨rfl, rfl⟩ fun dir name => ⟨safe_vfsIput ⟨rfl, rfl⟩, fun o => ?_⟩
  refine safe_vfsIcacheCanonicalize fun p => ?_
  rw [Multiset.cons_swap]
  exact safe_vfsIput ⟨rfl, rfl⟩

theorem safe_result (ok : Bool) : (Prog.ret (result ok)).Safe 0 0 w := by
  cases ok <;> exact ⟨rfl, rfl⟩

theorem safe_onParent : (onParent n path).Safe 0 0 w :=
  safe_vfsParent ⟨rfl, rfl⟩ fun _ _ ok => safe_vfsIput (safe_result ok)

theorem safe_vfsRename : (vfsRename n oldPath newPath).Safe 0 0 w := by
  refine safe_vfsParent ⟨rfl, rfl⟩ fun old _ => ?_
  refine safe_vfsParent (safe_vfsIput ⟨rfl, rfl⟩) fun new _ ok => ?_
  exact safe_vfsIput (safe_vfsIput (safe_result ok))

theorem safe_mountAt {covered : Option (Nat × Nat)} : (mountAt i covered).Safe 0 0 (some (i, none)) := by
  refine ⟨⟨none, rfl⟩, ⟨rfl, rfl⟩, fun o => ⟨o, rfl, Multiset.mem_cons_self o 0, ?_, fun p => ?_⟩⟩
  · refine ⟨o, rfl, Multiset.mem_cons_self o 0, ?_⟩
    rw [Multiset.erase_cons_head]
    exact ⟨rfl, rfl⟩
  · refine ⟨Multiset.mem_cons_self o 0, ⟨some o, rfl⟩, p, rfl, Multiset.mem_cons_self p 0, ?_⟩
    rw [Multiset.erase_cons_head, Multiset.erase_cons_head]
    exact ⟨rfl, rfl⟩

theorem safe_vfsMountRoot : vfsMountRoot.Safe 0 0 w := ⟨⟨rfl, rfl⟩, safe_mountAt⟩

theorem safe_vfsMount : (vfsMount n target).Safe 0 0 w := by
  rintro (_ | _)
  · exact ⟨rfl, rfl⟩
  refine safe_openPath ⟨rfl, rfl⟩ fun tdir nd => ?_
  dsimp only
  split_ifs
  · exact safe_vfsIput ⟨⟨rfl, rfl⟩, fun i => safe_mountAt⟩
  · exact safe_vfsIput ⟨rfl, rfl⟩

def Call.given : Call → Multiset Nat
  | .close o => {o}
  | _ => 0

theorem Call.safe (c : Call) : c.prog.Safe c.given 0 w := by
  cases c with
  | «open» => exact safe_vfsOpen
  | create => exact safe_vfsCreate
  | unlink => exact safe_onParent
  | mkdir => exact safe_onParent
  | rmdir => exact safe_onParent
  | rename => exact safe_vfsRename
  | mountRoot => exact safe_vfsMountRoot
  | mount => exact safe_vfsMount
  | close => exact safe_vfsClose

end Jnu.Vfs.Inodes
