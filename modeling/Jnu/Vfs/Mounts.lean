import Jnu.Vfs.Resolve

namespace Jnu.Vfs.Names

open Lib.Bytes Lib.Effect Lib.Trace
open Minix (Name slash)

variable {v w : State} {path : List Byte} {m k i : Nat} {dev : Option Nat} {fstype : Name}

inductive Request
  | mount (dev : Option Nat) (fstype : Name) (path : List Byte)
  | lookup (path : List Byte)

def Request.exec : Request → VfsM Unit
  | .mount dev fstype path => vfsMount dev fstype path
  | .lookup path => vfsOpen path >>= fun _ => pure ()

def Request.Step (v : State) (e : Request × Except Errno Unit) (v' : State) : Prop :=
  e.1.exec.run v = some (.ok (e.2, v'))

-- A walk does not look at the clocks.
theorem State.Ticked.walks (h : v.Ticked w) (path : List Byte) :
    w.target path = v.target path ∧ w.parentOf path = v.parentOf path := by
  obtain ⟨fs, fat, mount⟩ := w
  obtain ⟨rfl, rfl, hfs⟩ := h
  choose clock hfs using hfs
  obtain rfl := funext hfs
  generalize hw : State.mk _ v.fat v.mount = w
  have hstep : ∀ cur comp, w.walkStep cur comp = v.walkStep cur comp := fun _ _ => by rw [← hw]; rfl
  have hstart : w.walkStart path = v.walkStart path := by rw [← hw]; rfl
  have hopen : ∀ comps cur, w.openLoop comps cur = v.openLoop comps cur := by
    intro comps
    induction comps with
    | nil => exact fun _ => rfl
    | cons comp rest ih => exact fun cur => by rw [State.openLoop, State.openLoop, hstep, funext ih]
  have hparent : ∀ comps cur, w.parentLoop comps cur = v.parentLoop comps cur := by
    intro comps
    induction comps with
    | nil => exact fun _ => rfl
    | cons comp rest ih =>
      cases rest with
      | nil => exact fun _ => rfl
      | cons comp' rest => exact fun cur => by rw [parentLoop_cons, parentLoop_cons, hstep, funext ih]
  unfold State.target State.parentOf
  simp only [hstart, hopen, hparent, and_self]

structure State.Apart (v : State) : Prop where
  ordered : v.Ordered
  apart : ∀ i j mp mp' c, v.mount i = some mp → v.mount j = some mp' → mp.covered = some c →
    mp'.covered = some c → i = j

theorem State.Ticked.apart (h : v.Ticked w) (ha : v.Apart) : w.Apart :=
  ⟨h.ordered ha.ordered, by rw [h.mount]; exact ha.apart⟩

theorem State.Ordered.uncovered (ho : v.Ordered) {mp : Mountpoint} (hm : v.mountedOn m k = none)
    (hi : v.mount i = some mp) : mp.covered ≠ some (m, k) := by
  intro hc
  have hlt := ho.range i (by rw [hi]; rfl)
  have hpos : i ≠ 0 := Nat.ne_zero_of_lt (ho.covers i mp m k hi hc)
  have := List.find?_eq_none.1 hm i (List.mem_range.2 hlt)
  simp [hi, hc, hpos] at this

theorem State.Apart.mount (ha : v.Apart) :
    wlp (vfsMount dev fstype path) (fun _ => State.Apart) (fun _ w => v.Ticked w) v := by
  refine wlp_vfsMount ha.ordered (fun _ _ hw _ => hw) fun w i mp hw hlt hused hnew => ?_
  have hfree : ∀ m k, mp.covered = some (m, k) → m < i ∧ v.mountedOn m k = none := by
    intro m k hc
    obtain ⟨dir, ht, rfl, rfl⟩ := hnew m k hc
    obtain ⟨-, hu, hm⟩ := target_uncovered ha.ordered ht
    exact ⟨(hused _).1 hu, hm⟩
  rw [← hw.mount] at hused
  refine ⟨(hw.ordered ha.ordered).setMount hlt hused fun m k hc => (hfree m k hc).1, ?_⟩
  have hnot : ∀ j mp' c, w.mount j = some mp' → mp.covered = some c → mp'.covered ≠ some c := by
    rintro j mp' ⟨m, k⟩ hj hc
    rw [hw.mount] at hj
    exact ha.ordered.uncovered (hfree m k hc).2 hj
  intro j j' mp' mp'' c hj hj' hc hc'
  rcases setMount_cases hj with ⟨rfl, rfl⟩ | hold <;> rcases setMount_cases hj' with ⟨rfl, rfl⟩ | hold'
  · rfl
  · exact absurd hc' (hnot j' mp'' c hold' hc)
  · exact absurd hc (hnot j mp' c hold hc')
  · exact (hw.apart ha).apart j j' mp' mp'' c hold hold' hc hc'

theorem State.Apart.step (ha : v.Apart) {e : Request × Except Errno Unit} (h : Request.Step v e w) :
    w.Apart := by
  have hexec : wlp e.1.exec (fun _ => State.Apart) (fun _ => State.Apart) v := by
    cases e.1 with
    | mount dev fstype path => exact ha.mount.mono (fun _ _ hw => hw) fun _ _ hw => hw.apart ha
    | lookup path =>
      refine wlp_bind (wlp_bind (wlp_read
        (wlp_bind (wlp_below_tick (fun u hu => ?_) fun _ u hu _ => hu.apart ha))))
      cases v.target path with
      | error e => exact wlp_error (hu.apart ha)
      | ok dir => exact wlp_pure (wlp_pure (hu.apart ha))
  obtain ⟨r, res⟩ := e
  cases res with
  | ok _ => exact hexec.1 _ _ h
  | error e => exact hexec.2 _ _ h

-- In every run of mounts and lookups: a target that is found is busy only if it is spelled "/", also if
-- it is the root of a mounted filesystem, no directory is covered twice, a mount that fails changes no
-- walk, and a walk that enters mounts comes to a directory that nothing covers.
theorem mount_discipline {fs : Nat → Fs} {fat : Nat → Option FatVolume}
    {l : List (Request × Except Errno Unit)} (h : Run Request.Step (initial fs fat) l v)
    (dev : Option Nat) (fstype : Name) (path : List Byte) :
    (∀ dir, v.target path = .ok dir → opsForFstype fstype ≠ none → dev ≠ none →
      (∀ b k, (v.fs b).env k ≠ some .ebusy) →
      ((∃ w, (vfsMount dev fstype path).run v = some (.ok (.error .ebusy, w)) ∧ w.mount = v.mount) ↔
        path = [slash])) ∧
    (∀ i j mp mp' c, v.mount i = some mp → v.mount j = some mp' → mp.covered = some c →
      mp'.covered = some c → i = j) ∧
    (∀ e w, (vfsMount dev fstype path).run v = some (.ok (.error e, w)) → w.mount = v.mount ∧
      ∀ p, w.target p = v.target p ∧ w.parentOf p = v.parentOf p) ∧
    (∀ i mp m k, v.mount i = some mp → mp.covered = some (m, k) → m < i) ∧
    ∀ cur, v.mountedOn (v.crossMounts vfsMountMax cur).mnt (v.crossMounts vfsMountMax cur).ino = none := by
  have ha : v.Apart := h.invariant ⟨⟨nofun, nofun, nofun⟩, nofun⟩ fun u e u' hu hs => hu.step hs
  refine ⟨fun dir ht hops hdev henv => ⟨?_, ?_⟩, ha.apart, fun e w hw => ?_, ha.ordered.covers,
    fun cur => ha.ordered.crossed (Nat.le_add_right ..)⟩
  · rintro ⟨w, hw, -⟩
    by_contra hp
    have hne : wlp (vfsMount dev fstype path) (fun _ _ => True) (fun e _ => e ≠ .ebusy) v := by
      refine wlp_vfsMount ha.ordered (fun e w _ hr he => ?_) fun _ _ _ _ _ _ _ => trivial
      subst he
      rcases hr rfl with hs | hs | ⟨b, k, hk⟩
      · exact hp hs
      · cases ht.symm.trans hs
      · exact henv b k hk
    exact hne.2 _ _ hw rfl
  · rintro rfl
    refine ⟨v, ?_, rfl⟩
    have h0 : (v.mount 0).isSome := (target_uncovered ha.ordered ht).1
    obtain ⟨ops, hops⟩ := Option.ne_none_iff_exists'.1 hops
    obtain ⟨b, rfl⟩ := Option.ne_none_iff_exists'.1 hdev
    simp only [vfsMount, hops, if_true]
    rw [vfsMountRoot, run_bind_ok (run_read _ _), id, if_pos h0]
    rfl
  · have hw' := ha.mount.2 _ _ hw
    exact ⟨hw'.mount, hw'.walks⟩

def mountRequest (b : Nat) (path : List Byte) : Request := .mount (some b) minixType path

theorem mount_discipline_root : ∃ s w, Run Request.Step emptyVolumes [(mountRequest 0 [slash], .ok ())] s ∧
    (vfsMount (some 1) minixType [slash]).run s = some (.ok (.error .ebusy, w)) ∧ w.mount = s.mount := by
  obtain ⟨s, h, dir, ht, henv⟩ : ∃ s, Request.Step emptyVolumes (mountRequest 0 [slash], .ok ()) s ∧
      ∃ dir, s.target [slash] = .ok dir ∧ ∀ b k, (s.fs b).env k = none := by
    refine ⟨_, rfl, _, rfl, fun b k => ?_⟩
    cases b <;> rfl
  have hrun : Run Request.Step emptyVolumes [(mountRequest 0 [slash], .ok ())] s := .one h
  obtain ⟨w, hw⟩ := ((mount_discipline hrun (some 1) minixType [slash]).1 dir ht (by decide) (by decide)
    (by simp [henv])).2 rfl
  exact ⟨s, w, hrun, hw⟩

-- The path "//" is the root of the mounted filesystem, and another one is mounted on it.
theorem root_covered : ∃ s w, Run Request.Step emptyVolumes [(mountRequest 0 [slash], .ok ())] s ∧
    s.target [slash, slash] = .ok (s.root 0) ∧ Request.Step s (mountRequest 1 [slash, slash], .ok ()) w ∧
    w.target [slash] = .ok (w.root 1) :=
  ⟨_, _, .one rfl, rfl, rfl, rfl⟩

end Jnu.Vfs.Names
