import Jnu.Lib.Trace
import Jnu.Vfs.Names

namespace Jnu.Vfs.Names

open Lib.Bytes Lib.Effect Lib.Trace
open Minix (Name slash)
open Function (forall_update_iff update update_eq_self update_of_ne update_self)

variable {v v' w u : State} {α : Type} {m k n c j : Nat} {Q : Unit → State → Prop} {old new : List Byte}
  {mp mp' : Mountpoint}

-- The slots of the mount table are taken in order, and a mount covers a directory of an earlier one.
structure State.Ordered (v : State) : Prop where
  range : ∀ i, (v.mount i).isSome → i < vfsMountMax
  filled : ∀ i j, i < j → (v.mount j).isSome → (v.mount i).isSome
  covers : ∀ i mp m k, v.mount i = some mp → mp.covered = some (m, k) → m < i

section paths

variable {cur next dir : Inode} {p rest : List Name}

theorem mountedOn_some {i : Nat} (h : v.mountedOn m k = some i) :
    ∃ mp, v.mount i = some mp ∧ mp.covered = some (m, k) := by
  have hi := List.find?_some h
  cases hm : v.mount i with
  | none => simp [hm] at hi
  | some mp =>
    rw [hm] at hi
    have hc := (of_decide_eq_true hi).2
    exact ⟨mp, rfl, by simpa using hc⟩

@[simp] theorem root_mnt (i : Nat) : (v.root i).mnt = i := by
  unfold State.root
  split <;> rfl

theorem opsLookup_mnt {name : Name} (h : v.opsLookup cur name = .ok next) : next.mnt = cur.mnt := by
  unfold State.opsLookup at h
  split_ifs at h
  split at h
  · split at h
    · cases h
    · cases h
      rfl
  · split at h
    · cases h
    · cases h
      rfl

theorem State.Ordered.crossed (ho : v.Ordered) (hn : vfsMountMax ≤ n + cur.mnt) :
    v.mountedOn (v.crossMounts n cur).mnt (v.crossMounts n cur).ino = none := by
  have hlt : ∀ c : Inode, ∀ i, v.mountedOn c.mnt c.ino = some i → c.mnt < i ∧ i < vfsMountMax := by
    intro c i hi
    obtain ⟨mp, hmp, hc⟩ := mountedOn_some hi
    exact ⟨ho.covers i mp _ _ hmp hc, ho.range i (by rw [hmp]; rfl)⟩
  induction n generalizing cur with
  | zero =>
    unfold State.crossMounts
    cases hm : v.mountedOn cur.mnt cur.ino with
    | none => rfl
    | some i =>
      have := hlt cur i hm
      omega
  | succ n ih =>
    unfold State.crossMounts
    cases hm : v.mountedOn cur.mnt cur.ino with
    | none => exact hm
    | some i =>
      have := hlt cur i hm
      refine ih ?_
      rw [root_mnt]
      omega

theorem crossMounts_used (h : (v.mount cur.mnt).isSome) (n : Nat) :
    (v.mount (v.crossMounts n cur).mnt).isSome := by
  induction n generalizing cur with
  | zero => exact h
  | succ n ih =>
    unfold State.crossMounts
    cases hm : v.mountedOn cur.mnt cur.ino with
    | none => exact h
    | some i =>
      obtain ⟨mp, hmp, -⟩ := mountedOn_some hm
      exact ih (by rw [root_mnt, hmp]; rfl)

-- The walk comes to an inode of a mounted filesystem that nothing covers.
theorem openLoop_uncovered (ho : v.Ordered) (hu : (v.mount cur.mnt).isSome)
    (hc : v.mountedOn cur.mnt cur.ino = none) (hl : v.openLoop rest cur = .ok dir) :
    (v.mount dir.mnt).isSome ∧ v.mountedOn dir.mnt dir.ino = none := by
  induction rest generalizing cur with
  | nil =>
    cases hl
    exact ⟨hu, hc⟩
  | cons comp rest ih =>
    unfold State.openLoop at hl
    split_ifs at hl
    cases hn : v.opsLookup cur comp with
    | error e =>
      unfold State.walkStep at hl
      rw [hn] at hl
      cases hl
    | ok next =>
      unfold State.walkStep at hl
      rw [hn] at hl
      rw [← opsLookup_mnt hn] at hu
      exact ih (crossMounts_used hu vfsMountMax) (ho.crossed (Nat.le_add_right ..)) hl

theorem target_uncovered (ho : v.Ordered) {path : List Byte} (h : v.target path = .ok dir) :
    (v.mount 0).isSome ∧ (v.mount dir.mnt).isSome ∧ v.mountedOn dir.mnt dir.ino = none := by
  unfold State.target State.walkStart at h
  cases h0 : v.mount 0 with
  | none =>
    rw [h0] at h
    cases h
  | some mp =>
    rw [h0] at h
    cases hp : normalizePath path with
    | error e =>
      rw [hp] at h
      cases h
    | ok comps =>
      rw [hp] at h
      have hroot : (v.mount (v.root 0).mnt).isSome := by rw [root_mnt, h0]; rfl
      exact ⟨rfl, openLoop_uncovered ho (crossMounts_used hroot vfsMountMax)
        (ho.crossed (Nat.le_add_right ..)) h⟩

end paths

section calls

variable {b i : Nat} {dev : Option Nat} {fstype : Name} {E : Errno → State → Prop} {path : List Byte}
  {dir : Inode} {P : Nat → Nat → Nat → Prop}

structure State.Ticked (v v' : State) : Prop where
  fat : v'.fat = v.fat
  mount : v'.mount = v.mount
  fs : ∀ b, ∃ c, v'.fs b = { v.fs b with clock := c }

theorem State.Ticked.trans (h : v.Ticked v') (h' : v'.Ticked w) : v.Ticked w := by
  refine ⟨h'.fat.trans h.fat, h'.mount.trans h.mount, fun b => ?_⟩
  obtain ⟨c, hc⟩ := h.fs b
  obtain ⟨c', hc'⟩ := h'.fs b
  exact ⟨c', by rw [hc', hc]⟩

theorem State.Ticked.ordered (h : v.Ticked v') (ho : v.Ordered) : v'.Ordered := by
  constructor <;> rw [h.mount]
  · exact ho.range
  · exact ho.filled
  · exact ho.covers

def State.setFs (v : State) (b : Nat) (s : Fs) : State := { v with fs := update v.fs b s }

theorem ticked_clock : v.Ticked (v.setFs b { v.fs b with clock := c }) := by
  refine ⟨rfl, rfl, fun b' => ?_⟩
  by_cases hb : b' = b
  · subst hb
    exact ⟨c, update_self ..⟩
  · exact ⟨(v.fs b').clock, update_of_ne hb ..⟩

theorem wp_tick :
    wp (onDevice b below) (fun _ w => w = v.setFs b { v.fs b with clock := (v.fs b).clock + 1 })
      (fun e w => (v.fs b).env (v.fs b).clock = some e ∧ v.Ticked w) v := by
  refine wp_zoom (wp_bind (wp_read (wp_bind (wp_write ?_))))
  cases he : (v.fs b).env (v.fs b).clock with
  | none =>
    simp only [id, he]
    exact wp_pure rfl
  | some e =>
    simp only [id, he]
    exact wp_error ⟨rfl, ticked_clock⟩

theorem wlp_below_tick (hQ : ∀ w, v.Ticked w → Q () w)
    (hE : ∀ e w, v.Ticked w → (v.fs b).env (v.fs b).clock = some e → E e w) :
    wlp (onDevice b below) Q E v :=
  (wp_tick.mono (fun _ w hw => hQ w (hw ▸ ticked_clock)) fun e w hw => hE e w hw.2 hw.1).wlp

theorem wlp_opsMount {ops : FsType} (hQ : ∀ w, v.Ticked w → Q () w)
    (hE : ∀ e w, v.Ticked w → e = .einval ∨ (v.fs b).env (v.fs b).clock = some e → E e w) :
    wlp (opsMount ops b) Q E v := by
  refine wlp_bind (wlp_below_tick (fun w hw => ?_) fun e w hw he => hE e w hw (.inr he))
  exact wlp_bind (wlp_read (wlp_ite (fun _ => wlp_pure (hQ w hw)) fun _ => wlp_error (hE _ w hw (.inl rfl))))

theorem wlp_onDirectory {m : FsM α} {Q : α → State → Prop}
    (h : v.fat (v.bdev dir.mnt) = none → wlp m (fun a s => Q a (v.setFs (v.bdev dir.mnt) s))
      (fun e s => E e (v.setFs (v.bdev dir.mnt) s)) (v.fs (v.bdev dir.mnt)))
    (hE : E .enosys v) : wlp (onDirectory dir m) Q E v := by
  refine wlp_bind (wlp_read ?_)
  dsimp only [id]
  cases hf : v.fat (v.bdev dir.mnt) with
  | none => exact wlp_zoom (h hf)
  | some w => exact wlp_error hE

theorem State.freeSlot_some (h : v.freeSlot = some i) :
    i ≠ 0 ∧ i < vfsMountMax ∧ v.mount i = none ∧ ∀ j, j < i → j ≠ 0 → (v.mount j).isSome := by
  obtain ⟨hi, hmem, hbefore⟩ := List.find?_range_eq_some.1 h
  have hi' := of_decide_eq_true hi
  refine ⟨hi'.1, List.mem_range.1 hmem, Option.isNone_iff_eq_none.1 hi'.2, fun j hj hz => ?_⟩
  have := hbefore j hj
  simpa [hz, Option.isSome_iff_ne_none] using this

theorem setMount_self (i : Nat) (m : Mountpoint) : (v.setMount i m).mount i = some m :=
  update_self ..

theorem setMount_of_ne (h : j ≠ i) (m : Mountpoint) : (v.setMount i m).mount j = v.mount j :=
  update_of_ne h ..

theorem setMount_cases (h : (v.setMount i mp).mount j = some mp') :
    j = i ∧ mp' = mp ∨ v.mount j = some mp' := by
  by_cases hji : j = i
  · subst hji
    rw [setMount_self] at h
    cases h
    exact .inl ⟨rfl, rfl⟩
  · rw [setMount_of_ne hji] at h
    exact .inr h

theorem State.Ordered.setMount (ho : v.Ordered) (hlt : i < vfsMountMax)
    (hused : ∀ j, (v.mount j).isSome ↔ j < i) (hnew : ∀ m k, mp.covered = some (m, k) → m < i) :
    (v.setMount i mp).Ordered := by
  have hsome : ∀ j, ((v.setMount i mp).mount j).isSome ↔ j ≤ i := by
    intro j
    by_cases hji : j = i
    · simp [hji, setMount_self]
    · rw [setMount_of_ne hji, hused]
      omega
  refine ⟨fun j hj => ?_, fun j j' hjj hj => ?_, fun j mp' m k hj hc => ?_⟩
  · exact ((hsome j).1 hj).trans_lt hlt
  · exact (hsome j).2 (hjj.le.trans ((hsome j').1 hj))
  · rcases setMount_cases hj with ⟨rfl, rfl⟩ | hold
    · exact hnew m k hc
    · exact ho.covers j mp' m k hold hc

theorem State.Ordered.used (ho : v.Ordered) (hnone : v.mount i = none)
    (hbefore : ∀ j, j < i → (v.mount j).isSome) (j : Nat) : (v.mount j).isSome ↔ j < i := by
  refine ⟨fun hj => ?_, hbefore j⟩
  by_contra hge
  have hi : (v.mount i).isSome := by
    rcases Nat.eq_or_lt_of_le (Nat.le_of_not_lt hge) with rfl | hlt
    · exact hj
    · exact ho.filled i j hlt hj
  rw [hnone] at hi
  cases hi

-- A mount fills the first free slot, with the directory that its target is. The walk to the target
-- ends at a directory that nothing covers, so the check for a second mount does not find one.
theorem wlp_vfsMount (ho : v.Ordered)
    (hE : ∀ e w, v.Ticked w → (e = .ebusy → path = [slash] ∨ v.target path = .error e ∨
      ∃ b k, (v.fs b).env k = some e) → E e w)
    (hQ : ∀ w i mp, v.Ticked w → i < vfsMountMax → (∀ j, (v.mount j).isSome ↔ j < i) →
      (∀ m k, mp.covered = some (m, k) → ∃ dir, v.target path = .ok dir ∧ m = dir.mnt ∧ k = dir.ino) →
      Q () (w.setMount i mp)) :
    wlp (vfsMount dev fstype path) Q E v := by
  have hv : v.Ticked v := ⟨rfl, rfl, fun b => ⟨_, rfl⟩⟩
  have hbelow : ∀ {u b e w}, v.Ticked u → u.Ticked w →
      e = .einval ∨ (u.fs b).env (u.fs b).clock = some e → E e w := by
    intro u b e w hu hw he
    refine hE e w (hu.trans hw) fun hb => .inr (.inr ?_)
    obtain ⟨c, hc⟩ := hu.fs b
    rw [hc] at he
    exact ⟨b, _, he.resolve_left (by simp [hb])⟩
  unfold vfsMount
  split
  case h_2 => exact wlp_error (hE _ v hv nofun)
  refine wlp_ite (fun hp => ?_) fun _ => ?_
  · refine wlp_bind (wlp_read (wlp_ite (fun _ => wlp_error (hE _ v hv fun _ => .inl hp)) fun h0 => ?_))
    refine wlp_bind (wlp_opsMount (fun w hw => wlp_write ?_) fun _ _ => hbelow hv)
    have h0' : v.mount 0 = none := by simpa using h0
    exact hQ w 0 _ hw (by decide) (ho.used h0' nofun) nofun
  refine wlp_bind (wlp_read (wlp_ite (fun _ => wlp_error (hE _ v hv nofun)) fun h0 => ?_))
  refine wlp_bind (wlp_bind (wlp_read (wlp_bind (wlp_below_tick (fun u hu => ?_) fun _ _ hw he =>
    hbelow hv hw (.inr he)))))
  cases ht : v.target path with
  | error e => exact wlp_error (hE e u hu fun _ => .inr (.inl ht))
  | ok dir =>
    obtain ⟨h0', -, hm⟩ := target_uncovered ho ht
    refine wlp_pure (wlp_ite (fun _ => wlp_error (hE _ u hu nofun)) fun _ =>
      wlp_ite (fun hs => absurd hs (by simp [hm])) fun _ => ?_)
    dsimp only [id]
    cases hi : v.freeSlot with
    | none => exact wlp_error (hE _ u hu nofun)
    | some i =>
      refine wlp_bind (wlp_opsMount (fun w hw => wlp_write ?_) fun _ _ => hbelow hu)
      obtain ⟨-, hlt, hnone, hbefore⟩ := State.freeSlot_some hi
      refine hQ w i _ (hu.trans hw) hlt (ho.used hnone fun j hj => ?_) ?_
      · by_cases hj0 : j = 0
        · rwa [hj0]
        · exact hbefore j hj hj0
      · rintro m k ⟨⟩
        exact ⟨dir, ht, rfl, rfl⟩

end calls

def emptyVolume : Fs where
  ninodes := 4
  imap := fun i => i = 1
  isDir := fun i => i = 1
  executable := fun _ => true
  nlinks := fun _ => 2
  entries := fun d => if d = 1 then [⟨1, Minix.dot⟩, ⟨1, Minix.dotdot⟩] else []
  env := fun _ => none
  clock := 0

def emptyVolumes : State := initial (fun _ => emptyVolume) fun _ => none

-- The paths "/m" and "/n".
def pathM : List Byte := [0x2f, 0x6d]

def pathN : List Byte := [0x2f, 0x6e]

def mountMove (b : Nat) (path : List Byte) : Move := .mount (some b) minixType path

end Jnu.Vfs.Names
