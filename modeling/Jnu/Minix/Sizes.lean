import Jnu.Minix.Refine
import Jnu.Minix.Sample
import Jnu.Minix.Reads
import Jnu.Minix.Super

namespace Jnu.Minix

open Lib.Bytes Lib.Effect Lib.Trace
open Function

variable {α : Type} {s₀ s s' : Fs} {o size ino : Nat} {nd : Node} {l : List FileEvent} {e : FileEvent}

section truncate

-- The two sizes of the object are the same exactly if the field of the raw inode can hold the size.
def SizesMeet (o size : Nat) (s : Fs) : Prop :=
  ∀ nd, s.node o = some nd → (nd.raw.size.toNat = nd.size ↔ size < 2 ^ 32)

-- Whatever comes before, the last call sets the size.
theorem wlp_last {m : FsM α} {f : α → FsM Unit}
    (hf : ∀ a s, wlp (f a) (fun _ => SizesMeet o size) (fun _ _ => True) s) :
    wlp (m >>= f) (fun _ => SizesMeet o size) (fun _ _ => True) s :=
  wlp_bind (wlp_true.mono (fun a s' _ => hf a s') fun _ _ h => h)

theorem setSize_meet : wlp (setSize o size) (fun _ => SizesMeet o size) (fun _ _ => True) s := by
  refine wlp_last fun _ _ => wlp_last fun nd s => wlp_write fun nd' hn => ?_
  cases (update_self o _ s.node).symm.trans hn
  exact (Nat.mod_eq_iff_lt (by decide)).trans Iff.rfl

theorem minixTruncate_meet (hn : s.node o = some nd) (hsize : nd.raw.size.toNat = nd.size) :
    wlp (minixTruncate o size) (fun _ => SizesMeet o size) (fun _ _ => True) s := by
  apply wlp_bind
  refine (wp_nodeOf hn ?_).wlp
  refine wlp_ite (fun _ => setSize_meet) fun _ => wlp_ite (fun heq => wlp_pure ?_)
    fun _ => wlp_ite (fun _ => ?_) fun _ => ?_
  · intro nd' hn'
    cases hn.symm.trans hn'
    rw [heq, ← hsize]
    exact iff_of_true rfl nd.raw.size.isLt
  · exact wlp_last fun _ _ => wlp_last fun _ _ => setSize_meet
  · refine wlp_last fun _ _ => wlp_last fun _ _ => wlp_last fun _ _ => wlp_last fun _ _ => ?_
    exact wlp_last fun _ _ => wlp_last fun _ _ => setSize_meet

end truncate

section filed

-- The objects of a volume and its inode table: one object for an inode, whose size the table has unless
-- the object is dirty.
structure Filed (s : Fs) : Prop where
  super : Super.get (s.block 1) = s.sb
  range : ∀ o nd, s.node o = some nd → 1 ≤ nd.ino ∧ nd.ino ≤ s.sb.ninodes
  alone : ∀ o o' nd nd', s.node o = some nd → s.node o' = some nd' → nd.ino = nd'.ino → o = o'
  clean : ∀ o nd, s.node o = some nd → nd.dirty = false → (s.diskInode nd.ino).size = nd.raw.size

theorem Outer.diskInode (ho : Outer o s s') (hf : s.sb.Fits s.nblocks) (h1 : 1 ≤ ino)
    (h2 : ino ≤ s.sb.ninodes) : s'.diskInode ino = s.diskInode ino := by
  unfold Fs.diskInode
  rw [ho.sb, ho.below _ (hf.inode_area h1 h2)]

theorem Filed.step (h : Sound s) (hf : Filed s) (he : FileStep s e s') : Filed s' := by
  obtain ⟨nd, hn⟩ := Option.isSome_iff_exists.1 he.live
  have hout := he.outcome h.consistent h.calm
  have ho := hout.outer
  obtain ⟨nd', hn', hino, hclean⟩ := hout.self hn
  -- every object of the new state was there before, with the same inode
  have hback : ∀ o x', s'.node o = some x' → ∃ x, s.node o = some x ∧ x'.ino = x.ino ∧
      (x'.dirty = false → x.dirty = false ∧ x'.raw.size = x.raw.size) := by
    intro o x' hx'
    by_cases hobj : o = e.1.object
    · subst hobj
      cases hn'.symm.trans hx'
      exact ⟨nd, hn, hino, hclean⟩
    · exact ⟨x', (ho.node o hobj).symm.trans hx', rfl, fun hd => ⟨hd, rfl⟩⟩
  refine ⟨?_, fun o x' hx' => ?_, fun o o' x' y' hx' hy' heq => ?_, fun o x' hx' hd => ?_⟩
  · rw [ho.sb, ho.below 1 (.inl (by omega))]
    exact hf.super
  · obtain ⟨x, hx, hi, -⟩ := hback o x' hx'
    rw [ho.sb, hi]
    exact hf.range o x hx
  · obtain ⟨x, hx, hi, -⟩ := hback o x' hx'
    obtain ⟨y, hy, hj, -⟩ := hback o' y' hy'
    exact hf.alone o o' x y hx hy (by rw [← hi, ← hj, heq])
  · obtain ⟨x, hx, hi, hc⟩ := hback o x' hx'
    obtain ⟨hd, hsize⟩ := hc hd
    obtain ⟨h1, h2⟩ := hf.range o x hx
    rw [hi, ho.diskInode h.consistent.fits h1 h2, hf.clean o x hx hd, hsize]

theorem FileRun.filed (h : Sound s₀ ∧ Filed s₀) (hrun : Run FileStep s₀ l s) : Sound s ∧ Filed s :=
  hrun.invariant (I := fun s => Sound s ∧ Filed s) h fun _ _ _ h he => ⟨he.sound h.1, h.2.step h.1 he⟩

end filed

section reopen

theorem get_put_size (r : RawInode) (m : Mem) (off : Nat) : (RawInode.get (r.put m off) off).size = r.size := by
  have hload : load (r.put m off) (off + 4) 4 = r.size.toNat := by
    refine load_of_bytes r.size.isLt fun i hi => ?_
    have hin : off ≤ off + 4 + i ∧ off + 4 + i < off + rawInodeSize := by
      unfold rawInodeSize
      omega
    have hi4 : off + 4 + i - off = i + 4 := by omega
    rw [RawInode.put, if_pos hin, hi4, RawInode.byte, if_neg (by omega), if_neg (by omega), if_pos (by omega),
      Nat.add_sub_cancel]
  rw [RawInode.get, hload, BitVec.ofNat_toNat, BitVec.setWidth_eq]

theorem InodeArea.lt {sb : Super} {b nblocks : Nat} (hf : sb.Fits nblocks) (hb : InodeArea sb b) :
    b < nblocks := by
  have := hf.first
  have := hf.first_lt
  have := hf.device
  rcases hb with hb | hb <;> omega

-- The size is in the inode table, and only the object has changed.
structure Flushed (o ino : Nat) (size : BitVec 32) (s s' : Fs) : Prop where
  sb : s'.sb = s.sb
  nblocks : s'.nblocks = s.nblocks
  env : s'.env = s.env
  other : ∀ o', o' ≠ o → s'.node o' = s.node o'
  super : s'.block 1 = s.block 1
  disk : (s'.diskInode ino).size = size

theorem minixWriteInode_flushes (h : Sound s) (hf : Filed s) (hn : s.node o = some nd) :
    wp (minixWriteInode o) (fun _ => Flushed o nd.ino nd.raw.size s) never s := by
  obtain ⟨h1, h2⟩ := hf.range o nd hn
  have harea := h.consistent.fits.inode_area h1 h2
  have hne : 1 ≠ inodeBlock s.sb nd.ino := by
    have : inodesStart s.sb ≤ inodeBlock s.sb nd.ino := Nat.le_add_right _ _
    unfold inodesStart at this
    omega
  apply wp_bind_nodeOf hn
  refine wp_ite (fun _ => ?_) fun hd => ?_
  · apply wp_bind
    apply wp_bind
    apply wp_superOf
    rw [if_neg (by omega)]
    apply wp_get_then h.calm (harea.lt h.consistent.fits)
    intro c
    apply wp_dataOf
    apply wp_setData
    apply wp_setNode
    refine ⟨rfl, rfl, rfl, fun o' ho' => withNode_other ho', update_of_ne hne .., ?_⟩
    change (RawInode.get (update s.block _ _ (inodeBlock s.sb nd.ino)) _).size = _
    rw [update_self]
    exact get_put_size ..
  · exact wp_pure ⟨rfl, rfl, rfl, fun _ _ => rfl, rfl, hf.clean o nd hn (by simpa using hd)⟩

-- Every object of the inode has the size.
def Shows (ino size : Nat) (s : Fs) : Prop := ∀ o nd, s.node o = some nd → nd.ino = ino → nd.size = size

-- The size is in the inode table, and every object of the inode has it.
structure Settled (ino : Nat) (size : BitVec 32) (s : Fs) : Prop where
  readable : Readable s
  disk : (s.diskInode ino).size = size
  node : ∀ o nd, s.node o = some nd → nd.ino = ino → nd.size = size.toNat ∧ nd.raw.size = size

theorem Settled.shows {size : BitVec 32} (h : Settled ino size s) : Shows ino size.toNat s :=
  fun o nd hn hi => (h.node o nd hn hi).1

theorem Settled.made {size : BitVec 32} (h : Settled ino size s) (hm : Made nd s s')
    (hnd : nd.ino = ino → nd.size = size.toNat ∧ nd.raw.size = size) : Settled ino size s' := by
  refine ⟨hm.quiet.readable h.readable, (congrArg _ (hm.quiet.diskInode ino)).trans h.disk, fun o x hx hi => ?_⟩
  by_cases ho : o = s.next
  · subst ho
    cases hm.node.symm.trans hx
    exact hnd hi
  · exact h.node o x ((hm.other o ho).symm.trans hx) hi

def LookupStep (s : Fs) (e : Nat × Name) (s' : Fs) : Prop := ∃ o, (minixLookup e.1 e.2).run s = done o s'

theorem Settled.lookup {size : BitVec 32} {e : Nat × Name} (h : Settled ino size s) (hs : LookupStep s e s') :
    Settled ino size s' := by
  obtain ⟨o, hrun⟩ := hs
  have hw : wlp (minixLookup e.1 e.2) (fun _ => Settled ino size) (fun _ _ => True) s := by
    cases hn : s.node e.1 with
    | none =>
      apply wlp_none
      unfold minixLookup nodeOf
      rw [run_bind, run_bind_ok (run_read _ _), hn]
      rfl
    | some nd =>
      by_cases hname : e.2 = dot
      · apply wlp_bind
        refine (wp_nodeOf hn ?_).wlp
        refine wlp_ite (fun _ => wlp_error trivial) fun _ => ?_
        rw [if_pos hname]
        apply wlp_bind
        refine (wp_nodeOf hn ?_).wlp
        refine wlp_minixInodeFromRaw (fun s' hm => h.made hm fun hi => ?_) fun _ => trivial
        have hraw := (h.node _ nd hn hi).2
        exact ⟨congrArg BitVec.toNat hraw, hraw⟩
      · refine (wpOr_minixLookup (D := True) h.readable hn hname (fun _ => trivial) (fun p s' _ _ hm => ?_)
          (fun _ => trivial) (fun _ _ _ => trivial) fun _ _ _ _ _ => trivial).wlp
        refine h.made hm fun hi => ?_
        change p.2.inode = ino at hi
        simp only [Fs.loaded, hi, h.disk, and_self]
  exact hw.1 _ _ hrun

theorem minixMount_settles {size : BitVec 32} {bdev : BlockDevice} (hs : s.Calm) (hnone : ∀ o, s.node o = none)
    (hsb : (Super.get (s.block 1)).nzones ≤ s.nblocks) (hdisk :
      (RawInode.get (s.block (inodeBlock (Super.get (s.block 1)) ino)) (inodeOffset ino)).size = size) :
    wlp (minixMount bdev) (fun _ => Settled ino size) (fun _ _ => True) s := by
  apply wlp_bind
  refine (wp_bufcacheGet hs fun c => ?_).wlp
  refine wlp_ite (fun _ => ?_) fun _ => wlp_error trivial
  apply wlp_bind
  apply wlp_read
  split
  · exact wlp_error trivial
  · apply wlp_bind
    refine (wp_kmalloc_cases (fun c => ?_) fun c _ => wlp_error trivial).wlp
    rw [if_pos rfl]
    apply wlp_bind
    apply wlp_write
    have hset : Settled ino size { (s.at c) with sb := Super.get (s.block 1) } :=
      ⟨⟨hs, hsb⟩, hdisk, fun o nd hn => by simp [hnone] at hn⟩
    apply wlp_bind
    refine wlp_minixGetRawInode hs (fun c' => ?_) fun _ _ => trivial
    refine wlp_minixInodeFromRaw (fun s' hm => ?_) fun _ => trivial
    refine hset.made (Made.of_at hm) fun hi => ?_
    change rootIno = ino at hi
    subst hi
    exact ⟨congrArg BitVec.toNat hset.disk, hset.disk⟩

section

variable (h : Sound s) (hf : Filed s) (hn : s.node o = some nd)
include h hf hn

theorem minixClose_settles : wp (minixClose o) (fun _ => Settled nd.ino nd.raw.size) never s := by
  apply wp_bind_attempt
  refine (minixWriteInode_flushes h hf hn).mono (fun _ s' hfl => ?_) fun _ _ he => he.elim
  refine wp_write ⟨⟨fun n => ?_, ?_⟩, hfl.disk, fun o' x hx hi => ?_⟩
  · exact hfl.env ▸ h.calm n
  · exact hfl.sb ▸ hfl.nblocks ▸ h.consistent.fits.device
  · -- another object of the inode there was none
    by_cases ho : o' = o
    · subst ho
      cases (update_self ..).symm.trans hx
    · have hx' := (update_of_ne ho ..).symm.trans hx
      rw [hfl.other o' ho] at hx'
      exact absurd (hf.alone o' o x nd hx' hn hi) ho

theorem minixFsync_flushes :
    wp (minixFsync o) (fun _ s' => Flushed o nd.ino nd.raw.size s s' ∧ s'.device = s'.block) never s := by
  refine (minixWriteInode_flushes h hf hn).next fun _ s' hfl => wp_write ⟨?_, rfl⟩
  exact ⟨hfl.sb, hfl.nblocks, hfl.env, hfl.other, hfl.super, hfl.disk⟩

end

end reopen

theorem sizes_agree (h : Sound s₀) (hf : Filed s₀) (hrun : Run FileStep s₀ l s) (hn : s.node o = some nd) :
    nd.raw.size.toNat = nd.size ∧
    (∃ s₁, (minixClose o).run s = done () s₁ ∧ ∀ ls s₂, Run LookupStep s₁ ls s₂ → Shows nd.ino nd.size s₂) ∧
    (∃ s₁, (minixFsync o).run s = done () s₁ ∧ ∀ bdev env root s₂ ls s₃, (∀ n, env.ioFails n = false) →
      (minixMount bdev).run (.unmounted s₁.device s₁.nblocks env) = done root s₂ →
      Run LookupStep s₂ ls s₃ → Shows nd.ino nd.size s₃) ∧
    (∀ size s', (minixTruncate o size).run s = done () s' → SizesMeet o size s') ∧
    ∀ offset bs, bs ≠ [] → 0xffffffff < offset + min minixWriteMaxChunk bs.length →
      (minixWrite o offset bs).run s = some (.ok (.error .einval, s)) := by
  obtain ⟨hs, hf⟩ := FileRun.filed ⟨h, hf⟩ hrun
  obtain ⟨hmax, hraw⟩ := hs.consistent.sizes o nd hn
  have hsize : nd.raw.size.toNat = nd.size := by
    rw [hraw]
    exact Nat.mod_eq_of_lt (hmax.trans_lt maxSize_lt)
  refine ⟨hsize, ?_, ?_, fun size s' hr => (minixTruncate_meet hn hsize).1 _ _ hr, fun offset bs hbs hlt => ?_⟩
  · obtain ⟨_, s₁, hrun, hset⟩ := (minixClose_settles hs hf hn).exists_ok
    refine ⟨s₁, hrun, fun ls s₂ hls => hsize ▸ Settled.shows ?_⟩
    exact hls.invariant hset fun _ _ _ h he => h.lookup he
  · obtain ⟨_, s₁, hrun, hfl, hdev⟩ := (minixFsync_flushes hs hf hn).exists_ok
    have hsb : Super.get (s₁.device 1) = s₁.sb := by rw [hdev, hfl.super, hf.super, hfl.sb]
    refine ⟨s₁, hrun, fun bdev env root s₂ ls s₃ henv hmount hls => hsize ▸ Settled.shows ?_⟩
    have hmounted : Settled nd.ino nd.raw.size s₂ := by
      refine (minixMount_settles (s := .unmounted s₁.device s₁.nblocks env) henv (fun _ => rfl) ?_ ?_).1
        _ _ hmount
      · change (Super.get (s₁.device 1)).nzones ≤ s₁.nblocks
        rw [hsb, hfl.sb, hfl.nblocks]
        exact hs.consistent.fits.device
      · change (RawInode.get (s₁.device (inodeBlock (Super.get (s₁.device 1)) nd.ino)) _).size = _
        rw [hsb, hdev]
        exact hfl.disk
    exact hls.invariant hmounted fun _ _ _ h he => h.lookup he
  · have hnode : (nodeOf o).run s = done nd s := run_known hn
    rw [← List.length_take] at hlt
    rw [minixWrite, if_neg hbs, writeChunk, run_bind_ok hnode, if_pos hlt]
    rfl

theorem sample_filed : Filed (sample 2 6 oldBytes) := by
  have hcases : ∀ o nd, (sample 2 6 oldBytes).node o = some nd →
      (o = 0 ∧ nd = ⟨1, 48, true, 0x41ed, sampleRoot, false, 1⟩) ∨
        (o = 1 ∧ nd = ⟨2, 2, false, 0x81a4, sampleFile 2 6, false, 1⟩) := by
    intro o nd hn
    simp only [sample, sampleNode] at hn
    split_ifs at hn with h0 h1
    · cases hn
      exact .inl ⟨h0, rfl⟩
    · cases hn
      exact .inr ⟨h1, rfl⟩
  refine ⟨by decide +kernel, fun o nd hn => ?_, fun o o' nd nd' hn hn' hi => ?_, fun o nd hn _ => ?_⟩
  · rcases hcases o nd hn with ⟨-, rfl⟩ | ⟨-, rfl⟩ <;> decide
  · rcases hcases o nd hn with ⟨rfl, rfl⟩ | ⟨rfl, rfl⟩ <;>
      rcases hcases o' nd' hn' with ⟨rfl, rfl⟩ | ⟨rfl, rfl⟩ <;> simp_all
  · rcases hcases o nd hn with ⟨-, rfl⟩ | ⟨-, rfl⟩ <;> decide +kernel

theorem stateAfter_eq {m : FsM α} {a : α} (h : m.run s = done a s') : stateAfter m s = s' := by
  unfold stateAfter
  rw [h]

-- A write makes the file larger; then the file is closed, or synced and mounted again.
def grown : Fs := after (sample 2 6 oldBytes) (.write 1 1024 [0x42])

def closed : Fs := stateAfter (minixClose 1) grown

def synced : Fs := stateAfter (minixFsync 1) grown

def offline : Fs := .unmounted synced.device synced.nblocks grown.env

def remounted : Fs := stateAfter (minixMount ⟨512, 32⟩) offline

theorem sizes_agree_reopened :
    FileStep (sample 2 6 oldBytes) (.write 1 1024 [0x42], .ok (.count 1)) grown ∧
    (minixClose 1).run grown = done () closed ∧ (minixFsync 1).run grown = done () synced ∧
    (minixMount ⟨512, 32⟩).run offline = done 0 remounted ∧
    (∃ s nd, LookupStep closed (0, [0x66]) s ∧ s.node 2 = some nd ∧ nd.ino = 2 ∧ nd.size = 1025) ∧
    ∃ s nd, LookupStep remounted (0, [0x66]) s ∧ s.node 1 = some nd ∧ nd.ino = 2 ∧ nd.size = 1025 := by
  have hstep : FileStep (sample 2 6 oldBytes) (.write 1 1024 [0x42], .ok (.count 1)) grown :=
    fileStep_after rfl trivial (by decide +kernel)
  have hnode : (grown.node 1).map (fun nd => (nd.ino, nd.size)) = some (2, 1025) := by decide +kernel
  obtain ⟨nd, hn, hnd⟩ := Option.map_eq_some_iff.1 hnode
  obtain ⟨hino, hsize⟩ := Prod.mk.inj hnd
  obtain ⟨-, ⟨s₁, hclose, hshow⟩, ⟨t₁, hsync, hshow'⟩, -⟩ :=
    sizes_agree (sample_sound (.inr rfl) (by decide)) sample_filed (.one hstep) hn
  rw [hino, hsize] at hshow hshow'
  obtain rfl : closed = s₁ := stateAfter_eq hclose
  obtain rfl : synced = t₁ := stateAfter_eq hsync
  have hmount : (minixMount ⟨512, 32⟩).run offline = done 0 remounted := run_stateAfter (by decide +kernel)
  have hfind : LookupStep closed (0, [0x66]) (stateAfter (minixLookup 0 [0x66]) closed) :=
    ⟨2, run_stateAfter (by decide +kernel)⟩
  have hfind' : LookupStep remounted (0, [0x66]) (stateAfter (minixLookup 0 [0x66]) remounted) :=
    ⟨1, run_stateAfter (by decide +kernel)⟩
  have hfound : ((stateAfter (minixLookup 0 [0x66]) closed).node 2).map Node.ino = some 2 := by decide +kernel
  have hfound' : ((stateAfter (minixLookup 0 [0x66]) remounted).node 1).map Node.ino = some 2 := by
    decide +kernel
  obtain ⟨x, hx, hi⟩ := Option.map_eq_some_iff.1 hfound
  obtain ⟨y, hy, hj⟩ := Option.map_eq_some_iff.1 hfound'
  exact ⟨hstep, hclose, hsync, hmount, ⟨_, x, hfind, hx, hi, hshow _ _ (.one hfind) 2 x hx hi⟩,
    _, y, hfind', hy, hj, hshow' _ _ _ _ _ _ (fun _ => rfl) hmount (.one hfind') 1 y hy hj⟩

-- A truncate to 2^32 bytes leaves a raw inode of an empty file.
theorem truncate_size_lost : ∃ s' nd,
    (minixTruncate 1 (2 ^ 32)).run (sample 2 6 oldBytes) = some (.ok (.ok (), s')) ∧
      s'.node 1 = some nd ∧ nd.size = 2 ^ 32 ∧ nd.raw.size = 0 := ⟨_, _, rfl, rfl, rfl, rfl⟩

end Jnu.Minix
