import Jnu.Minix.Alloc

namespace Jnu.Minix

open Lib.Bytes Lib.Effect
open Function

variable {o z i : Nat} {s s' s'' : Fs} {c : Clock} {nd a : Node} {sl t : Slot}

variable {ι : Type}

-- The family with the inode of `κ` as the object `o` has it now.
def Files.refresh [DecidableEq ι] (F : Files ι) (κ : ι) (s : Fs) (o : Nat) : Files ι :=
  update F κ ((s.node o).map Node.raw)

-- The object `o` holds the inode of the file `κ`, and the files lie on the volume.
structure Good (s : Fs) (F : Files ι) (κ : ι) (o : Nat) : Prop where
  fits : s.sb.Fits s.nblocks
  calm : s.Calm
  held : Held s.sb s.block F
  live : ∃ nd, s.node o = some nd ∧ F κ = some nd.raw

-- The object still stands for the same file; its zone numbers may be others.
structure NodeKept (nd nd' : Node) : Prop where
  ino : nd'.ino = nd.ino
  size : nd'.size = nd.size
  isDir : nd'.isDir = nd.isDir
  mode : nd'.mode = nd.mode
  refcount : nd'.refcount = nd.refcount
  raw : nd'.raw = { nd.raw with zone := nd'.raw.zone }
  dirty : nd.dirty = true → nd'.dirty = true

-- What work on the object `o` leaves alone: the other objects, the inode bitmap and the inode
-- table.
structure Outer (o : Nat) (s s' : Fs) : Prop where
  sb : s'.sb = s.sb
  nblocks : s'.nblocks = s.nblocks
  device : s'.device = s.device
  icache : s'.icache = s.icache
  next : s'.next = s.next
  env : s'.env = s.env
  node : ∀ o', o' ≠ o → s'.node o' = s.node o'
  below : ∀ b, InodeArea s.sb b → s'.block b = s.block b

-- Work on the zones of `o` only.
structure Frame (o : Nat) (s s' : Fs) : Prop extends Outer o s s' where
  self : ∀ nd, s.node o = some nd → ∃ nd', s'.node o = some nd' ∧ NodeKept nd nd'

theorem NodeKept.refl (nd : Node) : NodeKept nd nd := ⟨rfl, rfl, rfl, rfl, rfl, rfl, fun h => h⟩

theorem NodeKept.trans {b c : Node} (h : NodeKept a b) (h' : NodeKept b c) : NodeKept a c where
  ino := h'.ino.trans h.ino
  size := h'.size.trans h.size
  isDir := h'.isDir.trans h.isDir
  mode := h'.mode.trans h.mode
  refcount := h'.refcount.trans h.refcount
  raw := by rw [h'.raw, h.raw]
  dirty := fun hd => h'.dirty (h.dirty hd)

section frame

variable {nd' : Node} {block : Nat → Mem}

theorem Outer.at (o : Nat) (s : Fs) (c : Clock) : Outer o s (s.at c) :=
  ⟨rfl, rfl, rfl, rfl, rfl, rfl, fun _ _ => rfl, fun _ _ => rfl⟩

theorem Frame.at (o : Nat) (s : Fs) (c : Clock) : Frame o s (s.at c) :=
  ⟨.at o s c, fun nd hn => ⟨nd, hn, .refl nd⟩⟩

theorem Outer.trans (h : Outer o s s') (h' : Outer o s' s'') : Outer o s s'' where
  sb := h'.sb.trans h.sb
  nblocks := h'.nblocks.trans h.nblocks
  device := h'.device.trans h.device
  icache := h'.icache.trans h.icache
  next := h'.next.trans h.next
  env := h'.env.trans h.env
  node := fun o' ho => (h'.node o' ho).trans (h.node o' ho)
  below := fun b hb => by
    have := h'.below b
    rw [h.sb] at this
    rw [this hb, h.below b hb]

theorem Frame.trans (h : Frame o s s') (h' : Frame o s' s'') : Frame o s s'' where
  toOuter := h.toOuter.trans h'.toOuter
  self := fun nd hn => by
    obtain ⟨nd', hn', hk⟩ := h.self nd hn
    obtain ⟨nd'', hn'', hk'⟩ := h'.self nd' hn'
    exact ⟨nd'', hn'', hk.trans hk'⟩

theorem Outer.of_at (h : Outer o (s.at c) s') : Outer o s s' :=
  ⟨h.sb, h.nblocks, h.device, h.icache, h.next, h.env, h.node, h.below⟩

theorem Frame.of_at (h : Frame o (s.at c) s') : Frame o s s' := ⟨h.toOuter.of_at, h.self⟩

theorem Outer.put (hb : ∀ b, InodeArea s.sb b → block b = s.block b) :
    Outer o s (((s.at c).withBlock block).withNode o nd') :=
  ⟨rfl, rfl, rfl, rfl, rfl, rfl, fun _ ho => withNode_other ho, hb⟩

theorem Frame.put (hn : s.node o = some nd) (hk : NodeKept nd nd')
    (hb : ∀ b, InodeArea s.sb b → block b = s.block b) :
    Frame o s (((s.at c).withBlock block).withNode o nd') where
  toOuter := .put hb
  self := fun nd0 hn0 => by
    rw [hn, Option.some.injEq] at hn0
    exact ⟨nd', withNode_self, hn0 ▸ hk⟩

theorem put_same (hn : s.node o = some nd) :
    ((s.at c).withBlock block).withNode o
      ⟨nd.ino, nd.size, nd.isDir, nd.mode, nd.raw, nd.dirty, nd.refcount⟩ =
        (s.at c).withBlock block := by
  have : update s.node o (some nd) = s.node := by rw [← hn, update_eq_self]
  unfold Fs.withNode
  rw [withBlock_node, at_node, this]
  rfl

end frame

section grown

variable {κ κ' : ι} {F : Files ι} {A A' : Slot → Prop}

theorem Good.node (h : Good s F κ o) (hn : s.node o = some nd) : F κ = some nd.raw := by
  obtain ⟨nd', hn', hF⟩ := h.live
  rw [hn, Option.some.injEq] at hn'
  rw [hF, hn']

-- The number of a table is 0 or in the data area, so the checks on it come down to one.
theorem Good.table_zero (h : Good s F κ o)
    (hc : slotZone s.block F κ t = 0 ∨ ¬ inData s.sb (slotZone s.block F κ t) = true) (ht : t.IsTable) :
    slotZone s.block F κ t = 0 := by
  rcases hc with hc | hc
  · exact hc
  · by_contra hne
    exact hc (inData_iff.2 (h.held.apart.table κ t ht hne))

theorem slotZone_of_table (hh : sl.home = .entry t i) (h0 : slotZone s.block F κ t = 0) :
    slotZone s.block F κ sl = 0 := by
  cases hF : F κ with
  | none => exact slotZone_none hF
  | some r =>
    rw [slotZone_eq hF] at h0 ⊢
    by_contra hne
    exact zoneOf_table_ne hh hne h0

theorem Good.open_entry (h : Good s F κ o) (hn : s.node o = some nd) (hh : sl.home = .entry t i)
    (ht : slotZone s.block F κ t ≠ 0) : Open s.block nd.raw sl := by
  unfold Open
  rw [hh]
  dsimp only
  rw [← slotZone_eq (h.node hn)]
  exact ht

theorem Good.at (h : Good s F κ o) (c : Clock) : Good (s.at c) F κ o :=
  ⟨h.fits, h.calm, h.held, h.live⟩

variable [DecidableEq ι]

theorem Good.refresh (h : Good s F κ o) : F.refresh κ s o = F := by
  obtain ⟨nd, hn, hF⟩ := h.live
  unfold Files.refresh
  rw [hn, Option.map_some, ← hF, update_eq_self]

theorem refresh_node (hn : s.node o = some nd) : F.refresh κ s o = update F κ (some nd.raw) := by
  unfold Files.refresh
  rw [hn]
  rfl

theorem refresh_self (hn : s.node o = some nd) : F.refresh κ s o κ = some nd.raw := by
  rw [refresh_node hn, update_self]

theorem refresh_refresh : (F.refresh κ s o).refresh κ s' o = F.refresh κ s' o :=
  update_idem ..

theorem refresh_other (h : κ' ≠ κ) : F.refresh κ s o κ' = F κ' :=
  update_of_ne h ..

theorem Good.of_frame (h : Good s F κ o) (hf : Frame o s s') (hh : Held s.sb s'.block (F.refresh κ s' o)) :
    Good s' (F.refresh κ s' o) κ o where
  fits := by
    rw [hf.sb, hf.nblocks]
    exact h.fits
  calm n := by
    rw [hf.env]
    exact h.calm n
  held := by
    rw [hf.sb]
    exact hh
  live := by
    obtain ⟨nd, hn, -⟩ := h.live
    obtain ⟨nd', hn', -⟩ := hf.self nd hn
    exact ⟨nd', hn', refresh_self hn'⟩

-- Zones were added to slots of `κ` in `A` that had none. No byte of any file is another.
structure Grown (o : Nat) (κ : ι) (A : Slot → Prop) (s : Fs) (F : Files ι) (s' : Fs) : Prop where
  frame : Frame o s s'
  good : Good s' (F.refresh κ s' o) κ o
  map : ∀ sl, slotZone s'.block (F.refresh κ s' o) κ sl = slotZone s.block F κ sl ∨
    (A sl ∧ slotZone s.block F κ sl = 0 ∧ InData s.sb (slotZone s'.block (F.refresh κ s' o) κ sl) ∧
      zmarked s.sb s.block (slotZone s'.block (F.refresh κ s' o) κ sl) = false)
  other : ∀ κ', κ' ≠ κ → slotZone s'.block (F.refresh κ s' o) κ' = slotZone s.block F κ'
  marks : ∀ w, InData s.sb w → zmarked s.sb s.block w = true → zmarked s.sb s'.block w = true
  track : ∀ w, InData s.sb w → zmarked s.sb s'.block w = true → zmarked s.sb s.block w = true ∨
    ∃ sl, A sl ∧ slotZone s.block F κ sl = 0 ∧ slotZone s'.block (F.refresh κ s' o) κ sl = w
  bytes : ∀ κ' x, byteAt s.sb s'.block (F.refresh κ s' o) κ' x = byteAt s.sb s.block F κ' x

theorem Grown.of_same (h : Good s F κ o) (hf : Frame o s s') (hb : s'.block = s.block)
    (hn : (s'.node o).map Node.raw = (s.node o).map Node.raw) : Grown o κ A s F s' := by
  have hF : F.refresh κ s' o = F := by
    rw [Files.refresh, hn]
    exact h.refresh
  constructor
  · exact hf
  · apply h.of_frame hf
    rw [hF, hb]
    exact h.held
  · intro sl
    rw [hF, hb]
    exact .inl rfl
  · intro κ' _
    rw [hF, hb]
  · intro w _ hw
    rw [hb]
    exact hw
  · intro w _ hw
    rw [hb] at hw
    exact .inl hw
  · intro κ' x
    rw [hF, hb]

theorem Grown.at (h : Good s F κ o) (c : Clock) : Grown o κ A s F (s.at c) :=
  .of_same h (.at o s c) rfl rfl

theorem Grown.mono (h : Grown o κ A s F s') (hA : ∀ sl, A sl → A' sl) : Grown o κ A' s F s' where
  frame := h.frame
  good := h.good
  map := fun sl => (h.map sl).imp_right fun ⟨h1, h2⟩ => ⟨hA sl h1, h2⟩
  other := h.other
  marks := h.marks
  track := fun w hw hm => (h.track w hw hm).imp_right fun ⟨sl, h1, h2⟩ => ⟨sl, hA sl h1, h2⟩
  bytes := h.bytes

theorem Grown.zone_ne (h : Grown o κ A s F s') (hne : slotZone s.block F κ sl ≠ 0) :
    slotZone s'.block (F.refresh κ s' o) κ sl = slotZone s.block F κ sl :=
  (h.map sl).resolve_right fun hc => hne hc.2.1

theorem Grown.trans (h : Grown o κ A s F s') (h' : Grown o κ A s' (F.refresh κ s' o) s'') :
    Grown o κ A s F s'' := by
  have hsb := h.frame.sb
  obtain ⟨hframe', hgood', hmap', hother', hmarks', htrack', hbytes'⟩ := h'
  rw [refresh_refresh] at hgood' hother' hbytes'
  simp only [refresh_refresh] at hmap' htrack'
  rw [hsb] at hmap' hmarks' htrack' hbytes'
  constructor
  · exact h.frame.trans hframe'
  · exact hgood'
  · intro sl
    rcases hmap' sl with hsame | ⟨hA, h0, hin, hm⟩
    · rw [hsame]
      exact h.map sl
    have h0' : slotZone s.block F κ sl = 0 := by
      rcases h.map sl with hs | ⟨-, h1, -⟩
      · rw [← hs, h0]
      · exact h1
    refine .inr ⟨hA, h0', hin, Bool.eq_false_iff.2 fun hc => ?_⟩
    rw [h.marks _ hin hc] at hm
    cases hm
  · intro κ' hne
    rw [hother' κ' hne, h.other κ' hne]
  · exact fun w hw hm => hmarks' w hw (h.marks w hw hm)
  · intro w hw hm
    rcases htrack' w hw hm with hm' | ⟨sl, hA, h0, heq⟩
    · rcases h.track w hw hm' with h1 | ⟨sl, hA, h0, heq⟩
      · exact .inl h1
      refine .inr ⟨sl, hA, h0, ?_⟩
      rcases hmap' sl with hsame | ⟨-, h0', -⟩
      · rw [hsame, heq]
      · rw [heq] at h0'
        exact absurd h0' (h.good.fits.ne_zero (hsb ▸ hw))
    · refine .inr ⟨sl, hA, ?_, heq⟩
      rcases h.map sl with hs | ⟨-, h1, -⟩
      · rw [← hs, h0]
      · exact h1
  · intro κ' x
    rw [hbytes', h.bytes]

theorem Good.attach {d : Bool} (h : Good s F κ o) (hn : s.node o = some nd) (hz : InData s.sb z)
    (hm : zmarked s.sb s.block z = false) (ho : Open s.block nd.raw sl)
    (h0 : slotZone s.block F κ sl = 0) (hd : nd.dirty = true → d = true)
    (hs' : s' = ((s.at c).withBlock (place (freshen s.sb s.block z) nd.raw sl z).1).withNode o
      { nd with raw := (place (freshen s.sb s.block z) nd.raw sl z).2, dirty := d }) :
    Grown o κ (· = sl) s F s' ∧ slotZone s'.block (F.refresh κ s' o) κ sl = z ∧
      s'.block z = fun _ => 0 := by
  have hκ := h.node hn
  have hp := h.held.fetch h.fits hκ hz hm ho (by rw [← slotZone_eq hκ, h0])
  have hF : F.refresh κ s' o =
      update F κ (some (place (freshen s.sb s.block z) nd.raw sl z).2) := by
    rw [hs', refresh_node withNode_self]
  have hblock : s'.block = (place (freshen s.sb s.block z) nd.raw sl z).1 := by
    rw [hs']
    rfl
  have hframe : Frame o s s' := by
    rw [hs']
    exact .put hn ⟨rfl, rfl, rfl, rfl, rfl, place_raw, hd⟩ hp.below
  rw [← hblock, ← hF] at hp
  refine ⟨⟨hframe, h.of_frame hframe hp.held, fun sl' => ?_, fun κ' hne => ?_, fun w hw hmw => ?_,
    fun w hw hmw => ?_, hp.bytes⟩, hp.self, hp.zero⟩
  · by_cases hc : sl' = sl
    · rw [hc, hp.self]
      exact .inr ⟨rfl, h0, hz, hm⟩
    · exact .inl (hp.other κ sl' fun hcc => hc hcc.2)
  · funext sl'
    exact hp.other κ' sl' fun hc => hne hc.1
  · rw [hp.marks w hw, hmw, Bool.or_true]
  · rw [hp.marks w hw, Bool.or_eq_true, decide_eq_true_iff] at hmw
    rcases hmw with rfl | hmw
    · exact .inr ⟨sl, rfl, h0, hp.self⟩
    · exact .inl hmw

end grown

section slots

variable [DecidableEq ι] {κ : ι} {F : Files ι} {create : Bool} {m : Mem} {r : RawInode}
variable {b : Nat} {s1 : Fs}

theorem setZone_zero (h : r.izone i = 0) : r.setZone i 0 = r := by
  unfold RawInode.setZone
  unfold RawInode.izone at h
  split_ifs with hi
  · rw [dif_pos hi] at h
    have h0 : BitVec.ofNat 16 0 = r.zone ⟨i, hi⟩ := by
      apply BitVec.eq_of_toNat_eq
      rw [h]
      rfl
    rw [h0, update_eq_self]
  · rfl

theorem putEntry_zero (h : entry m i = 0) : putEntry m i 0 = m := by
  have hb : m (2 * i) = 0 ∧ m (2 * i + 1) = 0 := by
    unfold entry load load load at h
    exact ⟨BitVec.eq_of_toNat_eq (by simp; omega), BitVec.eq_of_toNat_eq (by simp; omega)⟩
  funext j
  unfold putEntry store
  split_ifs with hj
  · have hj' : j = 2 * i ∨ j = 2 * i + 1 := by omega
    rcases hj' with rfl | rfl
    · rw [hb.1]
      simp
    · rw [hb.2]
      simp
  · rfl

-- A slot read, and filled first where `create` asks for it.
structure Accessed (o : Nat) (κ : ι) (create : Bool) (sl : Slot) (s : Fs) (F : Files ι) (z : Nat)
    (s' : Fs) : Prop where
  grown : Grown o κ (fun x => create = true ∧ x = sl) s F s'
  value : z = slotZone s'.block (F.refresh κ s' o) κ sl
  still : create = false → ∃ c, s' = s.at c
  full : create = true → z = 0 → ∀ w, InData s.sb w → zmarked s.sb s'.block w = true
  fresh : slotZone s.block F κ sl = 0 → z ≠ 0 → s'.block z = fun _ => 0

theorem Accessed.still_of (h : Good s F κ o) (hne : ¬ (slotZone s.block F κ sl = 0 ∧ create = true)) :
    Accessed o κ create sl s F (slotZone s.block F κ sl) (s.at c) := by
  refine ⟨.at h c, ?_, fun _ => ⟨c, rfl⟩, fun hc hz => absurd ⟨hz, hc⟩ hne, fun h0 hz => absurd h0 hz⟩
  have : F.refresh κ (s.at c) o = F := h.refresh
  rw [this, at_block]

theorem Accessed.filled (hg : Grown o κ (· = sl) s F s') (hself : slotZone s'.block (F.refresh κ s' o) κ sl = z)
    (hzero : s'.block z = fun _ => 0) (hz : z ≠ 0) (hc : create = true) : Accessed o κ create sl s F z s' := by
  refine ⟨hg.mono fun x hx => ⟨hc, hx⟩, hself.symm, fun hcc => ?_, fun _ hz0 => absurd hz0 hz, fun _ _ => hzero⟩
  rw [hc] at hcc
  cases hcc

theorem Accessed.failed {nd : Node} (h : Good s F κ o) (hn : s.node o = some nd)
    (h0 : slotZone s.block F κ sl = 0) (hc : create = true)
    (hfull : ∀ w, InData s.sb w → zmarked s.sb s.block w = true)
    (hs' : s' = s.at c ∨ s' = (s.at c).withNode o { nd with dirty := true }) :
    Accessed o κ create sl s F 0 s' := by
  have hg : Grown o κ (fun x => create = true ∧ x = sl) s F s' ∧ s'.block = s.block := by
    rcases hs' with rfl | rfl
    · exact ⟨.at h c, rfl⟩
    have hframe : Frame o s (((s.at c).withBlock s.block).withNode o { nd with dirty := true }) :=
      .put hn ⟨rfl, rfl, rfl, rfl, rfl, rfl, fun _ => rfl⟩ fun _ _ => rfl
    refine ⟨.of_same h hframe rfl ?_, rfl⟩
    rw [withNode_self, hn]
    rfl
  obtain ⟨hg, hb⟩ := hg
  refine ⟨hg, ?_, fun hcc => ?_, fun _ _ => ?_, fun _ hz => absurd rfl hz⟩
  · rcases hg.map sl with hs | ⟨-, -, hin, hm⟩
    · rw [hs, h0]
    · rw [hfull _ hin] at hm
      cases hm
  · rw [hc] at hcc
    cases hcc
  · rw [hb]
    exact hfull

theorem zoneSlot_spec (h : Good s F κ o) (hh : sl.home = .field i) :
    wp (zoneSlot o i create) (Accessed o κ create sl s F) never s := by
  obtain ⟨nd, hn, hF⟩ := h.live
  have hval : slotZone s.block F κ sl = nd.raw.izone i := by
    rw [slotZone_eq hF, zoneOf_field hh]
  apply wp_bind_nodeOf hn
  refine wp_ite (fun hc => ?_) fun hc => ?_
  · have h0 := hval.trans hc.1
    apply (minixAllocDataZone_spec h.calm h.fits).next _
    intro z s1 hz
    rcases hz with ⟨rfl, ⟨c, rfl⟩, hfull⟩ | ⟨hz, hm, c, rfl⟩
    · refine wp_bind_nodeOf hn ?_
      apply wp_bind
      apply wp_setNode
      apply wp_bind_nodeOf withNode_self
      apply wp_pure
      rw [setZone_zero hc.1, hc.1]
      exact .failed h hn h0 hc.2 hfull (.inr rfl)
    refine wp_bind_nodeOf hn ?_
    apply wp_bind
    apply wp_setNode
    apply wp_bind_nodeOf withNode_self
    apply wp_pure
    have ho : Open s.block nd.raw sl := by
      unfold Open
      rw [hh]
      trivial
    have hplace : place (freshen s.sb s.block z) nd.raw sl z =
        (freshen s.sb s.block z, nd.raw.setZone i z) := place_field hh
    obtain ⟨hg, hself, hzero⟩ := h.attach (c := c) (d := true) hn hz hm ho h0 (fun _ => rfl) rfl
    rw [hplace] at hg hself hzero
    have hlt : z < 2 ^ 16 := Nat.lt_trans hz.2 h.fits.nzones_lt
    rw [izone_setZone (Slot.home_field hh) hlt, if_pos rfl]
    exact .filled hg hself hzero (h.fits.ne_zero hz) hc.2
  · apply wp_bind_nodeOf hn
    apply wp_pure
    rw [← hval] at hc ⊢
    exact .still_of h hc

theorem entrySlot_spec (h : Good s F κ o) (hh : sl.home = .entry t i) (ht : slotZone s.block F κ t ≠ 0) :
    wp (entrySlot (slotZone s.block F κ t) i create) (Accessed o κ create sl s F)
      never s := by
  obtain ⟨nd, hn, hF⟩ := h.live
  have htable := h.held.apart.table κ t (Slot.home_entry hh).1 ht
  have hval := slotZone_entry hh ht
  apply wp_get_then h.calm (Nat.lt_of_lt_of_le htable.2 h.fits.device)
  intro c
  apply wp_dataOf
  refine wp_ite (fun hc => ?_) fun hc => ?_
  · have h0 := hval.trans hc.1
    apply (minixAllocDataZone_spec (s := s.at c) h.calm h.fits).next _
    intro z s1 hz
    rcases hz with ⟨rfl, ⟨c', rfl⟩, hfull⟩ | ⟨hz, hm, c', rfl⟩
    · apply wp_dataOf
      apply wp_bind
      apply wp_setData
      apply wp_dataOf
      apply wp_pure
      have h0' : entry (s.block (slotZone s.block F κ t)) i = 0 := hc.1
      have hsame : update s.block (slotZone s.block F κ t)
          (putEntry (s.block (slotZone s.block F κ t)) i 0) = s.block := by
        rw [putEntry_zero h0', update_eq_self]
      simp only [at_at, at_block, withBlock_block, update_self]
      rw [hsame, putEntry_zero h0', h0']
      exact .failed h hn h0 hc.2 hfull (.inl rfl)
    · apply wp_dataOf
      apply wp_bind
      apply wp_setData
      apply wp_dataOf
      apply wp_pure
      have ho := h.open_entry hn hh ht
      have hzt : zoneOf (freshen s.sb s.block z) nd.raw t = slotZone s.block F κ t := by
        rw [← slotZone_eq hF, h.held.slotZone_freshen h.fits hz hm]
      have hplace : place (freshen s.sb s.block z) nd.raw sl z =
          (update (freshen s.sb s.block z) (slotZone s.block F κ t)
            (putEntry (freshen s.sb s.block z (slotZone s.block F κ t)) i z), nd.raw) := by
        rw [place_entry hh, hzt]
      obtain ⟨hg, hself, hzero⟩ :=
        h.attach (c := c') (d := nd.dirty) hn hz hm ho h0 (fun hd => hd) rfl
      rw [hplace] at hg hself hzero
      rw [put_same hn] at hg hself hzero
      have hlt : z < 2 ^ 16 := Nat.lt_trans hz.2 h.fits.nzones_lt
      simp only [at_at, at_block, at_sb, withBlock_block, update_self]
      rw [entry_putEntry hlt, if_pos rfl]
      exact .filled hg hself hzero (h.fits.ne_zero hz) hc.2
  · apply wp_dataOf
    apply wp_pure
    rw [at_block, ← hval] at hc ⊢
    exact .still_of h hc

-- The tables on the way to block `b`.
def Slot.Above (b : Nat) : Slot → Prop
  | .data _ => False
  | .single => 7 ≤ b ∧ b < 7 + perBlock
  | .double => 7 + perBlock ≤ b
  | .inner j => 7 + perBlock ≤ b ∧ j = (b - 7 - perBlock) / perBlock

-- The slots that `minix_bmap` can fill for block `b`; behind the double indirect table not the block itself.
def Slot.Fills (b : Nat) (sl : Slot) : Prop := (sl = .data b ∧ b < 7 + perBlock) ∨ sl.Above b

structure Mapped (o : Nat) (κ : ι) (b : Nat) (create : Bool) (s : Fs) (F : Files ι) (z : Nat)
    (s' : Fs) : Prop where
  grown : Grown o κ (fun x => create = true ∧ x.Fills b) s F s'
  value : z = if InData s.sb (slotZone s'.block (F.refresh κ s' o) κ (.data b)) then
    slotZone s'.block (F.refresh κ s' o) κ (.data b) else 0
  still : create = false → ∃ c, s' = s.at c
  full : create = true → b < 7 + perBlock →
    slotZone s'.block (F.refresh κ s' o) κ (.data b) = 0 →
    ∀ w, InData s.sb w → zmarked s.sb s'.block w = true
  fresh : slotZone s.block F κ (.data b) = 0 → z ≠ 0 → s'.block z = fun _ => 0

theorem checked_eq (sb : Super) (z : Nat) : checked sb z = if InData sb z then z else 0 := by
  unfold checked
  by_cases hz : InData sb z
  · simp [hz]
  by_cases h0 : z = 0
  · simp [h0]
  · simp [hz, h0]

theorem home_single (h1 : ¬ b < 7) (h2 : b - 7 < perBlock) : (Slot.data b).home = .entry .single (b - 7) := by
  simp only [Slot.home]
  rw [if_neg h1, if_pos h2]

theorem home_inner (h1 : ¬ b < 7) (h2 : ¬ b - 7 < perBlock) (h3 : b - 7 - perBlock < perBlock * perBlock) :
    (Slot.data b).home =
      .entry (.inner ((b - 7 - perBlock) / perBlock)) ((b - 7 - perBlock) % perBlock) := by
  simp only [Slot.home]
  rw [if_neg h1, if_neg h2, if_pos h3]

section

variable (hg : Grown o κ (fun x => create = true ∧ x.Above b) s F s1)
  (hstill : create = false → ∃ c, s1 = s.at c)
include hg hstill

theorem Mapped.last (ha : Accessed o κ create (.data b) s1 (F.refresh κ s1 o) z s') (hb : b < 7 + perBlock) :
    Mapped o κ b create s F (checked s.sb z) s' := by
  obtain ⟨hga, hval, hst, hfull, hfresh⟩ := ha
  rw [refresh_refresh] at hval
  have hsb := hg.frame.sb
  have htr : Grown o κ (fun x => create = true ∧ x.Fills b) s F s' := by
    apply (hg.mono fun x hx => ⟨hx.1, .inr hx.2⟩).trans
    exact hga.mono fun x hx => ⟨hx.1, .inl ⟨hx.2, hb⟩⟩
  refine ⟨htr, by rw [checked_eq, hval], fun hc => ?_, fun hc _ h0 => ?_, fun h0 hne => ?_⟩
  · obtain ⟨c1, hc1⟩ := hstill hc
    obtain ⟨c2, hc2⟩ := hst hc
    exact ⟨c2, by rw [hc2, hc1, at_at]⟩
  · rw [hsb] at hfull
    exact hfull hc (hval.trans h0)
  have hz : checked s.sb z = z := by
    rw [checked_eq] at hne ⊢
    split_ifs at hne ⊢
    · rfl
    · exact absurd rfl hne
  rw [hz] at hne ⊢
  apply hfresh _ hne
  rcases hg.map (.data b) with hs | ⟨ht, -⟩
  · rw [hs, h0]
  · exact ht.2.elim

theorem Mapped.read (ha : Accessed o κ false (.data b) s1 (F.refresh κ s1 o) z s') (hb : ¬ b < 7 + perBlock) :
    Mapped o κ b create s F (checked s.sb z) s' := by
  obtain ⟨hga, hval, hst, -, -⟩ := ha
  rw [refresh_refresh] at hval
  obtain ⟨c, hs'⟩ := hst rfl
  have htr := hg.trans (hga.mono fun x hx => Bool.noConfusion hx.1)
  refine ⟨htr.mono fun x hx => ⟨hx.1, .inr hx.2⟩, by rw [checked_eq, hval], fun hc => ?_,
    fun _ hb' => absurd hb' hb, fun h0 hne => ?_⟩
  · obtain ⟨c1, hc1⟩ := hstill hc
    exact ⟨c, by rw [hs', hc1, at_at]⟩
  have hz0 : z = 0 := by
    rcases htr.map (.data b) with hs | ⟨ht, -⟩
    · rw [hval, hs, h0]
    · exact ht.2.elim
  rw [hz0] at hne
  exact absurd (by simp [checked]) hne

end

theorem Mapped.missing (h : Good s F κ o) (hg : Grown o κ (fun x => create = true ∧ x.Above b) s F s1)
    (hstill : create = false → ∃ c, s1 = s.at c)
    (h0 : slotZone s1.block (F.refresh κ s1 o) κ (.data b) = 0)
    (hfull : create = true → b < 7 + perBlock → ∀ w, InData s.sb w → zmarked s.sb s1.block w = true) :
    Mapped o κ b create s F 0 s1 := by
  refine ⟨hg.mono fun x hx => ⟨hx.1, .inr hx.2⟩, ?_, hstill, fun hc hb _ => hfull hc hb,
    fun _ hne => absurd rfl hne⟩
  rw [h0, if_neg h.fits.zero_out]

theorem minixBmap_spec (h : Good s F κ o) :
    wp (minixBmap o b create) (Mapped o κ b create s F) never s := by
  have hself : Grown o κ (fun x => create = true ∧ x.Above b) s F s := .at h s.clock
  apply wp_bind
  apply wp_superOf
  by_cases h1 : b < 7
  · rw [if_pos h1]
    have hh : (Slot.data b).home = .field b := if_pos h1
    apply (zoneSlot_spec h hh).next _
    intro z s' ha
    apply wp_pure
    rw [← h.refresh] at ha
    exact .last hself (fun _ => ⟨s.clock, rfl⟩) ha (by omega)
  rw [if_neg h1]
  by_cases h2 : b - 7 < perBlock
  · rw [if_pos h2]
    have hh := home_single h1 h2
    apply (zoneSlot_spec h (show Slot.single.home = .field 7 from rfl)).next _
    intro z s1 ha
    have hsb := ha.grown.frame.sb
    have hg : Grown o κ (fun x => create = true ∧ x.Above b) s F s1 :=
      ha.grown.mono fun x hx => ⟨hx.1, hx.2 ▸ ⟨by omega, by omega⟩⟩
    rw [ha.value]
    split_ifs with hc
    · apply wp_pure
      rw [← hsb] at hc
      have h0 := ha.grown.good.table_zero hc trivial
      exact .missing h hg ha.still (slotZone_of_table hh h0)
        fun hcr _ => ha.full hcr (ha.value.trans h0)
    · push Not at hc
      apply (entrySlot_spec ha.grown.good hh hc.1).next _
      intro z' s' ha'
      apply wp_pure
      exact .last hg ha.still ha' (by omega)
  rw [if_neg h2]
  refine wp_ite (fun h3 => ?_) fun h3 => ?_
  · have hin : (Slot.inner ((b - 7 - perBlock) / perBlock)).home =
        .entry .double ((b - 7 - perBlock) / perBlock) := if_pos (Nat.div_lt_of_lt_mul h3)
    have hh := home_inner h1 h2 h3
    have hbig : ¬ b < 7 + perBlock := by omega
    apply (zoneSlot_spec h (show Slot.double.home = .field 8 from rfl)).next _
    intro z s1 ha
    have hsb := ha.grown.frame.sb
    have hg : Grown o κ (fun x => create = true ∧ x.Above b) s F s1 :=
      ha.grown.mono fun x hx => ⟨hx.1, hx.2 ▸ Nat.le_of_not_lt hbig⟩
    rw [ha.value]
    split_ifs with hc
    · apply wp_pure
      rw [← hsb] at hc
      have h0 := ha.grown.good.table_zero hc trivial
      exact .missing h hg ha.still (slotZone_of_table hh (slotZone_of_table hin h0))
        fun _ hb => absurd hb hbig
    push Not at hc
    apply (entrySlot_spec ha.grown.good hin hc.1).next _
    intro z' s2 ha'
    have hsb' := ha'.grown.frame.sb
    have hg' := hg.trans (ha'.grown.mono fun x hx => ⟨hx.1, hx.2 ▸ ⟨Nat.le_of_not_lt hbig, rfl⟩⟩)
    have hstill : create = false → ∃ c, s2 = s.at c := by
      intro hcr
      obtain ⟨c1, hc1⟩ := ha.still hcr
      obtain ⟨c2, hc2⟩ := ha'.still hcr
      exact ⟨c2, by rw [hc2, hc1, at_at]⟩
    have hval := ha'.value
    rw [refresh_refresh] at hval
    rw [hval]
    split_ifs with hc'
    · apply wp_pure
      rw [← hsb, ← hsb'] at hc'
      have h0 := hg'.good.table_zero hc' trivial
      exact .missing h hg' hstill (slotZone_of_table hh h0) fun _ hb => absurd hb hbig
    · push Not at hc'
      apply (entrySlot_spec hg'.good hh hc'.1).next _
      intro z'' s' ha''
      apply wp_pure
      exact .read hg' hstill ha'' hbig
  · apply wp_pure
    have hh : (Slot.data b).home = .nowhere := by
      simp only [Slot.home]
      rw [if_neg h1, if_neg h2, if_neg h3]
    have h0 : slotZone s.block (F.refresh κ s o) κ (.data b) = 0 := by
      obtain ⟨nd, hn, hF⟩ := h.live
      rw [h.refresh, slotZone_eq hF, zoneOf_nowhere hh]
    exact .missing h hself (fun _ => ⟨s.clock, rfl⟩) h0 fun _ hb => absurd hb (by omega)

end slots

end Jnu.Minix
