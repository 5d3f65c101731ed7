import Jnu.Buffer.Writeback

namespace Jnu.Buffer

open Lib.Trace Lib.Refs

variable {δ β : Type} {s s' : State Unit δ β} {a : Act δ β} {i j : Ix} {x : Slot δ β}
  {f device : δ → Nat → β}
variable {dev : Option δ} {after : After} {d : δ} {b k : Nat}

-- What the tasks wrote is in the slot of the block, or on the device when no
-- slot holds the block.
structure Disk (s : State Unit δ β) : Prop where
  slot : ∀ i d b, (s.slot i).valid = true → (s.slot i).Keyed d b → (s.slot i).data = s.content d b
  absent : ∀ d b, (∀ i, (s.slot i).valid = true → ¬ (s.slot i).Keyed d b) →
    s.device d b = s.content d b
  count : s.cache.dirtyCount = ∑ i, (s.slot i).dirty.toNat

theorem disk_initial (device : δ → Nat → β) (data : β) :
    Disk (initial device data : State Unit δ β) where
  slot := fun _ _ _ h => by cases h
  absent := fun _ _ _ => rfl
  count := (Finset.sum_eq_zero fun _ _ => rfl).symm

-- Every slot before `k` that a sync of `dev` is about is clean.
def Swept (s : State Unit δ β) (dev : Option δ) (k : Nat) : Prop :=
  ∀ j : Ix, j < k → dev = none ∨ (s.slot j).bdev = dev → (s.slot j).dirty = false

def After.Fits (s : State Unit δ β) (dev : Option δ) : After → Prop
  | .ret => True
  | .mark i => dev = (s.slot i).bdev
  | .flush => dev = none

-- How far the task has got with a sync, and what it has from one that is done.
def Pc.Progress (s : State Unit δ β) : Pc δ → Prop
  | .syncing dev k after => Swept s dev k ∧ after.Fits s dev
  | .writing dev i _ _ _ after => Swept s dev i ∧ after.Fits s dev
  | .remarking i => Swept s (s.slot i).bdev slotCount
  | .flushing => Swept s none slotCount
  | _ => True

def Progress (s : State Unit δ β) : Prop := (s.pc ()).Progress s

theorem Progress.of_pc {p : Pc δ} (h : Progress s) (hp : s.pc () = p) : p.Progress s := hp ▸ h

theorem progress_of {p : Pc δ} (hpc : s'.pc () = p) (hp : p.Progress s') : Progress s' := by
  unfold Progress
  rw [hpc]
  exact hp

theorem Swept.mono (h : Swept s dev k) (hb : ∀ j, (s'.slot j).bdev = (s.slot j).bdev)
    (hd : ∀ j, (s.slot j).dirty = false → (s'.slot j).dirty = false) : Swept s' dev k := by
  intro j hj hdev
  rw [hb] at hdev
  exact hd j (h j hj hdev)

theorem After.Fits.mono (h : after.Fits s dev)
    (hb : ∀ j, (s'.slot j).bdev = (s.slot j).bdev) : after.Fits s' dev := by
  cases after with
  | ret => exact trivial
  | mark i => exact h.trans (hb i).symm
  | flush => exact h

theorem Progress.begin (h : Progress s)
    (hp : s.pc () = .syncing dev (Fin.val i) after) : Progress (s.begin () dev i d after) := by
  obtain ⟨hs, hf⟩ := h.of_pc hp
  have hslot : ∀ j, ((s.begin () dev i d after).slot j).bdev = (s.slot j).bdev ∧
      ((s.begin () dev i d after).slot j).dirty = (s.slot j).dirty := by
    intro j
    change ((s.cache.beginWrite i).slots j).bdev = _ ∧ ((s.cache.beginWrite i).slots j).dirty = _
    by_cases hj : j = i
    · rw [hj, Cache.beginWrite, Cache.set_self]
      exact ⟨rfl, rfl⟩
    · rw [Cache.beginWrite, Cache.set_of_ne _ _ hj]
      exact ⟨rfl, rfl⟩
  refine progress_of (p := .writing dev i d (s.slot i).blockNo false after) rfl ⟨?_, ?_⟩
  · exact hs.mono (fun j => (hslot j).1) fun j hd => (hslot j).2.trans hd
  · exact hf.mono fun j => (hslot j).1

theorem Progress.wrote {sent : Bool} (h : Progress s) (hp : s.pc () = .writing dev i d b sent after) :
    Progress (s.wrote () dev i after true) := by
  obtain ⟨hs, hf⟩ := h.of_pc hp
  have hslot : ∀ j, ((s.wrote () dev i after true).slot j).bdev = (s.slot j).bdev ∧
      (j = i ∨ (s.slot j).dirty = false → ((s.wrote () dev i after true).slot j).dirty = false) := by
    intro j
    change ((s.cache.endWrite i true).slots j).bdev = _ ∧
      (_ → ((s.cache.endWrite i true).slots j).dirty = false)
    by_cases hj : j = i
    · subst hj
      simp only [Cache.endWrite, Cache.set_self]
      exact ⟨rfl, fun _ => rfl⟩
    · simp only [Cache.endWrite, Cache.set_of_ne _ _ hj]
      exact ⟨rfl, fun hd => hd.resolve_left hj⟩
  refine progress_of (p := .syncing dev (i + 1) after) rfl ⟨fun j hj hdev => ?_, ?_⟩
  · rw [(hslot j).1] at hdev
    refine (hslot j).2 ?_
    by_cases hji : j = i
    · exact .inl hji
    · have : (j : Nat) ≠ i := fun h => hji (Fin.ext h)
      exact .inr (hs j (by omega) hdev)
  · exact hf.mono fun j => (hslot j).1

theorem Progress.finish (h : Progress s) (hp : s.pc () = .syncing dev k after) (hk : slotCount ≤ k) :
    Progress (s.goto () after.pc) := by
  obtain ⟨hs, hf⟩ := h.of_pc hp
  have hall : Swept s dev slotCount := fun j hj hdev => hs j (hj.trans_le hk) hdev
  refine progress_of (p := after.pc) rfl ?_
  cases after with
  | ret => exact trivial
  | mark i =>
    have hdev : dev = (s.slot i).bdev := hf
    rw [hdev] at hall
    exact hall
  | flush =>
    have hdev : dev = none := hf
    rw [hdev] at hall
    exact hall

theorem Cache.foldl_invalidateSlot_clean (l : List Ix) (c : Cache δ β)
    (h : ∀ j, (c.slots j).dirty = false) : (l.foldl Cache.invalidateSlot c).dirtyCount = c.dirtyCount := by
  induction l generalizing c with
  | nil => rfl
  | cons i l ih =>
    have hclean : ∀ j, ((c.invalidateSlot i).slots j).dirty = false := by
      intro j
      rw [Cache.invalidateSlot_slots]
      split_ifs
      · unfold Cache.flushed
        split_ifs
        · exact h j
        · rfl
      · exact h j
    rw [List.foldl_cons, ih _ hclean]
    unfold Cache.invalidateSlot
    split_ifs with hs hd
    · rfl
    · rw [h i, Bool.and_false] at hd
      cases hd
    · rfl

-- bufcache_flush_all drops clean slots only: its sync has written the others.
theorem Disk.invalidate (h : Disk s) (hg : Good s) (hc : Clean s)
    (hclean : ∀ j, (s.slot j).dirty = false) : Disk (s.invalidate ()) := by
  have hkept : ∀ j, ((s.invalidate ()).slot j).valid = true →
      (s.invalidate ()).slot j = s.slot j := by
    intro j hj
    rw [State.invalidate_slot] at hj ⊢
    exact Slot.flushed_of_live (.inl hj)
  refine ⟨fun j d b hv hk => ?_, fun d b habs => ?_, ?_⟩
  · rw [hkept j hv] at hk ⊢
    have hv' := hv
    rw [hkept j hv] at hv'
    exact h.slot j d b hv' hk
  · change s.device d b = s.content d b
    by_cases hex : ∃ j, (s.slot j).valid = true ∧ (s.slot j).Keyed d b
    · obtain ⟨j, hv, hk⟩ := hex
      -- The slot was dropped, so nobody held it.
      have hr : (s.slot j).refcount = 0 := by
        by_contra hr
        have hsame : (s.invalidate ()).slot j = s.slot j := by
          rw [State.invalidate_slot, Cache.flushed, if_pos]
          simp only [bne_iff_ne.2 hr, Bool.true_or]
        have := habs j
        rw [hsame] at this
        exact this hv hk
      rw [← h.slot j d b hv hk]
      exact ((hc j).clean hv (hclean j) (fun u => ((hg.slots j).unused hr u).2.2.2) d b hk).symm
    · exact h.absent d b fun j hv hk => hex ⟨j, hv, hk⟩
  · have hsum : ∑ j, ((s.invalidate ()).slot j).dirty.toNat = 0 := by
      refine Finset.sum_eq_zero fun j _ => ?_
      rw [State.invalidate_slot]
      unfold Cache.flushed
      split_ifs
      · rw [hclean j]
        rfl
      · rfl
    have hzero : ∑ j, (s.slot j).dirty.toNat = 0 :=
      Finset.sum_eq_zero fun j _ => by rw [hclean j]; rfl
    rw [hsum, ← hzero, ← h.count]
    exact Cache.foldl_invalidateSlot_clean _ s.cache hclean

structure Solo (s : State Unit δ β) : Prop where
  good : Good s
  clean : Clean s
  progress : Progress s
  disk : Disk s

theorem solo_initial (device : δ → Nat → β) (data : β) : Solo (initial device data : State Unit δ β) :=
  ⟨good_initial device data, clean_initial device data, trivial, disk_initial device data⟩

theorem Progress.all_clean (h : Progress s) (hp : s.pc () = .flushing) (j : Ix) :
    (s.slot j).dirty = false :=
  h.of_pc hp j j.isLt (.inl rfl)

variable [DecidableEq δ] {N : δ → Nat → Prop} {v v' : View δ β}

theorem Change.content (hc : Change N a v v') :
    v'.content = v.content ∨ ∃ x, 0 < v.part.held ∧ v'.content = v.slot.record v.content x ∧
      v'.slot = { v.slot with data := x } := by
  cases hc with
  | @modify _ n i x hp hn => exact .inr ⟨x, by rw [hp]; exact hn, rfl, rfl⟩
  | _ => exact .inl rfl

theorem Slot.record_of_keyed {v : β} (hk : x.Keyed d b) : x.record f v = write f d b v := by
  unfold Slot.record
  rw [hk.1, hk.2]

theorem Slot.record_of_not_keyed {v : β} (hk : ¬ x.Keyed d b) : x.record f v d b = f d b := by
  unfold Slot.record
  cases hb : x.bdev with
  | none => rfl
  | some e =>
    refine write_of_ne f v ?_
    rintro ⟨rfl, rfl⟩
    exact hk ⟨hb, rfl⟩

theorem Change.data (hc : Change N a v v') (hv : v'.slot.valid = true) (hk : v'.slot.Keyed d b) :
    (v.slot.valid = true ∧ v.slot.Keyed d b ∧ v'.slot.data = v.slot.data ∧
        v'.content = v.content) ∨
      (v.part.loads = true ∧ v.slot.Keyed d b ∧ v'.slot.data = v.device d b ∧
        v'.content = v.content) ∨
      v'.slot.data = v'.content d b := by
  cases hc with
  | claim hp hs hf => cases hv
  | @fill _ n d' hp hb =>
    refine .inr (.inl ⟨by rw [hp], hk, ?_, rfl⟩)
    obtain ⟨hk1, rfl⟩ := hk
    cases Option.some.inj (hb.symm.trans hk1)
    rfl
  | fail hp hb => cases hv
  | @modify _ n i x hp hn =>
    refine .inr (.inr ?_)
    have hk' : v.slot.Keyed d b := hk
    change x = v.slot.record v.content x d b
    rw [Slot.record_of_keyed hk', write_self]
  | put hp hn =>
    split_ifs at hv hk ⊢
    · exact .inl ⟨hv, hk, rfl, rfl⟩
    · exact .inl ⟨hv, hk, rfl, rfl⟩
  | _ => exact .inl ⟨hv, hk, rfl, rfl⟩

theorem Change.count (hc : Change N a v v') (hvalid : v.slot.dirty = true → v.slot.valid = true)
    (hpos : v.slot.dirty = true → 0 < v.dirtyCount) :
    v'.dirtyCount + v.slot.dirty.toNat = v.dirtyCount + v'.slot.dirty.toNat := by
  cases hc with
  | claim hp hs hf =>
    cases hd : v.slot.dirty with
    | false => rfl
    | true => cases (hs.2.2 (hvalid hd)).symm.trans hd
  | mark hp =>
    cases hd : v.slot.dirty with
    | false => rfl
    | true => rfl
  | @wrote _ n d b sent m ok hp hok =>
    cases hd : v.slot.dirty with
    | false => simp
    | true =>
      have := hpos hd
      cases ok with
      | false => simp
      | true =>
        simp only [Bool.and_self, if_true, Bool.not_true, Bool.false_and, Bool.toNat_true,
          Bool.toNat_false]
        omega
  | put hp hn =>
    split_ifs <;> rfl
  | _ => rfl

theorem Local.content_of_ne (hg : Good s) (hl : Local s () a i s')
    (hk : (s.slot i).valid = true → ¬ (s.slot i).Keyed d b) : s'.content d b = s.content d b := by
  rcases hl.change.content with he | ⟨x, hn, he, -⟩
  · exact congrFun (congrFun he d) b
  · have hv := (hg.slots i).held () hn
    exact (congrFun (congrFun he d) b).trans (Slot.record_of_not_keyed (hk hv))

theorem Disk.slot_local (h : Disk s) (hg : Good s) (hl : Local s () a i s')
    (hv : (s'.slot j).valid = true) (hk : (s'.slot j).Keyed d b) : (s'.slot j).data = s'.content d b := by
  by_cases hj : j = i
  · subst hj
    rcases hl.change.data hv hk with ⟨hv0, hk0, hd, hc⟩ | ⟨hload, hk0, hd, hc⟩ | hd
    · exact (hd.trans (h.slot j d b hv0 hk0)).trans (congrFun (congrFun hc d) b).symm
    · -- The slot is the only one of the block, and not valid before.
      have habs : ∀ k, (s.slot k).valid = true → ¬ (s.slot k).Keyed d b := by
        intro k hvk
        by_cases hkj : k = j
        · subst hkj
          cases (hg.not_valid_of_loads hload).symm.trans hvk
        · exact hg.not_keyed (Ne.symm hkj) (.inr ((hg.slots j).loads () hload)) hk0 (.inl hvk)
      exact (hd.trans (h.absent d b habs)).trans (congrFun (congrFun hc d) b).symm
    · exact hd
  · rw [hl.slots j hj] at hv hk ⊢
    rw [hl.content_of_ne hg fun hvi => hg.not_keyed hj (.inl hv) hk (.inl hvi)]
    exact h.slot j d b hv hk

theorem Disk.absent_local (h : Disk s) (hg : Good s) (hc : Clean s) (hl : Local s () a i s')
    (habs : ∀ j, (s'.slot j).valid = true → ¬ (s'.slot j).Keyed d b) : s'.device d b = s'.content d b := by
  -- Only the slot of the step can have lost the block.
  have hother : ∀ j, j ≠ i → (s.slot j).valid = true → ¬ (s.slot j).Keyed d b := by
    intro j hj
    have := habs j
    rwa [hl.slots j hj] at this
  by_cases hi : (s.slot i).valid = true ∧ (s.slot i).Keyed d b
  · obtain ⟨hv, hk⟩ := hi
    obtain ⟨hr, hd⟩ := hl.change.evicted hg.not_valid_of_loads hv hk fun h => habs i h.1 h.2
    have hmarks : ∀ u, (s.part u i).marks = false := fun u => ((hg.slots i).unused hr u).2.2.2
    have hdev := (hc i).clean hv hd hmarks d b hk
    have hcont := h.slot i d b hv hk
    have hidle := (hg.slots i).unused hr ()
    rcases hl.change.device with he | ⟨d', b', hw, -⟩
    · rcases hl.change.content with he' | ⟨x, hn, -, -⟩
      · rw [show s'.device = s.device from he, show s'.content = s.content from he', ← hdev, hcont]
      · exact absurd hidle.1 (Nat.pos_iff_ne_zero.1 hn)
    · cases hidle.2.2.1.symm.trans hw
  · have hi' : (s.slot i).valid = true → ¬ (s.slot i).Keyed d b := fun hv hk => hi ⟨hv, hk⟩
    rw [hl.device_of_not_keyed hg hi', hl.content_of_ne hg hi']
    refine h.absent d b fun j => ?_
    by_cases hj : j = i
    · rw [hj]
      exact hi'
    · exact hother j hj

theorem Disk.count_local (h : Disk s) (hg : Good s) (hl : Local s () a i s') :
    s'.cache.dirtyCount = ∑ j, (s'.slot j).dirty.toNat := by
  have hsum := sum_shift (f := fun j => (s.slot j).dirty.toNat)
    (g := fun j => (s'.slot j).dirty.toNat) (Finset.mem_univ i) fun j _ hj => by rw [hl.slots j hj]
  have hle : (s.slot i).dirty.toNat ≤ ∑ j, (s.slot j).dirty.toNat :=
    Finset.single_le_sum (f := fun j => (s.slot j).dirty.toNat) (fun _ _ => Nat.zero_le _)
      (Finset.mem_univ i)
  have hcount := hl.change.count (hg.slots i).dirty fun hd => by
    change 0 < s.cache.dirtyCount
    have hd' : (s.slot i).dirty.toNat = 1 := by
      rw [show (s.slot i).dirty = true from hd]
      rfl
    have := h.count
    omega
  have hcount' : s'.cache.dirtyCount + (s.slot i).dirty.toNat =
      s.cache.dirtyCount + (s'.slot i).dirty.toNat := hcount
  have := h.count
  omega

theorem Disk.local (h : Disk s) (hg : Good s) (hc : Clean s) (hl : Local s () a i s') : Disk s' :=
  ⟨fun _ _ _ hv hk => h.slot_local hg hl hv hk, fun _ _ habs => h.absent_local hg hc hl habs,
    h.count_local hg hl⟩

theorem Progress.skip (h : Progress s) (hg : Good s) (hp : s.pc () = .syncing dev (Fin.val i) after)
    (hw : s.cache.doWrite dev i = true → (s.slot i).bdev = none) :
    Progress (s.goto () (.syncing dev (i + 1) after)) := by
  obtain ⟨hs, hf⟩ := h.of_pc hp
  refine progress_of (p := .syncing dev (i + 1) after) rfl ⟨fun j hj hdev => ?_, hf⟩
  by_cases hji : j = i
  · subst hji
    change dev = none ∨ (s.slot j).bdev = dev at hdev
    change (s.slot j).dirty = false
    by_contra hd
    have hd' : (s.slot j).dirty = true := by simpa using hd
    have hv := (hg.slots j).dirty hd'
    obtain ⟨d, hb⟩ := (hg.slots j).keyed (.inl hv)
    have hdo : s.cache.doWrite dev j = true := by
      change ((s.slot j).valid && (s.slot j).dirty && (dev == none || (s.slot j).bdev == dev)) = true
      rw [hv, hd']
      simpa using hdev
    cases (hw hdo).symm.trans hb
  · have : (j : Nat) ≠ i := fun h => hji (Fin.ext h)
    exact hs j (by omega) hdev

theorem Progress.step (h : Progress s) (hg : Good s) (hm : Moved s () a s')
    (hok : a ≠ .wrote false) : Progress s' := by
  have hzero : ∀ (s : State Unit δ β) dev, Swept s dev 0 := fun _ _ j hj => absurd hj (Nat.not_lt_zero _)
  cases hm with
  | get hp => exact progress_of rfl trivial
  | @waited d b i hp hf hl =>
    change (s.pc ()).Progress _
    trivial
  | hit hp hf hl => exact progress_of rfl trivial
  | full hp hf hv => exact progress_of rfl trivial
  | claim hp hf hv => exact progress_of rfl trivial
  | fill hp hb => exact progress_of rfl trivial
  | fail hp hb => exact progress_of rfl trivial
  | modify hp hh => exact progress_of rfl trivial
  | limit hp ho => exact progress_of rfl ⟨hzero _ _, rfl⟩
  | mark hp ho => exact progress_of rfl trivial
  | remark hp => exact progress_of rfl trivial
  | sync hp => exact progress_of rfl ⟨hzero _ _, trivial⟩
  | skip hp hw => exact h.skip hg hp hw
  | begin hp hw hb => exact h.begin hp
  | finish hp hk => exact h.finish hp hk
  | transfer hp => exact progress_of rfl (h.of_pc hp)
  | @wrote dev i d b sent after ok hp hs =>
    cases ok with
    | true => exact h.wrote hp
    | false => exact absurd rfl hok
  | flush hp => exact progress_of rfl ⟨hzero _ _, rfl⟩
  | invalidate hp => exact progress_of rfl trivial
  | put hp hh =>
    change (s.pc ()).Progress _
    rw [hp]
    trivial

-- One task, whose transfers succeed and whose references can be counted.
def SoloStep (s : State Unit δ β) (a : Act δ β) (s' : State Unit δ β) : Prop :=
  a ≠ .read false ∧ a ≠ .wrote false ∧ FitStep s ((), a) s'

theorem Moved.calm (hm : Moved s () a s') : Calm s a := by
  rintro i x rfl ⟨⟨⟩, hu⟩
  cases hm with
  | modify hp hh =>
    rw [State.part_of_pc hp] at hu
    exact hu rfl

theorem Solo.step (h : Solo s) (hs : SoloStep s a s') : Solo s' := by
  obtain ⟨hread, hwrote, hs⟩ := hs
  have hm := hs.moved
  refine ⟨h.good.step hm, h.clean.step h.good hm hm.calm, h.progress.step h.good hm hwrote, ?_⟩
  rcases hm.local with ⟨i, hl⟩ | ⟨-, hp, rfl⟩
  · exact h.disk.local h.good h.clean hl
  · exact h.disk.invalidate h.good h.clean (h.progress.all_clean hp)

theorem Solo.run {data : β} {l : List (Act δ β)} (h : Run SoloStep (initial device data) l s) : Solo s :=
  h.invariant (solo_initial device data) fun _ _ _ hi hs => hi.step hs

end Jnu.Buffer
