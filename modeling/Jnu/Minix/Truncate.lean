import Jnu.Minix.Write

namespace Jnu.Minix

open Lib.Bytes Lib.Effect

variable {ι : Type} {o first x : Nat} {κ : ι} {s s' s'' : Fs} {F : Files ι} {nd nd' : Node} {c : Clock}
  {b i n : Nat} {D D' A : Slot → Prop} {sl t : Slot} {r : RawInode}

section freeing

-- The zones in the slots of `κ` in `D` were given back; the slots still name them.
structure Freeing (κ : ι) (D : Slot → Prop) (s : Fs) (F : Files ι) (s' : Fs) : Prop where
  state : ∃ c block, s' = (s.at c).withBlock block
  marks : ∀ w, InData s.sb w → (zmarked s.sb s'.block w = true ↔
    zmarked s.sb s.block w = true ∧ ∀ sl, D sl → slotZone s.block F κ sl ≠ w)
  keep : ∀ b, InData s.sb b ∨ InodeArea s.sb b → s'.block b = s.block b

theorem Freeing.congr (h : Freeing κ D s F s')
    (hD : ∀ sl, InData s.sb (slotZone s.block F κ sl) → (D sl ↔ D' sl)) : Freeing κ D' s F s' := by
  refine ⟨h.state, fun w hw => (h.marks w hw).trans (and_congr_right fun _ => ?_), h.keep⟩
  constructor
  · intro hall sl hsl heq
    exact hall sl ((hD sl (heq ▸ hw)).2 hsl) heq
  · intro hall sl hsl heq
    exact hall sl ((hD sl (heq ▸ hw)).1 hsl) heq

theorem Freeing.start (s : Fs) (F : Files ι) (κ : ι) (c : Clock) :
    Freeing κ (fun _ => False) s F (s.at c) :=
  ⟨⟨c, s.block, rfl⟩, fun w _ => by simp, fun _ _ => rfl⟩

theorem Freeing.at (h : Freeing κ D s F s') (c : Clock) : Freeing κ D s F (s'.at c) := by
  refine ⟨?_, h.marks, h.keep⟩
  obtain ⟨c', block, rfl⟩ := h.state
  exact ⟨c, block, rfl⟩

theorem Freeing.sb (h : Freeing κ D s F s') : s'.sb = s.sb := by
  obtain ⟨c, block, rfl⟩ := h.state
  rfl

theorem Freeing.calm (h : Freeing κ D s F s') (hs : s.Calm) : s'.Calm := by
  obtain ⟨c, block, rfl⟩ := h.state
  exact hs

theorem Freeing.fits (h : Freeing κ D s F s') (hf : s.sb.Fits s.nblocks) :
    s'.sb.Fits s'.nblocks := by
  obtain ⟨c, block, rfl⟩ := h.state
  exact hf

theorem Freeing.free (hg : Good s F κ o) (h : Freeing κ D s F s') (hsl : ¬ D sl) :
    wp (minixSafeFreeZone (slotZone s.block F κ sl))
      (fun _ s'' => Freeing κ (fun x => D x ∨ x = sl) s F s'') never s' := by
  have hsb := h.sb
  apply minixSafeFreeZone_spec (h.calm hg.calm) (h.fits hg.fits)
  · intro hin
    rw [hsb] at hin ⊢
    refine (h.marks _ hin).2 ⟨hg.held.marked κ sl hin, fun sl' hD heq => ?_⟩
    have := hg.held.apart.inj κ sl κ sl' hin heq.symm
    exact hsl (this.2 ▸ hD)
  intro c
  refine ⟨?_, fun w hw => ?_, fun b hb => ?_⟩
  · obtain ⟨c', block, rfl⟩ := h.state
    exact ⟨c, _, rfl⟩
  · rw [withBlock_block, hsb, zmarked_release hw, Bool.and_eq_true, h.marks w hw]
    simp only [Bool.not_eq_true', decide_eq_false_iff_not]
    constructor
    · rintro ⟨hne, hm, hall⟩
      refine ⟨hm, fun sl' hD => ?_⟩
      rcases hD with hD | rfl
      · exact hall sl' hD
      · exact hne
    · rintro ⟨hm, hall⟩
      exact ⟨hall sl (.inr rfl), hm, fun sl' hD => hall sl' (.inl hD)⟩
  · rw [withBlock_block, release_of_ne, h.keep b hb]
    intro hz
    rw [hsb] at hz ⊢
    rcases hb with hb | hb
    · exact hg.fits.zmapBlock_ne hz hb
    · exact hb.ne_zmap hg.fits hz

theorem Freeing.skip (h : Freeing κ D s F s') (hD : ∀ x, D' x → ¬ InData s.sb (slotZone s.block F κ x)) :
    Freeing κ (fun x => D x ∨ D' x) s F s' :=
  h.congr fun x hin => (or_iff_left fun hx => hD x hx hin).symm

-- A loop whose turn `i` gives back the slots of `L i`.
theorem Freeing.loop {L : Nat → Slot → Prop} {f : Nat → FsM Unit} (h : Freeing κ D s F s')
    (hstep : ∀ i s1, i < n → Freeing κ (fun x => D x ∨ ∃ i' < i, L i' x) s F s1 →
      wp (f i) (fun _ s2 => Freeing κ (fun x => (D x ∨ ∃ i' < i, L i' x) ∨ L i x) s F s2)
        never s1) :
    wp (Prog.forRange f n) (fun _ s2 => Freeing κ (fun x => D x ∨ ∃ i < n, L i x) s F s2)
      never s' := by
  refine wp_forRange (fun n s1 => Freeing κ (fun x => D x ∨ ∃ i < n, L i x) s F s1) ?_ ?_
  · apply h.congr
    simp
  intro i s1 hi hs1
  apply (hstep i s1 hi hs1).post _
  intro _ s2 hs2
  apply hs2.congr
  simp only [Nat.exists_lt_succ_right, or_assoc, implies_true]

theorem minixFreeIndirect_spec (hg : Good s F κ o) (h : Freeing κ D s F s')
    (ht : t.IsTable) (hD : ¬ D t) (hbelow : ∀ sl i, sl.home = .entry t i → ¬ D sl) :
    wp (minixFreeIndirect (slotZone s.block F κ t))
      (fun _ s'' => Freeing κ (fun x => D x ∨ x = t ∨ ∃ i, x.home = .entry t i) s F s'')
      never s' := by
  unfold minixFreeIndirect
  split_ifs with h0
  · -- no table: the slots below it are empty
    apply wp_pure
    apply h.skip
    rintro x (rfl | ⟨i, hh⟩) hin
    · exact hg.fits.ne_zero hin h0
    · exact hg.fits.ne_zero hin (slotZone_of_table hh h0)
  have htable := hg.held.apart.table κ t ht h0
  apply wp_get_then (h.calm hg.calm)
  · have := (h.fits hg.fits).device
    rw [h.sb] at this
    exact Nat.lt_of_lt_of_le htable.2 this
  intro c
  refine ((h.at c).loop (L := fun i x => x.home = .entry t i) ?_).bind ?_ fun _ _ h => h
  · intro i s1 hi hs1
    apply wp_dataOf
    obtain ⟨sl, hh⟩ := Slot.exists_below ht (slotZone_home_ne h0) hi
    have hval : entry (s1.block (slotZone s.block F κ t)) i = slotZone s.block F κ sl := by
      rw [hs1.keep _ (.inl htable), slotZone_entry hh h0]
    rw [hval]
    -- entry `i` is the one slot that joins those given back
    have hone : ∀ x, x.home = .entry t i ↔ x = sl := by
      intro x
      refine ⟨fun hx => Slot.home_inj (hx.trans hh.symm) (by simp [hx]), fun hx => by rw [hx, hh]⟩
    simp only [hone]
    split_ifs with hne
    · apply hs1.free hg
      rintro (hc | ⟨i', hi', hc⟩)
      · exact hbelow sl i hh hc
      · rw [hh] at hc
        cases hc
        exact Nat.lt_irrefl _ hi'
    · apply wp_pure
      apply hs1.skip
      rintro x rfl hin
      exact hne (hg.fits.ne_zero hin)
  · intro _ s1 hs1
    have hfresh : ¬ (D t ∨ ∃ i < perBlock, t.home = .entry t i) := by
      rintro (hc | ⟨i, -, hc⟩)
      · exact hD hc
      · exact Nat.lt_irrefl _ (Slot.home_entry hc).2.1
    apply (hs1.free hg hfresh).post _
    intro _ s2 hs2
    apply hs2.congr
    intro x _
    have hall : (∃ i < perBlock, x.home = .entry t i) ↔ ∃ i, x.home = .entry t i :=
      exists_congr fun i => and_iff_right_of_imp fun hx => (Slot.home_entry hx).2.2
    rw [hall, or_assoc, or_comm (a := x = t)]

theorem minixFreeDoubleIndirect_spec (hg : Good s F κ o) (h : Freeing κ D s F s') (hD : ¬ D .double)
    (hin : ∀ j, ¬ D (.inner j)) (hbelow : ∀ sl j i, sl.home = .entry (.inner j) i → ¬ D sl) :
    wp (minixFreeDoubleIndirect (slotZone s.block F κ .double))
      (fun _ s'' => Freeing κ (fun x => D x ∨ x = .double ∨ (∃ j, x = .inner j) ∨
        ∃ j i, x.home = .entry (.inner j) i) s F s'') never s' := by
  unfold minixFreeDoubleIndirect
  have hjj : ∀ j, slotZone s.block F κ (.inner j) ≠ 0 →
      (Slot.inner j).home = .entry .double j := fun j hne => if_pos (inner_home hne)
  have htop : ∀ x j, x = .inner j ∨ (∃ i, x.home = .entry (.inner j) i) →
      InData s.sb (slotZone s.block F κ x) → slotZone s.block F κ (.inner j) ≠ 0 := by
    rintro x j (rfl | ⟨i, hx⟩) hdata
    · exact hg.fits.ne_zero hdata
    · exact fun hz => hg.fits.ne_zero hdata (slotZone_of_table hx hz)
  simp only [← exists_or]
  split_ifs with h0
  · apply wp_pure
    apply h.skip
    rintro x (rfl | ⟨j, hx⟩) hdata
    · exact hg.fits.ne_zero hdata h0
    · exact htop x j hx hdata (slotZone_of_table (hjj j (htop x j hx hdata)) h0)
  have htable := hg.held.apart.table κ .double trivial h0
  apply wp_get_then (h.calm hg.calm)
  · have := (h.fits hg.fits).device
    rw [h.sb] at this
    exact Nat.lt_of_lt_of_le htable.2 this
  intro c
  apply wp_dataOf
  refine ((h.at c).loop (L := fun j x => x = .inner j ∨ ∃ i, x.home = .entry (.inner j) i)
    ?_).bind ?_ fun _ _ h => h
  · intro j s1 hj hs1
    have hh : (Slot.inner j).home = .entry .double j := if_pos hj
    have hval : entry ((s'.at c).block (slotZone s.block F κ .double)) j =
        slotZone s.block F κ (.inner j) := by
      rw [at_block, h.keep _ (.inl htable), slotZone_entry hh h0]
    rw [hval]
    split_ifs with hne
    · apply minixFreeIndirect_spec (t := .inner j) hg hs1 trivial
      · rintro (hc | ⟨j', hj', hc | ⟨i, hc⟩⟩)
        · exact hin j hc
        · cases hc
          exact Nat.lt_irrefl _ hj'
        · rw [hh] at hc
          cases hc
      · rintro sl i hsl (hc | ⟨j', hj', rfl | ⟨i', hc⟩⟩)
        · exact hbelow sl j i hsl hc
        · obtain ⟨b, hb⟩ := home_data (.inr hsl)
          cases hb
        · rw [hsl] at hc
          cases hc
          exact Nat.lt_irrefl _ hj'
    · apply wp_pure
      apply hs1.skip
      exact fun x hx hdata => hne (htop x j hx hdata)
  · intro _ s1 hs1
    have hfresh : ¬ (D .double ∨ ∃ j < perBlock, Slot.double = .inner j ∨
        ∃ i, Slot.double.home = .entry (.inner j) i) := by
      rintro (hc | ⟨j, -, hc | ⟨i, hc⟩⟩)
      · exact hD hc
      · cases hc
      · cases hc
    apply (hs1.free hg hfresh).post _
    intro _ s2 hs2
    apply hs2.congr
    intro x hdata
    have hall : (∃ j < perBlock, x = .inner j ∨ ∃ i, x.home = .entry (.inner j) i) ↔
        ∃ j, x = .inner j ∨ ∃ i, x.home = .entry (.inner j) i :=
      exists_congr fun j => and_iff_right_of_imp fun hx => inner_home (htop x j hx hdata)
    rw [hall, or_assoc, or_comm (a := x = .double)]

variable [DecidableEq ι]

theorem clearDirect_spec (hg : Good s F κ o) :
    wp (Prog.forRange (clearZone o) 7) (fun _ s' => Shrunk o κ (fun x => ∃ b, b < 7 ∧ x = .data b) s F s' ∧
      ∀ b, b < 7 → slotZone s'.block (F.refresh κ s' o) κ (.data b) = 0) never s := by
  refine wp_forRange (fun n s' => Shrunk o κ (fun x => ∃ b, b < 7 ∧ x = .data b) s F s' ∧
    ∀ b, b < n → slotZone s'.block (F.refresh κ s' o) κ (.data b) = 0) ?_ ?_
  · exact ⟨.at hg s.clock, fun b hb => absurd hb (Nat.not_lt_zero b)⟩
  intro b s1 hb ⟨hs1, hdone⟩
  obtain ⟨nd, hn, -⟩ := hs1.good.live
  have hh : (Slot.data b).home = .field b := if_pos hb
  apply (clearZone_spec hs1.good hn hh (bare_data b)).post _
  intro _ s2 ⟨hs2, h0⟩
  rw [refresh_refresh] at h0
  refine ⟨hs1.trans (hs2.mono fun x hx => ⟨b, hb, hx⟩), fun b' hb' => ?_⟩
  rcases Nat.lt_succ_iff_lt_or_eq.1 hb' with hlt | rfl
  · rcases hs2.map (.data b') with hsame | ⟨-, hz⟩
    · rw [refresh_refresh] at hsame
      rw [hsame, hdone b' hlt]
    · rw [refresh_refresh] at hz
      exact hz
  · exact h0

theorem slot_cases (sl : Slot) (hh : sl.home ≠ .nowhere) :
    (∃ b, b < 7 ∧ sl = .data b) ∨ (sl = .single ∨ ∃ i, sl.home = .entry .single i) ∨
      sl = .double ∨ (∃ j, sl = .inner j) ∨ ∃ j i, sl.home = .entry (.inner j) i := by
  cases sl with
  | data b =>
    by_cases h1 : b < 7
    · exact .inl ⟨b, h1, rfl⟩
    by_cases h2 : b - 7 < perBlock
    · exact .inr (.inl (.inr ⟨b - 7, home_single h1 h2⟩))
    by_cases h3 : b - 7 - perBlock < perBlock * perBlock
    · exact .inr (.inr (.inr (.inr ⟨_, _, home_inner h1 h2 h3⟩)))
    · simp only [Slot.home] at hh
      rw [if_neg h1, if_neg h2, if_neg h3] at hh
      exact absurd rfl hh
  | single => exact .inr (.inl (.inl rfl))
  | double => exact .inr (.inr (.inl rfl))
  | inner j => exact .inr (.inr (.inr (.inl ⟨j, rfl⟩)))

theorem zoneOf_empty (h : ∀ i, r.izone i = 0) (block : Nat → Mem) (sl : Slot) :
    zoneOf block r sl = 0 := by
  rw [zoneOf_home]
  cases hh : sl.home with
  | field i => exact h i
  | nowhere => rfl
  | entry t i =>
    have ht : zoneOf block r t = 0 := by
      cases t with
      | data b => exact absurd (Slot.home_entry hh).1 (Slot.not_table b)
      | single => exact h 7
      | double => exact h 8
      | inner j =>
        simp only [zoneOf, h 8, tableEntry]
        simp
    dsimp only
    rw [tableEntry, if_pos ht]

theorem izone_emptied (h : ∀ b, b < 7 → r.izone b = 0) (i : Nat) :
    ((r.setZone 7 0).setZone 8 0).izone i = 0 := by
  rw [izone_setZone (by decide) (by decide), izone_setZone (by decide) (by decide)]
  split_ifs with h8 h7
  · rfl
  · rfl
  · by_cases hi : i < 7
    · exact h i hi
    · unfold RawInode.izone
      rw [dif_neg (by omega)]

theorem Good.emptied (hg : Good s F κ o) (hn : s.node o = some nd) (h : Freeing κ D s F s')
    (hD : ∀ sl, InData s.sb (slotZone s.block F κ sl) → D sl) (hraw : ∀ i, nd'.raw.izone i = 0)
    (hk : NodeKept nd nd') (hs'' : s'' = (s'.at c).withNode o nd') :
    Shrunk o κ (fun _ => True) s F s'' ∧
      ∀ sl, slotZone s''.block (F.refresh κ s'' o) κ sl = 0 := by
  have hn'' : s''.node o = some nd' := by rw [hs'', withNode_self]
  have hF : F.refresh κ s'' o κ = some nd'.raw := refresh_self hn''
  have hblock : s''.block = s'.block := by rw [hs'']; rfl
  have hself : ∀ sl, slotZone s''.block (F.refresh κ s'' o) κ sl = 0 := fun sl => by
    rw [slotZone_eq hF, zoneOf_empty hraw]
  have hsame : slotZone s'.block F = slotZone s.block F := by
    apply slotZone_congr
    intro κ' t ht hne
    exact h.keep _ (.inl (hg.held.apart.table κ' t ht hne))
  have hother : ∀ κ', κ' ≠ κ → slotZone s''.block (F.refresh κ s'' o) κ' = slotZone s.block F κ' := by
    intro κ' hne
    rw [slotZone_other (refresh_other hne), hblock, hsame]
  have hmarks : ∀ w, InData s.sb w → (zmarked s.sb s''.block w = true ↔
      zmarked s.sb s.block w = true ∧ ∀ sl, slotZone s.block F κ sl ≠ w) := by
    intro w hw
    rw [hblock, h.marks w hw]
    refine and_congr_right fun _ => ⟨fun hall sl heq => ?_, fun hall sl _ => hall sl⟩
    exact hall sl (hD sl (heq ▸ hw)) heq
  have hframe : Frame o s s'' := by
    have hkeep := h.keep
    obtain ⟨c', block, rfl⟩ := h.state
    rw [hs'']
    exact .put hn hk fun b hb => hkeep b (.inr hb)
  have hapart : Apart s.sb (slotZone s''.block (F.refresh κ s'' o)) := by
    constructor
    · intro κ' sl ht hne
      by_cases hκ : κ' = κ
      · rw [hκ, hself] at hne
        exact absurd rfl hne
      · rw [hother κ' hκ] at hne ⊢
        exact hg.held.apart.table κ' sl ht hne
    intro κ1 sl1 κ2 sl2 hin heq
    have h1 : κ1 ≠ κ := by
      rintro rfl
      rw [hself] at hin
      exact hg.fits.zero_out hin
    have h2 : κ2 ≠ κ := by
      rintro rfl
      rw [heq, hself] at hin
      exact hg.fits.zero_out hin
    rw [hother κ1 h1] at hin heq
    rw [hother κ2 h2] at heq
    exact hg.held.apart.inj κ1 sl1 κ2 sl2 hin heq
  refine ⟨⟨hframe, hg.of_frame hframe ⟨hapart, ?_⟩, fun sl => .inr ⟨trivial, hself sl⟩, hother,
    fun w hw hm => ((hmarks w hw).1 hm).1, ?_, ?_, ?_⟩, hself⟩
  · intro κ' sl hin
    have hκ : κ' ≠ κ := by
      rintro rfl
      rw [hself] at hin
      exact hg.fits.zero_out hin
    rw [hother κ' hκ] at hin ⊢
    refine (hmarks _ hin).2 ⟨hg.held.marked κ' sl hin, fun sl' heq => ?_⟩
    exact hκ (hg.held.apart.inj κ' sl κ sl' hin heq.symm).1
  · intro w hw hm
    by_cases hex : ∃ sl, slotZone s.block F κ sl = w
    · obtain ⟨sl, heq⟩ := hex
      exact .inr ⟨sl, trivial, heq, hself sl⟩
    · push Not at hex
      exact .inl ((hmarks w hw).2 ⟨hm, hex⟩)
  · intro sl hin _
    apply Bool.eq_false_iff.2
    intro hc
    exact ((hmarks _ hin).1 hc).2 sl rfl
  · intro κ' x
    by_cases hκ : κ' = κ
    · refine .inr ⟨hκ, trivial, ?_⟩
      unfold byteAt
      rw [hκ, hself, if_neg hg.fits.zero_out]
    left
    apply byteAt_congr
    · rw [hother κ' hκ]
    · intro hin
      rw [hblock]
      exact h.keep _ (.inl hin)

end freeing

section truncate

variable [DecidableEq ι] {size : Nat}

structure NodeSized (n : Nat) (nd nd' : Node) : Prop where
  ino : nd'.ino = nd.ino
  size : nd'.size = n
  isDir : nd'.isDir = nd.isDir
  mode : nd'.mode = nd.mode
  refcount : nd'.refcount = nd.refcount
  rawSize : nd'.raw.size = BitVec.ofNat 32 n
  raw : nd'.raw = { nd.raw with
    zone := nd'.raw.zone, size := nd'.raw.size, time := nd'.raw.time }
  dirty : nd' = nd ∨ nd'.dirty = true

structure Resized (o : Nat) (κ : ι) (size : Nat) (s : Fs) (F : Files ι) (s' : Fs) : Prop where
  outer : Outer o s s'
  node : ∀ nd, s.node o = some nd → ∃ nd', s'.node o = some nd' ∧ NodeSized size nd nd'
  good : Good s' (F.refresh κ s' o) κ o
  map : ∀ sl, slotZone s'.block (F.refresh κ s' o) κ sl = slotZone s.block F κ sl ∨
    slotZone s'.block (F.refresh κ s' o) κ sl = 0
  other : ∀ κ', κ' ≠ κ → slotZone s'.block (F.refresh κ s' o) κ' = slotZone s.block F κ'
  bytes : ∀ κ' x, byteAt s.sb s'.block (F.refresh κ s' o) κ' x = byteAt s.sb s.block F κ' x ∨
    (κ' = κ ∧ size ≤ x ∧ byteAt s.sb s'.block (F.refresh κ s' o) κ' x = 0)
  cut : ∀ nd, s.node o = some nd → ∀ x, blocksOf size ≤ x / blockSize → x < nd.size →
    byteAt s.sb s'.block (F.refresh κ s' o) κ x = 0
  freed : ∀ w, InData s.sb w → zmarked s.sb s.block w = true → zmarked s.sb s'.block w = true ∨
    ∃ sl, slotZone s.block F κ sl = w ∧ slotZone s'.block (F.refresh κ s' o) κ sl = 0
  gone : ∀ sl, InData s.sb (slotZone s.block F κ sl) →
    slotZone s'.block (F.refresh κ s' o) κ sl = 0 → zmarked s.sb s'.block (slotZone s.block F κ sl) = false
  dropped : ∀ nd, s.node o = some nd → (∀ b, slotZone s.block F κ (.data b) ≠ 0 → b < blocksOf nd.size) →
    ∀ b, blocksOf size ≤ b → slotZone s'.block (F.refresh κ s' o) κ (.data b) = 0
  kept : ∀ b, b * blockSize < size →
    slotZone s'.block (F.refresh κ s' o) κ (.data b) = slotZone s.block F κ (.data b)

section

variable {s'' : Fs} (hn : s.node o = some nd) (hs : Shrunk o κ A s F s')
  (hA : ∀ x, A (.data (x / blockSize)) → size ≤ x)
  (hcut : ∀ x, blocksOf size ≤ x / blockSize → x < nd.size → byteAt s.sb s'.block (F.refresh κ s' o) κ x = 0)
  (hdrop : (∀ b, slotZone s.block F κ (.data b) ≠ 0 → b < blocksOf nd.size) →
    ∀ b, blocksOf size ≤ b → slotZone s'.block (F.refresh κ s' o) κ (.data b) = 0)
include hn hs hA hcut hdrop

theorem Shrunk.resized (hout : Outer o s s'') (hnode : ∃ nd', s''.node o = some nd' ∧ NodeSized size nd nd')
    (hg : Good s'' (F.refresh κ s'' o) κ o) (hblock : s''.block = s'.block)
    (hmap : slotZone s''.block (F.refresh κ s'' o) = slotZone s'.block (F.refresh κ s' o))
    (hbytes : byteAt s.sb s''.block (F.refresh κ s'' o) = byteAt s.sb s'.block (F.refresh κ s' o)) :
    Resized o κ size s F s'' := by
  refine ⟨hout, fun nd0 hn0 => ?_, hg, fun sl => ?_, fun κ' hne => ?_, fun κ' x => ?_,
    fun nd0 hn0 x h1 h2 => ?_, fun w hw hm => ?_, fun sl hin h0 => ?_, fun nd0 hn0 htail b hb => ?_,
      fun b hb => ?_⟩
  · rw [hn, Option.some.injEq] at hn0
    rwa [← hn0]
  · rw [hmap]
    exact (hs.map sl).imp_right fun hc => hc.2
  · rw [hmap, hs.other κ' hne]
  · rw [hbytes]
    exact (hs.bytes κ' x).imp_right fun hc => ⟨hc.1, hA x hc.2.1, hc.2.2⟩
  · rw [hn, Option.some.injEq] at hn0
    rw [hbytes]
    exact hcut x h1 (hn0 ▸ h2)
  · rw [hmap, hblock]
    exact (hs.freed w hw hm).imp_right fun ⟨sl, _, h1, h2⟩ => ⟨sl, h1, h2⟩
  · rw [hmap] at h0
    rw [hblock]
    exact hs.gone sl hin h0
  · rw [hn, Option.some.injEq] at hn0
    rw [hmap]
    exact hdrop (hn0 ▸ htail) b hb
  · rw [hmap]
    refine (hs.map (.data b)).resolve_right fun hc => absurd hb (Nat.not_lt.2 (hA _ ?_))
    rw [Nat.mul_div_cancel b (by decide)]
    exact hc.1

theorem setSize_spec : wp (setSize o size) (fun _ s'' => Resized o κ size s F s'') never s' := by
  obtain ⟨nd1, hn1, hk⟩ := hs.frame.self nd hn
  apply wp_bind
  apply wp_rtcNowUnix
  intro now c
  refine wp_bind_nodeOf hn1 ?_
  apply wp_setNode
  obtain ⟨hg, hmap, hbytes⟩ := hs.good.retouch (c := c) hn1 { nd1 with
    size := size
    raw := { nd1.raw with size := BitVec.ofNat 32 size, time := now }
    dirty := true } rfl rfl
  rw [refresh_refresh] at hg hmap hbytes
  rw [hs.frame.sb] at hbytes
  refine hs.resized hn hA hcut hdrop (hs.frame.toOuter.trans (Outer.put (c := c) fun _ _ => rfl))
    ⟨_, withNode_self, hk.ino, rfl, hk.isDir, hk.mode, hk.refcount, rfl, ?_, .inr rfl⟩ hg rfl hmap hbytes
  rw [hk.raw]

end

theorem blocksOf_eq (h : size ≤ maxSize) : blocksOf size = (size + 1023) / 1024 := by
  unfold maxSize maxBlocks perBlock blockSize at h
  unfold blocksOf blockSize
  omega

theorem clearTail_spec (hg : Good s F κ o) (hend : first + n ≤ maxBlocks) :
    wp (Prog.forRange (fun i => minixClearBlockMapping o (first + i)) n)
      (fun _ s' => Shrunk o κ (fun x => ∃ b, first ≤ b ∧ x = .data b) s F s' ∧
        ∀ b, first ≤ b → b < first + n → slotZone s'.block (F.refresh κ s' o) κ (.data b) = 0)
      never s := by
  refine wp_forRange (fun m s' => Shrunk o κ (fun x => ∃ b, first ≤ b ∧ x = .data b) s F s' ∧
    ∀ b, first ≤ b → b < first + m → slotZone s'.block (F.refresh κ s' o) κ (.data b) = 0) ?_ ?_
  · exact ⟨.at hg s.clock, fun b h1 h2 => absurd h1 (by omega)⟩
  intro m s1 hm ⟨hs1, hdone⟩
  apply (minixClearBlockMapping_spec hs1.good (show first + m < maxBlocks by omega)).post _
  intro _ s2 ⟨hs2, h0⟩
  rw [refresh_refresh] at h0
  refine ⟨hs1.trans (hs2.mono fun x hx => ⟨first + m, by omega, hx⟩), fun b h1 h2 => ?_⟩
  by_cases hb : b = first + m
  · rw [hb]
    exact h0
  have hsame := hs2.keeps (.data b) fun hc => hb (Slot.data.inj hc)
  rw [refresh_refresh] at hsame
  rw [hsame]
  exact hdone b h1 (by omega)

omit [DecidableEq ι] in
theorem byteAt_zero {block : Nat → Mem} (hf : s.sb.Fits s.nblocks)
    (h : slotZone block F κ (.data (x / blockSize)) = 0) : byteAt s.sb block F κ x = 0 := by
  unfold byteAt
  rw [h, if_neg hf.zero_out]

theorem emptyFile_spec {Q : Unit → Fs → Prop} {k : FsM Unit} (hg : Good s F κ o)
    (hk : ∀ s', Shrunk o κ (fun _ => True) s F s' →
      (∀ sl, slotZone s'.block (F.refresh κ s' o) κ sl = 0) → wp k Q never s') :
    wp (do
        Prog.forRange (clearZone o) 7
        let nd ← nodeOf o
        minixFreeIndirect (nd.raw.izone 7)
        minixFreeDoubleIndirect (nd.raw.izone 8)
        let nd ← nodeOf o
        setNode o { nd with raw := (nd.raw.setZone 7 0).setZone 8 0 }
        k) Q never s := by
  apply (clearDirect_spec hg).next _
  intro _ s1 ⟨hs1, hdirect⟩
  have hg1 := hs1.good
  obtain ⟨nd1, hn1, hF1⟩ := hg1.live
  have hsingle : slotZone s1.block (F.refresh κ s1 o) κ .single = nd1.raw.izone 7 := slotZone_eq hF1
  have hdouble : slotZone s1.block (F.refresh κ s1 o) κ .double = nd1.raw.izone 8 := slotZone_eq hF1
  apply wp_bind_nodeOf hn1
  rw [← hsingle, ← hdouble]
  apply (minixFreeIndirect_spec (t := .single) hg1 (Freeing.start s1 (F.refresh κ s1 o) κ s1.clock)
    trivial (fun hc => hc) fun _ _ _ hc => hc).next _
  intro _ s2 hs2
  apply (minixFreeDoubleIndirect_spec hg1 hs2 _ _ _).next _
  · rintro (hc | hc | ⟨i, hc⟩)
    · exact hc
    · cases hc
    · cases hc
  · rintro j (hc | hc | ⟨i, hc⟩)
    · exact hc
    · cases hc
    · obtain ⟨b, hb⟩ := home_data (j := 0) (.inl hc)
      cases hb
  · rintro sl j i hh (hc | rfl | ⟨i', hc⟩)
    · exact hc
    · cases hh
    · rw [hh] at hc
      cases hc
  intro _ s3 hs3
  have hn3 : s3.node o = some nd1 := by
    obtain ⟨c, block, rfl⟩ := hs3.state
    exact hn1
  apply wp_bind_nodeOf hn3
  apply wp_bind
  apply wp_setNode
  have hizone : ∀ b, b < 7 → nd1.raw.izone b = 0 := by
    intro b hb
    have := hdirect b hb
    rw [slotZone_eq hF1, zoneOf_field (show (Slot.data b).home = .field b from if_pos hb)] at this
    exact this
  have hkept : NodeKept nd1 { nd1 with raw := (nd1.raw.setZone 7 0).setZone 8 0 } := by
    refine ⟨rfl, rfl, rfl, rfl, rfl, ?_, fun hd => hd⟩
    rw [setZone_other, setZone_other]
  have hall : ∀ sl, InData s1.sb (slotZone s1.block (F.refresh κ s1 o) κ sl) →
      (False ∨ sl = .single ∨ ∃ i, sl.home = .entry .single i) ∨ sl = .double ∨
        (∃ j, sl = .inner j) ∨ ∃ j i, sl.home = .entry (.inner j) i := by
    intro sl hin
    have hne := hg1.fits.ne_zero hin
    rcases slot_cases sl (slotZone_home_ne hne) with ⟨b, hb, rfl⟩ | hc | hc
    · exact absurd (hdirect b hb) hne
    · exact .inl (.inr hc)
    · exact .inr hc
  obtain ⟨hshrunk, hzero⟩ := hg1.emptied (c := s3.clock) hn1 hs3 hall (izone_emptied hizone) hkept rfl
  rw [refresh_refresh] at hzero
  exact hk _ ((hs1.mono fun _ _ => trivial).trans hshrunk) hzero

theorem minixTruncate_spec (hg : Good s F κ o) (hn : s.node o = some nd)
    (hsz : nd.raw.size = BitVec.ofNat 32 nd.size) (hold : 0 < size → nd.size ≤ maxSize)
    (hnew : size ≤ maxSize) :
    wp (minixTruncate o size) (fun _ s' => Resized o κ size s F s') never s := by
  have hb := blocksOf_eq hnew
  apply wp_bind_nodeOf hn
  by_cases hgrow : 0 < size ∧ nd.size < size
  · rw [if_pos hgrow]
    have hsame : Shrunk o κ (fun _ => False) s F s := .at hg s.clock
    apply setSize_spec hn hsame
    · exact fun _ hc => hc.elim
    · intro x h1 h2
      unfold blockSize at h1
      omega
    · intro htail b hle
      rw [hg.refresh]
      by_contra hne
      have hlt := htail b hne
      rw [blocksOf_eq (hold hgrow.1)] at hlt
      omega
  rw [if_neg hgrow]
  by_cases heq : size = nd.size
  · rw [if_pos heq]
    apply wp_pure
    have hsame : Shrunk o κ (fun _ => False) s F s := .at hg s.clock
    apply hsame.resized hn (fun _ hc => hc.elim) _ _ (.at o s s.clock) _ hsame.good rfl rfl rfl
    · intro x h1 h2
      unfold blockSize at h1
      omega
    · intro htail b hle
      rw [hg.refresh]
      by_contra hne
      have hlt := htail b hne
      rw [← heq] at hlt
      omega
    · exact ⟨nd, hn, rfl, heq.symm, rfl, rfl, rfl, heq ▸ hsz, rfl, .inl rfl⟩
  rw [if_neg heq]
  refine wp_ite (fun hz => ?_) fun hz => ?_
  · replace hold : nd.size ≤ maxSize := hold (Nat.pos_of_ne_zero fun hc => hz (by rw [hc]; rfl))
    have hb' := blocksOf_eq hold
    apply wp_bind
    have hend : blocksOf size + (blocksOf nd.size - blocksOf size) ≤ maxBlocks := by
      unfold maxSize blockSize at hold
      omega
    apply (clearTail_spec hg hend).post _
    intro _ s1 ⟨hs1, hcut⟩
    apply (minixPruneEmptyIndirects_spec hs1.good).next _
    rintro _ s2 ⟨hs2, -⟩
    have hs : Shrunk o κ (fun x => (∃ b, blocksOf size ≤ b ∧ x = .data b) ∨ x.IsTable) s F s2 :=
      (hs1.mono fun x hx => .inl hx).trans (hs2.mono fun x hx => .inr hx)
    apply setSize_spec hn hs
    · rintro x (⟨b, h1, h2⟩ | hc)
      · rw [Slot.data.injEq] at h2
        rw [hb, ← h2] at h1
        unfold blockSize at h1
        omega
      · exact absurd hc (Slot.not_table _)
    · intro x h1 h2
      apply byteAt_zero hg.fits
      have hlt : x / blockSize < blocksOf size + (blocksOf nd.size - blocksOf size) := by
        unfold blockSize at *
        omega
      have hsame := hs2.keeps (.data (x / blockSize)) (Slot.not_table _)
      rw [refresh_refresh] at hsame
      rw [hsame]
      exact hcut _ h1 hlt
    · intro htail b hle
      have hsame := hs2.keeps (.data b) (Slot.not_table _)
      rw [refresh_refresh] at hsame
      rw [hsame]
      by_cases hlt : b < blocksOf size + (blocksOf nd.size - blocksOf size)
      · exact hcut b hle hlt
      by_contra hne
      have hold := htail b fun hc => by
        rcases hs1.map (.data b) with heq | hc'
        · exact hne (heq.trans hc)
        · exact hne hc'.2
      omega
  · refine emptyFile_spec hg fun s' hs hzero => ?_
    apply setSize_spec hn hs
    · intro x _
      omega
    · intro x _ _
      exact byteAt_zero hg.fits (hzero _)
    · exact fun _ b _ => hzero (.data b)

end truncate

end Jnu.Minix
