import Jnu.Minix.Bmap

namespace Jnu.Minix

open Lib.Bytes Lib.Effect
open Function

variable {ι : Type} [DecidableEq ι] {o i j : Nat} {κ : ι} {s s' s'' : Fs} {F : Files ι} {A A' : Slot → Prop}
  {sl t : Slot} {nd : Node} {c : Clock} {b : Nat}

-- Slots of `κ` in `A` lost their zones, and the zones are free again.
structure Shrunk (o : Nat) (κ : ι) (A : Slot → Prop) (s : Fs) (F : Files ι) (s' : Fs) : Prop where
  frame : Frame o s s'
  good : Good s' (F.refresh κ s' o) κ o
  map : ∀ sl, slotZone s'.block (F.refresh κ s' o) κ sl = slotZone s.block F κ sl ∨
    (A sl ∧ slotZone s'.block (F.refresh κ s' o) κ sl = 0)
  other : ∀ κ', κ' ≠ κ → slotZone s'.block (F.refresh κ s' o) κ' = slotZone s.block F κ'
  marks : ∀ w, InData s.sb w → zmarked s.sb s'.block w = true → zmarked s.sb s.block w = true
  freed : ∀ w, InData s.sb w → zmarked s.sb s.block w = true → zmarked s.sb s'.block w = true ∨
    ∃ sl, A sl ∧ slotZone s.block F κ sl = w ∧ slotZone s'.block (F.refresh κ s' o) κ sl = 0
  gone : ∀ sl, InData s.sb (slotZone s.block F κ sl) →
    slotZone s'.block (F.refresh κ s' o) κ sl = 0 →
    zmarked s.sb s'.block (slotZone s.block F κ sl) = false
  bytes : ∀ κ' x, byteAt s.sb s'.block (F.refresh κ s' o) κ' x = byteAt s.sb s.block F κ' x ∨
    (κ' = κ ∧ A (.data (x / blockSize)) ∧ byteAt s.sb s'.block (F.refresh κ s' o) κ' x = 0)

theorem Shrunk.at (h : Good s F κ o) (c : Clock) : Shrunk o κ A s F (s.at c) := by
  have hg : Grown o κ (fun _ => False) s F (s.at c) := .at h c
  have hF : F.refresh κ (s.at c) o = F := h.refresh
  refine ⟨hg.frame, hg.good, ?_, hg.other, fun w _ hm => hm, fun w _ hm => .inl hm, ?_, ?_⟩
  · intro sl
    rw [hF]
    exact .inl rfl
  · intro sl hin h0
    rw [hF, at_block] at h0
    rw [h0] at hin
    exact absurd hin h.fits.zero_out
  · intro κ' x
    exact .inl (hg.bytes κ' x)

theorem Shrunk.mono (h : Shrunk o κ A s F s') (hA : ∀ sl, A sl → A' sl) : Shrunk o κ A' s F s' where
  frame := h.frame
  good := h.good
  map := fun sl => (h.map sl).imp_right fun ⟨h1, h2⟩ => ⟨hA sl h1, h2⟩
  other := h.other
  marks := h.marks
  freed := fun w hw hm => (h.freed w hw hm).imp_right fun ⟨sl, h1, h2⟩ => ⟨sl, hA sl h1, h2⟩
  gone := h.gone
  bytes := fun κ' x => (h.bytes κ' x).imp_right fun ⟨h1, h2, h3⟩ => ⟨h1, hA _ h2, h3⟩

theorem Shrunk.trans (h : Shrunk o κ A s F s') (h' : Shrunk o κ A s' (F.refresh κ s' o) s'') :
    Shrunk o κ A s F s'' := by
  have hsb := h.frame.sb
  obtain ⟨hframe', hgood', hmap', hother', hmarks', hfreed', hgone', hbytes'⟩ := h'
  rw [refresh_refresh] at hgood' hother' hgone' hbytes'
  simp only [refresh_refresh] at hmap' hfreed'
  rw [hsb] at hmarks' hfreed' hgone' hbytes'
  constructor
  · exact h.frame.trans hframe'
  · exact hgood'
  · intro sl
    rcases hmap' sl with hsame | h0
    · rw [hsame]
      exact h.map sl
    · exact .inr h0
  · intro κ' hne
    rw [hother' κ' hne, h.other κ' hne]
  · exact fun w hw hm => h.marks w hw (hmarks' w hw hm)
  · intro w hw hm
    rcases h.freed w hw hm with hm' | ⟨sl, hA, heq, h0⟩
    · rcases hfreed' w hw hm' with h1 | ⟨sl, hA, heq, h0⟩
      · exact .inl h1
      refine .inr ⟨sl, hA, ?_, h0⟩
      rcases h.map sl with hs | ⟨-, hz⟩
      · rw [← hs, heq]
      · rw [hz] at heq
        exact absurd heq.symm (h.good.fits.ne_zero (hsb ▸ hw))
    · refine .inr ⟨sl, hA, heq, ?_⟩
      rcases hmap' sl with hs | ⟨-, hz⟩
      · rw [hs, h0]
      · exact hz
  · intro sl hin h0
    rcases h.map sl with hs | ⟨-, hz⟩
    · rw [← hs] at hin ⊢
      exact hgone' sl hin h0
    have hg := h.gone sl hin hz
    apply Bool.eq_false_iff.2
    intro hc
    rw [hmarks' _ hin hc] at hg
    cases hg
  · intro κ' x
    rcases hbytes' κ' x with hs | hz
    · rw [hs]
      exact h.bytes κ' x
    · exact .inr hz

theorem Shrunk.of_at (h : Good s F κ o) (h' : Shrunk o κ A (s.at c) F s') : Shrunk o κ A s F s' := by
  have hF : F.refresh κ (s.at c) o = F := h.refresh
  apply (Shrunk.at h c).trans
  rw [hF]
  exact h'

theorem Shrunk.keeps (h : Shrunk o κ A s F s') (sl : Slot) (hA : ¬ A sl) :
    slotZone s'.block (F.refresh κ s' o) κ sl = slotZone s.block F κ sl :=
  (h.map sl).resolve_right fun hc => hA hc.1

section

variable (h : Good s F κ o) (hn : s.node o = some nd)
include h hn

theorem Good.detach (ho : Open s.block nd.raw sl) (hbare : Bare s.block nd.raw sl)
    (hz : place (release s.sb s.block (zoneOf s.block nd.raw sl)) nd.raw sl 0 = z)
    (hs' : s' = ((s.at c).withBlock z.1).withNode o { nd with raw := z.2 }) :
    Shrunk o κ (· = sl) s F s' ∧ slotZone s'.block (F.refresh κ s' o) κ sl = 0 := by
  have hκ := h.node hn
  have hp := h.held.drop h.fits hκ ho hbare
  have hF : F.refresh κ s' o = update F κ (some z.2) := by rw [hs', refresh_node withNode_self]
  have hblock : s'.block = z.1 := by
    rw [hs']
    rfl
  subst hz
  have hframe : Frame o s s' := by
    rw [hs']
    exact .put hn ⟨rfl, rfl, rfl, rfl, rfl, place_raw, fun hd => hd⟩ hp.below
  rw [← hblock, ← hF] at hp
  refine ⟨⟨hframe, h.of_frame hframe hp.held, fun sl' => ?_, fun κ' hne => ?_, fun w hw hm => ?_,
    fun w hw hm => ?_, fun sl' hin h0 => ?_, fun κ' x => ?_⟩, hp.self⟩
  · by_cases hc : sl' = sl
    · rw [hc]
      exact .inr ⟨rfl, hp.self⟩
    · exact .inl (hp.other κ sl' fun hcc => hc hcc.2)
  · funext sl'
    exact hp.other κ' sl' fun hc => hne hc.1
  · rw [hp.marks w hw, Bool.and_eq_true] at hm
    exact hm.2
  · by_cases hc : slotZone s.block F κ sl = w
    · exact .inr ⟨sl, rfl, hc, hp.self⟩
    · left
      rw [hp.marks w hw, hm]
      simp [hc]
  · have hc : sl' = sl := by
      by_contra hne
      rw [hp.other κ sl' fun hcc => hne hcc.2] at h0
      rw [h0] at hin
      exact h.fits.zero_out hin
    rw [hc] at hin ⊢
    rw [hp.marks _ hin]
    simp
  · rw [hp.bytes]
    split_ifs with hc
    · exact .inr ⟨hc.1, hc.2, rfl⟩
    · exact .inl rfl

theorem clearZone_spec (hh : sl.home = .field i) (hbare : Bare s.block nd.raw sl) :
    wp (clearZone o i) (fun _ s' => Shrunk o κ (· = sl) s F s' ∧
      slotZone s'.block (F.refresh κ s' o) κ sl = 0) never s := by
  have hF := h.node hn
  have hval : zoneOf s.block nd.raw sl = nd.raw.izone i := zoneOf_field hh
  apply wp_bind_nodeOf hn
  by_cases h0 : nd.raw.izone i = 0
  · rw [if_neg (by simpa using h0)]
    apply wp_pure
    refine ⟨.at h s.clock, ?_⟩
    rw [h.refresh, slotZone_eq hF, hval, h0]
  rw [if_pos h0]
  apply wp_bind
  apply minixSafeFreeZone_spec h.calm h.fits
  · intro hz
    rw [← hval, ← slotZone_eq hF] at hz ⊢
    exact h.held.marked κ sl hz
  intro c
  refine wp_bind_nodeOf hn ?_
  apply wp_setNode
  have ho : Open s.block nd.raw sl := by
    unfold Open
    rw [hh]
    trivial
  have hplace : place (release s.sb s.block (zoneOf s.block nd.raw sl)) nd.raw sl 0 = _ :=
    place_field hh
  have hd := h.detach (c := c) hn ho hbare hplace rfl
  rw [hval] at hd
  exact hd

theorem dropEntry_spec (hh : sl.home = .entry t i) (ht : slotZone s.block F κ t ≠ 0)
    (hbare : Bare s.block nd.raw sl) :
    wp (do
        minixSafeFreeZone (slotZone s.block F κ sl)
        let m ← dataOf (slotZone s.block F κ t)
        setData (slotZone s.block F κ t) (putEntry m i 0))
      (fun _ s' => Shrunk o κ (· = sl) s F s' ∧
        slotZone s'.block (F.refresh κ s' o) κ sl = 0) never s := by
  have hF := h.node hn
  apply wp_bind
  apply minixSafeFreeZone_spec h.calm h.fits (h.held.marked κ sl)
  intro c
  apply wp_dataOf
  apply wp_setData
  have hval : slotZone s.block F κ sl = zoneOf s.block nd.raw sl := slotZone_eq hF
  have hzt : zoneOf (release s.sb s.block (zoneOf s.block nd.raw sl)) nd.raw t =
      slotZone s.block F κ t := by
    rw [← slotZone_eq hF, h.held.apart.slotZone_release h.fits]
  have hplace : place (release s.sb s.block (zoneOf s.block nd.raw sl)) nd.raw sl 0 = _ :=
    place_entry hh
  rw [hzt] at hplace
  have hd := h.detach (c := c) hn (h.open_entry hn hh ht) hbare hplace rfl
  rw [put_same hn, ← hval] at hd
  exact hd

theorem clearEntry_spec (hh : sl.home = .entry t i) (ht : slotZone s.block F κ t ≠ 0)
    (hbare : Bare s.block nd.raw sl) :
    wp (clearEntry (slotZone s.block F κ t) i) (fun _ s' => Shrunk o κ (· = sl) s F s' ∧
      slotZone s'.block (F.refresh κ s' o) κ sl = 0) never s := by
  have htable := h.held.apart.table κ t (Slot.home_entry hh).1 ht
  apply wp_get_then h.calm (Nat.lt_of_lt_of_le htable.2 h.fits.device)
  intro c
  apply wp_dataOf
  rw [at_block, ← slotZone_entry hh ht]
  split_ifs with h0
  · have hdrop := dropEntry_spec (h.at c) hn hh ht hbare
    exact hdrop.post (fun _ _ hs => ⟨.of_at h hs.1, hs.2⟩)
  apply wp_pure
  refine ⟨.at h c, ?_⟩
  have : F.refresh κ (s.at c) o = F := h.refresh
  rw [this, at_block]
  exact not_not.1 h0

end

def maxBlocks : Nat := 7 + perBlock + perBlock * perBlock

def maxSize : Nat := maxBlocks * blockSize

theorem minixClearBlockMapping_spec (h : Good s F κ o) (hb : b < maxBlocks) :
    wp (minixClearBlockMapping o b) (fun _ s' => Shrunk o κ (· = .data b) s F s' ∧
      slotZone s'.block (F.refresh κ s' o) κ (.data b) = 0) never s := by
  obtain ⟨nd, hn, hF⟩ := h.live
  unfold minixClearBlockMapping
  refine wp_ite (fun h1 => clearZone_spec h hn (if_pos h1) (bare_data b)) fun h1 => ?_
  -- a table above the block is missing, and so is the block
  have hnone : ∀ c, slotZone s.block F κ (.data b) = 0 →
      Shrunk o κ (· = .data b) s F (s.at c) ∧
        slotZone (s.at c).block (F.refresh κ (s.at c) o) κ (.data b) = 0 := by
    intro c h0
    have hF' : F.refresh κ (s.at c) o = F := h.refresh
    exact ⟨.at h c, by rw [hF', at_block, h0]⟩
  apply wp_bind_nodeOf hn
  refine wp_ite (fun h2 => ?_) fun h2 => ?_
  · have hh := home_single h1 h2
    have hval : slotZone s.block F κ .single = nd.raw.izone 7 := slotZone_eq hF
    rw [← hval]
    split_ifs with h0
    · exact wp_pure (hnone s.clock (slotZone_of_table hh h0))
    · exact clearEntry_spec h hn hh h0 (bare_data b)
  have h3 : b - 7 - perBlock < perBlock * perBlock := by
    unfold maxBlocks at hb
    omega
  have hdiv := Nat.div_lt_of_lt_mul h3
  have hin : (Slot.inner ((b - 7 - perBlock) / perBlock)).home =
      .entry .double ((b - 7 - perBlock) / perBlock) := if_pos hdiv
  have hh := home_inner h1 h2 h3
  have hval : slotZone s.block F κ .double = nd.raw.izone 8 := slotZone_eq hF
  rw [← hval]
  refine wp_ite (fun h0 => ?_) fun h0 => ?_
  · exact wp_pure (hnone s.clock (slotZone_of_table hh (slotZone_of_table hin h0)))
  have htable := h.held.apart.table κ .double trivial h0
  apply wp_get_then h.calm (Nat.lt_of_lt_of_le htable.2 h.fits.device)
  intro c
  rw [if_pos rfl, if_neg (by omega)]
  apply wp_dataOf
  rw [at_block, ← slotZone_entry hin h0]
  split_ifs with h0'
  · exact wp_pure (hnone c (slotZone_of_table hh h0'))
  · have hclear := clearEntry_spec (h.at c) hn hh h0' (bare_data b)
    exact hclear.post (fun _ _ hs => ⟨.of_at h hs.1, hs.2⟩)

theorem clearAll_spec {l : List Nat} (h : Good s F κ o) (hl : ∀ b ∈ l, b < maxBlocks) :
    wp (clearAll o l) (fun _ s' => Shrunk o κ (fun sl => ∃ b ∈ l, sl = .data b) s F s' ∧
      ∀ b ∈ l, slotZone s'.block (F.refresh κ s' o) κ (.data b) = 0) never s := by
  induction l generalizing s F with
  | nil => exact wp_pure ⟨.at h s.clock, fun b hb => absurd hb List.not_mem_nil⟩
  | cons b l ih =>
    apply (minixClearBlockMapping_spec h (hl b List.mem_cons_self)).next _
    intro _ s1 ⟨hs1, h0⟩
    apply (ih hs1.good fun b' hb' => hl b' (List.mem_cons_of_mem _ hb')).post _
    intro _ s2 ⟨hs2, hrest⟩
    rw [refresh_refresh] at hrest
    have htr : Shrunk o κ (fun sl => ∃ b' ∈ b :: l, sl = .data b') s F s2 := by
      apply (hs1.mono fun sl hsl => ⟨b, List.mem_cons_self, hsl⟩).trans
      exact hs2.mono fun sl ⟨b', hb', hsl⟩ => ⟨b', List.mem_cons_of_mem _ hb', hsl⟩
    refine ⟨htr, fun b' hb' => ?_⟩
    rcases List.mem_cons.1 hb' with rfl | hb'
    · rcases hs2.map (.data b') with hsame | ⟨-, hz⟩
      · rw [refresh_refresh] at hsame
        rw [hsame, h0]
      · rw [refresh_refresh] at hz
        exact hz
    · exact hrest b' hb'

def Filled (M : Slot → Nat) (t : Slot) : Prop := ∃ sl i, sl.home = .entry t i ∧ M sl ≠ 0

omit [DecidableEq ι] in
theorem minixIndirectEmpty_spec {Q : Bool → Fs → Prop} {E : Errno → Fs → Prop} (h : Good s F κ o)
    (hn : s.node o = some nd) (ht : t.IsTable)
    (hQ : ∀ e c, (e = true → Bare s.block nd.raw t) →
      (e = false → Filled (slotZone s.block F κ) t) → Q e (s.at c)) :
    wp (minixIndirectEmpty (slotZone s.block F κ t)) Q E s := by
  have hF := h.node hn
  unfold minixIndirectEmpty
  split_ifs with h0
  · apply wp_pure
    apply hQ true s.clock
    · intro _
      rw [slotZone_eq hF] at h0
      exact bare_of_zero h0
    · exact fun hc => Bool.noConfusion hc
  have htable := h.held.apart.table κ t ht h0
  apply wp_get_then h.calm (Nat.lt_of_lt_of_le htable.2 h.fits.device)
  intro c
  apply wp_dataOf
  apply wp_pure
  apply hQ
  · intro he sl' i hh
    rw [← slotZone_eq hF, slotZone_entry hh h0]
    exact emptyTable_iff.1 he i (Slot.home_entry hh).2.2
  intro he
  obtain ⟨i, hi, hne⟩ : ∃ i, i < perBlock ∧ entry (s.block (slotZone s.block F κ t)) i ≠ 0 := by
    by_contra hc
    push Not at hc
    rw [at_block, emptyTable_iff.2 hc] at he
    cases he
  obtain ⟨sl', hh⟩ := Slot.exists_below ht (slotZone_home_ne h0) hi
  rw [← slotZone_entry hh h0] at hne
  exact ⟨sl', i, hh, hne⟩

theorem pruneZone_spec (h : Good s F κ o) (hh : sl.home = .field i) (ht : sl.IsTable) :
    wp (pruneZone o i) (fun _ s' => Shrunk o κ (· = sl) s F s' ∧
      (slotZone s'.block (F.refresh κ s' o) κ sl ≠ 0 →
        Filled (slotZone s'.block (F.refresh κ s' o) κ) sl)) never s := by
  obtain ⟨nd, hn, hF⟩ := h.live
  have hval : slotZone s.block F κ sl = nd.raw.izone i := by rw [slotZone_eq hF, zoneOf_field hh]
  apply wp_bind_nodeOf hn
  rw [← hval]
  apply wp_bind
  apply minixIndirectEmpty_spec h hn ht
  intro e c hbare hfill
  cases e with
  | true =>
    have hclear := clearZone_spec (h.at c) hn hh (hbare rfl)
    exact hclear.post (fun _ _ hs => ⟨.of_at h hs.1, fun hc => absurd hs.2 hc⟩)
  | false =>
    have hF' : F.refresh κ (s.at c) o = F := h.refresh
    refine wp_pure ⟨.at h c, fun _ => ?_⟩
    rw [hF', at_block]
    exact hfill rfl

theorem pruneEntry_spec (h : Good s F κ o) (ht : slotZone s.block F κ .double ≠ 0) (hi : i < perBlock) :
    wp (pruneEntry (slotZone s.block F κ .double) i) (fun _ s' => Shrunk o κ (· = .inner i) s F s' ∧
      (slotZone s'.block (F.refresh κ s' o) κ (.inner i) ≠ 0 →
        Filled (slotZone s'.block (F.refresh κ s' o) κ) (.inner i))) never s := by
  obtain ⟨nd, hn, hF⟩ := h.live
  have hh : (Slot.inner i).home = .entry .double i := if_pos hi
  have hstay : ∀ c, (slotZone s.block F κ (.inner i) ≠ 0 → Filled (slotZone s.block F κ) (.inner i)) →
      Shrunk o κ (· = .inner i) s F (s.at c) ∧
        (slotZone (s.at c).block (F.refresh κ (s.at c) o) κ (.inner i) ≠ 0 →
          Filled (slotZone (s.at c).block (F.refresh κ (s.at c) o) κ) (.inner i)) := by
    intro c hc
    have hF' : F.refresh κ (s.at c) o = F := h.refresh
    rw [hF']
    exact ⟨.at h c, hc⟩
  apply wp_dataOf
  rw [← slotZone_entry hh ht]
  split_ifs with h0
  · apply wp_bind
    apply minixIndirectEmpty_spec (t := .inner i) h hn trivial
    intro e c hbare hfill
    cases e with
    | true =>
      have hdrop := dropEntry_spec (h.at c) hn hh ht (hbare rfl)
      exact hdrop.post (fun _ _ hs => ⟨.of_at h hs.1, fun hc => absurd hs.2 hc⟩)
    | false =>
      exact wp_pure (hstay c fun _ => hfill rfl)
  · exact wp_pure (hstay s.clock fun hc => absurd hc h0)

theorem home_data {i : Nat} (h : sl.home = .entry .single i ∨ sl.home = .entry (.inner j) i) :
    ∃ b, sl = .data b := by
  cases sl with
  | data b => exact ⟨b, rfl⟩
  | single => rcases h with h | h <;> cases h
  | double => rcases h with h | h <;> cases h
  | inner k =>
    simp only [Slot.home] at h
    split_ifs at h
    · rcases h with h | h <;> cases h
    · rcases h with h | h <;> cases h

-- A table of blocks stays filled while no block is dropped.
theorem Filled.shrunk (h : Shrunk o κ A s F s') (hA : ∀ b, ¬ A (.data b))
    (ht : t = .single ∨ t = .inner j) (hf : Filled (slotZone s.block F κ) t) :
    Filled (slotZone s'.block (F.refresh κ s' o) κ) t := by
  obtain ⟨sl, i, hh, hne⟩ := hf
  have hb : ∃ b, sl = .data b := home_data (ht.imp (· ▸ hh) (· ▸ hh))
  obtain ⟨b, rfl⟩ := hb
  refine ⟨_, i, hh, ?_⟩
  rw [h.keeps _ (hA b)]
  exact hne

theorem pruneLoop_spec (h : Good s F κ o) (ht : slotZone s.block F κ .double ≠ 0) :
    wp (Prog.forRange (pruneEntry (slotZone s.block F κ .double)) perBlock)
      (fun _ s' => Shrunk o κ (fun sl => ∃ j, sl = .inner j) s F s' ∧
        ∀ j, j < perBlock → slotZone s'.block (F.refresh κ s' o) κ (.inner j) ≠ 0 →
          Filled (slotZone s'.block (F.refresh κ s' o) κ) (.inner j)) never s := by
  apply wp_forRange fun n s' => Shrunk o κ (fun sl => ∃ j, sl = .inner j) s F s' ∧
    ∀ j, j < n → slotZone s'.block (F.refresh κ s' o) κ (.inner j) ≠ 0 →
      Filled (slotZone s'.block (F.refresh κ s' o) κ) (.inner j)
  · exact ⟨.at h s.clock, fun j hj => absurd hj (Nat.not_lt_zero j)⟩
  intro n s1 hn ⟨hs1, hfill⟩
  have hd : slotZone s1.block (F.refresh κ s1 o) κ .double = slotZone s.block F κ .double :=
    hs1.keeps _ fun ⟨j, hj⟩ => Slot.noConfusion hj
  have hstep := pruneEntry_spec hs1.good (hd ▸ ht) hn
  rw [hd] at hstep
  apply hstep.post _
  intro _ s2 ⟨hs2, hnew⟩
  refine ⟨hs1.trans (hs2.mono fun sl hsl => ⟨n, hsl⟩), fun j hj hne => ?_⟩
  rw [refresh_refresh] at hnew
  by_cases hjn : j = n
  · rw [hjn] at hne ⊢
    exact hnew hne
  · have hsame := hs2.keeps (.inner j) fun hc => hjn (Slot.inner.inj hc)
    rw [refresh_refresh] at hsame
    rw [← refresh_refresh (s := s1)]
    exact (hfill j (by omega) (hsame ▸ hne)).shrunk hs2 nofun (.inr rfl)

omit [DecidableEq ι] in
theorem inner_home {block : Nat → Mem} (h : slotZone block F κ (.inner j) ≠ 0) : j < perBlock := by
  have := slotZone_home_ne h
  simp only [Slot.home] at this
  split_ifs at this with hj
  · exact hj
  · exact absurd rfl this

theorem minixPruneEmptyIndirects_spec (h : Good s F κ o) :
    wp (minixPruneEmptyIndirects o) (fun _ s' => Shrunk o κ Slot.IsTable s F s' ∧
      ∀ t : Slot, t.IsTable → slotZone s'.block (F.refresh κ s' o) κ t ≠ 0 →
        Filled (slotZone s'.block (F.refresh κ s' o) κ) t) never s := by
  apply (pruneZone_spec h (show Slot.single.home = .field 7 from rfl) trivial).next _
  rintro _ s1 ⟨hs1, hsingle⟩
  have hg1 := hs1.good
  obtain ⟨nd1, hn1, hF1⟩ := hg1.live
  have hd1 : slotZone s1.block (F.refresh κ s1 o) κ .double = nd1.raw.izone 8 := slotZone_eq hF1
  have ht1 : Shrunk o κ Slot.IsTable s F s1 := hs1.mono fun sl hsl => hsl ▸ trivial
  apply wp_bind_nodeOf hn1
  rw [← hd1]
  split_ifs with h0
  · apply wp_pure
    refine ⟨ht1, fun t ht hne => ?_⟩
    cases t with
    | data b => exact absurd ht (Slot.not_table b)
    | single => exact hsingle hne
    | double => exact absurd h0 hne
    | inner j =>
      have hj : (Slot.inner j).home = .entry .double j := if_pos (inner_home hne)
      exact absurd (slotZone_of_table hj h0) hne
  have htable := hg1.held.apart.table κ .double trivial h0
  apply wp_get_then hg1.calm (Nat.lt_of_lt_of_le htable.2 hg1.fits.device)
  intro c
  apply (pruneLoop_spec (hg1.at c) h0).next _
  rintro _ s2 ⟨hs2, hinner⟩
  replace hs2 := Shrunk.of_at hg1 hs2
  rw [refresh_refresh] at hinner
  have ht2 := ht1.trans (hs2.mono (by rintro sl ⟨j, rfl⟩; trivial))
  apply (pruneZone_spec ht2.good (show Slot.double.home = .field 8 from rfl) trivial).post _
  rintro _ s3 ⟨hs3, hdouble⟩
  rw [refresh_refresh] at hdouble
  refine ⟨ht2.trans (hs3.mono fun sl hsl => hsl ▸ trivial), fun t ht hne => ?_⟩
  cases t with
  | data b => exact absurd ht (Slot.not_table b)
  | single =>
    have h3 := hs3.keeps .single fun hc => Slot.noConfusion hc
    have h2 := hs2.keeps .single (by rintro ⟨j, ⟨⟩⟩)
    rw [refresh_refresh] at h2 h3
    rw [h3, h2] at hne
    rw [← refresh_refresh (s := s2)]
    refine Filled.shrunk (j := 0) hs3 (by simp) (.inl rfl) ?_
    rw [← refresh_refresh (s := s1)]
    exact (hsingle hne).shrunk (j := 0) hs2 (by simp) (.inl rfl)
  | double => exact hdouble hne
  | inner j =>
    have h3 := hs3.keeps (.inner j) fun hc => Slot.noConfusion hc
    rw [refresh_refresh] at h3
    rw [h3] at hne
    rw [← refresh_refresh (s := s2)]
    exact (hinner j (inner_home hne) hne).shrunk hs3 (by simp) (.inr rfl)

end Jnu.Minix
