import Jnu.Minix.Refine

namespace Jnu.Minix

open Lib.Trace

variable {s s' s'' : Fs} {o b z : Nat} {c : FileCall} {r : Except Errno FileResult} {e : FileEvent}
  {l : List FileEvent} {nd : Node} {create : Bool}

def Fs.freeZones (s : Fs) : Finset Nat :=
  (Finset.range s.sb.nzones).filter fun z => InData s.sb z ∧ zmarked s.sb s.block z = false

def Truncates (o : Nat) : FileCall → Prop
  | .truncate o' _ => o' = o
  | _ => False

-- What `minix_bmap` with `create` should do: a zone of its own in the data area that stays until a truncate,
-- zeroed if it is new, with the other blocks as they were.
def MapsBlock (s : Fs) (o b : Nat) : Prop :=
  ∃ z s', FileStep s (.bmap o b true, .ok (.zone z)) s' ∧ InData s.sb z ∧
    (∀ l s'', Run FileStep s' l s'' → (∀ e ∈ l, ¬ Truncates o e.1) →
      ∀ create, ∃ t, FileStep s'' (.bmap o b create, .ok (.zone z)) t) ∧
    (s.mapping o b = some 0 → s'.block z = fun _ => 0) ∧
    (∀ b', b' ≠ b → s'.mapping o b' = s.mapping o b') ∧
    ∀ sl sl', slotZone s'.block s'.files (.live o) sl ≠ 0 →
      slotZone s'.block s'.files (.live o) sl = slotZone s'.block s'.files (.live o) sl' → sl = sl'

theorem Outcome.zone_kept (hf : s.sb.Fits s.nblocks) (ho : Outcome s c r s') (ht : ¬ Truncates o c)
    (hne : slotZone s.block s.files (.live o) (.data b) ≠ 0) :
    slotZone s'.block s'.files (.live o) (.data b) = slotZone s.block s.files (.live o) (.data b) := by
  by_cases hobj : o = c.object
  · have hF := ho.outer.files hf
    rw [hobj] at hne ht ⊢
    cases ho with
    | empty => rfl
    | got => rfl
    | wrote _ _ h => exact hF ▸ (h.map (.data b)).resolve_right fun hc => hne hc.1
    | undone h => exact hF ▸ h.map b
    | resized _ _ => exact absurd rfl ht
    | mapped h => exact hF ▸ h.grown.zone_ne hne
  · exact congrFun (ho.other hf fun hc => hobj (Key.live.inj hc)) _

section

variable (h : Sound s) (hr : Run FileStep s l s')
include h hr

theorem FileRun.zone_kept (ht : ∀ e ∈ l, ¬ Truncates o e.1)
    (hne : slotZone s.block s.files (.live o) (.data b) ≠ 0) :
    slotZone s'.block s'.files (.live o) (.data b) = slotZone s.block s.files (.live o) (.data b) := by
  induction hr with
  | nil => rfl
  | @snoc s1 s2 l e hr he ih =>
    have h1 := FileRun.sound h hr
    have hkeep := ih fun e' he' => ht e' (List.mem_append_left _ he')
    have hout := he.outcome h1.consistent h1.calm
    rw [hout.zone_kept h1.consistent.fits (ht e (List.mem_append_right _ List.mem_cons_self))
      (by rw [hkeep]; exact hne), hkeep]

theorem FileRun.live (o : Nat) : (s'.node o).isSome = (s.node o).isSome := by
  induction hr with
  | nil => rfl
  | @snoc s1 s2 l e hr he ih =>
    have h1 := FileRun.sound h hr
    obtain ⟨nd, hn⟩ := Option.isSome_iff_exists.1 he.live
    rw [(he.outcome h1.consistent h1.calm).live hn o, ih]

theorem FileRun.sb : s'.sb = s.sb := by
  induction hr with
  | nil => rfl
  | @snoc s1 s2 l e hr he ih =>
    have h1 := FileRun.sound h hr
    rw [(he.outcome h1.consistent h1.calm).outer.sb, ih]

end

theorem bmap_finds (h : Sound s) (hn : (s.node o).isSome)
    (hin : InData s.sb (slotZone s.block s.files (.live o) (.data b))) (create : Bool) :
    ∃ t, FileStep s (.bmap o b create, .ok (.zone (slotZone s.block s.files (.live o) (.data b)))) t := by
  obtain ⟨r, t, ht⟩ := FileCall.exec_ends (c := .bmap o b create) h.consistent h.calm hn trivial
  have hout := ht.outcome h.consistent h.calm
  cases hout with
  | @mapped _ _ z _ _ hm =>
    have hz := hm.value
    rw [hm.grown.zone_ne (h.consistent.fits.ne_zero hin), if_pos hin] at hz
    rw [hz] at ht
    exact ⟨t, ht⟩

theorem Mapped.found (h : Sound s) (hm : Mapped o (.live o) b true s s.files z s')
    (hfree : 3 ≤ s.freeZones.card) (hb : b < 7 + perBlock) :
    slotZone s'.block (s.files.refresh (.live o) s' o) (.live o) (.data b) ≠ 0 := by
  intro h0
  have hfull := hm.full rfl hb h0
  -- a zone that was free is in the one table that can be new
  have hone : ∀ w ∈ s.freeZones, w = slotZone s'.block (s.files.refresh (.live o) s' o) (.live o) .single := by
    intro w hw
    obtain ⟨-, hin, hm0⟩ := Finset.mem_filter.1 hw
    rcases hm.grown.track w hin (hfull w hin) with hold | ⟨sl, ⟨-, hfill⟩, -, heq⟩
    · rw [hm0] at hold
      cases hold
    rcases hfill with ⟨rfl, -⟩ | habove
    · rw [h0] at heq
      exact absurd heq.symm (h.consistent.fits.ne_zero hin)
    cases sl with
    | data b' => exact habove.elim
    | single => exact heq.symm
    | double => exact absurd hb (Nat.not_lt_of_le habove)
    | inner j => exact absurd hb (Nat.not_lt_of_le habove.1)
  have hcard : s.freeZones.card ≤ 1 := Finset.card_le_one.2 fun a ha b hb => (hone a ha).trans (hone b hb).symm
  omega

theorem zone_eq_mapping (h : Sound s) (hn : s.node o = some nd) :
    s.mapping o b = some (slotZone s.block s.files (.live o) (.data b)) := by
  rw [mapping_live h hn]
  by_cases h0 : slotZone s.block s.files (.live o) (.data b) = 0
  · rw [h0, if_neg h.consistent.fits.zero_out]
  · rw [if_pos (h.consistent.zones _ _ h0)]

theorem bmap_maps_iff (h : Sound s) (hn : (s.node o).isSome) (hfree : 3 ≤ s.freeZones.card) :
    MapsBlock s o b ↔ ¬ (7 + perBlock ≤ b ∧ s.mapping o b = some 0) := by
  obtain ⟨nd, hnd⟩ := Option.isSome_iff_exists.1 hn
  have hmapping := zone_eq_mapping (b := b) h hnd
  have hfits := h.consistent.fits
  constructor
  · rintro ⟨z, s', hstep, hz, -⟩ ⟨hbig, h0⟩
    rw [hmapping, Option.some.injEq] at h0
    have hout := hstep.outcome h.consistent h.calm
    cases hout with
    | mapped hm =>
      -- the block's own slot is not among those that the call fills
      have hsame := (hm.grown.map (.data b)).resolve_right fun hc => by
        rcases hc.1.2 with ⟨-, hlt⟩ | habove
        · omega
        · exact habove
      have hval := hm.value
      rw [hsame, h0, if_neg hfits.zero_out] at hval
      exact hfits.ne_zero hz hval
  intro hcond
  obtain ⟨r, s', hstep⟩ := FileCall.exec_ends (c := .bmap o b true) h.consistent h.calm hn trivial
  have hs' := hstep.sound h
  have hout := hstep.outcome h.consistent h.calm
  have hF := hout.outer.files hfits
  cases hout with
  | @mapped _ _ z _ _ hm =>
    change s'.files = s.files.refresh (.live o) s' o at hF
    have hne : slotZone s'.block s'.files (.live o) (.data b) ≠ 0 := by
      rw [hF]
      by_cases h0 : slotZone s.block s.files (.live o) (.data b) = 0
      · rw [hmapping, h0] at hcond
        exact hm.found h hfree (by
          by_contra hc
          exact hcond ⟨by omega, rfl⟩)
      · rw [hm.grown.zone_ne h0]
        exact h0
    have hin := hs'.consistent.zones _ _ hne
    have hsb := hm.grown.frame.sb
    have hval := hm.value
    rw [← hF, ← hsb, if_pos hin] at hval
    refine ⟨z, s', hstep, ?_, ?_, ?_, ?_, ?_⟩
    · rw [hval, ← hsb]
      exact hin
    · intro l s'' hr ht create
      have h'' := FileRun.sound hs' hr
      have hkeep := FileRun.zone_kept (b := b) hs' hr ht hne
      have hlive : (s''.node o).isSome := by
        rw [FileRun.live hs' hr, Outcome.live hnd (.mapped hm)]
        exact hn
      obtain ⟨t, hfind⟩ := bmap_finds (b := b) h'' hlive (by
        rw [FileRun.sb hs' hr, hkeep]
        exact hin) create
      rw [hkeep, ← hval] at hfind
      exact ⟨t, hfind⟩
    · intro h0
      rw [hmapping, Option.some.injEq] at h0
      apply hm.fresh h0
      rw [hval]
      exact hne
    · intro b' hbb
      obtain ⟨nd', hnd'⟩ := Option.isSome_iff_exists.1 ((Outcome.live hnd (.mapped hm) o).trans hn)
      rw [zone_eq_mapping hs' hnd', zone_eq_mapping h hnd, hF]
      refine congrArg some ((hm.grown.map (.data b')).resolve_right fun hc => ?_)
      rcases hc.1.2 with ⟨heq, -⟩ | habove
      · exact hbb (Slot.data.inj heq)
      · exact habove
    · intro sl sl' h0 heq
      exact (hs'.consistent.held.apart.inj _ sl _ sl' (hs'.consistent.zones _ _ h0) heq).2

theorem sample_free : 3 ≤ (sample 0 0 oldBytes).freeZones.card := by
  have hsub : ({7, 8, 9} : Finset Nat) ⊆ (sample 0 0 oldBytes).freeZones := by decide +kernel
  exact (by decide : 3 ≤ ({7, 8, 9} : Finset Nat).card).trans (Finset.card_le_card hsub)

-- A block behind the indirect table, which is missing too.
theorem bmap_maps_indirect : MapsBlock (sample 0 0 oldBytes) 1 8 :=
  (bmap_maps_iff (sample_sound (.inl rfl) (Nat.zero_le _)) rfl sample_free).2 fun h => absurd h.1 (by decide)

-- The first block behind the double indirect table, with nine zones free: the call answers 0.
theorem bmap_double_missing :
    Sound (sample 0 0 oldBytes) ∧ 3 ≤ (sample 0 0 oldBytes).freeZones.card ∧ 519 < maxBlocks ∧
      answer ((FileCall.bmap 1 519 true).exec.run (sample 0 0 oldBytes)) = some (.ok (.zone 0)) ∧
      ¬ MapsBlock (sample 0 0 oldBytes) 1 519 := by
  have hans : answer ((FileCall.bmap 1 519 true).exec.run (sample 0 0 oldBytes)) = some (.ok (.zone 0)) := by
    decide +kernel
  refine ⟨sample_sound (.inl rfl) (Nat.zero_le _), sample_free, by decide, hans, ?_⟩
  rintro ⟨z, s', hstep, hz, -⟩
  rw [hstep.run] at hans
  cases hans
  exact sampleSuper_fits.zero_out hz

end Jnu.Minix
