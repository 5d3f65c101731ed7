import Jnu.Exec.Load

namespace Jnu.Exec

open Lib.Dyadic Lib.Effect Paging Pmm Mm
open Function

variable {k : Kern} {R : Set Nat} {K : Set Block} {sp start stop x len u lo hi : Nat} {a : AddrSpace}
  {vf wf : VmaFlags} {prot : BitVec 32}

-- Every page that is there belongs to a VMA.
def Covered (k : Kern) : Prop := ∀ sp u e, k.pte sp u = some e → k.flags sp (u * pageSize) ≠ none

-- A range of one space has become a mapping of its own; the rest is as before.
structure Segment (k k' : Kern) (sp start stop : Nat) (vf : VmaFlags) : Prop where
  kernelPml4 : k'.kernelPml4 = k.kernelPml4
  zeroPage : k'.phys.pmm.mmZeroPage = k.phys.pmm.mmZeroPage
  other : ∀ t, t ≠ sp → k'.space t = k.space t
  live : k'.space sp ≠ none
  flags : ∀ x, k'.flags sp x = if start ≤ x ∧ x < stop then some vf else k.flags sp x
  inside : ∀ u e, start ≤ u * pageSize → u * pageSize < stop → k'.pte sp u = some e → Granted vf e
  outside : ∀ t u, ¬ (t = sp ∧ start ≤ u * pageSize ∧ u * pageSize < stop) →
    k'.pte t u = k.pte t u
  bytes : ∀ t x, ¬ (t = sp ∧ start ≤ x ∧ x < stop) → k'.byte t x = k.byte t x

def segStart (ph : Elf64Phdr) : Nat := pageDown ph.vaddr

def segStop (ph : Elf64Phdr) : Nat := pageUp (wrap64 (ph.vaddr + ph.memsz))

structure Loaded (image : ExecImage) (k k' : Kern) (sp : Nat) (ph : Elf64Phdr) : Prop where
  floor : pageSize ≤ segStart ph
  lt : segStart ph < segStop ph
  top : segStop ph ≤ userTop
  segment : Segment k k' sp (segStart ph) (segStop ph) (segmentFlags ph)
  resident : ∀ u, segStart ph ≤ u * pageSize → u * pageSize < segStop ph →
    ∃ e, k'.pte sp u = some e ∧ has e pteWrite = ph.write ∧ has e pteNx = (!ph.exec) ∧
      Private k' sp u
  file : CopyOf image k' sp ph.offset ph.vaddr ph.filesz
  zero : ∀ x, segStart ph ≤ x → x < segStop ph →
    ¬ (ph.vaddr ≤ x ∧ x < ph.vaddr + ph.filesz) → k'.byte sp x = 0

-- The load of a segment has failed.
def Interrupted (k k' : Kern) (sp : Nat) (ph : Elf64Phdr) : Prop :=
  MapFailed k k' sp (segStart ph) (pageAlignUp (sub64 (segStop ph) (segStart ph))) fixedAnonymous ∨
    (pageSize ≤ segStart ph ∧ segStop ph ≤ userTop ∧
      Segment k k' sp (segStart ph) (segStop ph) rwUser)

section flags

variable {k' : Kern} {L : List Nat}

theorem setSegmentFlags_spec (wf : VmaFlags) (h : Sound k R K) (hvma : HasVma k sp ⟨start, stop, vf⟩)
    (huser : wf.user = true) :
    wp (setSegmentFlags sp start wf)
      (fun _ k' => Sound k' R K ∧ k'.phys = k.phys ∧ k'.kernelPml4 = k.kernelPml4 ∧ k'.roots = k.roots ∧
        k'.space sp ≠ none ∧ (∀ t, t ≠ sp → k'.space t = k.space t) ∧
        ∀ x, k'.flags sp x = if start ≤ x ∧ x < stop then some wf else k.flags sp x)
      never k := by
  obtain ⟨a, id, ha, hfind, hid⟩ := hvma
  obtain ⟨L, hg⟩ := h.spaces sp a ha
  have hord := hg.tree.holds.ordered
  have hloc : a.vmas.spans.locate L start = some id := by
    rw [vmaFind_eq hg.tree.holds] at hfind
    exact Option.some.inj hfind
  obtain ⟨hmem, -⟩ := hord.locate_eq_some.1 hloc
  obtain ⟨A, B, rfl⟩ := List.append_of_mem hmem
  unfold setSegmentFlags
  apply wp_vmasOf ha
  apply wp_known hfind
  apply wp_write
  set t' := a.vmas.setFlags id wf with ht'
  have hvid : t'.vma id = ⟨start, stop, wf⟩ := by
    rw [ht', setFlags_vma, update_self, hid]
  have hvi : ∀ i, i ≠ id → t'.vma i = a.vmas.vma i := by
    intro i hi
    rw [ht', setFlags_vma, update_of_ne hi]
  have hstart : ∀ i, (t'.vma i).start = (a.vmas.vma i).start := by
    intro i
    by_cases hi : i = id
    · rw [hi, hvid, hid]
    · rw [hvi i hi]
  have hstop : ∀ i, (t'.vma i).stop = (a.vmas.vma i).stop := by
    intro i
    by_cases hi : i = id
    · rw [hi, hvid, hid]
    · rw [hvi i hi]
  have hholds : t'.Holds (A ++ id :: B) :=
    hg.tree.holds.congr_flags rfl (fun i _ => hstart i) fun i _ => hstop i
  have hself : (k.setVmas sp t').space sp = some { a with vmas := t' } := setVmas_self ha
  have hother : ∀ t, t ≠ sp → (k.setVmas sp t').space t = k.space t := fun t ht => setVmas_of_ne ht
  have hgood : GoodSpace { a with vmas := t' } k.heap.next (A ++ id :: B) := by
    refine ⟨⟨hholds, hg.tree.alloc, fun i hi => ?_⟩, hg.ceiling⟩
    have hold := hg.tree.good i hi
    by_cases hi' : i = id
    · rw [hi', hvid]
      rw [hi', hid] at hold
      exact ⟨hold.floor, hold.top, hold.startAligned, hold.stopAligned, huser⟩
    · rw [hvi i hi']
      exact hold
  refine ⟨h.of_self h.base.setVmas Idle.setVmas.sheds hother hself hgood, rfl, rfl,
    setVmas_roots, by simp [hself], hother, fun x => ?_⟩
  rw [flags_eq hself hholds, flags_eq ha hg.tree.holds, addrMap_insert hholds.ordered,
    addrMap_insert hord, hvid, hid]
  by_cases hx : start ≤ x ∧ x < stop
  · rw [if_pos hx, if_pos hx]
  rw [if_neg hx, if_neg hx, if_neg hx]
  apply addrMap_congr
  intro i hi
  apply hvi
  rintro rfl
  -- the VMA is in the list once
  have hnd := hord.nodup
  simp only [List.nodup_append, List.nodup_cons, List.mem_cons] at hnd
  rcases List.mem_append.1 hi with hi | hi
  · exact hnd.2.2 i hi i (.inl rfl) rfl
  · exact hnd.2.1.1 hi

end flags

section segment

variable {k1 k2 : Kern}

theorem pageDown_mod (v : Nat) : pageDown v % pageSize = 0 := Nat.mul_mod_left ..

theorem pageDown_le (v : Nat) : pageDown v ≤ v := Nat.div_mul_le_self ..

theorem page_in_range (hs : start % pageSize = 0) (he : stop % pageSize = 0) :
    (start ≤ x ∧ x < stop) ↔ (start ≤ x / pageSize * pageSize ∧ x / pageSize * pageSize < stop) := by
  simp only [pageSize] at hs he ⊢
  omega

theorem mapped_vacant (hcov : Covered k) (hm : Mapped k k1 sp start len prot) (hu : start ≤ u * pageSize)
    (hu' : u * pageSize < start + len) : k1.pte sp u = none := by
  by_cases hf : k.flags sp (u * pageSize) = none
  · rw [hm.remap.sheds.pte sp u fun hc => hc.2.2.2 hf]
    cases hp : k.pte sp u with
    | none => rfl
    | some e => exact absurd hf (hcov sp u e hp)
  · exact hm.remap.sheds.gone sp u ⟨rfl, hu, hu', hf⟩

theorem mapped_segment (hcov : Covered k) (hm : Mapped k k1 sp start len prot) :
    Segment k k1 sp start (start + len) (protToVma prot) where
  kernelPml4 := hm.remap.sheds.kernelPml4
  zeroPage := hm.remap.sheds.zeroPage
  other := hm.remap.other
  live := hm.remap.live
  flags := hm.remap.flags
  inside u e hu hu' hp := by
    rw [mapped_vacant hcov hm hu hu'] at hp
    cases hp
  outside t u hu := hm.remap.sheds.pte t u fun hc => hu ⟨hc.1, hc.2.1, hc.2.2.1⟩
  bytes t x hx := by
    apply byte_congr
    intro i hi
    apply hm.remap.sheds.words t (x / pageSize) i _ hi
    intro hc
    have hend : (start + len) % pageSize = 0 := by
      have := hm.aligned
      simp only [pageSize] at this ⊢
      omega
    exact hx ⟨hc.1, (page_in_range hm.aligned.1 hend).2 ⟨hc.2.1, hc.2.2.1⟩⟩

theorem Segment.populate (h : Segment k k1 sp start stop vf)
    (hp : Populated k1 k2 sp fun u => start ≤ u * pageSize ∧ u * pageSize < stop)
    (hw : vf.write = true) : Segment k k2 sp start stop vf := by
  obtain ⟨s', rfl⟩ := hp.eq
  refine ⟨h.kernelPml4, hp.zeroPage.trans h.zeroPage, h.other, h.live, h.flags,
    fun u e hu hu' he => ?_, fun t u hu => ?_, fun t x hx => (hp.bytes t x).trans (h.bytes t x hx)⟩
  · rcases hp.inside u ⟨hu, hu'⟩ with hnone | ⟨e', he', -, hnx⟩
    · rw [hnone] at he
      cases he
    rw [he'] at he
    cases he
    refine ⟨fun _ => hw, fun hc => ?_⟩
    rw [hnx] at hc
    cases hc
  · rw [hp.outside t u hu, h.outside t u hu]

theorem Segment.store (h : Segment k k1 sp start stop vf) (hs : Stored k1 k2 sp lo hi)
    (hlo : start ≤ lo) (hhi : hi ≤ stop) : Segment k k2 sp start stop vf := by
  obtain ⟨s', rfl⟩ := hs.eq
  refine ⟨h.kernelPml4, hs.zeroPage.trans h.zeroPage, h.other, h.live, h.flags,
    fun u e hu hu' he => ?_, fun t u hu => (hs.pte t u).trans (h.outside t u hu), fun t x hx => ?_⟩
  · rw [hs.pte] at he
    exact h.inside u e hu hu' he
  · rw [hs.bytes t x (by omega), h.bytes t x hx]

-- The final access to the pages of a range and the flags of its VMA.
structure Secured (k k' : Kern) (sp start stop : Nat) (vf : VmaFlags) : Prop where
  reset : Reset sp (fun u => start ≤ u * pageSize ∧ u * pageSize < stop) vf k.pte k'.pte
  bytes : ∀ t x, k'.byte t x = k.byte t x
  kernelPml4 : k'.kernelPml4 = k.kernelPml4
  zeroPage : k'.phys.pmm.mmZeroPage = k.phys.pmm.mmZeroPage
  other : ∀ t, t ≠ sp → k'.space t = k.space t
  live : k'.space sp ≠ none
  flags : ∀ x, k'.flags sp x = if start ≤ x ∧ x < stop then some vf else k.flags sp x

theorem Segment.finish (h : Segment k k1 sp start stop vf) (hs : Secured k1 k2 sp start stop wf) :
    Segment k k2 sp start stop wf := by
  refine ⟨hs.kernelPml4.trans h.kernelPml4, hs.zeroPage.trans h.zeroPage,
    fun t ht => (hs.other t ht).trans (h.other t ht), hs.live, fun x => ?_, fun u e hu hu' he => ?_,
    fun t u hu => (hs.reset.outside t u hu).trans (h.outside t u hu),
    fun t x hx => (hs.bytes t x).trans (h.bytes t x hx)⟩
  · rw [hs.flags, h.flags]
    by_cases hx : start ≤ x ∧ x < stop
    · rw [if_pos hx, if_pos hx]
    · rw [if_neg hx, if_neg hx, if_neg hx]
  · obtain ⟨-, e', -, he', -, hw, hnx⟩ := hs.reset.inside u ⟨hu, hu'⟩
    rw [he'] at he
    cases he
    refine ⟨fun hc => by rw [← hw, hc], fun hc => ?_⟩
    rw [hnx] at hc
    simpa using hc

theorem secure_spec {a : AddrSpace} (h : Sound k R K) (ha : k.space sp = some a)
    (hs : start % pageSize = 0) (he : stop % pageSize = 0) (hle : start ≤ stop) (htop : stop ≤ userTop)
    (huser : wf.user = true) (hvma : HasVma k sp ⟨start, stop, vf⟩)
    (hpages : ∀ u, start ≤ u * pageSize → u * pageSize < stop →
      ∃ e, k.pte sp u = some e ∧ has e pteWrite = true) :
    wp (vmmProtect a.pml4Phys start (sub64 stop start / pageSize) wf)
      (fun _ s => wp (setSegmentFlags sp start wf)
        (fun _ k' => Sound k' R K ∧ Secured k k' sp start stop wf) never
        { k with phys := s })
      never k.phys := by
  have hlen := sub64_eq (show stop < 2 ^ 64 from htop.trans_lt (by decide)) hle
  have hvirt : start = start / pageSize * pageSize := by
    simp only [pageSize] at hs ⊢
    omega
  have hrange : ∀ u, (start / pageSize ≤ u ∧ u < start / pageSize + (stop - start) / pageSize) ↔
      (start ≤ u * pageSize ∧ u * pageSize < stop) := by
    intro u
    simp only [pageSize] at hs he ⊢
    omega
  have hin : start / pageSize + (stop - start) / pageSize ≤ userPages := by
    simp only [userTop] at htop
    simp only [pageSize, userPages, Nat.reducePow] at hs he ⊢
    omega
  have hprot := protectRange_spec wf h.base.pt h.owned (Kern.roots_eq ha) hin huser
    fun u hu hu' => hpages u ((hrange u).1 ⟨hu, hu'⟩).1 ((hrange u).1 ⟨hu, hu'⟩).2
  unfold vmmProtect
  rw [hlen, h.base.pml4_eq ha]
  rw [← hvirt] at hprot
  refine hprot.post ?_
  intro _ s h'
  obtain ⟨hpt, ho, hreset, hun⟩ := h'
  have hz := zeroFrame_eq hun.zeroPage
  have hs' : Sound { k with phys := s } R K := h.phys hpt hun.zeroPage (hz ▸ ho)
  have hvma' : HasVma { k with phys := s } sp ⟨start, stop, vf⟩ := hvma
  refine (setSegmentFlags_spec wf hs' hvma' huser).post ?_
  intro _ k' h'
  obtain ⟨hs', hphys, hpml4, hroots, hlive, hother, hflags⟩ := h'
  have hpte : ∀ t u, k'.pte t u = Paging.pte s.mem k.roots t u := by
    intro t u
    unfold Kern.pte
    rw [hphys, hroots]
    rfl
  refine ⟨hs', ⟨fun u hu => ?_, fun t u hu => ?_⟩, fun t x => ?_, hpml4, ?_, hother, hlive, hflags⟩
  · rw [hpte]
    exact hreset.inside u ((hrange u).2 hu)
  · rw [hpte]
    exact hreset.outside t u fun hc => hu ⟨hc.1, (hrange u).1 hc.2⟩
  · apply byte_congr
    intro i hi
    unfold Kern.words
    rw [hphys, hroots]
    exact hun.words t _ i hi
  · rw [hphys]
    exact hun.zeroPage

theorem Private.reset {In : Nat → Prop} (h : Private k1 sp u) (hr : Reset sp In wf k1.pte k2.pte)
    (hz : k2.phys.pmm.mmZeroPage = k1.phys.pmm.mmZeroPage) : Private k2 sp u := by
  have hframe : ∀ t w e', k2.pte t w = some e' →
      ∃ e, k1.pte t w = some e ∧ pteFrame e' = pteFrame e := by
    intro t w e' he'
    by_cases hin : t = sp ∧ In w
    · obtain ⟨e, e2, hpe, hpe2, hf, -⟩ := hr.inside w hin.2
      rw [hin.1, hpe2] at he'
      cases he'
      exact ⟨e, by rw [hin.1, hpe], hf⟩
    · rw [hr.outside t w hin] at he'
      exact ⟨e', he', rfl⟩
  obtain ⟨e, hpe, hze, hex⟩ := h
  have hself : ∃ e', k2.pte sp u = some e' ∧ pteFrame e' = pteFrame e := by
    by_cases hin : In u
    · obtain ⟨e1, e2, hpe1, hpe2, hf, -⟩ := hr.inside u hin
      rw [hpe1] at hpe
      cases hpe
      exact ⟨e2, hpe2, hf⟩
    · exact ⟨e, by rw [hr.outside sp u fun hc => hin hc.2, hpe], rfl⟩
  obtain ⟨e', hpe', hf⟩ := hself
  refine ⟨e', hpe', ?_, fun t w e'' he'' hf'' => ?_⟩
  · rw [hf, zeroFrame_eq hz]
    exact hze
  · obtain ⟨e0, hpe0, hf0⟩ := hframe t w e'' he''
    exact hex t w e0 hpe0 (by rw [← hf0, hf'', hf])

end segment

section load

variable {ph : Elf64Phdr}

theorem segment_range (hstart : segStart ph < 2 ^ 64)
    (htop : segStart ph + pageAlignUp (sub64 (segStop ph) (segStart ph)) ≤ userTop) :
    segStart ph + pageAlignUp (sub64 (segStop ph) (segStart ph)) = segStop ph := by
  have hs : segStart ph % 4096 = 0 := pageDown_mod _
  have he : segStop ph % 4096 = 0 := pageAlignUp_mod _
  have hlt : segStop ph < 2 ^ 64 := pageAlignUp_lt _
  simp only [userTop] at htop
  unfold pageAlignUp sub64 wrap64 at *
  simp only [pageSize] at *
  omega

end load

end Jnu.Exec
