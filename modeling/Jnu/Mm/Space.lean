import Jnu.Mm.VmaOps

namespace Jnu.Mm

open Lib.Dyadic Lib.Effect Lib.Refs Paging Pmm
open Function

variable {k : Kern} {sp f sp' : Nat} {R : Set Nat} {K : Set Block}

section setSpace

variable {a : Option AddrSpace}

theorem setSpace_self : (k.setSpace sp a).space sp = a := update_self ..

theorem setSpace_of_ne (h : sp' ≠ sp) : (k.setSpace sp a).space sp' = k.space sp' :=
  update_of_ne h ..

theorem setSpace_roots :
    (k.setSpace sp a).roots = update k.roots sp (a.map fun b => paToPfn b.pml4Phys) :=
  comp_update (Option.map fun b : AddrSpace => paToPfn b.pml4Phys) k.space sp a

end setSpace

section create

variable {s : Phys} {roots : Nat → Option Nat} {O : Set Block} {x : Nat → Nat}

theorem pagingCloneKernelHalf_spec (kernel : Nat) (h : PtInv s R roots O x)
    (hb : (⟨f, 0⟩ : Block) ∈ O) (hz : f ≠ zeroFrame s) :
    wp (pagingCloneKernelHalf kernel (f * pageSize))
      (fun _ s' => PtInv s' R roots O x ∧ s'.pmm = s.pmm ∧
        (∀ w, w / 512 ≠ f → s'.mem w = s.mem w) ∧ ∀ i, i < 256 → s'.mem (f * 512 + i) = s.mem (f * 512 + i))
      never s := by
  unfold pagingCloneKernelHalf
  apply wp_forRange fun _ s' => PtInv s' R roots O x ∧ s'.pmm = s.pmm ∧
    (∀ w, w / 512 ≠ f → s'.mem w = s.mem w) ∧ ∀ i, i < 256 → s'.mem (f * 512 + i) = s.mem (f * 512 + i)
  · exact ⟨h, rfl, fun _ _ => rfl, fun _ _ => rfl⟩
  rintro i s1 hi ⟨h1, hpmm, hother, hlow⟩
  apply wp_bind_read
  apply wp_write
  simp only [word_eq]
  have hdiv : (f * 512 + (256 + i)) / 512 = f := by omega
  refine ⟨?_, hpmm, fun w hw => ?_, fun j hj => ?_⟩
  · apply h1.writeFrame (f := f)
    · right
      refine ⟨?_, _, hb, mem_page.2 rfl⟩
      unfold zeroFrame
      rw [hpmm]
      exact hz
    · intro w hw
      apply update_of_ne
      rintro rfl
      exact hw hdiv
  · show update s1.mem _ _ w = _
    rw [update_of_ne, hother w hw]
    rintro rfl
    exact hw hdiv
  · show update s1.mem _ _ (f * 512 + j) = _
    rw [update_of_ne (by omega), hlow j hj]

end create

section create

variable {k' : Kern}

theorem Base.plant (h : Base k R K) {a : AddrSpace} (hsp : k.space sp = none) (hid : sp < k.heap.next)
    (hpt : PtInv k'.phys R k.roots (insert (⟨f, 0⟩ : Block) (K ∪ k.slabBlocks)) fun _ => 0)
    (hfresh : (⟨f, 0⟩ : Block) ∉ K ∪ k.slabBlocks) (hnt : ¬ IsTable k.phys.mem k.roots f)
    (hzp : k'.phys.pmm.mmZeroPage = k.phys.pmm.mmZeroPage)
    (hmem : ∀ w, w / 512 ≠ f → k'.phys.mem w = k.phys.mem w) (hnr : refs k.phys f = 0)
    (hempty : ∀ i, i < 256 → has (k'.phys.mem (f * 512 + i)) ptePresent = false)
    (ha : a.pml4Phys = f * pageSize) (hspace : k'.space = update k.space sp (some a))
    (hheap : k'.heap = k.heap) (hkernel : k'.kernelPml4 = k.kernelPml4) : Base k' R K ∧ Idle k k' := by
  have hvacant : k.roots sp = none := by
    unfold Kern.roots
    rw [hsp, Option.map_none]
  have hroots : k'.roots = update k.roots sp (some f) := by
    have : (k.setSpace sp (some a)).roots = _ := setSpace_roots
    unfold Kern.roots at this ⊢
    rw [hspace]
    rw [Option.map_some, ha, show paToPfn (f * pageSize) = f from paToPfn_pfnToPa f] at this
    exact this
  have hzf := zeroFrame_eq hzp
  have hfz : f ≠ zeroFrame k'.phys := by
    intro hc
    rw [hc, hzf] at hfresh
    exact hfresh (.inl h.zeroHeld)
  have hO : {b | b ∈ insert (⟨f, 0⟩ : Block) (K ∪ k.slabBlocks) ∧ b ≠ ⟨f, 0⟩} =
      K ∪ k.slabBlocks := Set.insert_sdiff_self_of_notMem hfresh
  have hslab : k'.slabBlocks = k.slabBlocks := by
    unfold Kern.slabBlocks
    rw [hheap]
  have hpt' := hpt.plant (.inl rfl) hfz hvacant hempty
  rw [hO, ← hroots, ← hslab] at hpt'
  have hnew : NewRoot k'.phys.mem k.roots sp f :=
    ⟨hvacant, fun hc => hpt.otherTable _ (.inl rfl) f (mem_page.2 rfl) hc, hempty⟩
  have hpte : ∀ t v, k'.pte t v = k.pte t v := by
    intro t v
    unfold Kern.pte
    rw [hroots, pte_plant hnew]
    apply pte_congr
    intro w hw
    apply hmem
    intro hc
    exact hnt (hc ▸ hw)
  refine ⟨⟨hpt', ?_, ?_, ?_, ?_, ?_, ?_, ?_⟩, ⟨hkernel, by rw [hheap], hzp, hpte, ?_⟩⟩
  · rw [hzf]
    exact h.zeroHeld
  · rw [hheap]
    exact h.numbered
  · rw [hheap]
    exact h.slabAligned
  · rw [hheap]
    exact h.slabOwn
  · intro t b hb
    rw [hspace] at hb
    rcases of_update hb with ⟨rfl, rfl⟩ | ⟨-, hb⟩
    · rw [ha]
      exact Nat.mul_mod_left ..
    · exact h.rootAligned t b hb
  · intro t b hb
    rw [hheap]
    rw [hspace] at hb
    by_cases ht : t = sp
    · rwa [ht]
    · rw [update_of_ne ht] at hb
      exact h.spaceId t b hb
  · rw [hkernel]
    exact h.kernel
  · intro t v i hi
    refine words_congr h.pt hpt' hzp (hpte t v) (fun w hw _ => hmem w ?_) hi
    intro hc
    rw [hc, hnr] at hw
    omega

theorem allocZeroedPages_spec {s : Phys} {roots : Nat → Option Nat} {O : Set Block}
    {x : Nat → Nat} (h : PtInv s R roots O x) :
    wp (allocZeroedPages 0)
      (fun pa s' => (pa = 0 ∧ s' = s ∧ freeCount s = 0) ∨ ∃ f p, pa = f * pageSize ∧ pa ≠ 0 ∧
        s' = { s with pmm := p } ∧ freeCount s ≤ freeCount { s with pmm := p } + 1 ∧
        Frame s.pmm p ∧ PtInv { s with pmm := p } R roots (insert (⟨f, 0⟩ : Block) O) x ∧
        (⟨f, 0⟩ : Block) ∉ O ∧ PageZero s.mem f ∧ ¬ IsTable s.mem roots f ∧ refs s f = 0)
      never s := by
  unfold allocZeroedPages
  apply wp_of_ok (run_allocPages 0 s)
  rcases ha : pmmAllocPages s.pmm 0 with ⟨pa, p⟩
  by_cases hz : pa = 0
  · subst hz
    obtain ⟨rfl, hfree⟩ := h.alloc_none ha
    exact .inl ⟨rfl, rfl, hfree⟩
  obtain ⟨hpt, hfresh, hal, hzero, hframe, hnew⟩ := h.allocOther (by decide) ha hz
  have hpaf := (pfnToPa_paToPfn hal).symm
  right
  obtain ⟨hphys, -⟩ := pmmAllocPages_phys h.phys (by decide) ha hz
  exact ⟨paToPfn pa, p, hpaf, hz, rfl, freeCount_take h.phys.inv hphys.inv, hframe, hpt, hfresh,
    hzero _ (mem_page.2 rfl), (hnew _ (mem_page.2 rfl)).1, (hnew _ (mem_page.2 rfl)).2⟩

theorem Base.space_fresh (h : Base k R K) (hsp : k.heap.next ≤ sp) : k.space sp = none := by
  cases ha : k.space sp with
  | none => rfl
  | some a =>
    have := h.spaceId sp a ha
    omega

theorem createSpace_rest (h : Base k R K) (hvacant : k.space sp = none) (hid : sp < k.heap.next) :
    wp (do
        let pml4 ← onPhys (allocZeroedPages 0)
        if pml4 = 0 then
          kfree sp
          return none
        else
          let offset ← csprngPageOffset 262144
          Prog.write fun k => k.setSpace sp (some ⟨pml4, .empty, mmapBaseTop - offset⟩)
          let kernel ← Prog.read fun k => k.kernelPml4
          onPhys (pagingCloneKernelHalf kernel pml4)
          return some sp)
      (fun r k' => Base k' R K ∧ Idle k k' ∧
        ((r = none ∧ k'.space = k.space ∧ freeCount k.phys = 0) ∨
          (r = some sp ∧ freeCount k.phys ≤ freeCount k'.phys + 1 ∧ ∃ s' pml4, k' = { k with
            phys := s'
            space := update k.space sp (some ⟨pml4, .empty,
              mmapBaseTop - k.rand k.draws % 262144 * pageSize⟩)
            draws := k.draws + 1 })))
      never k := by
  apply wp_bind_zoom
  refine (allocZeroedPages_spec h.pt).post ?_
  rintro pa s' (⟨rfl, rfl, hfree⟩ | ⟨f, p, rfl, hne, rfl, hfree, hframe, hpt, hfresh, hzero, hnt, hnr⟩)
  · refine (kfree_spec _ h).next ?_
    rintro _ k2 ⟨hb2, hi2, hsp2⟩
    apply wp_pure
    exact ⟨hb2, hi2, .inl ⟨rfl, hsp2, hfree⟩⟩
  rw [if_neg hne]
  unfold csprngPageOffset
  apply wp_bind
  apply wp_bind_read
  apply wp_bind_write
  apply wp_pure
  apply wp_bind_write
  apply wp_bind_read
  apply wp_bind_zoom
  have hzf : zeroFrame { k.phys with pmm := p } = zeroFrame k.phys :=
    congrArg paToPfn hframe.mmZeroPage
  have hfz : f ≠ zeroFrame { k.phys with pmm := p } := by
    rw [hzf]
    intro hc
    rw [hc] at hfresh
    exact hfresh (.inl h.zeroHeld)
  refine (pagingCloneKernelHalf_spec _ hpt (.inl rfl) hfz).post ?_
  rintro _ s' ⟨hpt', hpmm, hother, hlow⟩
  apply wp_pure
  have hempty : ∀ i, i < 256 → has (s'.mem (f * 512 + i)) ptePresent = false := by
    intro i hi
    rw [hlow i hi]
    have : k.phys.mem (f * 512 + i) = 0 := hzero _ (by omega)
    rw [this]
    decide
  set k' : Kern := { k with
    phys := s'
    space := update k.space sp (some ⟨f * pageSize, .empty,
      mmapBaseTop - k.rand k.draws % 262144 * pageSize⟩)
    draws := k.draws + 1 } with hk'
  have hplant : Base k' R K ∧ Idle k k' :=
    h.plant hvacant hid hpt' hfresh hnt
      (by rw [hk', hpmm]; exact hframe.mmZeroPage) hother hnr hempty rfl rfl rfl rfl
  have hcount : freeCount s' = freeCount { k.phys with pmm := p } := by
    unfold freeCount
    rw [hpmm]
  refine ⟨hplant.1, hplant.2, .inr ⟨rfl, ?_, s', f * pageSize, rfl⟩⟩
  show freeCount k.phys ≤ freeCount s' + 1
  rwa [hcount]

theorem vmmCreateSpace_spec (h : Base k R K) :
    wp vmmCreateSpace
      (fun r k' => Base k' R K ∧ Idle k k' ∧ (r = none → k'.space = k.space) ∧
        ∀ sp, r = some sp → k.space sp = none ∧ ∃ pml4 offset,
          k'.space = update k.space sp (some ⟨pml4, .empty, mmapBaseTop - offset⟩) ∧
          offset % pageSize = 0 ∧ offset < 262144 * pageSize)
      never k := by
  unfold vmmCreateSpace
  refine (kzalloc_spec h).next ?_
  rintro r k1 ⟨hb1, hi1, hsp1, hr⟩
  cases r with
  | none =>
    apply wp_pure
    exact ⟨hb1, hi1, fun _ => hsp1, by simp⟩
  | some sp =>
    obtain ⟨hsp, hnext⟩ := hr sp rfl
    have hvacant := h.space_fresh hsp.ge
    refine (createSpace_rest hb1 (by rw [hsp1, hvacant]) (by omega)).post ?_
    rintro r' k' ⟨hb', hi', ⟨rfl, hsp', -⟩ | ⟨rfl, -, s', pml4, rfl⟩⟩
    · exact ⟨hb', hi1.trans hi', fun _ => hsp'.trans hsp1, by simp⟩
    refine ⟨hb', hi1.trans hi', by simp, fun t ht => ?_⟩
    obtain rfl : sp = t := Option.some.inj ht
    refine ⟨hvacant, pml4, k1.rand k1.draws % 262144 * pageSize, ?_, Nat.mul_mod_left .., ?_⟩
    · rw [← hsp1]
    · simp only [pageSize]
      omega

end create

section destroy

variable {P : Vma → Prop} {a : AddrSpace} {L : List Nat}

section

variable (h : Base k R K) (ha : k.space sp = some a)
include h ha

theorem freeVmas_spec (ht : TreeInv P a.vmas k.heap.next L) :
    wp (freeVmas sp)
      (fun _ k' => Base k' R K ∧ Idle k k' ∧ (∀ t, t ≠ sp → k'.space t = k.space t) ∧
        ∃ t', k'.space sp = some { a with vmas := t' })
      never k := by
  induction L generalizing k a with
  | nil =>
    rw [freeVmas.eq_def]
    apply wp_vmasOf ha
    apply wp_known ht.holds.vmaFirst_eq
    apply wp_pure
    exact ⟨h, Idle.refl k, fun _ _ => rfl, a.vmas, ha⟩
  | cons x L ih =>
    rw [freeVmas.eq_def]
    apply wp_vmasOf ha
    apply wp_known ht.holds.vmaFirst_eq
    obtain ⟨t1, hrem, hvma, ht1⟩ := vmaRemove_spec ht.holds (show x ∈ x :: L by simp)
    rw [List.erase_cons_head] at ht1
    apply wp_known hrem
    apply wp_bind_write
    refine (kfree_spec _ h.setVmas).next ?_
    rintro _ k2 ⟨hb2, hi2, hsp2⟩
    have hi : Idle k k2 := Idle.setVmas.trans hi2
    have ha2 : k2.space sp = some { a with vmas := t1 } := by rw [hsp2, setVmas_self ha]
    have ht2 : TreeInv P t1 k2.heap.next L := by
      refine ⟨ht1, fun i hi' => (ht.alloc i (by simp [hi'])).trans_le hi.next, fun i hi' => ?_⟩
      rw [hvma]
      exact ht.good i (by simp [hi'])
    refine (ih hb2 ha2 ht2).post ?_
    rintro _ k' ⟨hb', hi', hother, t', hself⟩
    refine ⟨hb', hi.trans hi', fun t ht => ?_, t', hself⟩
    rw [hother t ht, hsp2, setVmas_of_ne ht]

theorem Base.pml4_ne_kernel : a.pml4Phys ≠ k.kernelPml4 := by
  intro hc
  have htab : IsTable k.phys.mem k.roots (paToPfn a.pml4Phys) :=
    ⟨sp, 0, 0, ⟨by decide, by decide⟩, Kern.roots_eq ha⟩
  have hR : paToPfn k.kernelPml4 ∈ R := by
    rw [h.pt.phys.inv.cover, ← hc]
    exact .inr ⟨_, PtInv.table_held htab, mem_page.2 rfl⟩
  obtain ⟨b, hb, hmem⟩ := h.kernel hR
  rw [← hc] at hmem
  exact h.pt.otherTable b (.inl hb) _ hmem htab

theorem vmmDestroySpace_spec (ht : TreeInv P a.vmas k.heap.next L) :
    wp (vmmDestroySpace sp)
      (fun _ k' => Base k' R K ∧ k'.space = update k.space sp none ∧
        Sheds (fun t _ => t = sp) k k')
      never k := by
  unfold vmmDestroySpace
  refine (freeVmas_spec h ha ht).next ?_
  rintro _ k1 ⟨hb1, hi1, hother1, t1, ha1⟩
  apply wp_pml4Of ha1
  apply wp_bind_read
  apply wp_bind_zoom
  have hne : paToPfn a.pml4Phys * pageSize ≠ k1.kernelPml4 := by
    rw [← hb1.pml4_eq ha1]
    exact hb1.pml4_ne_kernel ha1
  have hspec := pagingDestroy_spec hb1.pt (Kern.roots_eq ha1) hne
  rw [← hb1.pml4_eq ha1] at hspec
  refine hspec.post ?_
  rintro _ s' ⟨hpt, hd⟩
  apply wp_bind_write
  set k2 : Kern := ({ k1 with phys := s' } : Kern).setSpace sp none with hk2
  have hroots : k2.roots = update k1.roots sp none := setSpace_roots
  have hzf := zeroFrame_eq hd.zeroPage
  have hlive : ∀ t b, k2.space t = some b → k1.space t = some b := by
    intro t b hb
    by_cases hts : t = sp
    · subst hts
      rw [hk2, setSpace_self] at hb
      cases hb
    · rwa [hk2, setSpace_of_ne hts] at hb
  have hb2 : Base k2 R K := by
    refine ⟨?_, ?_, hb1.numbered, hb1.slabAligned, hb1.slabOwn, ?_, ?_, hb1.kernel⟩
    · rw [hroots]
      exact hpt
    · show (⟨zeroFrame s', 0⟩ : Block) ∈ K
      rw [hzf]
      exact hb1.zeroHeld
    · exact fun t b hb => hb1.rootAligned t b (hlive t b hb)
    · exact fun t b hb => hb1.spaceId t b (hlive t b hb)
  have hpte : ∀ t v, k2.pte t v = if t = sp then none else k1.pte t v := by
    intro t v
    unfold Kern.pte
    rw [hroots]
    exact hd.pte t v
  have hsh : Sheds (fun t _ => t = sp) k1 k2 := by
    refine ⟨rfl, le_refl _, hd.zeroPage, fun t v ht => (hpte t v).trans (if_pos ht),
      fun t v ht => (hpte t v).trans (if_neg ht), fun t v i ht hi => ?_⟩
    refine words_congr hb1.pt hb2.pt hd.zeroPage ((hpte t v).trans (if_neg ht)) ?_ hi
    exact fun w _ hw => hd.data w (.inl hw)
  refine (kfree_spec _ hb2).post ?_
  rintro _ k' ⟨hb', hi', hsp'⟩
  refine ⟨hb', ?_, ((hi1.sheds.trans hsh).trans hi'.sheds).congr fun t v => by simp⟩
  rw [hsp', hk2]
  exact eq_update_iff.2 ⟨setSpace_self, fun t hts => (setSpace_of_ne hts).trans (hother1 t hts)⟩

end

end destroy

end Jnu.Mm
