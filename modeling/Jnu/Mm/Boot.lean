import Jnu.Mm.Sound
import Jnu.Pmm.Theorems

namespace Jnu.Mm

open Lib.Dyadic Lib.Effect Lib.Refs Paging Pmm

-- The kernel before its first address space. The rest of the kernel holds the blocks `K`.
structure Boot (k : Kern) (R : Set Nat) (K : Set Block) : Prop where
  phys : PhysInv k.phys R (K ∪ k.slabBlocks)
  wide : k.phys.pmm.pfnCount ≤ 2 ^ 40
  refs : ∀ f, refs k.phys f = 0
  zeroHeld : (⟨zeroFrame k.phys, 0⟩ : Block) ∈ K
  zeroAligned : k.phys.pmm.mmZeroPage % pageSize = 0
  zeroPage : PageZero k.phys.mem (zeroFrame k.phys)
  numbered : k.heap.Numbered
  slabAligned : ∀ pa ∈ k.heap.slabs, pa % pageSize = 0
  slabOwn : ∀ pa ∈ k.heap.slabs, blockAt pa 0 ∉ K
  kernel : paToPfn k.kernelPml4 ∈ R → ∃ b ∈ K, paToPfn k.kernelPml4 ∈ b
  vacant : ∀ sp, k.space sp = none

section boot

variable {k : Kern} {R : Set Nat} {K : Set Block}

theorem Boot.base (h : Boot k R K) : Base k R K := by
  have htab : ∀ sp j n, tableAt k.phys.mem k.roots sp j n = none :=
    fun sp j n => tableAt_noRoot (roots_none (h.vacant sp))
  have hno : ∀ f, ¬ IsTable k.phys.mem k.roots f := by
    rintro f ⟨sp, j, n, -, hf⟩
    rw [htab] at hf
    cases hf
  have hmap : ∀ key, frameMap k.phys.mem k.roots key = none := by
    intro key
    unfold frameMap
    rw [show Paging.pte k.phys.mem k.roots key.1 key.2 = none from pte_none (h.vacant _) _,
      Option.map_none]
  have hheld : heldBlocks k.phys k.roots (K ∪ k.slabBlocks) = K ∪ k.slabBlocks := by
    ext b
    unfold heldBlocks
    apply or_iff_left
    rintro ⟨-, hb | hb⟩
    · exact hno _ hb
    · rw [h.refs] at hb
      exact absurd hb (lt_irrefl 0)
  refine ⟨⟨?_, h.wide, .inl h.zeroHeld, h.zeroAligned, h.zeroPage, ⟨?_, ?_, ?_⟩, fun f _ => h.refs f,
    fun _ _ n _ => h.refs n, fun _ _ n _ => hno n, ?_, fun f _ => ?_⟩, h.zeroHeld, h.numbered,
    h.slabAligned, h.slabOwn, ?_, ?_, h.kernel⟩
  · rw [hheld]
    exact h.phys
  · intro sp j n _ _ _ f _ _ hf
    exact absurd ((htab sp j n).symm.trans hf) (by simp)
  · intro sp j n f _ hf
    rw [htab] at hf
    cases hf
  · intro sp v e he
    rw [show Paging.pte k.phys.mem k.roots sp v = none from pte_none (h.vacant sp) v] at he
    cases he
  · apply Set.finite_empty.subset
    exact fun key hkey => absurd (hmap key) hkey
  · rw [h.refs, Nat.add_zero]
    refine (Nat.eq_zero_of_not_pos fun hc => ?_).symm
    obtain ⟨key, hkey⟩ := exists_of_count_pos hc
    rw [hmap] at hkey
    cases hkey
  · intro sp a ha
    rw [h.vacant] at ha
    cases ha
  · intro sp a ha
    rw [h.vacant] at ha
    cases ha

theorem Boot.sound (h : Boot k R K) : Sound k R K := by
  refine ⟨h.base, fun sp a ha => ?_, ?_⟩
  · rw [h.vacant] at ha
    cases ha
  have hnone : ∀ sp v e, k.pte sp v ≠ some e := by
    intro sp v e
    rw [pte_none (h.vacant sp)]
    simp
  exact ⟨fun sp v e he => absurd he (hnone sp v e), fun sp v e _ _ _ he => absurd he (hnone sp v e)⟩

-- After `pmm_init`: the zero page is all that is in hand, and the heap has no slab yet.
theorem boot_of_init {mm : List MemmapEntry} {mem : Mem} {s : Phys} (hmm : MemmapOk mm)
    (hs : pmmInit (some mm) mem = .ok s) (hwide : s.pmm.pfnCount ≤ 2 ^ 40) (hphys : k.phys = s)
    (hlive : k.heap.live = []) (hvacant : ∀ sp, k.space sp = none)
    (hkernel : paToPfn k.kernelPml4 ∉ registeredPages mm) :
    Boot k (registeredPages mm) {blockAt s.pmm.mmZeroPage 0} := by
  subst hphys
  have hb := pmmInit_spec hmm hs
  have hslabs : k.heap.slabs = [] := by
    unfold Heap.slabs
    rw [hlive]
    rfl
  have hblocks : k.slabBlocks = ∅ := by
    unfold Kern.slabBlocks
    rw [hslabs]
    simp
  refine ⟨?_, hwide, hb.refcount, rfl, hb.zeroPage_aligned, hb.zeroPage, ?_, ?_, ?_,
    fun hc => absurd hc hkernel, hvacant⟩
  · rw [hblocks, Set.union_empty]
    exact hb.phys
  · refine ⟨?_, ?_⟩
    · rw [hlive]
      exact List.nodup_nil
    · rw [hlive]
      simp
  · rw [hslabs]
    simp
  · rw [hslabs]
    simp

theorem boot_of_base (h : Base k R K) (hvacant : ∀ sp, k.space sp = none) : Boot k R K := by
  have hno : ∀ f, ¬ IsTable k.phys.mem k.roots f := by
    rintro f ⟨sp, j, n, -, hf⟩
    rw [tableAt_noRoot (roots_none (hvacant sp))] at hf
    cases hf
  have hrefs : ∀ f, Paging.refs k.phys f = 0 := by
    intro f
    by_cases hz : f = zeroFrame k.phys
    · rw [hz]
      exact h.pt.zero_refs
    rw [h.pt.counts f hz, Nat.add_zero]
    refine Nat.eq_zero_of_not_pos fun hc => ?_
    obtain ⟨key, hkey⟩ := exists_of_count_pos hc
    unfold frameMap at hkey
    rw [show Paging.pte k.phys.mem k.roots key.1 key.2 = none from pte_none (hvacant _) _] at hkey
    cases hkey
  have hheld : heldBlocks k.phys k.roots (K ∪ k.slabBlocks) = K ∪ k.slabBlocks := by
    ext b
    unfold heldBlocks
    apply or_iff_left
    rintro ⟨-, hb | hb⟩
    · exact hno _ hb
    · rw [hrefs] at hb
      exact absurd hb (lt_irrefl 0)
  refine ⟨?_, h.pt.wide, hrefs, h.zeroHeld, h.pt.zeroAligned, h.pt.zeroPage, h.numbered,
    h.slabAligned, h.slabOwn, h.kernel, hvacant⟩
  rw [← hheld]
  exact h.pt.phys

end boot

def firstKern (s : Phys) (rand : Nat → Nat) : Kern :=
  ⟨s, 0x1000, fun _ => none, ⟨0, [], 0, fun _ => some 0⟩, rand, 0⟩

-- A machine with the given memory and random numbers. The heap has one page.
def bootKern (s : Phys) (pa : Nat) (rand : Nat → Nat) : Kern :=
  ⟨s, 0x1000, fun _ => none, ⟨1, [(0, pa)], 1, fun _ => some 0⟩, rand, 0⟩

def wideMap : List MemmapEntry := [⟨0x100000, 0x100000, true⟩]

theorem wideMap_ok : MemmapOk wideMap := by
  refine ⟨?_, ?_, ?_, ?_⟩ <;> simp [wideMap, pageSize]

theorem wideMap_pages (n : Nat) : n ∈ registeredPages wideMap ↔ 260 ≤ n ∧ n < 512 := by
  have hcarved : carvedMap wideMap = [⟨0x104000, 0xFC000, true⟩] := by decide
  unfold registeredPages usablePages
  rw [hcarved]
  simp only [List.mem_singleton, exists_eq_left, Set.mem_ofPred_eq, MemmapEntry.Holds, pfnToPa,
    pageSize, true_and]
  omega

theorem wideMap_boots : ∃ s, pmmInit (some wideMap) (fun _ => 7) = .ok s ∧
    s.pmm.pfnCount ≤ 2 ^ 40 := by
  have hok : (pmmInit (some wideMap) fun _ => 7).toOption.any
      (fun s => s.pmm.pfnCount ≤ 2 ^ 40) = true := by decide +kernel
  cases h : pmmInit (some wideMap) (fun _ => 7) with
  | ok s =>
    rw [h] at hok
    exact ⟨s, rfl, of_decide_eq_true hok⟩
  | error e =>
    rw [h] at hok
    cases hok

theorem bootKern_boot : ∃ s K pa, (∀ rand, Boot (bootKern s pa rand) (registeredPages wideMap) K) ∧
    250 ≤ freeCount s := by
  obtain ⟨s, hs, hwide⟩ := wideMap_boots
  have hboot : ∀ rand, Boot (firstKern s rand) (registeredPages wideMap)
      {blockAt s.pmm.mmZeroPage 0} := by
    intro rand
    refine boot_of_init wideMap_ok hs hwide rfl rfl (fun _ => rfl) ?_
    rw [wideMap_pages]
    show ¬ (260 ≤ paToPfn 0x1000 ∧ paToPfn 0x1000 < 512)
    decide
  have hinv := (pmmInit_spec wideMap_ok hs).phys.inv
  -- all pages but the zero page are free
  have hfree : 251 ≤ freeCount s := by
    have hsub : (Finset.Ico 260 512).erase (paToPfn s.pmm.mmZeroPage) ⊆
        (freeSet_finite hinv).toFinset := by
      intro n hn
      obtain ⟨hne, hn⟩ := Finset.mem_erase.1 hn
      rw [Set.Finite.mem_toFinset, Set.mem_ofPred_eq, hinv.covers_free_iff, wideMap_pages]
      refine ⟨Finset.mem_Ico.1 hn, ?_⟩
      rintro ⟨b, rfl, hb⟩
      exact hne (mem_page.1 hb)
    have hcard := Finset.card_le_card hsub
    rw [← Set.ncard_eq_toFinset_card _ (freeSet_finite hinv)] at hcard
    have herase : (Finset.Ico 260 512).card - 1 ≤ _ :=
      Finset.pred_card_le_card_erase (a := paToPfn s.pmm.mmZeroPage)
    rw [Nat.card_Ico] at herase
    exact herase.trans hcard
  -- the first object of the heap takes a page
  have hne : (pmmAllocPages s.pmm 0).1 ≠ 0 := by
    intro hz
    obtain ⟨-, hzero⟩ := (hboot fun _ => 0).base.pt.alloc_none
      (Prod.ext hz rfl : pmmAllocPages s.pmm 0 = (0, _))
    rw [show freeCount (firstKern s fun _ => 0).phys = freeCount s from rfl] at hzero
    omega
  have hpair : pmmAllocPages s.pmm 0 = ((pmmAllocPages s.pmm 0).1, (pmmAllocPages s.pmm 0).2) := rfl
  obtain ⟨hphys, -⟩ := pmmAllocPages_phys (pmmInit_spec wideMap_ok hs).phys (by decide) hpair hne
  refine ⟨{ s with pmm := (pmmAllocPages s.pmm 0).2 }, {blockAt s.pmm.mmZeroPage 0},
    (pmmAllocPages s.pmm 0).1, fun rand => ?_, ?_⟩
  · have hrun : kzalloc.run (firstKern s rand) = done (some 0)
      (bootKern { s with pmm := (pmmAllocPages s.pmm 0).2 } (pmmAllocPages s.pmm 0).1 rand) := by
      unfold kzalloc
      rw [run_bind_ok (run_read _ _)]
      have hspot : (firstKern s rand).heap.spot = none := rfl
      rw [hspot]
      have hall : (onPhys (PhysM.allocPages 0)).run (firstKern s rand) =
          done ((pmmAllocPages s.pmm 0).1) 
            { firstKern s rand with phys := { s with pmm := (pmmAllocPages s.pmm 0).2 } } := rfl
      rw [run_bind_ok hall, if_neg hne]
      rfl
    obtain ⟨hb, -, hspace, -⟩ := (kzalloc_spec (hboot rand).base).of_ok hrun
    exact boot_of_base hb fun _ => rfl
  · have hless : freeCount s ≤ freeCount { s with pmm := (pmmAllocPages s.pmm 0).2 } + 1 :=
      freeCount_take hinv hphys.inv
    omega

end Jnu.Mm
