import Jnu.Pmm.Lists

open Jnu.Lib.Dyadic

namespace Jnu.Pmm

open PmmState

-- The allocator manages the pages of `R`: those not on its lists are in the blocks `held`.
structure PmmInv (s : PmmState) (R : Set Nat) (held : Set Block) : Prop where
  lists : ∃ L, Lists s L
  canonical : Canonical (pmmMaxOrder - 1) s.freeBlocks
  heldAligned : ∀ b ∈ held, b.Aligned
  heldOrder : ∀ b ∈ held, b.order < pmmMaxOrder
  heldDisjoint : ∀ b ∈ held, ∀ c ∈ held, ∀ n, n ∈ b → n ∈ c → b = c
  apart : ∀ b ∈ s.freeBlocks, ∀ c ∈ held, ∀ n, n ∈ b → n ∉ c
  cover : ∀ n, n ∈ R ↔ Covers s.freeBlocks n ∨ Covers held n
  bound : ∀ n ∈ R, 0 < n ∧ n < s.pfnCount

theorem zoneOfPfn_eq {b : Block} (hb : b.Aligned) (ho : b.order < pmmMaxOrder) {n : Nat} (hn : n ∈ b) :
    zoneOfPfn n = zoneOfPfn b.start := by
  have hbig : (⟨0, 12⟩ : Block).Aligned := Dvd.intro 0 rfl
  have hle : b.order ≤ 12 := by
    simp only [pmmMaxOrder] at ho
    omega
  have hsub : ∀ m ∈ b, ∀ m' ∈ b, m ∈ (⟨0, 12⟩ : Block) → m' ∈ (⟨0, 12⟩ : Block) :=
    fun m hm m' hm' h => Block.mem_of_mem_of_le hb hbig hle hm h hm'
  have hmem : ∀ m, m ∈ (⟨0, 12⟩ : Block) ↔ m < 4096 := by
    intro m
    simp [Block.mem_def]
  have hiff : n < 4096 ↔ b.start < 4096 := by
    rw [← hmem, ← hmem]
    exact ⟨hsub n hn _ b.start_mem, hsub _ b.start_mem n hn⟩
  have hz : ∀ m, (pfnToPa m < 16 * 1024 * 1024 ↔ m < 4096) := by
    intro m
    simp only [pfnToPa, pageSize]
    omega
  simp only [zoneOfPfn, zoneOf, hz, hiff]

namespace PmmInv

variable {s s' : PmmState} {R : Set Nat} {H H' : Set Block} {b c : Block} {n pfn : Nat}

section

variable (h : PmmInv s R H)
include h

theorem order_lt (hb : b ∈ s.freeBlocks) : b.order < pmmMaxOrder := by
  obtain ⟨L, hL⟩ := h.lists
  exact hL.order_lt b hb

theorem free_false (hb : b ∈ H) (hn : n ∈ b) : (s.pfnTable n).free = false := by
  rw [← Bool.not_eq_true]
  intro hc
  exact h.apart ⟨n, (s.pfnTable n).order⟩ ⟨hc, rfl⟩ b hb n (Block.start_mem _) hn

theorem congr (hlinks : s'.links = s.links) (hhead : s'.freeListHead = s.freeListHead)
    (hfree : s'.freeBlocks = s.freeBlocks) (hcount : s'.pfnCount = s.pfnCount)
    (hpages : s'.stats.freePages = s.stats.freePages) (horder : s'.stats.freeByOrder = s.stats.freeByOrder)
    (hzone : s'.stats.zoneFree = s.stats.zoneFree) : PmmInv s' R H := by
  obtain ⟨L, hL⟩ := h.lists
  refine ⟨⟨L, ?_⟩, ?_, h.heldAligned, h.heldOrder, h.heldDisjoint, ?_, ?_, ?_⟩
  · constructor
    · rw [hlinks, hhead]
      exact hL.linked
    · exact hL.nodup
    · rw [hfree]
      exact hL.mem_iff
    · rw [hfree]
      exact hL.order_lt
    · rw [horder]
      exact hL.freeByOrder
    · rw [hzone]
      exact hL.zoneFree
    · rw [hpages, hzone]
      exact hL.freePages
  · rw [hfree]
    exact h.canonical
  · rw [hfree]
    exact h.apart
  · rw [hfree]
    exact h.cover
  · rw [hcount]
    exact h.bound

theorem modify {f : PmmPfn → PmmPfn} (hpfn : (s.pfnTable pfn).free = false)
    (hf : ∀ e, e.free = false → (f e).free = false) (hnext : ∀ e, (f e).next = e.next)
    (hprev : ∀ e, (f e).prev = e.prev) : PmmInv (s.modify pfn f) R H := by
  refine h.congr ?_ rfl ?_ rfl rfl rfl rfl
  · ext1
    · funext i
      by_cases hi : i = pfn <;> simp [links, hi, hnext]
    · funext i
      by_cases hi : i = pfn <;> simp [links, hi, hprev]
  · ext c
    simp only [freeBlocks, Set.mem_ofPred_eq, pfnTable_modify]
    by_cases hc : c.start = pfn
    · simp [hc, hpfn, hf _ hpfn]
    · simp [hc]

theorem changeHeld (haligned : ∀ c ∈ H', c.Aligned)
    (horder : ∀ c ∈ H', c.order < pmmMaxOrder) (hdisjoint : ∀ b ∈ H', ∀ c ∈ H', ∀ n, n ∈ b → n ∈ c → b = c)
    (hcov : ∀ n, Covers H' n ↔ Covers H n) : PmmInv s R H' where
  lists := h.lists
  canonical := h.canonical
  heldAligned := haligned
  heldOrder := horder
  heldDisjoint := hdisjoint
  apart b hb c hc n hnb hnc := by
    obtain ⟨d, hd, hnd⟩ := (hcov n).1 ⟨c, hc, hnc⟩
    exact h.apart b hb d hd n hnb hnd
  cover n := by rw [hcov, h.cover]
  bound := h.bound

theorem take (hb : b ∈ s.freeBlocks) :
    PmmInv (withdraw s (zoneOfPfn b.start) b.order b.start) R (insert b H) := by
  obtain ⟨L, hL⟩ := h.lists
  have hfree := freeBlocks_withdraw (zoneOfPfn b.start) hb
  have hsub : ∀ c ∈ (withdraw s (zoneOfPfn b.start) b.order b.start).freeBlocks,
      c ∈ s.freeBlocks ∧ c ≠ b := by
    intro c hc
    rw [hfree] at hc
    exact hc
  have hcov : ∀ n, Covers s.freeBlocks n ↔ n ∈ b ∨ Covers (s.freeBlocks \ {b}) n := fun n => by
    rw [← covers_insert, Set.insert_sdiff_self_of_mem hb]
  refine ⟨⟨_, hL.withdraw hb⟩, ?_, Set.forall_mem_insert.2 ⟨h.canonical.aligned b hb, h.heldAligned⟩,
    Set.forall_mem_insert.2 ⟨h.order_lt hb, h.heldOrder⟩, disjoint_insert h.heldDisjoint ?_, ?_, ?_, ?_⟩
  · refine ⟨?_, ?_, ?_, ?_⟩
    · exact fun c hc => h.canonical.aligned c (hsub c hc).1
    · exact fun c hc => h.canonical.order_le c (hsub c hc).1
    · exact fun c hc d hd => h.canonical.disjoint c (hsub c hc).1 d (hsub d hd).1
    · exact fun c hc ho hbud => h.canonical.noBuddies c (hsub c hc).1 ho (hsub _ hbud).1
  · exact fun n hn ⟨d, hd, hnd⟩ => h.apart b hb d hd n hn hnd
  · rintro c hc d (rfl | hd) n hnc hnd
    · exact (hsub c hc).2 (h.canonical.disjoint c (hsub c hc).1 d hb n hnc hnd)
    · exact h.apart c (hsub c hc).1 d hd n hnc hnd
  · intro n
    rw [h.cover, hfree, hcov, covers_insert]
    tauto
  · rw [(withdraw_frame _ _ _ _).pfnCount]
    exact h.bound

end

theorem give (h : PmmInv s R (insert b H)) (hbH : b ∉ H)
    (hbud : b.order < pmmMaxOrder - 1 → b.buddy ∉ s.freeBlocks) :
    PmmInv (publish s (zoneOfPfn b.start) b.order b.start) R H := by
  obtain ⟨L, hL⟩ := h.lists
  have hb : b ∈ insert b H := .inl rfl
  have hba := h.heldAligned b hb
  have hbo := h.heldOrder b hb
  have hnf := h.free_false hb b.start_mem
  have hfree := freeBlocks_publish (zoneOfPfn b.start) (o := b.order) hnf
  refine ⟨⟨_, hL.publish hbo hnf⟩, ?_, ?_, ?_, ?_, ?_, ?_, ?_⟩
  · rw [hfree]
    refine ⟨?_, ?_, ?_, ?_⟩
    · exact Set.forall_mem_insert.2 ⟨hba, h.canonical.aligned⟩
    · exact Set.forall_mem_insert.2 ⟨Nat.le_sub_one_of_lt hbo, h.canonical.order_le⟩
    · exact disjoint_insert h.canonical.disjoint fun n hn ⟨d, hd, hnd⟩ => h.apart d hd b hb n hnd hn
    · rintro c (rfl | hc) ho (hbe | hbud')
      · exact Block.buddy_ne hba hbe
      · exact hbud ho hbud'
      · have hcb : b.buddy = c := by
          have : b = c.buddy := hbe.symm
          rw [this, Block.buddy_buddy]
        refine hbud ?_ (hcb ▸ hc)
        rwa [← hcb] at ho
      · exact h.canonical.noBuddies c hc ho hbud'
  · exact fun c hc => h.heldAligned c (.inr hc)
  · exact fun c hc => h.heldOrder c (.inr hc)
  · exact fun c hc d hd => h.heldDisjoint c (.inr hc) d (.inr hd)
  · rw [hfree]
    rintro c (rfl | hc) d hd n hnc hnd
    · exact hbH (h.heldDisjoint _ hb d (.inr hd) n hnc hnd ▸ hd)
    · exact h.apart c hc d (.inr hd) n hnc hnd
  · intro n
    rw [h.cover, hfree, covers_insert, covers_insert]
    tauto
  · rw [(publish_frame _ _ _ _).pfnCount]
    exact h.bound

private theorem notMem_of_disjoint (hn : n ∈ c) (hdis : ¬ Covers H n) : c ∉ H :=
  fun hc => hdis ⟨c, hc, hn⟩

-- A page of one held block is in no other one.
private theorem outside (h : PmmInv s R H) (hb : b ∈ H) (hH : H' ⊆ H) (hbH : b ∉ H') :
    ∀ n ∈ b, ¬ Covers H' n :=
  fun n hn ⟨d, hd, hnd⟩ => hbH (h.heldDisjoint b hb d (hH hd) n hn hnd ▸ hd)

theorem merge (h : PmmInv s R (insert b (insert b.buddy H))) (ho : b.order < pmmMaxOrder - 1)
    (hbH : b ∉ H) (hbudH : b.buddy ∉ H) : PmmInv s R (insert b.parent H) ∧ b.parent ∉ H := by
  have hba := h.heldAligned b (.inl rfl)
  have hsub : H ⊆ insert b (insert b.buddy H) := fun c hc => .inr (.inr hc)
  have hout : ∀ n ∈ b.parent, ¬ Covers H n := by
    intro n hn
    rcases (Block.mem_parent hba).1 hn with hn | hn
    · exact h.outside (.inl rfl) hsub hbH n hn
    · exact h.outside (.inr (.inl rfl)) hsub hbudH n hn
  have ho' : b.parent.order < pmmMaxOrder := by
    simp only [Block.parent_order, pmmMaxOrder] at ho ⊢
    omega
  refine ⟨h.changeHeld (Set.forall_mem_insert.2 ⟨b.aligned_parent, fun c hc => h.heldAligned c (hsub hc)⟩)
    (Set.forall_mem_insert.2 ⟨ho', fun c hc => h.heldOrder c (hsub hc)⟩)
    (disjoint_insert (fun c hc d hd => h.heldDisjoint c (hsub hc) d (hsub hd)) hout) fun n => ?_,
    notMem_of_disjoint b.parent.start_mem (hout _ b.parent.start_mem)⟩
  rw [covers_insert, covers_insert, covers_insert, Block.mem_parent hba, or_assoc]

theorem split (h : PmmInv s R (insert b.parent H)) (hba : b.Aligned) (hbH : b.parent ∉ H) :
    PmmInv s R (insert b.buddy (insert b H)) ∧ b ∉ H ∧ b.buddy ∉ insert b H := by
  have hsub : H ⊆ insert b.parent H := fun c hc => .inr hc
  have hout := h.outside (.inl rfl) hsub hbH
  have hin : ∀ n, n ∈ b → n ∈ b.parent := fun n hn => (Block.mem_parent hba).2 (.inl hn)
  have hin' : ∀ n, n ∈ b.buddy → n ∈ b.parent := fun n hn => (Block.mem_parent hba).2 (.inr hn)
  have ho : b.order < pmmMaxOrder := by
    have := h.heldOrder b.parent (.inl rfl)
    simp only [Block.parent_order] at this
    omega
  have hbud : ∀ n ∈ b.buddy, ¬ Covers (insert b H) n := by
    intro n hn
    rw [covers_insert]
    rintro (hnb | hc)
    · exact Block.not_mem_buddy hba hnb hn
    · exact hout n (hin' n hn) hc
  refine ⟨h.changeHeld ?_ ?_ (disjoint_insert (disjoint_insert ?_ fun n hn => hout n (hin n hn)) hbud)
    fun n => ?_, notMem_of_disjoint b.start_mem (hout _ (hin _ b.start_mem)),
    notMem_of_disjoint b.buddy.start_mem (hbud _ b.buddy.start_mem)⟩
  · rintro c (rfl | rfl | hc)
    · exact Block.aligned_buddy hba
    · exact hba
    · exact h.heldAligned c (.inr hc)
  · rintro c (rfl | rfl | hc)
    · exact ho
    · exact ho
    · exact h.heldOrder c (.inr hc)
  · exact fun c hc d hd => h.heldDisjoint c (hsub hc) d (hsub hd)
  · rw [covers_insert, covers_insert, covers_insert, Block.mem_parent hba]
    tauto

end PmmInv

end Jnu.Pmm
