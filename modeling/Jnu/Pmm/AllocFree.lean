import Jnu.Pmm.Invariant

open Jnu.Lib.Dyadic

namespace Jnu.Pmm

open PmmState

variable {s s' : PmmState} {R : Set Nat} {H : Set Block} {o pa : Nat} {z : PmmZone} {pfn order : Nat}

theorem firstFit_spec (s : PmmState) (z : PmmZone) (n o : Nat) :
    o ≤ firstFit s z n o ∧ firstFit s z n o ≤ o + n ∧
      (∀ j, o ≤ j → j < firstFit s z n o → s.freeListHead z j = none) ∧
      (firstFit s z n o < o + n → s.freeListHead z (firstFit s z n o) ≠ none) := by
  induction n generalizing o with
  | zero => exact ⟨le_rfl, le_rfl, fun j h1 h2 => by simp [firstFit] at h2; omega, by simp [firstFit]⟩
  | succ n ih =>
    by_cases hc : s.freeListHead z o = none
    · simp only [firstFit, hc, if_true]
      obtain ⟨h1, h2, h3, h4⟩ := ih (o + 1)
      refine ⟨by omega, by omega, fun j hj hlt => ?_, fun hlt => h4 (by omega)⟩
      by_cases hjo : j = o
      · exact hjo ▸ hc
      · exact h3 j (by omega) hlt
    · simp only [firstFit, hc, if_false]
      exact ⟨le_rfl, by omega, fun j hj hlt => by omega, fun _ => hc⟩

theorem PmmInv.head_none (h : PmmInv s R H) (ho : o < pmmMaxOrder) :
    s.freeListHead z o = none ↔
      ∀ b ∈ s.freeBlocks, zoneOfPfn b.start = z → b.order ≠ o := by
  obtain ⟨L, hL⟩ := h.lists
  rw [(hL.linked z o ho).head?, List.head?_eq_none_iff]
  constructor
  · rintro hnil b hb hz rfl
    have := (hL.mem_iff z b.order b.start ho).2 ⟨hb, hz⟩
    simp [hnil] at this
  · intro hno
    rw [List.eq_nil_iff_forall_not_mem]
    intro pfn hmem
    obtain ⟨hb, hz⟩ := (hL.mem_iff z o pfn ho).1 hmem
    exact hno _ hb hz rfl

theorem PmmInv.head_some (h : PmmInv s R H) (ho : o < pmmMaxOrder) (hhead : s.freeListHead z o = some pfn) :
    (⟨pfn, o⟩ : Block) ∈ s.freeBlocks ∧ zoneOfPfn pfn = z := by
  obtain ⟨L, hL⟩ := h.lists
  refine (hL.mem_iff z o pfn ho).1 (List.mem_of_mem_head? ?_)
  rw [← (hL.linked z o ho).head?, hhead]
  rfl

-- From the block of order `order + d` at `pfn` in hand, to the one of order `order`.
theorem splitDown_spec (d : Nat) (h : PmmInv s R (insert ⟨pfn, order + d⟩ H))
    (hH : (⟨pfn, order + d⟩ : Block) ∉ H) :
    PmmInv (splitDown (zoneOfPfn pfn) pfn order d s) R (insert ⟨pfn, order⟩ H) ∧
      (⟨pfn, order⟩ : Block) ∉ H ∧ Frame s (splitDown (zoneOfPfn pfn) pfn order d s) := by
  induction d generalizing s with
  | zero => exact ⟨h, hH, Frame.refl s⟩
  | succ d ih =>
    have hal : (⟨pfn, order + d + 1⟩ : Block).Aligned := h.heldAligned _ (.inl rfl)
    have hpar : (⟨pfn, order + d⟩ : Block).parent = ⟨pfn, order + (d + 1)⟩ := Block.parent_lower hal
    have hbud := Block.buddy_lower hal
    rw [← hpar] at h hH
    obtain ⟨hcut, hlow, hup⟩ := h.split (Block.aligned_lower hal) hH
    have hnotfree : (⟨pfn, order + d⟩ : Block) ∉ s.freeBlocks := fun hc =>
      hcut.apart _ hc _ (.inr (.inl rfl)) pfn (Block.start_mem ⟨pfn, order + d⟩)
        (Block.start_mem ⟨pfn, order + d⟩)
    have hgive := hcut.give hup (fun _ => by rwa [Block.buddy_buddy])
    have hzone : zoneOfPfn (pfn + 2 ^ (order + d)) = zoneOfPfn pfn := by
      have hmem : pfn + 2 ^ (order + d) ∈ (⟨pfn, order + d⟩ : Block).parent := by
        rw [Block.mem_parent (Block.aligned_lower hal), hbud]
        exact .inr (Block.start_mem ⟨_, _⟩)
      have := zoneOfPfn_eq (Block.aligned_parent _) (h.heldOrder _ (.inl rfl)) hmem
      rwa [hpar] at this
    rw [hbud] at hgive
    simp only [hzone] at hgive
    obtain ⟨hinv, hnot, hframe⟩ := ih hgive hlow
    exact ⟨hinv, hnot, (publish_frame _ _ _ _).trans hframe⟩

-- What an allocation from one zone does when it succeeds.
structure Allocated (s s' : PmmState) (R : Set Nat) (H : Set Block) (b : Block) : Prop where
  inv : PmmInv s' R (insert b H)
  fresh : b ∉ H
  frame : Frame s s'
  wasFree : ∀ n ∈ b, Covers s.freeBlocks n

theorem allocFromZone_some (h : PmmInv s R H) (e : allocFromZone s z order = some (pfn, s')) :
    Allocated s s' R H ⟨pfn, order⟩ ∧ zoneOfPfn pfn = z ∧ order < pmmMaxOrder := by
  unfold allocFromZone at e
  set o := firstFit s z (pmmMaxOrder - order) order with ho
  obtain ⟨hle, hub, -, hne⟩ := firstFit_spec s z (pmmMaxOrder - order) order
  rw [← ho] at hle hub hne
  by_cases hlt : o < pmmMaxOrder
  · simp only [hlt, if_true] at e
    cases hhead : s.freeListHead z o with
    | none => exact absurd hhead (hne (by omega))
    | some head =>
      obtain ⟨hb, hz⟩ := h.head_some hlt hhead
      simp only [listPop, hhead, Option.some.injEq, Prod.mk.injEq] at e
      obtain ⟨rfl, rfl⟩ := e
      subst hz
      have htake := h.take hb
      have hH : (⟨head, o⟩ : Block) ∉ H := fun hc =>
        h.apart _ hb _ hc head (Block.start_mem ⟨head, o⟩) (Block.start_mem ⟨head, o⟩)
      obtain ⟨d, hd⟩ : ∃ d, o = order + d := ⟨o - order, by omega⟩
      clear_value o
      subst hd
      rw [Nat.add_sub_cancel_left]
      obtain ⟨hinv, hnot, hframe⟩ := splitDown_spec d htake hH
      have hff := hinv.free_false (.inl rfl) (Block.start_mem ⟨head, order⟩)
      refine ⟨⟨?_, hnot, ?_, ?_⟩, rfl, by omega⟩
      · exact hinv.modify hff (fun _ _ => rfl) (fun _ => rfl) (fun _ => rfl)
      · exact ((withdraw_frame _ _ _ _).trans hframe).trans (Frame.modify _ _ (by intro; rfl))
      · intro n hn
        refine ⟨_, hb, ?_⟩
        have hpow : 2 ^ order ≤ 2 ^ (order + d) := Nat.pow_le_pow_right (by omega) hle
        exact ⟨hn.1, by have := hn.2; simp only at this ⊢; omega⟩
  · simp [hlt] at e

theorem allocFromZone_none (h : PmmInv s R H) (e : allocFromZone s z order = none) :
    ∀ b ∈ s.freeBlocks, zoneOfPfn b.start = z → b.order < order := by
  unfold allocFromZone at e
  set o := firstFit s z (pmmMaxOrder - order) order with ho
  obtain ⟨hle, hub, hno, hne⟩ := firstFit_spec s z (pmmMaxOrder - order) order
  intro b hb hz
  by_contra hge
  have hbo := h.order_lt hb
  by_cases hlt : o < pmmMaxOrder
  · cases hhead : s.freeListHead z o with
    | none => exact hne (by omega) hhead
    | some head => simp [hlt, listPop, hhead] at e
  · exact (h.head_none hbo).1 (hno b.order (by omega) (by omega)) b hb hz rfl

def blockAt (pa order : Nat) : Block := ⟨paToPfn pa, order⟩

@[simp] theorem paToPfn_pfnToPa (pfn : Nat) : paToPfn (pfnToPa pfn) = pfn := by
  simp [paToPfn, pfnToPa, pageSize]

theorem Allocated.pfn_pos {b : Block} (h : Allocated s s' R H b) : 0 < b.start :=
  (h.inv.bound b.start ((h.inv.cover _).2 (.inr ⟨b, .inl rfl, b.start_mem⟩))).1

-- The outcome of an allocator that searches the zones `zs`.
structure AllocSpec (s s' : PmmState) (R : Set Nat) (H : Set Block) (zs : PmmZone → Prop)
    (order pa : Nat) : Prop where
  success : pa ≠ 0 → pa % pageSize = 0 ∧ order < pmmMaxOrder ∧ zs (zoneOf pa) ∧
    Allocated s s' R H (blockAt pa order)
  failure : pa = 0 → s' = s ∧
    ∀ b ∈ s.freeBlocks, zs (zoneOfPfn b.start) → b.order < order

private theorem allocSpec_of_some {zs : PmmZone → Prop} (h : PmmInv s R H) (hz : zs z)
    (e : allocFromZone s z order = some (pfn, s')) : AllocSpec s s' R H zs order (pfnToPa pfn) := by
  obtain ⟨ha, hzone, ho⟩ := allocFromZone_some h e
  have hpos : 0 < pfn := ha.pfn_pos
  refine ⟨fun _ => ⟨by simp [pfnToPa], ho, ?_, by simpa [blockAt] using ha⟩, fun hc => ?_⟩
  · have : zoneOf (pfnToPa pfn) = z := hzone
    rwa [this]
  · simp only [pfnToPa, pageSize] at hc
    omega

theorem pmmAllocPagesLocked_spec (h : PmmInv s R H) (ho : order < pmmMaxOrder) :
    AllocSpec s (pmmAllocPagesLocked s order).2 R H (fun _ => True) order
      (pmmAllocPagesLocked s order).1 := by
  unfold pmmAllocPagesLocked
  rw [if_neg (by omega)]
  cases hn : allocFromZone s .normal order with
  | some r => exact allocSpec_of_some h trivial hn
  | none =>
    cases hd : allocFromZone s .dma order with
    | some r => exact allocSpec_of_some h trivial hd
    | none =>
      refine ⟨fun hc => absurd rfl hc, fun _ => ⟨rfl, fun b hb _ => ?_⟩⟩
      cases hz : zoneOfPfn b.start with
      | dma => exact allocFromZone_none h hd b hb hz
      | normal => exact allocFromZone_none h hn b hb hz

theorem pmmAllocDma_spec (h : PmmInv s R H) (order : Nat) :
    AllocSpec s (pmmAllocDma s order).2 R H (· = .dma) order (pmmAllocDma s order).1 := by
  unfold pmmAllocDma
  cases hd : allocFromZone s .dma order with
  | some r => exact allocSpec_of_some h rfl hd
  | none => exact ⟨fun hc => absurd rfl hc, fun _ => ⟨rfl, allocFromZone_none h hd⟩⟩

-- The loop keeps the block at `pfn` in hand, merging it with each free buddy it meets.
theorem coalesce_spec (n : Nat) {b : Block} (h : PmmInv s R (insert b H))
    (hH : b ∉ H) (hz : zoneOfPfn b.start = z) (hn : b.order + n = pmmMaxOrder - 1) :
    ∃ s' b', coalesce z n s b.start b.order = (s', b'.start, b'.order) ∧
      PmmInv s' R (insert b' H) ∧ b' ∉ H ∧ zoneOfPfn b'.start = z ∧
      (b'.order < pmmMaxOrder - 1 → b'.buddy ∉ s'.freeBlocks) ∧ Frame s s' := by
  induction n generalizing s b with
  | zero => exact ⟨s, b, rfl, h, hH, hz, fun hlt => by omega, Frame.refl s⟩
  | succ n ih =>
    have hba := h.heldAligned b (.inl rfl)
    have hzbud : zoneOfPfn b.buddy.start = z := by
      have hpo : b.parent.order < pmmMaxOrder := by
        simp only [Block.parent_order]
        omega
      rw [← hz, zoneOfPfn_eq b.aligned_parent hpo
          ((Block.mem_parent hba).2 (.inr b.buddy.start_mem)),
        zoneOfPfn_eq b.aligned_parent hpo ((Block.mem_parent hba).2 (.inl b.start_mem))]
    by_cases hbud : b.buddy ∈ s.freeBlocks
    · have hcount : ¬ b.buddy.start ≥ s.pfnCount := by
        have := (h.bound b.buddy.start ((h.cover _).2 (.inl ⟨_, hbud, b.buddy.start_mem⟩))).2
        omega
      have hbH : b.buddy ∉ H := fun hc =>
        h.apart _ hbud _ (.inr hc) _ b.buddy.start_mem b.buddy.start_mem
      have htake := h.take hbud
      rw [Set.insert_comm] at htake
      obtain ⟨hmerge, hpH⟩ := htake.merge (by omega) hH hbH
      have hzpar : zoneOfPfn b.parent.start = z := by
        rw [← hz]
        refine (zoneOfPfn_eq b.aligned_parent (hmerge.heldOrder _ (.inl rfl)) ?_).symm
        exact (Block.mem_parent hba).2 (.inl b.start_mem)
      obtain ⟨s', b', he, hinv, hb'H, hz', hnob, hframe⟩ :=
        ih hmerge hpH hzpar (by simp only [Block.parent_order]; omega)
      refine ⟨s', b', ?_, hinv, hb'H, hz', hnob, (withdraw_frame _ _ _ _).trans hframe⟩
      have hfl : ¬ ((s.pfnTable b.buddy.start).free = false ∨
          (s.pfnTable b.buddy.start).order ≠ b.order) := by
        simp [hbud.1, hbud.2]
      have hzz : ¬ zoneOf (pfnToPa b.buddy.start) ≠ z := fun hc => hc hzbud
      rw [← he, ← Block.min_start_buddy hba, ← hzbud]
      rw [← hzbud] at hzz
      show coalesce _ (n + 1) s b.start b.order = _
      exact (if_neg hcount).trans ((if_neg hfl).trans (if_neg hzz))
    · refine ⟨s, b, ?_, h, hH, hz, fun _ => hbud, Frame.refl s⟩
      have hfl : (s.pfnTable b.buddy.start).free = false ∨
          (s.pfnTable b.buddy.start).order ≠ b.order := by
        by_contra hc
        push Not at hc
        exact hbud ⟨by simpa using hc.1, hc.2⟩
      show coalesce z (n + 1) s b.start b.order = _
      by_cases hcount : b.buddy.start ≥ s.pfnCount
      · exact if_pos hcount
      · exact (if_neg hcount).trans (if_pos hfl)

theorem pmmFreePagesLocked_spec (h : PmmInv s R (insert (blockAt pa order) H))
    (hH : blockAt pa order ∉ H) (hpa : pa % pageSize = 0) :
    PmmInv (pmmFreePagesLocked s pa order) R H ∧ Frame s (pmmFreePagesLocked s pa order) := by
  have ho : order < pmmMaxOrder := h.heldOrder _ (.inl rfl)
  have hz : zoneOfPfn (blockAt pa order).start = zoneOf pa := by
    have : pfnToPa (paToPfn pa) = pa := by
      simp only [pfnToPa, paToPfn, pageSize] at hpa ⊢
      omega
    simp [zoneOfPfn, blockAt, this]
  obtain ⟨s', b', he, hinv, hb'H, hz', hnob, hframe⟩ :=
    coalesce_spec (pmmMaxOrder - 1 - order) h hH hz (by simp only [blockAt]; omega)
  have hgive := hinv.give hb'H hnob
  have heq : pmmFreePagesLocked s pa order = publish s' (zoneOf pa) b'.order b'.start := by
    have he' : coalesce (zoneOf pa) (pmmMaxOrder - 1 - order) s (paToPfn pa) order =
        (s', b'.start, b'.order) := he
    simp only [pmmFreePagesLocked, he']
    rfl
  rw [heq, ← hz']
  exact ⟨hgive, hframe.trans (publish_frame _ _ _ _)⟩

end Jnu.Pmm
