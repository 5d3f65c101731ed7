import Jnu.Pmm.Init

open Jnu.Lib.Dyadic

namespace Jnu.Pmm

open PmmState

variable {s s' : Phys} {R : Set Nat} {H H' : Set Block} {p' : PmmState}
variable {p : PmmState} {pa order pfn : Nat}

theorem PmmInv.covers_free_iff (h : PmmInv p R H) (n : Nat) :
    Covers p.freeBlocks n ↔ n ∈ R ∧ ¬ Covers H n := by
  rw [h.cover]
  constructor
  · rintro ⟨b, hb, hn⟩
    exact ⟨.inl ⟨b, hb, hn⟩, fun ⟨c, hc, hnc⟩ => h.apart b hb c hc n hn hnc⟩
  · rintro ⟨hn | hn, hnot⟩
    · exact hn
    · exact absurd hn hnot

theorem PhysInv.alloc {b : Block} (h : PhysInv s R H)
    (ha : Allocated s.pmm p R H b) : PhysInv { s with pmm := p } R (insert b H) := by
  refine ⟨ha.inv, fun n hn => h.zero n ?_⟩
  rw [ha.inv.covers_free_iff] at hn
  rw [h.inv.covers_free_iff]
  exact ⟨hn.1, fun ⟨c, hc, hnc⟩ => hn.2 ⟨c, .inr hc, hnc⟩⟩

theorem pmmFreeValidateLocked_ok (h : PmmInv p R H) (hb : blockAt pa order ∈ H) (hpa : pa % pageSize = 0) :
    pmmFreeValidateLocked p pa order = .ok () := by
  have hal := h.heldAligned _ hb
  have ho : order < pmmMaxOrder := h.heldOrder _ hb
  have hbound := (h.bound (paToPfn pa) ((h.cover _).2 (.inr ⟨_, hb, Block.start_mem _⟩))).2
  have hfree : (p.pfnTable (paToPfn pa)).free = false := h.free_false hb (Block.start_mem _)
  have hmis : pa % 2 ^ (12 + order) = 0 := by
    obtain ⟨k, hk⟩ : 2 ^ order ∣ pa / pageSize := hal
    have : pa = 2 ^ (12 + order) * k := by
      rw [Nat.pow_add, Nat.mul_assoc, ← hk]
      simp only [pageSize] at hpa ⊢
      omega
    rw [this, Nat.mul_mod_right]
  simp [pmmFreeValidateLocked, hmis, hfree, Nat.not_le.2 ho, Nat.not_le.2 hbound]

theorem pfnToPa_paToPfn (hpa : pa % pageSize = 0) : pfnToPa (paToPfn pa) = pa := by
  simp only [pfnToPa, paToPfn, pageSize] at hpa ⊢
  omega

theorem pmmFreePages_spec (h : PhysInv s R (insert (blockAt pa order) H))
    (hH : blockAt pa order ∉ H) (hpa : pa % pageSize = 0) :
    ∃ s', pmmFreePages s pa order = .ok s' ∧ PhysInv s' R H ∧ Frame s.pmm s'.pmm ∧
      (∀ w, s'.mem w = if w / 512 ∈ blockAt pa order then 0 else s.mem w) := by
  obtain ⟨hinv, hframe⟩ := pmmFreePagesLocked_spec h.inv hH hpa
  have hval := pmmFreeValidateLocked_ok h.inv (.inl rfl) hpa
  have hmem : ∀ w, memsetZero s.mem pa (pmmOrderSize order) w =
      if w / 512 ∈ blockAt pa order then 0 else s.mem w := by
    intro w
    have := memsetZero_block s.mem (blockAt pa order) w
    rwa [show pfnToPa (blockAt pa order).start = pa from pfnToPa_paToPfn hpa] at this
  refine ⟨⟨pmmFreePagesLocked s.pmm pa order, memsetZero s.mem pa (pmmOrderSize order)⟩, ?_,
    ⟨hinv, ?_⟩, hframe, hmem⟩
  · simp only [pmmFreePages, hval]
    rfl
  rintro n hn w rfl
  show memsetZero s.mem pa (pmmOrderSize order) w = 0
  rw [hmem]
  by_cases hw : w / 512 ∈ blockAt pa order
  · rw [if_pos hw]
  rw [if_neg hw]
  refine h.zero (w / 512) ?_ w rfl
  rw [hinv.covers_free_iff] at hn
  rw [h.inv.covers_free_iff]
  refine ⟨hn.1, ?_⟩
  rintro ⟨c, rfl | hc, hnc⟩
  · exact hw hnc
  · exact hn.2 ⟨c, hc, hnc⟩

theorem PhysInv.modify (h : PhysInv s R H) {f : PmmPfn → PmmPfn}
    (hpfn : (s.pmm.pfnTable pfn).free = false) (hf : ∀ e, e.free = false → (f e).free = false)
    (hnext : ∀ e, (f e).next = e.next) (hprev : ∀ e, (f e).prev = e.prev) :
    PhysInv { s with pmm := s.pmm.modify pfn f } R H := by
  have hinv := h.inv.modify hpfn hf hnext hprev
  refine ⟨hinv, fun n hn => h.zero n ?_⟩
  rw [hinv.covers_free_iff] at hn
  rwa [h.inv.covers_free_iff]

theorem pmmAllocPages_phys (h : PhysInv s R H)
    (ho : order < pmmMaxOrder) (e : pmmAllocPages s.pmm order = (pa, p)) (hpa : pa ≠ 0) :
    PhysInv { s with pmm := p } R (insert (blockAt pa order) H) ∧ blockAt pa order ∉ H ∧
      pa % pageSize = 0 ∧ Frame s.pmm p ∧ (∀ n ∈ blockAt pa order, PageZero s.mem n) := by
  have hspec := pmmAllocPagesLocked_spec h.inv ho
  rw [show pmmAllocPagesLocked s.pmm order = (pa, p) from e] at hspec
  obtain ⟨hal, -, -, ha⟩ := hspec.success hpa
  exact ⟨h.alloc ha, ha.fresh, hal, ha.frame, fun n hn => h.zero n (ha.wasFree n hn)⟩

theorem pmmAllocUserPage_phys (h : PhysInv s R H) (e : pmmAllocUserPage s.pmm = (pa, p)) (hpa : pa ≠ 0) :
    PhysInv { s with pmm := p } R (insert (blockAt pa 0) H) ∧ blockAt pa 0 ∉ H ∧
      pa % pageSize = 0 ∧ p.pfnCount = s.pmm.pfnCount ∧ p.mmZeroPage = s.pmm.mmZeroPage ∧
      (∀ i, (p.pfnTable i).refcount =
        if i = paToPfn pa then 1 else (s.pmm.pfnTable i).refcount) ∧
      (∀ n ∈ blockAt pa 0, PageZero s.mem n) := by
  cases hr : pmmAllocPages s.pmm 0 with
  | mk pa' p' =>
    have he : pmmAllocUserPage s.pmm = if pa' ≠ 0 then
        (pa', p'.modify (paToPfn pa') fun e => { e with refcount := 1 }) else (pa', p') := by
      simp only [pmmAllocUserPage]
      rw [show pmmAllocPagesLocked s.pmm 0 = (pa', p') from hr]
    rw [he] at e
    have hpa' : pa' ≠ 0 := by
      intro hc
      simp only [hc, ne_eq, not_true_eq_false, if_false, Prod.mk.injEq] at e
      exact hpa e.1.symm
    rw [if_pos hpa', Prod.mk.injEq] at e
    obtain ⟨rfl, rfl⟩ := e
    obtain ⟨hphys, hH, hal, hframe, hz⟩ := pmmAllocPages_phys h (by decide) hr hpa'
    have hfree := hphys.inv.free_false (.inl rfl) (Block.start_mem (blockAt pa' 0))
    refine ⟨hphys.modify hfree (fun _ hf => hf) (fun _ => rfl) (fun _ => rfl), hH, hal,
      hframe.pfnCount, hframe.mmZeroPage, fun i => ?_, hz⟩
    rw [pfnTable_modify]
    split
    · rfl
    · exact hframe.refcount i

theorem pmmAllocUserPage_none (h : PhysInv s R H)
    (e : pmmAllocUserPage s.pmm = (0, p)) : p = s.pmm ∧ s.pmm.freeBlocks = ∅ := by
  have hspec := pmmAllocPagesLocked_spec h.inv (show 0 < pmmMaxOrder by decide)
  simp only [pmmAllocUserPage] at e
  split at e
  · rename_i hne
    simp only [Prod.mk.injEq] at e
    exact absurd e.1 hne
  rename_i heq
  have hzero : (pmmAllocPagesLocked s.pmm 0).1 = 0 := by simpa using heq
  obtain ⟨hsame, hno⟩ := hspec.failure hzero
  simp only [Prod.mk.injEq] at e
  refine ⟨e.2.symm.trans hsame, Set.eq_empty_iff_forall_notMem.2 fun b hb => ?_⟩
  have := hno b hb trivial
  omega

def heldAfter (H : Set Block) (pa order : Nat) : Set Block :=
  {b | b ∈ H ∨ (pa ≠ 0 ∧ b = blockAt pa order)}

theorem heldAfter_zero (H : Set Block) (order : Nat) : heldAfter H 0 order = H := by
  simp [heldAfter]

theorem heldAfter_ne (H : Set Block) (hpa : pa ≠ 0) (order : Nat) :
    heldAfter H pa order = insert (blockAt pa order) H := by
  ext b
  simp [heldAfter, hpa, or_comm]

theorem PhysInv.allocated {zs : PmmZone → Prop} (h : PhysInv s R H)
    (hspec : AllocSpec s.pmm p R H zs order pa) : PhysInv { s with pmm := p } R (heldAfter H pa order) := by
  by_cases hpa : pa = 0
  · rw [hpa, heldAfter_zero, (hspec.failure hpa).1]
    exact h
  · obtain ⟨-, -, -, ha⟩ := hspec.success hpa
    rw [heldAfter_ne H hpa]
    exact h.alloc ha

-- One call of the allocator, by callers that free what they hold at its order.
inductive Step : Phys → Set Block → Phys → Set Block → Prop
  | allocPages {s : Phys} {H : Set Block} (order pa : Nat) (p : PmmState)
      (ho : order < pmmMaxOrder) (e : pmmAllocPages s.pmm order = (pa, p)) :
      Step s H { s with pmm := p } (heldAfter H pa order)
  | allocUserPage {s : Phys} {H : Set Block} (pa : Nat) (p : PmmState)
      (e : pmmAllocUserPage s.pmm = (pa, p)) : Step s H { s with pmm := p } (heldAfter H pa 0)
  | allocDma {s : Phys} {H : Set Block} (order pa : Nat) (p : PmmState)
      (ho : order < pmmMaxOrder) (e : pmmAllocDma s.pmm order = (pa, p)) :
      Step s H { s with pmm := p } (heldAfter H pa order)
  | freePages {s s' : Phys} {H : Set Block} (pa order : Nat) (hb : blockAt pa order ∈ H)
      (hpa : pa % pageSize = 0) (e : pmmFreePages s pa order = .ok s') :
      Step s H s' (H \ {blockAt pa order})
  | getUserPage {s : Phys} {H : Set Block} (pa : Nat) (p : PmmState) (hb : blockAt pa 0 ∈ H)
      (e : pmmGetUserPage s.pmm pa = .ok p) : Step s H { s with pmm := p } H
  | putUserPage {s s' : Phys} {H : Set Block} (pa : Nat) (hb : blockAt pa 0 ∈ H)
      (hpa : pa % pageSize = 0) (e : pmmPutUserPage s pa = .ok s') :
      Step s H s' {b | b ∈ H ∧ ¬ (b = blockAt pa 0 ∧ pmmUserRefcount s.pmm pa = 1)}

inductive Run : Phys → Set Block → Phys → Set Block → Prop
  | refl {s : Phys} {H : Set Block} : Run s H s H
  | step {s s' s'' : Phys} {H H' H'' : Set Block} :
      Run s H s' H' → Step s' H' s'' H'' → Run s H s'' H''

theorem pmmGetUserPage_ok (e : pmmGetUserPage p pa = .ok p') :
    (p.pfnTable (paToPfn pa)).free = false ∧ 0 < (p.pfnTable (paToPfn pa)).refcount ∧
      p' = p.modify (paToPfn pa) fun e => { e with refcount := e.refcount + 1 } := by
  simp only [pmmGetUserPage] at e
  split at e
  · cases e
  split at e
  · cases e
  split at e
  · cases e
  split at e
  · cases e
  split at e
  · cases e
  · rename_i _ _ h3 h4 _
    simp only [Except.ok.injEq] at e
    exact ⟨by simpa using h3, Nat.pos_of_ne_zero h4, e.symm⟩

theorem putUserPageLocked_ok {doFree : Bool} (e : putUserPageLocked p pa = .ok (doFree, p')) :
    paToPfn pa < p.pfnCount ∧ pa ≠ p.mmZeroPage ∧ 0 < (p.pfnTable (paToPfn pa)).refcount ∧
      doFree = decide ((p.pfnTable (paToPfn pa)).refcount = 1) ∧
      p' = p.modify (paToPfn pa) fun e => { e with refcount := e.refcount - 1 } := by
  simp only [putUserPageLocked] at e
  split at e
  · cases e
  split at e
  · cases e
  split at e
  · cases e
  split at e
  · cases e
  rename_i hz h2 _ h4
  simp only [Except.ok.injEq, Prod.mk.injEq] at e
  refine ⟨by omega, hz, by omega, ?_, e.2.symm⟩
  rw [← e.1]
  have : (p.pfnTable (paToPfn pa)).refcount - 1 = 0 ↔
      (p.pfnTable (paToPfn pa)).refcount = 1 := by omega
  simp [this]

section

variable (h : PhysInv s R (insert (blockAt pa 0) H)) (hH : blockAt pa 0 ∉ H) (hpa : pa % pageSize = 0)
include h hH hpa

theorem pmmPutUserPage_held (hz : pa ≠ s.pmm.mmZeroPage) (href : 0 < (s.pmm.pfnTable (paToPfn pa)).refcount) :
    ∃ s', pmmPutUserPage s pa = .ok s' ∧
      PhysInv s' R (if (s.pmm.pfnTable (paToPfn pa)).refcount = 1 then H
        else insert (blockAt pa 0) H) ∧
      s'.pmm.pfnCount = s.pmm.pfnCount ∧ s'.pmm.mmZeroPage = s.pmm.mmZeroPage ∧
      (∀ i, (s'.pmm.pfnTable i).refcount = if i = paToPfn pa
        then (s.pmm.pfnTable i).refcount - 1 else (s.pmm.pfnTable i).refcount) ∧
      (∀ w, s'.mem w = if (s.pmm.pfnTable (paToPfn pa)).refcount = 1 ∧ w / 512 = paToPfn pa
        then 0 else s.mem w) := by
  set r := (s.pmm.pfnTable (paToPfn pa)).refcount with hr
  set p := s.pmm.modify (paToPfn pa) fun e => { e with refcount := e.refcount - 1 } with hp
  have hfree : (s.pmm.pfnTable (paToPfn pa)).free = false :=
    h.inv.free_false (.inl rfl) (Block.start_mem _)
  have hbound : paToPfn pa < s.pmm.pfnCount :=
    (h.inv.bound _ ((h.inv.cover _).2 (.inr ⟨_, .inl rfl, Block.start_mem (blockAt pa 0)⟩))).2
  have hmod : PhysInv { s with pmm := p } R (insert (blockAt pa 0) H) :=
    h.modify hfree (fun _ hf => hf) (fun _ => rfl) (fun _ => rfl)
  have hcount : ∀ i, (p.pfnTable i).refcount = if i = paToPfn pa
      then (s.pmm.pfnTable i).refcount - 1 else (s.pmm.pfnTable i).refcount := by
    intro i
    rw [hp, pfnTable_modify]
    by_cases hi : i = paToPfn pa
    · rw [if_pos hi, if_pos hi, hi]
    · rw [if_neg hi, if_neg hi]
  have hlocked : putUserPageLocked s.pmm pa = .ok (decide (r - 1 = 0), p) := by
    unfold putUserPageLocked
    rw [if_neg hz, if_neg (by omega), hfree, if_neg (by simp), if_neg (by omega)]
  have hput : pmmPutUserPage s pa = if r - 1 = 0 then pmmFreePages { s with pmm := p } pa 0
      else .ok { s with pmm := p } := by
    unfold pmmPutUserPage
    rw [hlocked]
    by_cases h0 : r - 1 = 0 <;> simp [h0, bind, Except.bind, pure, Except.pure]
  have hpage : ∀ n, n ∈ blockAt pa 0 ↔ n = paToPfn pa := by
    intro n
    simp only [Block.mem_def, blockAt, Nat.pow_zero]
    omega
  by_cases hone : r = 1
  · obtain ⟨s', hs', hphys, hframe, hmem⟩ := pmmFreePages_spec hmod hH hpa
    refine ⟨s', by rw [hput, if_pos (by omega), hs'], by rwa [if_pos hone], hframe.pfnCount,
      hframe.mmZeroPage, fun i => (hframe.refcount i).trans (hcount i), fun w => ?_⟩
    rw [hmem]
    by_cases hw : w / 512 = paToPfn pa
    · rw [if_pos ((hpage _).2 hw), if_pos ⟨hone, hw⟩]
    · rw [if_neg (fun hc => hw ((hpage _).1 hc)), if_neg (fun hc => hw hc.2)]
  · refine ⟨{ s with pmm := p }, by rw [hput, if_neg (by omega)], by rwa [if_neg hone], rfl, rfl,
      hcount, fun w => ?_⟩
    rw [if_neg (fun hc => hone hc.1)]

theorem pmmPutUserPage_spec (e : pmmPutUserPage s pa = .ok s') :
    (pmmUserRefcount s.pmm pa = 1 → PhysInv s' R H) ∧
      (pmmUserRefcount s.pmm pa ≠ 1 → PhysInv s' R (insert (blockAt pa 0) H)) := by
  cases hl : putUserPageLocked s.pmm pa with
  | error err =>
    rw [pmmPutUserPage, hl] at e
    cases e
  | ok r =>
    obtain ⟨hcount, hz, hpos, -, -⟩ := putUserPageLocked_ok hl
    obtain ⟨s'', hs'', hphys, -⟩ := pmmPutUserPage_held h hH hpa hz hpos
    cases e.symm.trans hs''
    rw [show pmmUserRefcount s.pmm pa = _ from if_neg (Nat.not_le.2 hcount)]
    constructor
    · intro hone
      rwa [if_pos hone] at hphys
    · intro hne
      rwa [if_neg hne] at hphys

end

theorem Step.phys (h : PhysInv s R H) (hstep : Step s H s' H') : PhysInv s' R H' := by
  cases hstep with
  | allocPages order pa p ho e =>
    have hspec := pmmAllocPagesLocked_spec h.inv ho
    rw [show pmmAllocPagesLocked s.pmm order = (pa, p) from e] at hspec
    exact h.allocated hspec
  | allocUserPage pa p e =>
    by_cases hpa : pa = 0
    · subst hpa
      rw [heldAfter_zero, (pmmAllocUserPage_none h e).1]
      exact h
    · rw [heldAfter_ne H hpa]
      exact (pmmAllocUserPage_phys h e hpa).1
  | allocDma order pa p ho e =>
    have hspec := pmmAllocDma_spec h.inv order
    rw [e] at hspec
    exact h.allocated hspec
  | freePages pa order hb hpa e =>
    have hins : insert (blockAt pa order) (H \ {blockAt pa order}) = H := by
      rw [Set.insert_sdiff_self_of_mem hb]
    rw [← hins] at h
    obtain ⟨s'', hs'', hphys, -, -⟩ := pmmFreePages_spec h (by simp) hpa
    rw [hs''] at e
    cases e
    exact hphys
  | getUserPage pa p hb e =>
    obtain ⟨hfree, -, rfl⟩ := pmmGetUserPage_ok e
    exact h.modify hfree (fun _ hf => hf) (fun _ => rfl) (fun _ => rfl)
  | putUserPage pa hb hpa e =>
    have hins : insert (blockAt pa 0) (H \ {blockAt pa 0}) = H := by
      rw [Set.insert_sdiff_self_of_mem hb]
    rw [← hins] at h
    obtain ⟨hone, hne⟩ := pmmPutUserPage_spec h (by simp) hpa e
    by_cases hc : pmmUserRefcount s.pmm pa = 1
    · have hset : {b | b ∈ H ∧ ¬ (b = blockAt pa 0 ∧ pmmUserRefcount s.pmm pa = 1)} =
          H \ {blockAt pa 0} := by
        ext b
        simp [hc]
      rw [hset]
      exact hone hc
    · have hset : {b | b ∈ H ∧ ¬ (b = blockAt pa 0 ∧ pmmUserRefcount s.pmm pa = 1)} = H := by
        ext b
        simp [hc]
      rw [hset, ← hins]
      exact hne hc

theorem Run.phys (h : PhysInv s R H) (hrun : Run s H s' H') : PhysInv s' R H' := by
  induction hrun with
  | refl => exact h
  | step _ hstep ih => exact hstep.phys (ih h)

end Jnu.Pmm
