import Jnu.Pmm.Run

open Jnu.Lib.Chain Jnu.Lib.Dyadic

namespace Jnu.Pmm

open PmmState

variable {s s' : PmmState} {L : PmmZone → Nat → List Nat} {R R' : Set Nat} {H held H' : Set Block}

def listedBlocks (L : PmmZone → Nat → List Nat) : Set Block :=
  {b | b.order < pmmMaxOrder ∧ ∃ z, b.start ∈ L z b.order}

-- The buddy allocator over the pages `R` with the blocks `held` in use: `L z o` are the heads on
-- `free_list_head[z][o]`.
structure BuddyRep (s : PmmState) (R : Set Nat) (held : Set Block)
    (L : PmmZone → Nat → List Nat) : Prop where
  wellFormed : ∀ z o, o < pmmMaxOrder →
    Linked s.links none (s.freeListHead z o) (L z o) ∧ (L z o).Nodup
  free_iff : ∀ pfn, (s.pfnTable pfn).free = true ↔
    (s.pfnTable pfn).order < pmmMaxOrder ∧
      pfn ∈ L (zoneOf (pfnToPa pfn)) (s.pfnTable pfn).order
  listed : ∀ z o pfn, o < pmmMaxOrder → pfn ∈ L z o →
    (s.pfnTable pfn).order = o ∧ 2 ^ o ∣ pfn ∧
      ∀ n, pfn ≤ n → n < pfn + 2 ^ o → zoneOf (pfnToPa n) = z ∧ n ∈ R
  disjoint : ∀ b ∈ listedBlocks L ∪ held, ∀ c ∈ listedBlocks L ∪ held, b ≠ c → ∀ n ∈ b, n ∉ c
  notHeld : ∀ b ∈ listedBlocks L, b ∉ held
  cover : ∀ n, n ∈ R ↔ Covers (listedBlocks L ∪ held) n
  freeByOrder : ∀ o, o < pmmMaxOrder →
    s.stats.freeByOrder o = (L .dma o).length + (L .normal o).length
  zoneFree : ∀ z, s.stats.zoneFree z = ∑ o ∈ Finset.range pmmMaxOrder, (L z o).length * 2 ^ o
  freePages : s.stats.freePages =
    ∑ o ∈ Finset.range pmmMaxOrder, ((L .dma o).length + (L .normal o).length) * 2 ^ o

theorem Lists.listedBlocks_eq (h : Lists s L) : listedBlocks L = s.freeBlocks := by
  ext b
  constructor
  · rintro ⟨ho, z, hb⟩
    exact ((h.mem_iff z b.order b.start ho).1 hb).1
  · intro hb
    have ho := h.order_lt b hb
    exact ⟨ho, zoneOfPfn b.start, (h.mem_iff _ _ _ ho).2 ⟨hb, rfl⟩⟩

theorem PmmInv.buddyRep (h : PmmInv s R H) (hL : Lists s L) : BuddyRep s R H L := by
  have hlisted := hL.listedBlocks_eq
  refine ⟨fun z o ho => ⟨hL.linked z o ho, hL.nodup z o ho⟩, ?_, ?_, ?_, ?_, ?_,
    hL.freeByOrder, hL.zoneFree, ?_⟩
  · intro pfn
    constructor
    · intro hf
      have hb : (⟨pfn, (s.pfnTable pfn).order⟩ : Block) ∈ s.freeBlocks := ⟨hf, rfl⟩
      have ho := hL.order_lt _ hb
      exact ⟨ho, (hL.mem_iff _ _ _ ho).2 ⟨hb, rfl⟩⟩
    · rintro ⟨ho, hmem⟩
      exact ((hL.mem_iff _ _ _ ho).1 hmem).1.1
  · intro z o pfn ho hmem
    obtain ⟨hb, hz⟩ := (hL.mem_iff z o pfn ho).1 hmem
    have hal := h.canonical.aligned _ hb
    refine ⟨hb.2, hal, fun n h1 h2 => ?_⟩
    have hn : n ∈ (⟨pfn, o⟩ : Block) := ⟨h1, h2⟩
    exact ⟨(zoneOfPfn_eq hal ho hn).trans hz, (h.cover n).2 (.inl ⟨_, hb, hn⟩)⟩
  · rw [hlisted]
    rintro b (hb | hb) c (hc | hc) hne n hnb hnc
    · exact hne (h.canonical.disjoint b hb c hc n hnb hnc)
    · exact h.apart b hb c hc n hnb hnc
    · exact h.apart c hc b hb n hnc hnb
    · exact hne (h.heldDisjoint b hb c hc n hnb hnc)
  · rw [hlisted]
    exact fun b hb hH => h.apart b hb b hH _ b.start_mem b.start_mem
  · intro n
    rw [h.cover, hlisted]
    constructor
    · rintro (⟨b, hb, hn⟩ | ⟨b, hb, hn⟩)
      · exact ⟨b, .inl hb, hn⟩
      · exact ⟨b, .inr hb, hn⟩
    · rintro ⟨b, hb | hb, hn⟩
      · exact .inl ⟨b, hb, hn⟩
      · exact .inr ⟨b, hb, hn⟩
  · rw [hL.freePages, hL.zoneFree, hL.zoneFree, ← Finset.sum_add_distrib]
    exact Finset.sum_congr rfl fun o _ => (Nat.add_mul _ _ _).symm

-- An allocator that fails finds the lists of its zones empty from the order it wants on.
private theorem lists_nil (hL : Lists s L) (zs : PmmZone → Prop) {k : Nat}
    (hno : ∀ b ∈ s.freeBlocks, zs (zoneOfPfn b.start) → b.order < k) {z : PmmZone} (hz : zs z) {o : Nat}
    (hk : k ≤ o) (ho : o < pmmMaxOrder) : L z o = [] := by
  rw [List.eq_nil_iff_forall_not_mem]
  intro pfn hmem
  obtain ⟨hb, hzb⟩ := (hL.mem_iff z o pfn ho).1 hmem
  have : o < k := hno _ hb (hzb ▸ hz)
  omega

-- Reachable states of the allocator, from `pmm_init` on; the zero page is held from the start.
def Reachable (mm : List MemmapEntry) (mem : Mem) (s : Phys) (held : Set Block) : Prop :=
  ∃ s₀, pmmInit (some mm) mem = .ok s₀ ∧ Run s₀ {blockAt s₀.pmm.mmZeroPage 0} s held

theorem Reachable.phys {mm : List MemmapEntry} {mem : Mem} {s : Phys} (hmm : MemmapOk mm)
    (h : Reachable mm mem s held) : PhysInv s (registeredPages mm) held := by
  obtain ⟨s0, hinit, hrun⟩ := h
  exact hrun.phys (pmmInit_spec hmm hinit).phys

theorem pmm_representation {mm : List MemmapEntry} {mem : Mem} {s : Phys} {held : Set Block}
    (hmm : MemmapOk mm) (hreach : Reachable mm mem s held) :
    ∃ L, BuddyRep s.pmm (registeredPages mm) held L ∧
      (∀ k, k < pmmMaxOrder → (pmmAllocPages s.pmm k).1 = 0 →
        ∀ z o, k ≤ o → o < pmmMaxOrder → L z o = []) ∧
      ((pmmAllocUserPage s.pmm).1 = 0 → ∀ z o, o < pmmMaxOrder → L z o = []) ∧
      (∀ k, k < pmmMaxOrder → (pmmAllocDma s.pmm k).1 = 0 →
        ∀ o, k ≤ o → o < pmmMaxOrder → L .dma o = []) := by
  have hphys := hreach.phys hmm
  obtain ⟨L, hL⟩ := hphys.inv.lists
  refine ⟨L, hphys.inv.buddyRep hL, ?_, ?_, ?_⟩
  · intro k hk hzero z o hko ho
    obtain ⟨-, hno⟩ := (pmmAllocPagesLocked_spec hphys.inv hk).failure hzero
    exact lists_nil hL (fun _ => True) hno trivial hko ho
  · intro hzero z o ho
    have hsplit : pmmAllocUserPage s.pmm = (0, (pmmAllocUserPage s.pmm).2) :=
      Prod.ext hzero rfl
    obtain ⟨-, hempty⟩ := pmmAllocUserPage_none hphys hsplit
    exact lists_nil hL (fun _ => True) (by simp [hempty]) trivial (Nat.zero_le o) ho
  · intro k hk hzero o hko ho
    obtain ⟨-, hno⟩ := (pmmAllocDma_spec hphys.inv k).failure hzero
    exact lists_nil hL (· = .dma) hno rfl hko ho

-- A machine with sixteen usable pages at 1 MiB and leftover data in all of them.
def smallMap : List MemmapEntry := [⟨0x100000, 0x10000, true⟩]

theorem smallMap_ok : MemmapOk smallMap := by
  refine ⟨?_, ?_, ?_, ?_⟩ <;> simp [smallMap, pageSize]

theorem smallMap_state (p : Phys → Bool)
    (hok : (match pmmInit (some smallMap) (fun _ => 7) with | .ok s => p s | .error _ => false) = true) :
    ∃ s, pmmInit (some smallMap) (fun _ => 7) = .ok s ∧ p s = true := by
  cases h : pmmInit (some smallMap) (fun _ => 7) with
  | ok s =>
    rw [h] at hok
    exact ⟨s, rfl, hok⟩
  | error e =>
    rw [h] at hok
    cases hok

theorem smallMap_boots : ∃ s, pmmInit (some smallMap) (fun _ => 7) = .ok s ∧
    (pmmAllocPages s.pmm 2).1 ≠ 0 := by
  simpa using smallMap_state (fun s => decide ((pmmAllocPages s.pmm 2).1 ≠ 0)) (by decide +kernel)

theorem pmm_representation_smallMap :
    ∃ s held L, Reachable smallMap (fun _ => 7) s held ∧ (∃ pa, blockAt pa 2 ∈ held) ∧
      BuddyRep s.pmm (registeredPages smallMap) held L := by
  obtain ⟨s, hs, hpa⟩ := smallMap_boots
  have hreach : Reachable smallMap (fun _ => 7) _ _ :=
    ⟨s, hs, .step .refl (.allocPages 2 (pmmAllocPages s.pmm 2).1 _ (by decide) rfl)⟩
  obtain ⟨L, hL, -⟩ := pmm_representation smallMap_ok hreach
  exact ⟨_, _, L, hreach, ⟨(pmmAllocPages s.pmm 2).1, .inr ⟨hpa, rfl⟩⟩, hL⟩

def freeAll : Phys → List Block → Except Panic Phys
  | s, [] => .ok s
  | s, b :: bs => do
      let s ← pmmFreePages s (pfnToPa b.start) b.order
      freeAll s bs

theorem freeAll_spec (bs : List Block) {s : Phys} (h : PhysInv s R ({b | b ∈ bs} ∪ H)) (hnd : bs.Nodup)
    (hH : ∀ b ∈ bs, b ∉ H) : ∃ s', freeAll s bs = .ok s' ∧ PhysInv s' R H := by
  induction bs generalizing s with
  | nil => exact ⟨s, rfl, by simpa using h⟩
  | cons b bs ih =>
    obtain ⟨hb, hnd'⟩ := List.nodup_cons.1 hnd
    have hblock : blockAt (pfnToPa b.start) b.order = b := by simp [blockAt]
    have hset : {c | c ∈ b :: bs} ∪ H =
        insert (blockAt (pfnToPa b.start) b.order) ({c | c ∈ bs} ∪ H) := by
      rw [hblock]
      ext c
      simp [or_assoc]
    rw [hset] at h
    obtain ⟨s1, hs1, hphys, -, -⟩ := pmmFreePages_spec h (by
      rw [hblock]
      rintro (hc | hc)
      · exact hb hc
      · exact hH b (.head _) hc) (by simp [pfnToPa])
    obtain ⟨s', hs', hres⟩ := ih hphys hnd' (fun c hc => hH c (.tail _ hc))
    exact ⟨s', by simp [freeAll, hs1, bind, Except.bind, hs'], hres⟩

theorem PmmInv.freeBlocks_eq (h : PmmInv s R H) (h' : PmmInv s' R' H')
    (hcov : ∀ n, Covers s.freeBlocks n ↔ Covers s'.freeBlocks n) : s.freeBlocks = s'.freeBlocks :=
  h.canonical.eq_of_covers_iff h'.canonical hcov

theorem pmm_canonical {mm : List MemmapEntry} {mem : Mem} {s : Phys} {held : Set Block}
    (hmm : MemmapOk mm) (hreach : Reachable mm mem s held) :
    (∀ pfn o, o < pmmMaxOrder - 1 → zoneOf (pfnToPa pfn) = zoneOf (pfnToPa (buddyPfn pfn o)) →
      ¬ ((⟨pfn, o⟩ : Block) ∈ s.pmm.freeBlocks ∧
        (⟨buddyPfn pfn o, o⟩ : Block) ∈ s.pmm.freeBlocks)) ∧
    (∀ mm' mem' s' held', MemmapOk mm' → Reachable mm' mem' s' held' →
      (∀ n, Covers s.pmm.freeBlocks n ↔ Covers s'.pmm.freeBlocks n) →
      s'.pmm.freeBlocks = s.pmm.freeBlocks) ∧
    (∀ s' held', Run s held s' held' → held ⊆ held' →
      ∀ bs : List Block, bs.Nodup → (∀ b, b ∈ bs ↔ b ∈ held' ∧ b ∉ held) →
      ∃ s'', freeAll s' bs = .ok s'' ∧ s''.pmm.freeBlocks = s.pmm.freeBlocks) := by
  have hphys := hreach.phys hmm
  refine ⟨?_, ?_, ?_⟩
  · rintro pfn o ho - ⟨hb, hbud⟩
    exact hphys.inv.canonical.noBuddies _ hb ho hbud
  · intro mm' mem' s' held' hmm' hreach' hcov
    exact (hphys.inv.freeBlocks_eq (hreach'.phys hmm').inv hcov).symm
  intro s' held' hrun hsub bs hnd hbs
  have hphys' := hrun.phys hphys
  have hset : {b | b ∈ bs} ∪ held = held' := by
    ext b
    simp only [Set.mem_union, Set.mem_ofPred_eq, hbs]
    constructor
    · rintro (hb | hb)
      · exact hb.1
      · exact hsub hb
    · intro hb
      by_cases hh : b ∈ held
      · exact .inr hh
      · exact .inl ⟨hb, hh⟩
  rw [← hset] at hphys'
  obtain ⟨s'', hs'', hres⟩ := freeAll_spec bs hphys' hnd (fun b hb => ((hbs b).1 hb).2)
  refine ⟨s'', hs'', hres.inv.freeBlocks_eq hphys.inv fun n => ?_⟩
  rw [hres.inv.covers_free_iff, hphys.inv.covers_free_iff]

theorem pmm_canonical_smallMap :
    ∃ s s' : Phys, ∃ pa, pa ≠ 0 ∧ (pmmAllocPages s.pmm 2).1 = pa ∧
      freeAll { s with pmm := (pmmAllocPages s.pmm 2).2 } [blockAt pa 2] = .ok s' ∧
      s'.pmm.freeBlocks = s.pmm.freeBlocks := by
  obtain ⟨s, hs, hpa⟩ := smallMap_boots
  set pa := (pmmAllocPages s.pmm 2).1 with hpadef
  obtain ⟨-, -, hfree⟩ := pmm_canonical smallMap_ok (⟨s, hs, .refl⟩ : Reachable _ _ s _)
  have hstep := Run.step (.refl (s := s) (H := {blockAt s.pmm.mmZeroPage 0}))
    (.allocPages 2 pa (pmmAllocPages s.pmm 2).2 (by decide) rfl)
  have hnot : blockAt pa 2 ≠ blockAt s.pmm.mmZeroPage 0 := by simp [blockAt]
  obtain ⟨s', hs', heq⟩ := hfree _ _ hstep (fun b hb => .inl hb) [blockAt pa 2] (by simp) (by
    intro b
    rw [heldAfter_ne _ hpa]
    constructor
    · rintro hb
      obtain rfl : b = blockAt pa 2 := by simpa using hb
      exact ⟨.inl rfl, hnot⟩
    · rintro ⟨hb | hb, hb'⟩
      · simp [hb]
      · exact absurd hb hb')
  exact ⟨s, s', pa, hpa, rfl, hs', heq⟩

instance (p : PmmState) (b : Block) : Decidable (b ∈ p.freeBlocks) :=
  inferInstanceAs (Decidable (_ ∧ _))

-- A page of the block lies in a free block already.
def AlreadyFree (p : PmmState) (pa order : Nat) : Prop :=
  ∃ n ∈ blockAt pa order, Covers p.freeBlocks n

-- `pmm_free_validate_locked` reads the flag of the first page, and only heads carry it.
theorem invalid_free_detected {mm : List MemmapEntry} {mem : Mem} {s : Phys} {held : Set Block}
    (hmm : MemmapOk mm) (hreach : Reachable mm mem s held) (pa order : Nat)
    (hal : pa % 2 ^ (12 + order) = 0) (hfree : AlreadyFree s.pmm pa order) :
    (∃ e, pmmFreePages s pa order = .error e) ↔
      pmmMaxOrder ≤ order ∨ ∃ o, (⟨paToPfn pa, o⟩ : Block) ∈ s.pmm.freeBlocks := by
  have hinv := (hreach.phys hmm).inv
  obtain ⟨n, hn, hcov⟩ := hfree
  have hrange : paToPfn pa < s.pmm.pfnCount :=
    lt_of_le_of_lt hn.1 (hinv.bound n ((hinv.cover n).2 (.inl hcov))).2
  have hhead : (∃ o, (⟨paToPfn pa, o⟩ : Block) ∈ s.pmm.freeBlocks) ↔
      (s.pmm.pfnTable (paToPfn pa)).free = true :=
    ⟨fun ⟨_, ho⟩ => ho.1, fun hf => ⟨(s.pmm.pfnTable (paToPfn pa)).order, hf, rfl⟩⟩
  rw [hhead]
  by_cases ho : pmmMaxOrder ≤ order
  · simp [pmmFreePages, pmmFreeValidateLocked, ho, bind, Except.bind]
  · cases hf : (s.pmm.pfnTable (paToPfn pa)).free <;>
      simp [pmmFreePages, pmmFreeValidateLocked, ho, hal, hrange.not_ge, hf, bind, Except.bind, pure,
        Except.pure]

theorem invalid_free_detected_head : ∃ s, pmmInit (some smallMap) (fun _ => 7) = .ok s ∧
    ∃ e, pmmFreePages s 0x108000 0 = .error e := by
  obtain ⟨s, hs, hf⟩ := smallMap_state (fun s => (s.pmm.pfnTable 0x108).free) (by decide +kernel)
  have hb : (⟨0x108, (s.pmm.pfnTable 0x108).order⟩ : Block) ∈ s.pmm.freeBlocks := ⟨hf, rfl⟩
  exact ⟨s, hs, (invalid_free_detected smallMap_ok ⟨s, hs, .refl⟩ 0x108000 0 (by decide)
    ⟨0x108, Block.start_mem _, _, hb, Block.start_mem _⟩).2 (.inr ⟨_, hb⟩)⟩

-- The second page of a free block of eight is freed, and lies in two free blocks then.
theorem interior_free_accepted : ∃ s s', pmmInit (some smallMap) (fun _ => 7) = .ok s ∧
    AlreadyFree s.pmm 0x109000 0 ∧ pmmFreePages s 0x109000 0 = .ok s' ∧
    (⟨0x108, 3⟩ : Block) ∈ s'.pmm.freeBlocks ∧ (⟨0x109, 0⟩ : Block) ∈ s'.pmm.freeBlocks := by
  obtain ⟨s, hs, hp⟩ := smallMap_state (fun s => decide ((⟨0x108, 3⟩ : Block) ∈ s.pmm.freeBlocks ∧
    ∃ s' ∈ (pmmFreePages s 0x109000 0).toOption,
      (⟨0x108, 3⟩ : Block) ∈ s'.pmm.freeBlocks ∧ (⟨0x109, 0⟩ : Block) ∈ s'.pmm.freeBlocks))
    (by decide +kernel)
  obtain ⟨hb, s', hs', hp⟩ := of_decide_eq_true hp
  have hcov : Covers s.pmm.freeBlocks 0x109 := ⟨⟨0x108, 3⟩, hb, by decide⟩
  cases h : pmmFreePages s 0x109000 0 with
  | error e => simp [h, Except.toOption] at hs'
  | ok s₁ =>
    obtain rfl : s₁ = s' := by simpa [h, Except.toOption] using hs'
    exact ⟨s, s₁, hs, ⟨0x109, Block.start_mem _, hcov⟩, h, hp⟩

end Jnu.Pmm
