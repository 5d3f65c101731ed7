import Jnu.Pmm.AllocFree

open Jnu.Lib.Dyadic

namespace Jnu.Pmm

open PmmState

variable {b : Block} {n a start stop count k bytes : Nat} {s : Phys} {R : Set Nat} {mm : List MemmapEntry}
  {e : MemmapEntry}

def PageZero (mem : Mem) (n : Nat) : Prop := ∀ w, w / 512 = n → mem w = 0

-- The allocator's invariant, with every free page zero.
structure PhysInv (s : Phys) (R : Set Nat) (held : Set Block) : Prop where
  inv : PmmInv s.pmm R held
  zero : ∀ n, Covers s.pmm.freeBlocks n → PageZero s.mem n

theorem memsetZero_block (mem : Mem) (b : Block) (w : Nat) :
    memsetZero mem (pfnToPa b.start) (pmmOrderSize b.order) w =
      if w / 512 ∈ b then 0 else mem w := by
  have hlo : pfnToPa b.start / 8 = b.start * 512 := by
    simp only [pfnToPa, pageSize]
    omega
  have hhi : (pfnToPa b.start + pmmOrderSize b.order) / 8 = (b.start + 2 ^ b.order) * 512 := by
    simp only [pfnToPa, pageSize, pmmOrderSize, Nat.pow_add]
    omega
  have hiff : (b.start * 512 ≤ w ∧ w < (b.start + 2 ^ b.order) * 512) ↔ w / 512 ∈ b := by
    rw [Block.mem_def]
    omega
  unfold memsetZero
  rw [hlo, hhi]
  by_cases h : w / 512 ∈ b
  · rw [if_pos (hiff.2 h), if_pos h]
  · rw [if_neg (fun hc => h (hiff.1 hc)), if_neg h]

theorem memsetZero_pageZero (mem : Mem) (hn : n ∈ b) :
    PageZero (memsetZero mem (pfnToPa b.start) (pmmOrderSize b.order)) n := by
  rintro w rfl
  rw [memsetZero_block, if_pos hn]

theorem memsetZero_keeps (mem : Mem) (b : Block) (h : PageZero mem n) :
    PageZero (memsetZero mem (pfnToPa b.start) (pmmOrderSize b.order)) n := by
  intro w hw
  rw [memsetZero_block]
  split
  · rfl
  · exact h w hw

theorem PmmInv.adopt {s : PmmState} {H : Set Block} (h : PmmInv s R H) (hb : b.Aligned)
    (ho : b.order < pmmMaxOrder) (hout : ∀ n ∈ b, n ∉ R) (hbound : ∀ n ∈ b, 0 < n ∧ n < s.pfnCount) :
    PmmInv s (R ∪ {n | n ∈ b}) (insert b H) ∧ b ∉ H := by
  have hH : ∀ c ∈ H, ∀ n ∈ b, n ∉ c := fun c hc n hn hnc =>
    hout n hn ((h.cover n).2 (.inr ⟨c, hc, hnc⟩))
  refine ⟨⟨h.lists, h.canonical, Set.forall_mem_insert.2 ⟨hb, h.heldAligned⟩,
    Set.forall_mem_insert.2 ⟨ho, h.heldOrder⟩, disjoint_insert h.heldDisjoint ?_, ?_, ?_, ?_⟩,
    fun hc => hH b hc _ b.start_mem b.start_mem⟩
  · exact fun n hn ⟨c, hc, hnc⟩ => hH c hc n hn hnc
  · rintro c hc d (rfl | hd) n hnc hnd
    · exact hout n hnd ((h.cover n).2 (.inl ⟨c, hc, hnc⟩))
    · exact h.apart c hc d hd n hnc hnd
  · intro n
    rw [Set.mem_union, h.cover, covers_insert, or_assoc, or_comm (a := n ∈ b)]
    rfl
  · rintro n (hn | hn)
    · exact h.bound n hn
    · exact hbound n hn

theorem naturalOrder_spec (start stop n o : Nat) (ho : o + n = pmmMaxOrder - 1)
    (hal : 2 ^ o ∣ start) (hfit : start + 2 ^ o ≤ stop) :
    naturalOrder start stop n o ≤ pmmMaxOrder - 1 ∧
      2 ^ naturalOrder start stop n o ∣ start ∧ start + 2 ^ naturalOrder start stop n o ≤ stop ∧
      (naturalOrder start stop n o < pmmMaxOrder - 1 →
        ¬ (2 ^ (naturalOrder start stop n o + 1) ∣ start ∧
          start + 2 ^ (naturalOrder start stop n o + 1) ≤ stop)) := by
  induction n generalizing o with
  | zero => exact ⟨by simp only [naturalOrder]; omega, hal, hfit,
      fun hlt => by simp only [naturalOrder] at hlt; omega⟩
  | succ n ih =>
    by_cases hc : start % 2 ^ (o + 1) = 0 ∧ start + 2 ^ (o + 1) ≤ stop
    · simp only [naturalOrder, hc, and_self, if_true]
      exact ih (o + 1) (by omega) (Nat.dvd_of_mod_eq_zero hc.1) hc.2
    · simp only [naturalOrder, hc, if_false]
      refine ⟨by omega, hal, hfit, fun _ hc' => hc ⟨Nat.mod_eq_zero_of_dvd hc'.1, hc'.2⟩⟩

theorem pmmRegisterBlock_spec (h : PhysInv s R ∅) (hb : b.Aligned) (ho : b.order < pmmMaxOrder)
    (hout : ∀ n ∈ b, n ∉ R) (hbound : ∀ n ∈ b, 0 < n ∧ n < s.pmm.pfnCount)
    (hbud : b.order < pmmMaxOrder - 1 → b.buddy ∉ s.pmm.freeBlocks) :
    PhysInv (pmmRegisterBlock s b.start b.order) (R ∪ {n | n ∈ b}) ∅ ∧
      (pmmRegisterBlock s b.start b.order).pmm.freeBlocks = insert b s.pmm.freeBlocks ∧
      Frame s.pmm (pmmRegisterBlock s b.start b.order).pmm := by
  obtain ⟨hadopt, hnot⟩ := h.inv.adopt hb ho hout hbound
  have hnf := hadopt.free_false (.inl rfl) b.start_mem
  have hfree := freeBlocks_publish (zoneOfPfn b.start) (o := b.order) hnf
  have hpub := hadopt.give hnot hbud
  have hframe := publish_frame s.pmm (zoneOfPfn b.start) b.order b.start
  refine ⟨⟨?_, ?_⟩, hfree, ⟨hframe.pfnCount, hframe.mmZeroPage, hframe.refcount⟩⟩
  · exact hpub.congr rfl rfl rfl rfl rfl rfl rfl
  rintro n ⟨c, hc, hn⟩
  have hc' := hfree ▸ hc
  rcases hc' with rfl | hc'
  · exact memsetZero_pageZero _ hn
  · exact memsetZero_keeps _ b (h.zero n ⟨c, hc', hn⟩)

-- A region being registered up to `start`: no block could have been taken one order larger.
structure Registering (s : Phys) (R : Set Nat) (a start stop : Nat) : Prop where
  phys : PhysInv s (R ∪ {n | a ≤ n ∧ n < start}) ∅
  greedy : ∀ c ∈ s.pmm.freeBlocks, a ≤ c.start → c.start < stop → c.order < pmmMaxOrder - 1 →
    2 ^ (c.order + 1) ∣ c.start → stop < c.start + 2 ^ (c.order + 1)

-- What is known of the region beforehand: it lies in the table, and neither its pages nor the
-- two next to it are registered.
structure FreshRegion (R : Set Nat) (count a stop : Nat) : Prop where
  pos : 0 < a
  stop_le : stop ≤ count
  out : ∀ n, a ≤ n + 1 → n ≤ stop → n ∉ R

theorem FreshRegion.not_registered (h : FreshRegion R count a stop) (hle : a ≤ n + 1)
    (hn : n ≤ stop) (hout : n < a ∨ start ≤ n) : n ∉ R ∪ {m | a ≤ m ∧ m < start} := by
  rintro (hR | ⟨h1, h2⟩)
  · exact h.out n hle hn hR
  · omega

-- The buddy of the next block reaches past an end of the region, or is the preceding block, which would have
-- been larger.
theorem Registering.buddy_notMem (h : Registering s R a start stop)
    (hr : FreshRegion R s.pmm.pfnCount a stop) (has : a ≤ start) (hk : k < pmmMaxOrder - 1)
    (hal : 2 ^ k ∣ start) (hfit : start + 2 ^ k ≤ stop)
    (hmax : ¬ (2 ^ (k + 1) ∣ start ∧ start + 2 ^ (k + 1) ≤ stop)) :
    (⟨start, k⟩ : Block).buddy ∉ s.pmm.freeBlocks := by
  intro hbud
  have hreg : ∀ n ∈ (⟨start, k⟩ : Block).buddy, n ∈ R ∪ {m | a ≤ m ∧ m < start} :=
    fun n hn => (h.phys.inv.cover n).2 (.inl ⟨_, hbud, hn⟩)
  by_cases hup : 2 ^ (k + 1) ∣ start
  · -- the upper half would contain `stop`
    have hlow := Block.buddy_lower (p := start) (k := k) hup
    have hstop : stop < start + 2 ^ (k + 1) := by
      by_contra hc
      exact hmax ⟨hup, by omega⟩
    refine hr.not_registered (n := stop) (by omega) le_rfl (.inr (by omega)) (hreg stop ?_)
    rw [hlow, Block.mem_def]
    simp only [Nat.pow_succ] at hstop ⊢
    omega
  -- the lower half ends at `start`
  obtain ⟨j, hj⟩ := hal
  have hodd : j % 2 = 1 := by
    by_contra hc
    refine hup ⟨j / 2, ?_⟩
    rw [Nat.pow_succ, Nat.mul_assoc, hj]
    congr 1
    omega
  have hs := Block.buddy_start (b := ⟨start, k⟩) hj
  rw [if_neg (by omega)] at hs
  have hsum : (⟨start, k⟩ : Block).buddy.start + 2 ^ k = start := by
    rw [hs, hj]
    obtain ⟨i, rfl⟩ : ∃ i, j = i + 1 := ⟨j - 1, by omega⟩
    show 2 ^ k * (i + 1 - 1) + 2 ^ k = _
    simp only [Nat.add_sub_cancel]
    ring
  have hal' : 2 ^ (k + 1) ∣ (⟨start, k⟩ : Block).buddy.start := by
    refine ⟨j / 2, ?_⟩
    rw [hs, Nat.pow_succ, Nat.mul_assoc]
    show 2 ^ k * (j - 1) = _
    congr 1
    omega
  by_cases hin : a ≤ (⟨start, k⟩ : Block).buddy.start
  · have := h.greedy _ hbud hin (by omega) hk hal'
    simp only [Block.buddy_order, Nat.pow_succ] at this
    omega
  refine hr.not_registered (n := a - 1) (by omega) (by omega) (.inl (by have := hr.pos; omega))
    (hreg _ ?_)
  rw [Block.mem_def]
  simp only [Block.buddy_order]
  omega

theorem registerLoop_spec (n : Nat)
    (h : Registering s R a start stop) (hr : FreshRegion R s.pmm.pfnCount a stop)
    (has : a ≤ start) (hss : start ≤ stop) (hn : stop - start ≤ n) :
    PhysInv (registerLoop n s start stop) (R ∪ {m | a ≤ m ∧ m < stop}) ∅ ∧
      Frame s.pmm (registerLoop n s start stop).pmm := by
  induction n generalizing s start with
  | zero =>
    have : start = stop := by omega
    subst this
    exact ⟨h.phys, Frame.refl _⟩
  | succ n ih =>
    by_cases hlt : start < stop
    · simp only [registerLoop, hlt, if_true]
      set k := naturalOrder start stop (pmmMaxOrder - 1) 0 with hkdef
      obtain ⟨hk, hal, hfit, hmax⟩ := naturalOrder_spec start stop
        (pmmMaxOrder - 1) 0 (by omega) (by simp) (by simp only [Nat.pow_zero]; omega)
      rw [← hkdef] at hk hal hfit hmax
      have hko : k < pmmMaxOrder := by
        simp only [pmmMaxOrder] at hk ⊢
        omega
      obtain ⟨hphys, hfree, hframe⟩ := pmmRegisterBlock_spec (b := ⟨start, k⟩) h.phys hal hko
        (fun m hm => hr.not_registered (by have := hm.1; simp only at this; omega)
          (by have := hm.2; simp only at this; omega) (.inr hm.1))
        (fun m hm => by
          have h1 := hm.1
          have h2 := hm.2
          have h3 := hr.pos
          have h4 := hr.stop_le
          simp only at h1 h2
          omega)
        (fun hlt' => h.buddy_notMem hr has hlt' hal hfit (hmax hlt'))
      have hset : R ∪ {m | a ≤ m ∧ m < start} ∪ {m | m ∈ (⟨start, k⟩ : Block)} =
          R ∪ {m | a ≤ m ∧ m < start + 2 ^ k} := by
        ext m
        simp only [Set.mem_union, Set.mem_ofPred_eq, Block.mem_def]
        constructor
        · rintro ((hR | hm) | hm)
          · exact .inl hR
          · exact .inr ⟨hm.1, by omega⟩
          · exact .inr ⟨by omega, hm.2⟩
        · rintro (hR | hm)
          · exact .inl (.inl hR)
          · by_cases hms : m < start
            · exact .inl (.inr ⟨hm.1, hms⟩)
            · exact .inr ⟨by omega, hm.2⟩
      have hnext : Registering (pmmRegisterBlock s start k) R a (start + 2 ^ k) stop := by
        refine ⟨hset ▸ hphys, ?_⟩
        intro c hc hac hcs hco hdvd
        have hc' := hfree ▸ hc
        rcases hc' with rfl | hc'
        · by_contra hle
          exact hmax hco ⟨hdvd, by simpa using hle⟩
        · exact h.greedy c hc' hac hcs hco hdvd
      have hr' : FreshRegion R (pmmRegisterBlock s start k).pmm.pfnCount a stop := by
        rw [hframe.pfnCount]
        exact hr
      obtain ⟨hres, hfr⟩ := ih hnext hr' (by omega) hfit (by omega)
      exact ⟨hres, hframe.trans hfr⟩
    · have : start = stop := by omega
      subst this
      simp only [registerLoop, lt_irrefl, if_false]
      exact ⟨h.phys, Frame.refl _⟩

-- A Limine map with page aligned usable regions inside the address space that are disjoint and not adjacent,
-- and without page 0.
structure MemmapOk (mm : List MemmapEntry) : Prop where
  aligned : ∀ e ∈ mm, e.usable → e.base % pageSize = 0 ∧ e.length % pageSize = 0
  inSpace : ∀ e ∈ mm, e.usable → e.base + e.length < 2 ^ 64
  notPageZero : ∀ e ∈ mm, e.usable → 0 < e.length → 0 < e.base
  apart : mm.Pairwise fun e f => e.usable → f.usable → 0 < e.length → 0 < f.length →
    e.base + e.length < f.base ∨ f.base + f.length < e.base

def MemmapEntry.Holds (e : MemmapEntry) (n : Nat) : Prop :=
  e.usable ∧ e.base ≤ pfnToPa n ∧ pfnToPa n < e.base + e.length

def usablePages (mm : List MemmapEntry) : Set Nat := {n | ∃ e ∈ mm, e.Holds n}

def carvedMap (mm : List MemmapEntry) : List MemmapEntry :=
  (carve (metaPages (highestEnd mm / pageSize) * pageSize) mm).2

def registeredPages (mm : List MemmapEntry) : Set Nat := usablePages (carvedMap mm)

private theorem foldl_highest_le (mm : List MemmapEntry) (hi : Nat) :
    hi ≤ mm.foldl (fun hi e => if e.usable ∧ wrap64 (e.base + e.length) > hi
      then wrap64 (e.base + e.length) else hi) hi ∧
    ∀ e ∈ mm, e.usable → wrap64 (e.base + e.length) ≤
      mm.foldl (fun hi e => if e.usable ∧ wrap64 (e.base + e.length) > hi
        then wrap64 (e.base + e.length) else hi) hi := by
  induction mm generalizing hi with
  | nil => simp
  | cons f mm ih =>
    simp only [List.foldl_cons]
    set hi' := if f.usable ∧ wrap64 (f.base + f.length) > hi
      then wrap64 (f.base + f.length) else hi with hhi'
    obtain ⟨h1, h2⟩ := ih hi'
    have hle : hi ≤ hi' := by
      rw [hhi']
      split <;> omega
    refine ⟨by omega, ?_⟩
    intro e he hu
    rcases List.mem_cons.1 he with rfl | he
    · have : wrap64 (e.base + e.length) ≤ hi' := by
        rw [hhi']
        by_cases hc : wrap64 (e.base + e.length) > hi
        · rw [if_pos ⟨hu, hc⟩]
        · omega
      omega
    · exact h2 e he hu

theorem le_highestEnd (he : e ∈ mm) (hu : e.usable) : wrap64 (e.base + e.length) ≤ highestEnd mm :=
  (foldl_highest_le mm 0).2 e he hu

-- What carving does to an entry: at most its front is cut off, by whole pages.
def Trimmed (e' e : MemmapEntry) : Prop :=
  e'.usable = e.usable ∧ e'.base + e'.length = e.base + e.length ∧ e.base ≤ e'.base ∧
    e'.base % pageSize = e.base % pageSize

theorem carve_trimmed (hb : bytes % pageSize = 0) (mm : List MemmapEntry) :
    List.Forall₂ Trimmed (carve bytes mm).2 mm := by
  induction mm with
  | nil => exact .nil
  | cons e mm ih =>
    by_cases hc : e.usable ∧ e.length ≥ bytes
    · rw [carve, if_pos hc]
      refine .cons ⟨rfl, ?_, ?_, ?_⟩ (List.forall₂_same.2 fun f _ => ⟨rfl, rfl, le_rfl, rfl⟩)
      · show e.base + bytes + (e.length - bytes) = _
        omega
      · show e.base ≤ e.base + bytes
        omega
      · show (e.base + bytes) % pageSize = _
        rw [Nat.add_mod, hb, Nat.add_zero, Nat.mod_mod]
    · simp only [carve, hc, if_false]
      exact .cons ⟨rfl, rfl, le_rfl, rfl⟩ ih

-- Each region is in the table, and none reaches the pages next to another.
structure Registrable (count : Nat) (mm : List MemmapEntry) : Prop where
  aligned : ∀ e ∈ mm, e.usable → e.base % pageSize = 0 ∧ e.length % pageSize = 0
  inSpace : ∀ e ∈ mm, e.usable → e.base + e.length < 2 ^ 64
  inTable : ∀ e ∈ mm, e.usable → 0 < e.length → 0 < e.base ∧ e.base + e.length ≤ count * pageSize
  apart : mm.Pairwise fun e f => e.usable → f.usable → 0 < e.length → 0 < f.length →
    e.base + e.length < f.base ∨ f.base + f.length < e.base

theorem MemmapOk.registrable (h : MemmapOk mm) :
    Registrable (highestEnd mm / pageSize) (carvedMap mm) := by
  have htrim : List.Forall₂ Trimmed (carvedMap mm) mm := carve_trimmed (by simp) mm
  have hfrom : ∀ e' ∈ carvedMap mm, ∃ e ∈ mm, Trimmed e' e := by
    intro e' he'
    obtain ⟨i, hi, rfl⟩ := List.getElem_of_mem he'
    have hlen := htrim.length_eq
    exact ⟨mm[i], List.getElem_mem _, (List.forall₂_iff_get.1 htrim).2 i hi (hlen ▸ hi)⟩
  refine ⟨?_, ?_, ?_, ?_⟩
  · intro e' he' hu
    obtain ⟨e, he, hue, hend, hle, hmod⟩ := hfrom e' he'
    obtain ⟨h1, h2⟩ := h.aligned e he (hue ▸ hu)
    simp only [pageSize] at *
    omega
  · intro e' he' hu
    obtain ⟨e, he, hue, hend, -, -⟩ := hfrom e' he'
    rw [hend]
    exact h.inSpace e he (hue ▸ hu)
  · intro e' he' hu hpos
    obtain ⟨e, he, hue, hend, hle, -⟩ := hfrom e' he'
    have hu' : e.usable := hue ▸ hu
    have h1 := h.notPageZero e he hu' (by omega)
    have h2 := le_highestEnd he hu'
    have h3 := h.inSpace e he hu'
    obtain ⟨h4, h5⟩ := h.aligned e he hu'
    simp only [wrap64, pageSize] at *
    omega
  · have hmap := h.apart
    rw [List.pairwise_iff_get] at hmap ⊢
    intro i j hij hui huj hpi hpj
    have hlen := htrim.length_eq
    have hti := (List.forall₂_iff_get.1 htrim).2 i i.2 (hlen ▸ i.2)
    have htj := (List.forall₂_iff_get.1 htrim).2 j j.2 (hlen ▸ j.2)
    have := hmap ⟨i, hlen ▸ i.2⟩ ⟨j, hlen ▸ j.2⟩ hij
    obtain ⟨hue, hend, hle, -⟩ := hti
    obtain ⟨huf, hendf, hlef, -⟩ := htj
    rw [hue] at hui
    rw [huf] at huj
    have := this hui huj (by simp only [List.get_eq_getElem] at *; omega)
        (by simp only [List.get_eq_getElem] at *; omega)
    simp only [List.get_eq_getElem] at *
    omega

theorem pmmRegisterRange_spec (h : PhysInv s R ∅) (hal : e.base % pageSize = 0 ∧ e.length % pageSize = 0)
    (hsp : e.base + e.length < 2 ^ 64)
    (hin : 0 < e.length → 0 < e.base ∧ e.base + e.length ≤ s.pmm.pfnCount * pageSize)
    (hsep : 0 < e.length → ∀ n, e.base ≤ pfnToPa n + pageSize → pfnToPa n ≤ e.base + e.length → n ∉ R) :
    PhysInv (pmmRegisterRange s e.base (wrap64 (e.base + e.length)))
      (R ∪ {n | e.base ≤ pfnToPa n ∧ pfnToPa n < e.base + e.length}) ∅ ∧
      Frame s.pmm (pmmRegisterRange s e.base (wrap64 (e.base + e.length))).pmm := by
  obtain ⟨a, ha⟩ : ∃ a, e.base = a * pageSize := ⟨e.base / pageSize, by
    simp only [pageSize] at hal ⊢
    omega⟩
  obtain ⟨l, hl⟩ : ∃ l, e.length = l * pageSize := ⟨e.length / pageSize, by
    simp only [pageSize] at hal ⊢
    omega⟩
  have hstart : paToPfn (wrap64 (e.base + pageSize - 1)) = a := by
    simp only [paToPfn, wrap64, pageSize] at *
    omega
  have hstop : paToPfn (wrap64 (e.base + e.length)) = a + l := by
    simp only [paToPfn, wrap64, pageSize] at *
    omega
  have hset : {n | e.base ≤ pfnToPa n ∧ pfnToPa n < e.base + e.length} =
      {n | a ≤ n ∧ n < a + l} := by
    ext n
    simp only [Set.mem_ofPred_eq, pfnToPa, pageSize] at *
    omega
  unfold pmmRegisterRange
  rw [hstart, hstop, hset]
  have hsame : R ∪ {n | a ≤ n ∧ n < a} = R := by
    ext n
    simp only [Set.mem_union, Set.mem_ofPred_eq]
    constructor
    · rintro (hR | hm)
      · exact hR
      · omega
    · exact .inl
  by_cases hl0 : l = 0
  · subst hl0
    simp only [Nat.add_zero, Nat.sub_self, hsame]
    exact ⟨h, Frame.refl _⟩
  have hlen : 0 < e.length := by
    simp only [pageSize] at hl
    omega
  have hout : ∀ n, a ≤ n + 1 → n ≤ a + l → n ∉ R := by
    intro n h1 h2
    refine hsep hlen n ?_ ?_
    · simp only [ha, pfnToPa, pageSize]
      omega
    · simp only [ha, hl, pfnToPa, pageSize]
      omega
  have hreg : Registering s R a a (a + l) := by
    refine ⟨by rwa [hsame], ?_⟩
    intro c hc hac hcs _ _
    have hR : c.start ∈ R := (h.inv.cover _).2 (.inl ⟨c, hc, c.start_mem⟩)
    exact absurd hR (hout _ (by omega) (by omega))
  have hfresh : FreshRegion R s.pmm.pfnCount a (a + l) := by
    have := hin hlen
    simp only [ha, hl, pageSize] at this
    exact ⟨by omega, by omega, hout⟩
  exact registerLoop_spec _ hreg hfresh le_rfl (by omega) le_rfl

theorem registerAll_spec (hmm : Registrable s.pmm.pfnCount mm) (h : PhysInv s R ∅)
    (hsep : ∀ e ∈ mm, e.usable → 0 < e.length → ∀ n, e.base ≤ pfnToPa n + pageSize →
      pfnToPa n ≤ e.base + e.length → n ∉ R) :
    PhysInv (registerAll s mm) (R ∪ usablePages mm) ∅ ∧ Frame s.pmm (registerAll s mm).pmm := by
  induction mm generalizing s R with
  | nil =>
    have : R ∪ usablePages [] = R := by simp [usablePages]
    rw [this]
    exact ⟨h, Frame.refl _⟩
  | cons e mm ih =>
    have hall : ∀ s, registerAll s (e :: mm) = registerAll (if e.usable then
        pmmRegisterRange s e.base (wrap64 (e.base + e.length)) else s) mm := fun _ => rfl
    have htail : Registrable s.pmm.pfnCount mm :=
      ⟨fun f hf => hmm.aligned f (.tail _ hf), fun f hf => hmm.inSpace f (.tail _ hf),
        fun f hf => hmm.inTable f (.tail _ hf), (List.pairwise_cons.1 hmm.apart).2⟩
    rw [hall]
    by_cases hu : e.usable
    · rw [if_pos hu]
      obtain ⟨hphys, hframe⟩ := pmmRegisterRange_spec h (hmm.aligned e (.head _) hu)
        (hmm.inSpace e (.head _) hu) (hmm.inTable e (.head _) hu) (hsep e (.head _) hu)
      have hset : R ∪ {n | e.base ≤ pfnToPa n ∧ pfnToPa n < e.base + e.length} ∪ usablePages mm =
          R ∪ usablePages (e :: mm) := by
        ext n
        simp [usablePages, MemmapEntry.Holds, hu, or_assoc]
      rw [← hset]
      obtain ⟨hres, hfr⟩ := ih (by rwa [hframe.pfnCount]) hphys (by
        rintro f hf huf hlf n h1 h2 (hR | hm)
        · exact hsep f (.tail _ hf) huf hlf n h1 h2 hR
        have hap := (List.pairwise_cons.1 hmm.apart).1 f hf hu huf
          (by have := hm.1; have := hm.2; omega) hlf
        obtain ⟨h3, h4⟩ := hmm.aligned e (.head _) hu
        have h7 := hm.1
        have h8 := hm.2
        simp only [pfnToPa, pageSize] at *
        omega)
      exact ⟨hres, hframe.trans hfr⟩
    · rw [if_neg hu]
      have hset : usablePages (e :: mm) = usablePages mm := by
        ext n
        simp [usablePages, MemmapEntry.Holds, hu]
      rw [hset]
      exact ih htail h (fun f hf => hsep f (.tail _ hf))

theorem emptyPmm_inv (count : Nat) (mem : Mem) : PhysInv ⟨emptyPmm count, mem⟩ ∅ ∅ := by
  have hnone : (emptyPmm count).freeBlocks = ∅ := by
    ext b
    simp [freeBlocks, emptyPmm]
  refine ⟨⟨⟨fun _ _ => [], ?_⟩, ?_, ?_, ?_, ?_, ?_, ?_, ?_⟩, ?_⟩
  · refine ⟨fun _ _ _ => rfl, fun _ _ _ => List.nodup_nil, ?_, ?_, ?_, ?_, rfl⟩
    · simp [hnone]
    · simp [hnone]
    · simp [emptyPmm]
    · simp [emptyPmm]
  · rw [hnone]
    exact ⟨by simp, by simp, by simp, by simp⟩
  · simp
  · simp
  · simp
  · simp
  · simp [hnone, Covers]
  · simp
  · simp [hnone, Covers]

-- What `pmm_init` leaves: every registered page is free and zero but the zero page, which is in hand, and no
-- page is a user page.
structure Booted (s : Phys) (R : Set Nat) : Prop where
  phys : PhysInv s R {blockAt s.pmm.mmZeroPage 0}
  zeroPage : PageZero s.mem (paToPfn s.pmm.mmZeroPage)
  zeroPage_ne : s.pmm.mmZeroPage ≠ 0
  zeroPage_aligned : s.pmm.mmZeroPage % pageSize = 0
  refcount : ∀ i, (s.pmm.pfnTable i).refcount = 0

theorem pmmInit_spec {mem : Mem} (hmm : MemmapOk mm)
    (h : pmmInit (some mm) mem = .ok s) : Booted s (registeredPages mm) := by
  unfold pmmInit at h
  simp only at h
  split at h
  · cases h
  split at h
  · cases h
  split at h
  · cases h
  rename_i hzero
  set s1 := registerAll ⟨emptyPmm (highestEnd mm / pageSize), mem⟩ (carvedMap mm) with hs1
  obtain ⟨hphys, hframe⟩ := registerAll_spec (s := ⟨emptyPmm (highestEnd mm / pageSize), mem⟩)
    hmm.registrable (emptyPmm_inv _ _) (by simp)
  rw [Set.empty_union, ← hs1] at hphys
  set p : PmmState := { s1.pmm with
    stats := { s1.pmm.stats with totalPages := s1.pmm.stats.freePages } } with hp
  have hinv : PmmInv p (registeredPages mm) ∅ :=
    hphys.inv.congr rfl rfl rfl rfl rfl rfl rfl
  have hspec := pmmAllocPagesLocked_spec hinv (show 0 < pmmMaxOrder by decide)
  set r := pmmAllocPagesLocked p 0 with hr
  obtain ⟨hal, -, -, ha⟩ := hspec.success hzero
  cases h
  refine ⟨⟨?_, ?_⟩, ?_, hzero, hal, ?_⟩
  · have := ha.inv
    rw [show insert (blockAt r.1 0) (∅ : Set Block) = {blockAt r.1 0} by simp] at this
    exact this.congr rfl rfl rfl rfl rfl rfl rfl
  · intro n hn
    refine hphys.zero n ?_
    have hR := (ha.inv.cover n).2 (.inl hn)
    rcases (hphys.inv.cover n).1 hR with hc | ⟨c, hc, -⟩
    · exact hc
    · exact absurd hc (Set.notMem_empty c)
  · exact hphys.zero _ (ha.wasFree _ (Block.start_mem _))
  · intro i
    exact (ha.frame.refcount i).trans (hframe.refcount i)

end Jnu.Pmm
