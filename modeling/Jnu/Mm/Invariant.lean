import Jnu.Mm.Defs
import Jnu.Mm.VmaTree
import Jnu.Paging.Destroy

namespace Jnu.Mm

open Lib.Dyadic Lib.Effect Paging Pmm
open Function

variable {k k' k'' : Kern} {R : Set Nat} {sp v i sp' id q : Nat} {a b : AddrSpace} {o : Nat × Nat}

section words

variable {s s' : Phys} {R' : Set Nat} {roots roots' : Nat → Option Nat} {O O' : Set Block}
  {x x' : Nat → Nat}

-- The contents of a page as user code sees it; a page that is not there yet is all zero.
def words (s : Phys) (roots : Nat → Option Nat) (sp vpn i : Nat) : BitVec 64 :=
  match pte s.mem roots sp vpn with
  | none => 0
  | some e => s.mem (pteFrame e * 512 + i)

theorem words_congr {t : Nat} (h : PtInv s R roots O x) (h' : PtInv s' R' roots' O' x')
    (hz : s'.pmm.mmZeroPage = s.pmm.mmZeroPage) (hp : pte s'.mem roots' t v = pte s.mem roots t v)
    (hdata : ∀ w, 0 < refs s (w / 512) → 0 < refs s' (w / 512) → s'.mem w = s.mem w) (hi : i < 512) :
    words s' roots' t v i = words s roots t v i := by
  unfold words
  rw [hp]
  cases he : pte s.mem roots t v with
  | none => rfl
  | some e =>
    simp only
    have hframe : (pteFrame e * 512 + i) / 512 = pteFrame e := by omega
    by_cases hze : pteFrame e = zeroFrame s
    · have hze' : pteFrame e = zeroFrame s' := by
        rw [hze]
        exact congrArg paToPfn hz.symm
      rw [h.zeroPage _ (hframe.trans hze), h'.zeroPage _ (hframe.trans hze')]
    have hze' : pteFrame e ≠ zeroFrame s' := by
      intro hc
      exact hze (hc.trans (congrArg paToPfn hz))
    apply hdata
    · rw [hframe]
      exact h.mapped_refs he hze
    · rw [hframe]
      exact h'.mapped_refs (hp.trans he) hze'

end words

namespace Kern

def roots (k : Kern) (sp : Nat) : Option Nat := (k.space sp).map fun a => paToPfn a.pml4Phys

def pte (k : Kern) (sp vpn : Nat) : Option (BitVec 64) := Paging.pte k.phys.mem k.roots sp vpn

def words (k : Kern) (sp vpn i : Nat) : BitVec 64 := Mm.words k.phys k.roots sp vpn i

def slabBlocks (k : Kern) : Set Block := {b | ∃ pa ∈ k.heap.slabs, b = blockAt pa 0}

end Kern

theorem roots_none {sp : Nat} (h : k.space sp = none) : k.roots sp = none := by
  unfold Kern.roots
  rw [h, Option.map_none]

theorem pte_none {sp : Nat} (h : k.space sp = none) (v : Nat) : k.pte sp v = none := by
  unfold Kern.pte Paging.pte
  rw [tableAt_noRoot (roots_none h), ite_self]

-- The objects in use have different numbers, and no number to come.
structure Heap.Numbered (h : Heap) : Prop where
  nodup : (h.live.map Prod.fst).Nodup
  fresh : ∀ o ∈ h.live, o.1 < h.next

-- The memory of the machine is in order. `K` are the blocks that the rest of the kernel holds.
structure Base (k : Kern) (R : Set Nat) (K : Set Block) : Prop where
  pt : PtInv k.phys R k.roots (K ∪ k.slabBlocks) fun _ => 0
  zeroHeld : (⟨zeroFrame k.phys, 0⟩ : Block) ∈ K
  numbered : k.heap.Numbered
  slabAligned : ∀ pa ∈ k.heap.slabs, pa % pageSize = 0
  slabOwn : ∀ pa ∈ k.heap.slabs, blockAt pa 0 ∉ K
  rootAligned : ∀ sp a, k.space sp = some a → a.pml4Phys % pageSize = 0
  spaceId : ∀ sp a, k.space sp = some a → sp < k.heap.next
  kernel : paToPfn k.kernelPml4 ∈ R → ∃ b ∈ K, paToPfn k.kernelPml4 ∈ b

-- The entries of all pages and what user code sees of its memory are as before.
structure Idle (k k' : Kern) : Prop where
  kernelPml4 : k'.kernelPml4 = k.kernelPml4
  next : k.heap.next ≤ k'.heap.next
  zeroPage : k'.phys.pmm.mmZeroPage = k.phys.pmm.mmZeroPage
  pte : ∀ sp v, k'.pte sp v = k.pte sp v
  words : ∀ sp v i, i < 512 → k'.words sp v i = k.words sp v i

theorem Idle.refl (k : Kern) : Idle k k :=
  ⟨rfl, le_refl _, rfl, fun _ _ => rfl, fun _ _ _ _ => rfl⟩

theorem Idle.trans (h : Idle k k') (h' : Idle k' k'') : Idle k k'' where
  kernelPml4 := h'.kernelPml4.trans h.kernelPml4
  next := h.next.trans h'.next
  zeroPage := h'.zeroPage.trans h.zeroPage
  pte sp v := (h'.pte sp v).trans (h.pte sp v)
  words sp v i hi := (h'.words sp v i hi).trans (h.words sp v i hi)

section rules

variable {α : Type} {Q : α → Kern → Prop} {E : Errno → Kern → Prop}

section

variable (ha : k.space sp = some a)
include ha

theorem run_spaceOf : (spaceOf sp).run k = done a k := by
  unfold spaceOf
  rw [run_bind_ok (run_read _ k), ha]
  rfl

theorem run_vmasOf : (vmasOf sp).run k = done a.vmas k := by
  unfold vmasOf
  rw [run_bind_ok (run_spaceOf ha)]
  rfl

theorem wp_spaceOf {f : AddrSpace → KM α} (h : wp (f a) Q E k) :
    wp (spaceOf sp >>= f) Q E k:= wp_bind_ok (run_spaceOf ha) h

theorem wp_vmasOf {f : VmaTree → KM α} (h : wp (f a.vmas) Q E k) :
    wp (vmasOf sp >>= f) Q E k:= wp_bind_ok (run_vmasOf ha) h

theorem run_pml4Of : (pml4Of sp).run k = done a.pml4Phys k := by
  unfold pml4Of
  rw [run_bind_ok (run_spaceOf ha)]
  rfl

theorem wp_pml4Of {f : Nat → KM α} (h : wp (f a.pml4Phys) Q E k) : wp (pml4Of sp >>= f) Q E k :=
  wp_bind_ok (run_pml4Of ha) h

end

theorem run_onPhys {α : Type} {p : PhysM α} {r : Except Errno α} {s' : Phys}
    (h : p.run k.phys = some (.ok (r, s'))) :
    (onPhys p).run k = some (.ok (r, { k with phys := s' })) := by
  have h' : p k.phys = some (.ok (r, s')) := h
  simp [onPhys, Prog.run, Prog.zoom, h']

end rules

section setVmas

variable {t : VmaTree}

theorem setVmas_self (ha : k.space sp = some a) :
    (k.setVmas sp t).space sp = some { a with vmas := t } := by
  unfold Kern.setVmas Kern.setSpace
  simp only [update_self, ha, Option.map_some]

theorem setVmas_of_ne (h : sp' ≠ sp) : (k.setVmas sp t).space sp' = k.space sp' :=
  update_of_ne h ..

theorem setVmas_roots : (k.setVmas sp t).roots = k.roots := by
  funext sp'
  unfold Kern.roots
  by_cases h : sp' = sp
  · subst h
    cases ha : k.space sp' with
    | none =>
      unfold Kern.setVmas Kern.setSpace
      simp only [update_self, ha, Option.map_none]
    | some a => rw [setVmas_self ha, Option.map_some, Option.map_some]
  · rw [setVmas_of_ne h]

theorem setVmas_space (h : (k.setVmas sp t).space sp' = some b) :
    ∃ a, k.space sp' = some a ∧ b.pml4Phys = a.pml4Phys := by
  by_cases hsp : sp' = sp
  · subst hsp
    cases ha : k.space sp' with
    | none =>
      unfold Kern.setVmas Kern.setSpace at h
      simp [ha] at h
    | some a =>
      rw [setVmas_self ha] at h
      exact ⟨a, rfl, by rw [← Option.some.inj h]⟩
  · rw [setVmas_of_ne hsp] at h
    exact ⟨b, h, rfl⟩

theorem Idle.setVmas : Idle k (k.setVmas sp t) where
  kernelPml4 := rfl
  next := le_refl _
  zeroPage := rfl
  pte sp' v := by
    unfold Kern.pte
    rw [setVmas_roots]
    rfl
  words sp' v i _ := by
    unfold Kern.words
    rw [setVmas_roots]
    rfl

theorem Base.setVmas {R : Set Nat} {K : Set Block} (h : Base k R K) : Base (k.setVmas sp t) R K where
  pt := by
    rw [setVmas_roots]
    exact h.pt
  zeroHeld := h.zeroHeld
  numbered := h.numbered
  slabAligned := h.slabAligned
  slabOwn := h.slabOwn
  rootAligned sp' b hb := by
    obtain ⟨a, ha, hpml4⟩ := setVmas_space hb
    rw [hpml4]
    exact h.rootAligned sp' a ha
  spaceId sp' b hb := by
    obtain ⟨a, ha, -⟩ := setVmas_space hb
    exact h.spaceId sp' a ha
  kernel := h.kernel

end setVmas

section heap

variable {K O O' : Set Block} {x x' : Nat → Nat} {h h' : Heap} {pa : Nat}

theorem run_allocPages (order : Nat) (s : Phys) :
    (PhysM.allocPages order).run s = done ((pmmAllocPages s.pmm order).1)
      { s with pmm := (pmmAllocPages s.pmm order).2 } := rfl

theorem Idle.heap {s' : Phys} (hpt : PtInv k.phys R k.roots O x) (hpt' : PtInv s' R k.roots O' x')
    (hnext : k.heap.next ≤ h'.next) (hzero : s'.pmm.mmZeroPage = k.phys.pmm.mmZeroPage)
    (htab : ∀ w, IsTable k.phys.mem k.roots (w / 512) → s'.mem w = k.phys.mem w)
    (hdata : ∀ w, 0 < refs k.phys (w / 512) → s'.mem w = k.phys.mem w) :
    Idle k { k with phys := s', heap := h' } := by
  have hpte := pte_congr htab
  exact ⟨rfl, hnext, hzero, hpte, fun sp v i hi =>
    words_congr hpt hpt' hzero (hpte sp v) (fun w hw _ => hdata w hw) hi⟩

@[simp] theorem mem_slabs : pa ∈ h.slabs ↔ ∃ o ∈ h.live, o.2 = pa := by
  unfold Heap.slabs
  rw [List.mem_dedup, List.mem_map]

theorem Heap.Numbered.give (hn : h.Numbered) (pa : Nat) : (h.give pa).Numbered := by
  constructor
  · show ((h.next, pa) :: h.live).map Prod.fst |>.Nodup
    rw [List.map_cons, List.nodup_cons]
    refine ⟨fun hc => ?_, hn.nodup⟩
    obtain ⟨o, ho, he⟩ := List.mem_map.1 hc
    have := hn.fresh o ho
    omega
  · intro o ho
    show o.1 < h.next + 1
    rcases List.mem_cons.1 ho with rfl | ho
    · exact Nat.lt_succ_self _
    · exact Nat.lt_succ_of_lt (hn.fresh o ho)

theorem mem_drop : o ∈ (h.drop id).live ↔ o ∈ h.live ∧ o.1 ≠ id := by
  unfold Heap.drop
  simp [List.mem_filter]

theorem Heap.Numbered.drop (hn : h.Numbered) (id : Nat) : (h.drop id).Numbered :=
  ⟨hn.nodup.sublist ((List.filter_sublist (l := h.live)).map Prod.fst),
    fun o ho => hn.fresh o (mem_drop.1 ho).1⟩

theorem Heap.Numbered.lookup (hn : h.Numbered) (ho : o ∈ h.live) :
    h.live.lookup o.1 = some o.2 := by
  have hnd := hn.nodup
  generalize h.live = l at ho hnd
  induction l with
  | nil => cases ho
  | cons p l ih =>
    rw [List.map_cons, List.nodup_cons] at hnd
    rcases List.mem_cons.1 ho with rfl | ho
    · simp [List.lookup]
    have hne : (o.1 == p.1) = false := by
      rw [beq_eq_false_iff_ne]
      intro hc
      exact hnd.1 (List.mem_map.2 ⟨o, ho, hc⟩)
    rw [List.lookup, hne]
    exact ih ho hnd.2

theorem mem_of_lookup {l : List (Nat × Nat)} (h : l.lookup id = some pa) :
    (id, pa) ∈ l := by
  induction l with
  | nil => cases h
  | cons p l ih =>
    rw [List.lookup] at h
    cases hc : id == p.1 with
    | true =>
      rw [hc] at h
      obtain rfl : p.2 = pa := Option.some.inj h
      rw [eq_of_beq hc]
      exact List.mem_cons_self
    | false =>
      rw [hc] at h
      exact List.mem_cons_of_mem _ (ih h)

theorem Base.reheap (h : Base k R K) (hp : Heap) (hslabs : ∀ pa, pa ∈ hp.slabs ↔ pa ∈ k.heap.slabs)
    (hn : hp.Numbered) (hnext : k.heap.next ≤ hp.next) :
    Base { k with heap := hp } R K ∧ Idle k { k with heap := hp } := by
  have hblocks : ({ k with heap := hp } : Kern).slabBlocks = k.slabBlocks := by
    unfold Kern.slabBlocks
    simp only [hslabs]
  refine ⟨⟨?_, h.zeroHeld, hn, ?_, ?_, h.rootAligned, ?_, h.kernel⟩, ?_⟩
  · rw [hblocks]
    exact h.pt
  · exact fun pa hpa => h.slabAligned pa ((hslabs pa).1 hpa)
  · exact fun pa hpa => h.slabOwn pa ((hslabs pa).1 hpa)
  · exact fun sp a ha => (h.spaceId sp a ha).trans_le hnext
  · exact ⟨rfl, hnext, rfl, fun _ _ => rfl, fun _ _ _ _ => rfl⟩

theorem slabs_give : q ∈ (h.give pa).slabs ↔ q = pa ∨ q ∈ h.slabs := by
  simp only [mem_slabs, Heap.give, List.mem_cons, exists_eq_or_imp]
  rw [eq_comm]

theorem kzalloc_spec (h : Base k R K) :
    wp kzalloc
      (fun r k' => Base k' R K ∧ Idle k k' ∧ k'.space = k.space ∧
        ∀ id, r = some id → id = k.heap.next ∧ k'.heap.next = id + 1)
      never k := by
  unfold kzalloc
  apply wp_bind_read
  cases hs : k.heap.spot with
  | some pa =>
    have hpa : pa ∈ k.heap.slabs := by
      unfold Heap.spot at hs
      cases hr : k.heap.room k.heap.calls with
      | none => simp [hr] at hs
      | some i =>
        rw [hr] at hs
        exact List.mem_of_getElem? hs
    have hslabs : ∀ q, q ∈ (k.heap.give pa).slabs ↔ q ∈ k.heap.slabs := by
      intro q
      rw [slabs_give, or_iff_right_iff_imp]
      rintro rfl
      exact hpa
    obtain ⟨hb, hi⟩ := h.reheap _ hslabs (h.numbered.give pa) (Nat.le_succ _)
    apply wp_bind_write
    apply wp_pure
    refine ⟨hb, hi, rfl, fun id hid => ?_⟩
    rw [← Option.some.inj hid]
    exact ⟨rfl, rfl⟩
  | none =>
    apply wp_bind_zoom
    apply wp_of_ok (run_allocPages 0 k.phys)
    rcases ha : pmmAllocPages k.phys.pmm 0 with ⟨pa, p⟩
    refine wp_ite (fun hz => ?_) fun hz => ?_
    · subst hz
      obtain ⟨hp, -⟩ := h.pt.alloc_none ha
      apply wp_bind_write
      apply wp_pure
      subst hp
      obtain ⟨hb, hi⟩ := h.reheap k.heap.called (fun _ => Iff.rfl)
        ⟨h.numbered.nodup, h.numbered.fresh⟩ (le_refl _)
      exact ⟨hb, hi, rfl, by simp⟩
    apply wp_bind_write
    apply wp_pure
    obtain ⟨hpt, hfresh, hal, -, hframe, -⟩ := h.pt.allocOther (by decide) ha hz
    have hblocks : insert (blockAt pa 0) (K ∪ k.slabBlocks) =
        K ∪ {b | ∃ q ∈ (k.heap.give pa).slabs, b = blockAt q 0} := by
      ext b
      simp only [Kern.slabBlocks, Set.mem_insert_iff, Set.mem_union, Set.mem_ofPred_eq,
        slabs_give, exists_eq_or_imp]
      tauto
    rw [hblocks] at hpt
    refine ⟨⟨hpt, ?_, h.numbered.give pa, ?_, ?_, h.rootAligned, ?_, h.kernel⟩, ?_, rfl, ?_⟩
    · have hzf : zeroFrame { k.phys with pmm := p } = zeroFrame k.phys :=
        congrArg paToPfn hframe.mmZeroPage
      rw [hzf]
      exact h.zeroHeld
    · intro q hq
      rcases slabs_give.1 hq with rfl | hq
      · exact hal
      · exact h.slabAligned q hq
    · intro q hq
      rcases slabs_give.1 hq with rfl | hq
      · exact fun hc => hfresh (.inl hc)
      · exact h.slabOwn q hq
    · exact fun sp a ha => (h.spaceId sp a ha).trans (Nat.lt_succ_self _)
    · exact Idle.heap h.pt hpt (Nat.le_succ _) hframe.mmZeroPage (fun _ _ => rfl)
        fun _ _ => rfl
    · exact fun id hid => ⟨(Option.some.inj hid).symm, by
        rw [← Option.some.inj hid]
        rfl⟩

theorem kfree_spec (id : Nat) (h : Base k R K) :
    wp (kfree id) (fun _ k' => Base k' R K ∧ Idle k k' ∧ k'.space = k.space) never
      k := by
  unfold kfree
  apply wp_bind_read
  cases hl : k.heap.live.lookup id with
  | none =>
    apply wp_write
    obtain ⟨hb, hi⟩ := h.reheap k.heap.called (fun _ => Iff.rfl)
      ⟨h.numbered.nodup, h.numbered.fresh⟩ (le_refl _)
    exact ⟨hb, hi, rfl⟩
  | some pa =>
    have hlive := mem_of_lookup hl
    have hmem := mem_slabs.2 ⟨_, hlive, rfl⟩
    -- the other objects stay where they are
    have hother : ∀ q, q ≠ pa → (q ∈ (k.heap.drop id).slabs ↔ q ∈ k.heap.slabs) := by
      intro q hq
      simp only [mem_slabs, mem_drop]
      constructor
      · rintro ⟨o, ⟨ho, -⟩, rfl⟩
        exact ⟨o, ho, rfl⟩
      rintro ⟨o, ho, rfl⟩
      refine ⟨o, ⟨ho, fun hc => hq ?_⟩, rfl⟩
      have := h.numbered.lookup ho
      rw [hc, hl] at this
      exact (Option.some.inj this).symm
    by_cases hin : pa ∈ (k.heap.drop id).slabs
    · simp only [hin, if_true]
      apply wp_write
      have hslabs : ∀ q, q ∈ (k.heap.drop id).slabs ↔ q ∈ k.heap.slabs := by
        intro q
        by_cases hq : q = pa
        · rw [hq]
          exact iff_of_true hin hmem
        · exact hother q hq
      obtain ⟨hb, hi⟩ := h.reheap _ hslabs (h.numbered.drop id) (le_refl _)
      exact ⟨hb, hi, rfl⟩
    simp only [hin, if_false]
    have hne : blockAt pa 0 ≠ ⟨zeroFrame k.phys, 0⟩ := by
      intro hc
      exact h.slabOwn pa hmem (hc ▸ h.zeroHeld)
    obtain ⟨s', hs', hpt, hframe, hmem'⟩ := h.pt.freeOther (h.slabAligned pa hmem)
      (.inr ⟨pa, hmem, rfl⟩) hne
    apply wp_bind_zoom
    apply wp_of_ok (run_orPanic (f := (pmmFreePages · pa 0)) hs')
    apply wp_write
    have herase : ∀ q, q ∈ (k.heap.drop id).slabs ↔ q ∈ k.heap.slabs ∧ q ≠ pa := by
      intro q
      by_cases hq : q = pa
      · rw [hq]
        exact iff_of_false hin fun hc => hc.2 rfl
      · rw [hother q hq]
        exact (and_iff_left hq).symm
    have hinj : ∀ q ∈ k.heap.slabs, blockAt q 0 = blockAt pa 0 → q = pa := by
      intro q hq hb
      have hpfn := (Block.mk.injEq .. ▸ hb).1
      rw [← pfnToPa_paToPfn (h.slabAligned q hq), hpfn, pfnToPa_paToPfn (h.slabAligned pa hmem)]
    have hblocks : {b | b ∈ K ∪ k.slabBlocks ∧ b ≠ blockAt pa 0} =
        K ∪ {b | ∃ q ∈ (k.heap.drop id).slabs, b = blockAt q 0} := by
      ext b
      simp only [Kern.slabBlocks, Set.mem_union, Set.mem_ofPred_eq, herase]
      constructor
      · rintro ⟨hb | ⟨q, hq, rfl⟩, hbne⟩
        · exact .inl hb
        · exact .inr ⟨q, ⟨hq, fun hc => hbne (hc ▸ rfl)⟩, rfl⟩
      · rintro (hb | ⟨q, ⟨hq, hqne⟩, rfl⟩)
        · exact ⟨.inl hb, fun hc => h.slabOwn pa hmem (hc ▸ hb)⟩
        · exact ⟨.inr ⟨q, hq, rfl⟩, fun hc => hqne (hinj q hq hc)⟩
    rw [hblocks] at hpt
    refine ⟨⟨hpt, ?_, h.numbered.drop id, ?_, ?_, h.rootAligned, h.spaceId, h.kernel⟩, ?_, rfl⟩
    · have hzf := zeroFrame_eq hframe.mmZeroPage
      rw [hzf]
      exact h.zeroHeld
    · exact fun q hq => h.slabAligned q ((herase q).1 hq).1
    · exact fun q hq => h.slabOwn q ((herase q).1 hq).1
    -- the page that is cleared is neither a table nor a user page
    have hblock : ∀ w, w / 512 ∈ blockAt pa 0 → ¬ IsTable k.phys.mem k.roots (w / 512) ∧
        refs k.phys (w / 512) = 0 := fun w hw =>
      ⟨h.pt.otherTable _ (.inr ⟨pa, hmem, rfl⟩) _ hw,
        h.pt.otherRefs _ (.inr ⟨pa, hmem, rfl⟩) _ hw⟩
    refine Idle.heap h.pt hpt ?_ hframe.mmZeroPage ?_ ?_
    · exact Nat.le_refl k.heap.next
    · intro w hw
      rw [hmem', if_neg]
      exact fun hc => (hblock w hc).1 hw
    · intro w hw
      rw [hmem', if_neg]
      intro hc
      rw [(hblock w hc).2] at hw
      omega

end heap

end Jnu.Mm
