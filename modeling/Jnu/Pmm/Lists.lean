import Jnu.Lib.Chain
import Jnu.Lib.Dyadic
import Jnu.Lib.Refs
import Jnu.Pmm.Defs

open Jnu.Lib.Chain Jnu.Lib.Dyadic Jnu.Lib.Refs
open Function

namespace Jnu.Pmm

variable {s s' s'' : PmmState} {o pfn o' i : Nat} {L : PmmZone → Nat → List Nat}

namespace PmmState

section

variable (s) (z : PmmZone) (o pfn : Nat) (f : PmmPfn → PmmPfn) (v : Option Nat)

@[simp] theorem pfnTable_modify (i : Nat) :
    (s.modify pfn f).pfnTable i = if i = pfn then f (s.pfnTable pfn) else s.pfnTable i := by
  simp [modify, update_apply]

@[simp] theorem freeListHead_modify :
    (s.modify pfn f).freeListHead = s.freeListHead := rfl

@[simp] theorem stats_modify :
    (s.modify pfn f).stats = s.stats := rfl

@[simp] theorem pfnTable_modify? (i : Nat) :
    (s.modify? v f).pfnTable i = if v = some i then f (s.pfnTable i) else s.pfnTable i := by
  cases v with
  | none => simp [modify?]
  | some pfn =>
    by_cases h : i = pfn
    · simp [modify?, h]
    · simp [modify?, h, Ne.symm h]

@[simp] theorem freeListHead_modify? :
    (s.modify? v f).freeListHead = s.freeListHead := by
  cases v <;> rfl

@[simp] theorem stats_modify? :
    (s.modify? v f).stats = s.stats := by
  cases v <;> rfl

@[simp] theorem pfnTable_setHead :
    (s.setHead z o v).pfnTable = s.pfnTable := rfl

@[simp] theorem freeListHead_setHead (z' : PmmZone) (o' : Nat) :
    (s.setHead z o v).freeListHead z' o' =
      if z' = z ∧ o' = o then v else s.freeListHead z' o' := rfl

@[simp] theorem stats_setHead :
    (s.setHead z o v).stats = s.stats := rfl

@[simp] theorem pfnTable_countFree :
    (s.countFree z o).pfnTable = s.pfnTable := rfl

@[simp] theorem freeListHead_countFree :
    (s.countFree z o).freeListHead = s.freeListHead := rfl

@[simp] theorem pfnTable_uncountFree :
    (s.uncountFree z o).pfnTable = s.pfnTable := rfl

@[simp] theorem freeListHead_uncountFree :
    (s.uncountFree z o).freeListHead = s.freeListHead := rfl

end

-- The blocks headed by a page with `PFN_FREE` set, at the order recorded there.
def freeBlocks (s : PmmState) : Set Block :=
  {b | (s.pfnTable b.start).free = true ∧ (s.pfnTable b.start).order = b.order}

def links (s : PmmState) : Links Nat where
  next i := (s.pfnTable i).next
  prev i := (s.pfnTable i).prev

end PmmState

open PmmState

def zoneOfPfn (pfn : Nat) : PmmZone := zoneOf (pfnToPa pfn)

-- What stays fixed when blocks move between the lists.
structure Frame (s s' : PmmState) : Prop where
  pfnCount : s'.pfnCount = s.pfnCount
  mmZeroPage : s'.mmZeroPage = s.mmZeroPage
  refcount : ∀ i, (s'.pfnTable i).refcount = (s.pfnTable i).refcount

theorem Frame.refl (s : PmmState) : Frame s s := ⟨rfl, rfl, fun _ => rfl⟩

theorem Frame.trans (h : Frame s s') (h' : Frame s' s'') : Frame s s'' :=
  ⟨h'.pfnCount.trans h.pfnCount, h'.mmZeroPage.trans h.mmZeroPage,
    fun i => (h'.refcount i).trans (h.refcount i)⟩

-- The free lists and the statistics of `s`, with `L z o` the block heads on each list.
structure Lists (s : PmmState) (L : PmmZone → Nat → List Nat) : Prop where
  linked : ∀ z o, o < pmmMaxOrder → Linked s.links none (s.freeListHead z o) (L z o)
  nodup : ∀ z o, o < pmmMaxOrder → (L z o).Nodup
  mem_iff : ∀ z o pfn, o < pmmMaxOrder →
    (pfn ∈ L z o ↔ (⟨pfn, o⟩ : Block) ∈ s.freeBlocks ∧ zoneOfPfn pfn = z)
  order_lt : ∀ b ∈ s.freeBlocks, b.order < pmmMaxOrder
  freeByOrder : ∀ o, o < pmmMaxOrder →
    s.stats.freeByOrder o = (L .dma o).length + (L .normal o).length
  zoneFree : ∀ z, s.stats.zoneFree z =
    ∑ o ∈ Finset.range pmmMaxOrder, (L z o).length * 2 ^ o
  freePages : s.stats.freePages = s.stats.zoneFree .dma + s.stats.zoneFree .normal

-- `list_push` followed by the statistics.
def publish (s : PmmState) (z : PmmZone) (o pfn : Nat) : PmmState :=
  (listPush s z o pfn).countFree z o

-- `list_remove` with the flag cleared and the statistics.
def withdraw (s : PmmState) (z : PmmZone) (o pfn : Nat) : PmmState :=
  (clearFree (listRemove s pfn) pfn).uncountFree z o

section entries

variable (s) (z : PmmZone) (o pfn : Nat) {f : PmmPfn → PmmPfn}

namespace Frame

theorem modify (hf : ∀ e, (f e).refcount = e.refcount) : Frame s (s.modify pfn f) := by
  refine ⟨rfl, rfl, fun i => ?_⟩
  rw [pfnTable_modify]
  split
  · rw [hf, ‹i = pfn›]
  · rfl

theorem modify? (pfn : Option Nat) (hf : ∀ e, (f e).refcount = e.refcount) : Frame s (s.modify? pfn f) := by
  cases pfn with
  | none => exact Frame.refl s
  | some pfn => exact Frame.modify s pfn hf

theorem setHead (v : Option Nat) : Frame s (s.setHead z o v) := ⟨rfl, rfl, fun _ => rfl⟩

end Frame

theorem publish_frame : Frame s (publish s z o pfn) := by
  have h1 : Frame s (listPush s z o pfn) :=
    ((Frame.modify s pfn (by intro; rfl)).trans (Frame.modify? _ _ (by intro; rfl))).trans
      (Frame.setHead _ _ _ _)
  exact ⟨h1.pfnCount, h1.mmZeroPage, h1.refcount⟩

theorem withdraw_frame :
    Frame s (withdraw s z o pfn) := by
  have h1 : Frame s (unlinkNext s pfn (s.pfnTable pfn)) := by
    unfold unlinkNext
    cases (s.pfnTable pfn).prev with
    | none => exact Frame.setHead _ _ _ _
    | some p => exact Frame.modify _ _ (by intro; rfl)
  have h2 : Frame s (listRemove s pfn) := by
    unfold listRemove
    exact (h1.trans (Frame.modify? _ _ (by intro; rfl))).trans (Frame.modify _ _ (by intro; rfl))
  have h3 : Frame s (clearFree (listRemove s pfn) pfn) := h2.trans (Frame.modify _ _ (by intro; rfl))
  exact ⟨h3.pfnCount, h3.mmZeroPage, h3.refcount⟩

theorem publish_entry (i : Nat) :
    ((publish s z o pfn).pfnTable i).free = (if i = pfn then true else (s.pfnTable i).free) ∧
      ((publish s z o pfn).pfnTable i).order = (if i = pfn then o else (s.pfnTable i).order) := by
  simp only [publish, listPush, pfnTable_countFree, pfnTable_setHead, pfnTable_modify?,
    pfnTable_modify]
  by_cases hi : i = pfn
  · subst hi
    by_cases hh : s.freeListHead z o = some i <;> simp [hh]
  · by_cases hh : s.freeListHead z o = some i <;> simp [hi, hh]

theorem withdraw_entry (i : Nat) :
    ((withdraw s z o pfn).pfnTable i).free = (if i = pfn then false else (s.pfnTable i).free) ∧
      ((withdraw s z o pfn).pfnTable i).order = (s.pfnTable i).order := by
  have h1 : ∀ j, ((unlinkNext s pfn (s.pfnTable pfn)).pfnTable j).free = (s.pfnTable j).free ∧
      ((unlinkNext s pfn (s.pfnTable pfn)).pfnTable j).order = (s.pfnTable j).order := by
    intro j
    unfold unlinkNext
    cases (s.pfnTable pfn).prev with
    | none => simp
    | some p => by_cases hj : j = p <;> simp [hj]
  simp only [withdraw, clearFree, listRemove, pfnTable_uncountFree, pfnTable_modify?,
    pfnTable_modify]
  by_cases hi : i = pfn
  · subst hi
    by_cases hn : (s.pfnTable i).next = some i <;> simp [hn, h1]
  · by_cases hn : (s.pfnTable pfn).next = some i <;> simp [hi, hn, h1]

theorem links_publish : (publish s z o pfn).links = s.links.push (s.freeListHead z o) pfn := by
  ext1
  all_goals
    funext i
    simp only [links, publish, listPush, pfnTable_countFree, pfnTable_setHead, pfnTable_modify?,
      pfnTable_modify, Links.push, Links.next_setPrev?, Links.next_setNext, Links.next_setPrev,
      Links.prev_setPrev?, Links.prev_setNext, Links.prev_setPrev]
    by_cases hi : i = pfn
    · subst hi
      by_cases hh : s.freeListHead z o = some i <;> simp [hh]
    · by_cases hh : s.freeListHead z o = some i <;> simp [hi, hh]

theorem links_withdraw :
    (withdraw s z o pfn).links = s.links.unlink pfn := by
  have h1 : (unlinkNext s pfn (s.pfnTable pfn)).links =
      s.links.setNext? (s.links.prev pfn) (s.links.next pfn) := by
    simp only [unlinkNext, links]
    cases (s.pfnTable pfn).prev with
    | none => rfl
    | some p =>
      ext1
      · funext i
        by_cases hi : i = p <;> simp [Links.setNext?, hi]
      · funext i
        by_cases hi : i = p <;> simp [Links.setNext?, hi]
  have hnext : ∀ i, ((unlinkNext s pfn (s.pfnTable pfn)).pfnTable i).next = _ :=
    fun i => congrFun (congrArg Links.next h1) i
  have hprev : ∀ i, ((unlinkNext s pfn (s.pfnTable pfn)).pfnTable i).prev = _ :=
    fun i => congrFun (congrArg Links.prev h1) i
  ext1
  · funext i
    by_cases hi : i = pfn
    · simp [links, withdraw, clearFree, listRemove, Links.unlink, hi]
    · by_cases hn : (s.pfnTable pfn).next = some i <;>
        simp [links, withdraw, clearFree, listRemove, Links.unlink, hi, hn, hnext]
  · funext i
    by_cases hi : i = pfn
    · simp [links, withdraw, clearFree, listRemove, Links.unlink, hi]
    · by_cases hn : (s.pfnTable pfn).next = some i <;>
        simp [links, withdraw, clearFree, listRemove, Links.unlink, hi, hn, hprev]

theorem freeListHead_publish (z' : PmmZone) (o' : Nat) :
    (publish s z o pfn).freeListHead z' o' =
      if z' = z ∧ o' = o then some pfn else s.freeListHead z' o' := by
  simp [publish, listPush]

theorem freeListHead_withdraw (z' : PmmZone) (o' : Nat) :
    (withdraw s z o pfn).freeListHead z' o' =
      if (s.pfnTable pfn).prev = none ∧ z' = zoneOfPfn pfn ∧ o' = (s.pfnTable pfn).order
      then (s.pfnTable pfn).next else s.freeListHead z' o' := by
  simp only [withdraw, clearFree, listRemove, freeListHead_uncountFree, freeListHead_modify,
    freeListHead_modify?, unlinkNext, zoneOfPfn]
  cases (s.pfnTable pfn).prev <;> simp

theorem stats_withdraw :
    (withdraw s z o pfn).stats = (s.uncountFree z o).stats := by
  have h : (listRemove s pfn).stats = s.stats := by
    simp only [listRemove, stats_modify, stats_modify?, unlinkNext]
    cases (s.pfnTable pfn).prev <;> rfl
  simp [withdraw, PmmState.uncountFree, clearFree, h]

theorem stats_publish : (publish s z o pfn).stats = (s.countFree z o).stats := by
  simp [publish, PmmState.countFree, listPush]

end entries

theorem freeBlocks_publish (z : PmmZone) (hfree : (s.pfnTable pfn).free = false) :
    (publish s z o pfn).freeBlocks = insert ⟨pfn, o⟩ s.freeBlocks := by
  ext b
  obtain ⟨i, k⟩ := b
  have h := publish_entry s z o pfn i
  simp only [freeBlocks, Set.mem_ofPred_eq, Set.mem_insert_iff, Block.mk.injEq, h.1, h.2]
  by_cases hi : i = pfn
  · simp [hi, hfree, eq_comm]
  · simp [hi]

theorem freeBlocks_withdraw (z : PmmZone) (hb : (⟨pfn, o⟩ : Block) ∈ s.freeBlocks) :
    (withdraw s z o pfn).freeBlocks = s.freeBlocks \ {⟨pfn, o⟩} := by
  ext b
  obtain ⟨i, k⟩ := b
  have h := withdraw_entry s z o pfn i
  have hbo : (s.pfnTable pfn).order = o := hb.2
  simp only [freeBlocks, Set.mem_ofPred_eq, Set.mem_sdiff, Set.mem_singleton_iff, Block.mk.injEq,
    h.1, h.2]
  by_cases hi : i = pfn
  · subst hi
    simp only [if_true, Bool.false_eq_true, false_and, true_and, false_iff, not_and, not_not,
      and_imp]
    intro _ hk
    omega
  · simp [hi]

theorem Lists.eq_of_mem (h : Lists s L) {z z' : PmmZone} (ho : o < pmmMaxOrder) (ho' : o' < pmmMaxOrder)
    (hi : i ∈ L z o) (hi' : i ∈ L z' o') : z = z' ∧ o = o' := by
  obtain ⟨⟨-, hk⟩, hz⟩ := (h.mem_iff z o i ho).1 hi
  obtain ⟨⟨-, hk'⟩, hz'⟩ := (h.mem_iff z' o' i ho').1 hi'
  exact ⟨hz.symm.trans hz', hk.symm.trans hk'⟩

-- One list is replaced, and the counts go with its length.
theorem Lists.set (h : Lists s L) {z : PmmZone} {l : List Nat} (ho : o < pmmMaxOrder)
    (hlink : Linked s'.links none (s'.freeListHead z o) l) (hnd : l.Nodup)
    (hother : ∀ z' o', o' < pmmMaxOrder → ¬ (z' = z ∧ o' = o) →
      Linked s'.links none (s'.freeListHead z' o') (L z' o'))
    (hmem : ∀ i, i ∈ l ↔ (⟨i, o⟩ : Block) ∈ s'.freeBlocks ∧ zoneOfPfn i = z)
    (hrest : ∀ b : Block, ¬ (zoneOfPfn b.start = z ∧ b.order = o) → (b ∈ s'.freeBlocks ↔ b ∈ s.freeBlocks))
    (horder : ∀ o', s'.stats.freeByOrder o' + (if o' = o then (L z o).length else 0) =
      s.stats.freeByOrder o' + if o' = o then l.length else 0)
    (hzone : ∀ z', s'.stats.zoneFree z' + (if z' = z then (L z o).length * 2 ^ o else 0) =
      s.stats.zoneFree z' + if z' = z then l.length * 2 ^ o else 0)
    (hpages : s'.stats.freePages + (L z o).length * 2 ^ o = s.stats.freePages + l.length * 2 ^ o) :
    Lists s' (fun z' o' => if z' = z ∧ o' = o then l else L z' o') where
  linked z' o' ho' := by
    by_cases hc : z' = z ∧ o' = o
    · rw [if_pos hc, hc.1, hc.2]
      exact hlink
    · rw [if_neg hc]
      exact hother z' o' ho' hc
  nodup z' o' ho' := by
    split_ifs
    · exact hnd
    · exact h.nodup z' o' ho'
  mem_iff z' o' i ho' := by
    by_cases hc : z' = z ∧ o' = o
    · rw [if_pos hc, hc.1, hc.2, hmem]
    · rw [if_neg hc, h.mem_iff z' o' i ho']
      exact and_congr_left fun hz => (hrest ⟨i, o'⟩ fun he => hc ⟨hz.symm.trans he.1, he.2⟩).symm
  order_lt b hb := by
    by_cases hc : zoneOfPfn b.start = z ∧ b.order = o
    · exact hc.2 ▸ ho
    · exact h.order_lt b ((hrest b hc).1 hb)
  freeByOrder o' ho' := by
    have hold := h.freeByOrder o' ho'
    have hnew := horder o'
    by_cases hc : o' = o
    · subst hc
      cases z <;> simp at hnew ⊢ <;> omega
    · simpa [hc, hold] using hnew
  zoneFree z' := by
    have hnew := hzone z'
    rw [h.zoneFree z'] at hnew
    by_cases hc : z' = z
    · subst hc
      have hsum := sum_shift (f := fun o' => (L z' o').length * 2 ^ o')
        (g := fun o' => (if o' = o then l else L z' o').length * 2 ^ o') (Finset.mem_range.2 ho)
        fun j _ hj => by simp [hj]
      simp only [true_and, if_true] at hnew hsum ⊢
      omega
    · simpa [hc] using hnew
  freePages := by
    have hold := h.freePages
    have hd := hzone .dma
    have hn := hzone .normal
    cases z <;> simp at hd hn <;> omega

theorem Lists.publish (h : Lists s L) (ho : o < pmmMaxOrder) (hfree : (s.pfnTable pfn).free = false) :
    Lists (publish s (zoneOfPfn pfn) o pfn)
      (fun z' o' => if z' = zoneOfPfn pfn ∧ o' = o then pfn :: L (zoneOfPfn pfn) o else L z' o') := by
  set z := zoneOfPfn pfn with hz
  have hnot : ∀ z' o', o' < pmmMaxOrder → pfn ∉ L z' o' := by
    intro z' o' ho' hmem
    have := ((h.mem_iff z' o' pfn ho').1 hmem).1.1
    simp [hfree] at this
  apply h.set ho
  · rw [links_publish, freeListHead_publish]
    simpa using (h.linked _ _ ho).push (h.nodup _ _ ho) (hnot _ _ ho)
  · exact List.nodup_cons.2 ⟨hnot _ _ ho, h.nodup _ _ ho⟩
  · intro z' o' ho' hc
    rw [links_publish, freeListHead_publish, if_neg hc]
    refine (h.linked z' o' ho').congr (fun i hi => ?_) (fun i hi => ?_)
    · have hip : i ≠ pfn := fun he => hnot z' o' ho' (he ▸ hi)
      simp [Links.push, hip]
    have hip : i ≠ pfn := fun he => hnot z' o' ho' (he ▸ hi)
    have hih : s.freeListHead z o ≠ some i := by
      intro he
      rw [(h.linked z o ho).head?] at he
      exact hc (h.eq_of_mem ho' ho hi (List.mem_of_mem_head? he))
    simp [Links.push, hip, hih]
  · intro i
    rw [freeBlocks_publish z hfree, Set.mem_insert_iff, Block.mk.injEq, List.mem_cons, h.mem_iff _ _ _ ho]
    constructor
    · rintro (rfl | hi)
      · exact ⟨.inl ⟨rfl, rfl⟩, rfl⟩
      · exact ⟨.inr hi.1, hi.2⟩
    · rintro ⟨⟨rfl, -⟩ | hi, hzi⟩
      · exact .inl rfl
      · exact .inr ⟨hi, hzi⟩
  · intro b hc
    rw [freeBlocks_publish z hfree, Set.mem_insert_iff, or_iff_right]
    rintro rfl
    exact hc ⟨rfl, rfl⟩
  · intro o'
    simp only [stats_publish, PmmState.countFree, update_apply, List.length_cons]
    split_ifs with hc
    · rw [hc]
      omega
    · rfl
  · intro z'
    simp only [stats_publish, PmmState.countFree, update_apply, List.length_cons, Nat.add_mul]
    split_ifs with hc
    · rw [hc]
      omega
    · rfl
  · simp only [stats_publish, PmmState.countFree, List.length_cons, Nat.add_mul]
    omega

theorem Lists.withdraw (h : Lists s L) (hb : (⟨pfn, o⟩ : Block) ∈ s.freeBlocks) :
    Lists (withdraw s (zoneOfPfn pfn) o pfn)
      (fun z' o' => if z' = zoneOfPfn pfn ∧ o' = o then (L (zoneOfPfn pfn) o).erase pfn else L z' o') := by
  set z := zoneOfPfn pfn with hz
  have ho : o < pmmMaxOrder := h.order_lt _ hb
  have hbo := hb.2
  have hmem : pfn ∈ L z o := (h.mem_iff z o pfn ho).2 ⟨hb, rfl⟩
  obtain ⟨A, B, hAB⟩ := List.append_of_mem hmem
  have hnd := h.nodup z o ho
  have hlink := h.linked z o ho
  rw [hAB] at hnd hlink
  have hpA : pfn ∉ A := fun hc => (List.disjoint_of_nodup_append hnd hc) (by simp)
  have herase : (L z o).erase pfn = A ++ B := by
    rw [hAB, List.erase_append_right _ hpA, List.erase_cons_head]
  have hnb := hlink.neighbours
  have hlen := List.length_erase_add_one hmem
  -- the statistics cannot go below zero
  have hle : 2 ^ o ≤ s.stats.zoneFree z := by
    rw [h.zoneFree]
    have hpos := List.length_pos_of_mem hmem
    calc 2 ^ o ≤ (L z o).length * 2 ^ o := Nat.le_mul_of_pos_left _ hpos
      _ ≤ _ := Finset.single_le_sum (f := fun o => (L z o).length * 2 ^ o)
          (fun _ _ => Nat.zero_le _) (Finset.mem_range.2 ho)
  have hmul : (L z o).length * 2 ^ o = ((L z o).erase pfn).length * 2 ^ o + 2 ^ o := by
    rw [← hlen, Nat.add_mul, Nat.one_mul]
  apply h.set ho
  · rw [links_withdraw, freeListHead_withdraw, hbo, herase]
    have hres := hlink.unlink hnd
    have hprev : (s.pfnTable pfn).prev = none ↔ A = [] := by
      have : (s.pfnTable pfn).prev = A.getLast? := by simpa [links] using hnb.1
      rw [this, List.getLast?_eq_none_iff]
    by_cases hA : A = []
    · simpa [hA, hprev, ← hz, links] using hres
    · simpa [hA, hprev, links] using hres
  · exact (h.nodup _ _ ho).erase _
  · intro z' o' ho' hc
    rw [links_withdraw, freeListHead_withdraw, hbo, if_neg (fun hc' => hc hc'.2)]
    have hout : ∀ i ∈ L z' o', i ∉ L z o := fun i hi hi' => hc (h.eq_of_mem ho' ho hi hi')
    refine (h.linked z' o' ho').congr (fun i hi => ?_) (fun i hi => ?_)
    · have hip : i ≠ pfn := fun he => hout i hi (he ▸ hmem)
      rw [Links.next_unlink _ _ hip, if_neg]
      rw [hnb.1]
      intro he
      refine hout i hi ?_
      rw [hAB]
      simp [List.mem_of_getLast? (by simpa using he : A.getLast? = some i)]
    · have hip : i ≠ pfn := fun he => hout i hi (he ▸ hmem)
      rw [Links.prev_unlink _ _ hip, if_neg]
      rw [hnb.2]
      intro he
      refine hout i hi ?_
      rw [hAB]
      simp [List.mem_of_mem_head? he]
  · intro i
    rw [freeBlocks_withdraw z hb, Set.mem_sdiff, Set.mem_singleton_iff, Block.mk.injEq,
      (h.nodup _ _ ho).mem_erase_iff, h.mem_iff _ _ _ ho]
    tauto
  · intro b hc
    rw [freeBlocks_withdraw z hb, Set.mem_sdiff, and_iff_left]
    rintro rfl
    exact hc ⟨rfl, rfl⟩
  · intro o'
    simp only [stats_withdraw, PmmState.uncountFree, update_apply]
    split_ifs with hc
    · have hold := h.freeByOrder o ho
      rw [hc]
      cases hzc : z <;> rw [hzc] at hlen <;> omega
    · rfl
  · intro z'
    simp only [stats_withdraw, PmmState.uncountFree, update_apply]
    split_ifs with hc
    · rw [hc]
      omega
    · rfl
  · have hold := h.freePages
    simp only [stats_withdraw, PmmState.uncountFree]
    cases hzc : z <;> rw [hzc] at hle hmul <;> omega

end Jnu.Pmm
