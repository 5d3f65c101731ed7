import Jnu.Mm.Boot

namespace Jnu.Mm

open Lib.Dyadic Lib.Effect Paging Pmm
open Function

variable {k k' : Kern} {R : Set Nat} {K : Set Block} {pa sp' chosen len : Nat} {v r : Option Nat}

-- The heap serves every call from its one page, which an object of the kernel keeps.
structure Roomy (k : Kern) (pa : Nat) : Prop where
  room : ∀ i, k.heap.room i = some 0
  homes : ∀ o ∈ k.heap.live, o.2 = pa
  keeper : (0, pa) ∈ k.heap.live

theorem Roomy.bootKern (s : Phys) (pa : Nat) (rand : Nat → Nat) : Roomy (bootKern s pa rand) pa :=
  ⟨fun _ => rfl, by simp [Mm.bootKern], by simp [Mm.bootKern]⟩

theorem Roomy.slabs (h : Roomy k pa) : k.heap.slabs = [pa] := by
  unfold Heap.slabs
  have hmap : k.heap.live.map Prod.snd = List.replicate k.heap.live.length pa := by
    rw [List.eq_replicate_iff, List.length_map]
    refine ⟨rfl, fun q hq => ?_⟩
    obtain ⟨o, ho, rfl⟩ := List.mem_map.1 hq
    exact h.homes o ho
  rw [hmap, List.replicate_dedup]
  intro hc
  have := h.keeper
  rw [List.length_eq_zero_iff.1 hc] at this
  cases this

theorem Roomy.spot (h : Roomy k pa) : k.heap.spot = some pa := by
  unfold Heap.spot
  rw [h.room, h.slabs]
  rfl

theorem Roomy.kzalloc (h : Roomy k pa) :
    kzalloc.run k = done (some k.heap.next) { k with heap := k.heap.give pa } := by
  unfold Mm.kzalloc
  rw [run_bind_ok (run_read _ k), h.spot]
  rfl

theorem Roomy.give (h : Roomy k pa) (hk : k'.heap = k.heap.give pa) : Roomy k' pa := by
  refine ⟨?_, ?_, ?_⟩
  · rw [hk]
    exact h.room
  · rw [hk]
    exact List.forall_mem_cons.2 ⟨rfl, h.homes⟩
  · rw [hk]
    exact List.mem_cons_of_mem _ h.keeper

theorem Roomy.createSpace (hr : Roomy k pa) (h : Base k R K) (hf : 0 < freeCount k.phys) :
    ∃ s' a k', vmmCreateSpace.run k = done (some k.heap.next) k' ∧
      k' = { k with
        phys := s'
        space := update k.space k.heap.next (some a)
        heap := k.heap.give pa
        draws := k.draws + 1 } ∧
      k'.space k.heap.next = some a ∧ a.vmas = .empty ∧
      a.mmapBase = mmapBaseTop - k.rand k.draws % 262144 * pageSize ∧
      Base k' R K ∧ Idle k k' ∧ freeCount k.phys ≤ freeCount s' + 1 := by
  obtain ⟨hb1, hi1, -, -⟩ := (kzalloc_spec h).of_ok hr.kzalloc
  have hrest := createSpace_rest (k := { k with heap := k.heap.give pa }) hb1
    (h.space_fresh (Nat.le_refl _)) (Nat.lt_succ_self _)
  obtain ⟨r, k', hrun, hb', hi', ⟨-, -, hzero⟩ | ⟨rfl, hfree, s', pml4, hk'⟩⟩ := hrest.exists_ok
  · exact absurd hzero (Nat.pos_iff_ne_zero.1 hf)
  refine ⟨s', _, k', ?_, hk', ?_, rfl, rfl, hb', hi1.trans hi', ?_⟩
  · unfold vmmCreateSpace
    rw [run_bind_ok hr.kzalloc]
    exact hrun
  · rw [hk']
    exact update_self ..
  · rw [hk'] at hfree
    exact hfree

def Kern.plant (k : Kern) (pa sp : Nat) (t : VmaTree) : Kern :=
  ({ k with heap := k.heap.give pa } : Kern).setVmas sp t

section runs

variable {sp : Nat} {a : AddrSpace} {t : VmaTree}

theorem Roomy.plant (h : Roomy k pa) : Roomy (k.plant pa sp t) pa := h.give rfl

theorem Roomy.plant_base (h : Roomy k pa) (hb : Base k R K) :
    Base (k.plant pa sp t) R K ∧ Idle k (k.plant pa sp t) := by
  obtain ⟨hb1, hi1, -⟩ := (kzalloc_spec hb).of_ok h.kzalloc
  exact ⟨hb1.setVmas, hi1.trans .setVmas⟩

theorem plant_self (pa : Nat) (t : VmaTree) (ha : k.space sp = some a) :
    (k.plant pa sp t).space sp = some { a with vmas := t } := by
  unfold Kern.plant
  exact setVmas_self ha

theorem plant_of_ne (h : sp' ≠ sp) : (k.plant pa sp t).space sp' = k.space sp' :=
  setVmas_of_ne h

theorem Roomy.insertAnonymous {vf : VmaFlags} (h : Roomy k pa)
    (ha : k.space sp = some a)
    (hins : vmaInsert (a.vmas.set k.heap.next ⟨chosen, wrap64 (chosen + len), vf⟩) k.heap.next =
      some (.ok t)) :
    (insertAnonymous sp chosen len vf).run k = done chosen (k.plant pa sp t) := by
  unfold Mm.insertAnonymous
  rw [run_bind_ok h.kzalloc]
  have ha' : ({ k with heap := k.heap.give pa } : Kern).space sp = some a := ha
  rw [run_bind_ok (run_vmasOf ha'), run_bind_ok (run_known hins)]
  rfl

theorem removeRange_nothing (start stop : Nat) (ha : k.space sp = some a) (hlt : start < stop)
    (hl : vmaFind a.vmas start = some none) (hr : vmaFind a.vmas (stop - 1) = some r)
    (hr' : ∀ id, r = some id → (a.vmas.vma id).stop ≤ stop) (hv : vmaAtOrAbove a.vmas start = some v)
    (hv' : ∀ id, v = some id → stop ≤ (a.vmas.vma id).start) :
    (vmaRemoveRange sp (some sp) start stop).run k = done () k := by
  have hleft : (splitLeft sp start).run k = done () k := by
    unfold splitLeft
    rw [run_bind_ok (run_vmasOf ha), run_bind_ok (run_known hl)]
    rfl
  have hright : (splitRight sp stop).run k = done () k := by
    unfold splitRight
    rw [run_bind_ok (run_vmasOf ha), run_bind_ok (run_known hr)]
    cases r with
    | none => rfl
    | some id =>
      dsimp only
      rw [if_neg (by have := hr' id rfl; omega)]
      rfl
  unfold vmaRemoveRange
  rw [if_neg (by omega), run_bind_ok hleft, run_bind_ok hright, run_bind_ok (run_vmasOf ha),
    run_bind_ok (run_known hv), removeLoop.eq_def]
  cases v with
  | none => rfl
  | some id =>
    rw [run_bind_ok (run_vmasOf ha), if_neg (by have := hv' id rfl; omega)]
    rfl

section

variable (h : Roomy k pa) (addr length : Nat) (prot : BitVec 32) (ha : k.space sp = some a)
  (hlen : length ≠ 0) (hlen' : pageAlignUp length ≠ 0)
  (hwx : ¬ (hasBit prot protWrite ∧ hasBit prot protExec))
include h addr length prot ha hlen hlen' hwx

theorem Roomy.mapAnywhere
    (hgap : vmaFindGapTopDown a.vmas (pageAlignUp length) a.mmapBase = some chosen) (hchosen : chosen ≠ 0)
    (hins : vmaInsert (a.vmas.set k.heap.next 
      ⟨chosen, wrap64 (chosen + pageAlignUp length), protToVma prot⟩) k.heap.next = some (.ok t)) :
    (vmmMapAnonymous sp addr length prot (mapPrivate ||| Mm.mapAnonymous)).run k =
      done chosen (k.plant pa sp t) := by
  unfold vmmMapAnonymous
  rw [if_neg hlen, if_neg hlen', if_neg (by decide), if_neg (by decide), if_neg hwx,
    if_neg (by decide), run_bind_ok (run_spaceOf ha), run_bind_ok (run_known hgap), if_neg hchosen]
  exact h.insertAnonymous ha hins

theorem Roomy.mapFixed (hal : addr % pageSize = 0) (hfloor : pageSize ≤ addr)
    (htop : addr + pageAlignUp length ≤ userTop)
    (hrem : (vmaRemoveRange sp (some sp) addr (addr + pageAlignUp length)).run k = done () k)
    (hins : vmaInsert (a.vmas.set k.heap.next 
      ⟨addr, wrap64 (addr + pageAlignUp length), protToVma prot⟩) k.heap.next = some (.ok t)) :
    (vmmMapAnonymous sp addr length prot (mapPrivate ||| Mm.mapAnonymous ||| Mm.mapFixed)).run k =
      done addr (k.plant pa sp t) := by
  have hwrap : wrap64 (addr + pageAlignUp length) = addr + pageAlignUp length := by
    apply Nat.mod_eq_of_lt
    simp only [userTop] at htop
    omega
  have hfl : hasBit (mapPrivate ||| Mm.mapAnonymous ||| Mm.mapFixed) Mm.mapFixed = true := by decide
  unfold vmmMapAnonymous
  rw [if_neg hlen, if_neg hlen', if_neg (by decide), if_neg (by decide), if_neg hwx, if_pos hfl,
    if_neg (by omega), if_neg (by omega), if_neg (by rw [hwrap]; omega), hwrap, run_bind_ok hrem]
  exact h.insertAnonymous ha hins

end

end runs

end Jnu.Mm
