import Jnu.Paging.Invariant

namespace Jnu.Paging

open Lib.Dyadic Lib.Effect Pmm PmmState PhysM
open Function

variable {s s' s'' : Phys} {R : Set Nat} {roots : Nat → Option Nat} {O H : Set Block} {x : Nat → Nat}
  {sp k n f v vpn c : Nat} {e : BitVec 64} {m mem : Mem}

theorem word_eq (f i : Nat) : f * pageSize / 8 + i = f * 512 + i := by
  simp only [pageSize]
  omega

theorem run_readEntry (f i : Nat) (s : Phys) :
    (readEntry (f * pageSize) i).run s = done (s.mem (f * 512 + i)) s := by
  unfold readEntry
  rw [run_read, word_eq]

theorem run_orPanic {f : Phys → Except Panic Phys} (h : f s = .ok s') :
    (orPanic f).run s = done () s' := by
  unfold Prog.run orPanic
  rw [h]

theorem tableAt_child (ht : tableAt m roots sp k (n / 512) = some f) :
    tableAt m roots sp (k + 1) n = child m f (n % 512) := by
  rw [tableAt_succ, ht]
  rfl

theorem tableAt_none (ht : tableAt m roots sp k (n / 512) = none) :
    tableAt m roots sp (k + 1) n = none := by
  rw [tableAt_succ, ht]
  rfl

theorem tableFor_find (hs : Shape s.mem roots) (hpos : UserPos (k + 1) n)
    (ht : tableAt s.mem roots sp k (n / 512) = some f) (flags : BitVec 64) :
    (tableFor (f * pageSize) (n % 512) false flags).run s =
      done ((tableAt s.mem roots sp (k + 1) n).map (· * pageSize)) s := by
  unfold tableFor
  rw [run_bind_ok (run_readEntry f (n % 512) s), tableAt_succ, ht]
  by_cases hp : has (s.mem (f * 512 + n % 512)) ptePresent
  · have hinner := hs.inner sp k n f hpos ht hp
    rw [if_pos hp, if_neg (by simp [hinner.huge])]
    simp [child, hp, pteAddr_frame]
  · simp [child, hp]

theorem pml4Idx_eq (v : Nat) : pml4Idx v = v / pageSize / 512 / 512 / 512 % 512 := by
  simp only [pml4Idx, pageSize]
  omega

theorem pdptIdx_eq (v : Nat) : pdptIdx v = v / pageSize / 512 / 512 % 512 := by
  simp only [pdptIdx, pageSize]
  omega

theorem pdIdx_eq (v : Nat) : pdIdx v = v / pageSize / 512 % 512 := by
  simp only [pdIdx, pageSize]
  omega

theorem ptIdx_eq (v : Nat) : ptIdx v = v / pageSize % 512 := rfl

theorem userPos_page (hv : vpn < userPages) :
    UserPos 1 (vpn / 512 / 512 / 512) ∧ UserPos 2 (vpn / 512 / 512) ∧ UserPos 3 (vpn / 512) := by
  have h3 := userPos_leaf hv
  have h2 := userPos_admissible.up h3
  exact ⟨userPos_admissible.up h2, h2, h3⟩

section

variable (hs : Shape s.mem roots) (hroot : roots sp = some f) (hv : v / pageSize < userPages)
include hs hroot hv

theorem ptFor_find (flags : BitVec 64) :
    (ptFor (f * pageSize) v false flags).run s =
      done ((tableAt s.mem roots sp 3 (v / pageSize / 512)).map (· * pageSize)) s := by
  obtain ⟨h1, h2, h3⟩ := userPos_page hv
  unfold ptFor
  rw [pml4Idx_eq, pdptIdx_eq, pdIdx_eq,
    run_bind_ok (tableFor_find (n := v / pageSize / 512 / 512 / 512) hs h1 hroot flags)]
  cases ht1 : tableAt s.mem roots sp 1 (v / pageSize / 512 / 512 / 512) with
  | none =>
    rw [tableAt_none (tableAt_none ht1)]
    rfl
  | some f1 =>
    simp only [Option.map_some]
    rw [run_bind_ok (tableFor_find hs h2 ht1 flags)]
    cases ht2 : tableAt s.mem roots sp 2 (v / pageSize / 512 / 512) with
    | none =>
      rw [tableAt_none ht2]
      rfl
    | some f2 =>
      exact tableFor_find hs h3 ht2 flags

theorem pagingGetFlags_run :
    (pagingGetFlags (f * pageSize) v).run s = some (.ok (match pte s.mem roots sp (v / pageSize) with
      | some e => .ok e
      | none => .error .enoent, s)) := by
  obtain ⟨h1, h2, h3⟩ := userPos_page hv
  unfold pagingGetFlags
  rw [pml4Idx_eq, pdptIdx_eq, pdIdx_eq, ptIdx_eq,
    run_bind_ok (tableFor_find (n := v / pageSize / 512 / 512 / 512) hs h1 hroot 0)]
  cases ht1 : tableAt s.mem roots sp 1 (v / pageSize / 512 / 512 / 512) with
  | none =>
    rw [pte_none_of_table (tableAt_none (tableAt_none ht1))]
    rfl
  | some f1 =>
    simp only [Option.map_some]
    rw [run_bind_ok (run_readEntry f1 _ s)]
    by_cases hp1 : has (s.mem (f1 * 512 + v / pageSize / 512 / 512 % 512)) ptePresent
    · have hi1 := hs.inner sp 1 _ f1 h2 ht1 hp1
      rw [if_neg (by simp [hp1]), if_neg (by simp [hi1.huge]),
        run_bind_ok (tableFor_find hs h2 ht1 0)]
      have ht2 := (tableAt_child ht1).trans (if_pos hp1)
      rw [ht2]
      simp only [Option.map_some]
      set f2 := pteFrame (s.mem (f1 * 512 + v / pageSize / 512 / 512 % 512)) with hf2
      rw [run_bind_ok (run_readEntry f2 _ s)]
      by_cases hp2 : has (s.mem (f2 * 512 + v / pageSize / 512 % 512)) ptePresent
      · have hi2 := hs.inner sp 2 _ f2 h3 ht2 hp2
        rw [if_neg (by simp [hp2]), if_neg (by simp [hi2.huge]),
          run_bind_ok (tableFor_find hs h3 ht2 0)]
        have ht3 := (tableAt_child ht2).trans (if_pos hp2)
        rw [ht3]
        simp only [Option.map_some]
        rw [run_bind_ok (run_readEntry _ _ s), pte_of_table hv ht3]
        by_cases hp3 : has (s.mem (pteFrame (s.mem (f2 * 512 + v / pageSize / 512 % 512)) * 512 +
            v / pageSize % 512)) ptePresent
        · rw [if_pos hp3, if_pos hp3]
          rfl
        · rw [if_neg hp3, if_neg hp3]
          rfl
      · rw [if_pos (by simpa using hp2), pte_none_of_table ((tableAt_child ht2).trans (if_neg hp2))]
        rfl
    · have ht2 := (tableAt_child ht1).trans (if_neg hp1)
      rw [if_pos (by simpa using hp1), pte_none_of_table (tableAt_none ht2)]
      rfl

theorem translate_eq :
    translate s.mem (f * pageSize) v = (pte s.mem roots sp (v / pageSize)).map fun e =>
      ⟨pteAddr e + v % pageSize, true, has e pteWrite, !has e pteNx⟩ := by
  obtain ⟨h1, h2, h3⟩ := userPos_page hv
  have hword : ∀ g i, pteAddr g / 8 + i = pteFrame g * 512 + i := by
    intro g i
    rw [pteAddr_frame, word_eq]
  unfold translate
  simp only [word_eq, hword, pml4Idx_eq, pdptIdx_eq, pdIdx_eq, ptIdx_eq]
  set e4 := s.mem (f * 512 + v / pageSize / 512 / 512 / 512 % 512) with he4
  by_cases hp4 : has e4 ptePresent
  · have hi4 := hs.inner sp 0 _ f h1 hroot hp4
    have ht1 := (tableAt_child (k := 0) hroot).trans (if_pos hp4)
    set e3 := s.mem (pteFrame e4 * 512 + v / pageSize / 512 / 512 % 512) with he3
    by_cases hp3 : has e3 ptePresent
    · have hi3 := hs.inner sp 1 _ _ h2 ht1 hp3
      have ht2 := (tableAt_child ht1).trans (if_pos hp3)
      set e2 := s.mem (pteFrame e3 * 512 + v / pageSize / 512 % 512) with he2
      by_cases hp2 : has e2 ptePresent
      · have hi2 := hs.inner sp 2 _ _ h3 ht2 hp2
        have ht3 : tableAt s.mem roots sp 3 (v / pageSize / 512) = some (pteFrame e2) :=
          (tableAt_child ht2).trans (if_pos hp2)
        have hpte := pte_of_table hv ht3
        set e1 := s.mem (pteFrame e2 * 512 + v / pageSize % 512) with he1
        by_cases hp1 : has e1 ptePresent
        · rw [if_pos hp1] at hpte
          have hleaf := hs.leaf sp _ e1 hpte
          rw [← he4] at hi4
          rw [← he3] at hi3
          rw [← he2] at hi2
          rw [hpte]
          simp [hp4, hp3, hp2, hp1, hi3.huge, hi2.huge, guard, Translation.under,
            Translation.ofEntry, hi4.user, hi4.write, hi4.nx, hi3.user, hi3.write, hi3.nx, hi2.user,
            hi2.write, hi2.nx, hleaf.user, pageSize]
        · rw [← he3] at hi3
          rw [← he2] at hi2
          simp [hpte, hp4, hp3, hp2, hp1, hi3.huge, hi2.huge, guard]
      · have ht3 := (tableAt_child ht2).trans (if_neg hp2)
        rw [← he3] at hi3
        simp [pte_none_of_table ht3, hp4, hp3, hp2, hi3.huge, guard]
    · have ht2 := (tableAt_child ht1).trans (if_neg hp3)
      simp [pte_none_of_table (tableAt_none ht2), hp4, hp3, guard]
  · have ht1 := (tableAt_child (k := 0) hroot).trans (if_neg hp4)
    simp [pte_none_of_table (tableAt_none (tableAt_none ht1)), hp4, guard]

end

noncomputable def freeCount (s : Phys) : Nat := {n | Covers s.pmm.freeBlocks n}.ncard

theorem freeSet_finite (h : PmmInv s.pmm R H) : {n | Covers s.pmm.freeBlocks n}.Finite := by
  apply (Set.finite_lt_nat s.pmm.pfnCount).subset
  intro n hn
  exact (h.bound n ((h.cover n).2 (.inl hn))).2

theorem freeCount_take (h : PmmInv s.pmm R H)
    (h' : PmmInv s'.pmm R (insert (⟨f, 0⟩ : Block) H)) : freeCount s ≤ freeCount s' + 1 := by
  have hsub : {n | Covers s.pmm.freeBlocks n} ⊆ insert f {n | Covers s'.pmm.freeBlocks n} := by
    intro n hn
    simp only [Set.mem_ofPred_eq, h.covers_free_iff] at hn
    by_cases hnf : n = f
    · exact .inl hnf
    right
    simp only [Set.mem_ofPred_eq, h'.covers_free_iff]
    refine ⟨hn.1, ?_⟩
    rintro ⟨b, rfl | hb, hnb⟩
    · exact hnf (mem_page.1 hnb)
    · exact hn.2 ⟨b, hb, hnb⟩
  have hfin := freeSet_finite h'
  calc freeCount s ≤ (insert f {n | Covers s'.pmm.freeBlocks n}).ncard :=
        Set.ncard_le_ncard hsub (hfin.insert f)
    _ ≤ freeCount s' + 1 := Set.ncard_insert_le _ _

theorem freeCount_eq_zero (h : s.pmm.freeBlocks = ∅) : freeCount s = 0 := by
  unfold freeCount
  have : {n | Covers s.pmm.freeBlocks n} = ∅ := by
    apply Set.eq_empty_iff_forall_notMem.2
    rintro n ⟨b, hb, -⟩
    rw [h] at hb
    exact hb
  rw [this, Set.ncard_empty]

theorem PtInv.alloc_none (h : PtInv s R roots O x) {p : PmmState} (ha : pmmAllocPages s.pmm 0 = (0, p)) :
    p = s.pmm ∧ freeCount s = 0 := by
  have hspec := pmmAllocPagesLocked_spec h.phys.inv (show 0 < pmmMaxOrder by decide)
  rw [show pmmAllocPagesLocked s.pmm 0 = (0, p) from ha] at hspec
  obtain ⟨hsame, hno⟩ := hspec.failure rfl
  refine ⟨hsame, freeCount_eq_zero (Set.eq_empty_iff_forall_notMem.2 fun b hb => ?_)⟩
  have := hno b hb trivial
  omega

-- Page tables may have been added; nothing else has changed.
structure Grown (roots : Nat → Option Nat) (s s' : Phys) : Prop where
  zeroPage : s'.pmm.mmZeroPage = s.pmm.mmZeroPage
  refs : ∀ i, refs s' i = refs s i
  pte : ∀ sp v, pte s'.mem roots sp v = pte s.mem roots sp v
  table : ∀ sp k n f, UserPos k n → tableAt s.mem roots sp k n = some f →
    tableAt s'.mem roots sp k n = some f
  data : ∀ w, ¬ IsTable s'.mem roots (w / 512) → s'.mem w = s.mem w

theorem Grown.refl (roots : Nat → Option Nat) (s : Phys) : Grown roots s s :=
  ⟨rfl, fun _ => rfl, fun _ _ => rfl, fun _ _ _ _ _ h => h, fun _ _ => rfl⟩

theorem Grown.isTable (h : Grown roots s s') (hf : IsTable s.mem roots f) :
    IsTable s'.mem roots f := by
  obtain ⟨sp, k, n, hpos, ht⟩ := hf
  exact ⟨sp, k, n, hpos, h.table sp k n f hpos ht⟩

theorem Grown.trans (h : Grown roots s s') (h' : Grown roots s' s'') :
    Grown roots s s'' where
  zeroPage := h'.zeroPage.trans h.zeroPage
  refs i := (h'.refs i).trans (h.refs i)
  pte sp v := (h'.pte sp v).trans (h.pte sp v)
  table sp k n f hpos ht := h'.table sp k n f hpos (h.table sp k n f hpos ht)
  data w hw := (h'.data w hw).trans (h.data w fun hc => hw (h'.isTable hc))

theorem memsetZero_page (h : PageZero mem c) :
    memsetZero mem (c * pageSize) pageSize = mem := by
  funext w
  have := memsetZero_block mem ⟨c, 0⟩ w
  simp only [mem_page] at this
  rw [show memsetZero mem (c * pageSize) pageSize w = _ from this]
  by_cases hw : w / 512 = c
  · rw [if_pos hw, h w hw]
  · rw [if_neg hw]

-- `table_for` with `create`: the table below the entry, new if there was none.
theorem tableFor_create (h : PtInv s R roots O x) (hpos : UserPos (k + 1) n)
    (ht : tableAt s.mem roots sp k (n / 512) = some f) :
    wp (tableFor (f * pageSize) (n % 512) true pteUser)
      (fun r s' => PtInv s' R roots O x ∧ Grown roots s s' ∧ freeCount s ≤ freeCount s' + 1 ∧
        (r = none → s' = s ∧ freeCount s = 0) ∧
        ∀ t, r = some t → ∃ c, t = c * pageSize ∧ tableAt s'.mem roots sp (k + 1) n = some c)
      never s := by
  unfold tableFor
  apply wp_bind
  apply wp_of_ok (run_readEntry f (n % 512) s)
  by_cases hp : has (s.mem (f * 512 + n % 512)) ptePresent
  · have hinner := h.shape.inner sp k n f hpos ht hp
    rw [if_pos hp, if_neg (by simp [hinner.huge])]
    refine wp_pure ⟨h, Grown.refl roots s, by omega, by simp, ?_⟩
    intro t htt
    refine ⟨pteFrame (s.mem (f * 512 + n % 512)), ?_, ?_⟩
    · rw [← Option.some.inj htt, pteAddr_frame]
    · rw [tableAt_succ, ht]
      simp [child, hp]
  rw [if_neg hp, if_pos rfl]
  cases ha : pmmAllocPages s.pmm 0 with
  | mk pa p =>
    have hrun : (allocPages 0).run s = done pa { s with pmm := p } := by
      show some (Except.ok (Except.ok (pmmAllocPages s.pmm 0).1,
        { s with pmm := (pmmAllocPages s.pmm 0).2 })) = _
      rw [ha]
    apply wp_bind
    apply wp_of_ok hrun
    by_cases hpa : pa = 0
    · subst hpa
      obtain ⟨rfl, hzero⟩ := h.alloc_none ha
      exact wp_pure ⟨h, Grown.refl roots s, by omega, fun _ => ⟨rfl, hzero⟩, by simp⟩
    have hvac : has (s.mem (f * 512 + n % 512)) ptePresent = false := by simpa using hp
    obtain ⟨hg, hinv⟩ := h.newTable hpos ht hvac ha hpa
    obtain ⟨hphys, -, hal, hframe, -⟩ := pmmAllocPages_phys h.phys (by decide) ha hpa
    have hpac : pa = paToPfn pa * pageSize := (pfnToPa_paToPfn hal).symm
    have hclear : memsetZero s.mem pa pageSize = s.mem := by
      rw [hpac]
      exact memsetZero_page hg.zero
    rw [if_neg hpa]
    apply wp_bind_write
    apply wp_bind_write
    apply wp_pure
    simp only [hclear, word_eq]
    refine ⟨hinv, ?_, freeCount_take h.phys.inv hphys.inv, by simp, ?_⟩
    · constructor
      · exact hframe.mmZeroPage
      · exact hframe.refcount
      · exact pte_newTable h.shape hg
      · intro t k' n' g hpos' hx
        show tableAt (update s.mem (f * 512 + n % 512) (tableEntry pa)) roots t k' n' = _
        rw [tableAt_newTable h.shape hg t hpos', if_neg, hx]
        rintro ⟨rfl, rfl, rfl⟩
        rw [tableAt_succ, hg.parent] at hx
        simp [child, hvac] at hx
      · intro w hw
        apply update_of_ne
        rintro rfl
        apply hw
        rw [word_div_mod]
        exact (isTable_newTable h.shape hg f).2
          (.inr ⟨sp, k, n / 512, userPos_admissible.up hpos, ht⟩)
    · intro t htt
      refine ⟨paToPfn pa, ?_, ?_⟩
      · rw [← Option.some.inj htt, ← hpac]
      · show tableAt (update s.mem (f * 512 + n % 512) (tableEntry pa)) roots sp
          (k + 1) n = _
        rw [tableAt_newTable h.shape hg sp hpos, if_pos ⟨rfl, rfl, rfl⟩]

theorem ptFor_create (h : PtInv s R roots O x) (hroot : roots sp = some f) (hv : v / pageSize < userPages) :
    wp (ptFor (f * pageSize) v true pteUser)
      (fun r s' => PtInv s' R roots O x ∧ Grown roots s s' ∧ freeCount s ≤ freeCount s' + 3 ∧
        (r = none → freeCount s ≤ 2) ∧
        ∀ t, r = some t → ∃ c, t = c * pageSize ∧
          tableAt s'.mem roots sp 3 (v / pageSize / 512) = some c)
      never s := by
  obtain ⟨h1, h2, h3⟩ := userPos_page hv
  unfold ptFor
  rw [pml4Idx_eq, pdptIdx_eq, pdIdx_eq]
  refine (tableFor_create (n := v / pageSize / 512 / 512 / 512) h h1 hroot).next ?_
  rintro r1 s1 ⟨hinv1, hgrow1, hfree1, hnone1, hsome1⟩
  cases r1 with
  | none =>
    obtain ⟨rfl, hzero⟩ := hnone1 rfl
    exact wp_pure ⟨hinv1, hgrow1, by omega, fun _ => by omega, by simp⟩
  | some t1 =>
    obtain ⟨c1, rfl, ht1⟩ := hsome1 t1 rfl
    refine (tableFor_create hinv1 h2 ht1).next ?_
    rintro r2 s2 ⟨hinv2, hgrow2, hfree2, hnone2, hsome2⟩
    cases r2 with
    | none =>
      obtain ⟨rfl, hzero⟩ := hnone2 rfl
      exact wp_pure ⟨hinv2, hgrow1.trans hgrow2, by omega, fun _ => by omega, by simp⟩
    | some t2 =>
      obtain ⟨c2, rfl, ht2⟩ := hsome2 t2 rfl
      refine (tableFor_create hinv2 h3 ht2).post ?_
      rintro r3 s3 ⟨hinv3, hgrow3, hfree3, hnone3, hsome3⟩
      refine ⟨hinv3, hgrow1.trans (hgrow2.trans hgrow3), by omega, fun hr => ?_, hsome3⟩
      obtain ⟨rfl, hzero⟩ := hnone3 hr
      omega

end Jnu.Paging
