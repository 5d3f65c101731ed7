import Jnu.Paging.Ops

namespace Jnu.Paging

open Lib.Dyadic Lib.Effect Pmm PhysM PtInv
open Function

variable {s s' s1 s'' : Phys} {R : Set Nat} {roots : Nat → Option Nat} {O : Set Block} {x x' : Nat → Nat}
  {sp f g v vpn pages i virt pa w : Nat} {a e flags flag : BitVec 64}

-- The entry that `paging_map` and `paging_protect` write.
def entryOf (a flags : BitVec 64) : BitVec 64 := (a &&& pteAddrMask) ||| ptePresent ||| flags

structure UserFlags (flags : BitVec 64) : Prop where
  bits : FlagBits flags
  user : has flags pteUser = true
  huge : has flags pteHuge = false

theorem entryOf_frame (h : FlagBits flags) : pteFrame (entryOf a flags) = pteFrame a := by
  unfold entryOf
  rw [pteFrame_or h, pteFrame_or flagBits_present, pteFrame_and_mask]

theorem entryOf_present : has (entryOf a flags) ptePresent = true := by
  unfold entryOf
  rw [has_or, has_or]
  simp [show has ptePresent ptePresent = true by decide]

theorem entryOf_flag (h : FlagBits flag) (hp : has ptePresent flag = false) :
    has (entryOf a flags) flag = has flags flag := by
  unfold entryOf
  rw [has_or, has_or, has_masked h, hp]
  rfl

theorem entryOf_write : has (entryOf a flags) pteWrite = has flags pteWrite :=
  entryOf_flag (by decide) (by decide)

theorem entryOf_nx : has (entryOf a flags) pteNx = has flags pteNx := entryOf_flag (by decide) (by decide)

theorem entryOf_ofNat (h : UserFlags flags) (hg : g < 2 ^ 40) :
    pteFrame (entryOf (BitVec.ofNat 64 (g * pageSize)) flags) = g := by
  rw [entryOf_frame h.bits, pteFrame_ofNat hg]

theorem UserFlags.leaf (h : UserFlags flags) : LeafEntry (entryOf a flags) where
  user := (entryOf_flag (by decide) (by decide)).trans h.user
  huge := (entryOf_flag (by decide) (by decide)).trans h.huge

theorem mapped_entryOf (h : UserFlags flags) : mapped (entryOf a flags) = some (pteFrame a) := by
  unfold mapped
  rw [if_pos entryOf_present, entryOf_frame h.bits]

-- The entry of one page has been written; tables may have been added.
structure LeafSet (roots : Nat → Option Nat) (sp vpn : Nat) (e : BitVec 64) (s s' : Phys) :
    Prop where
  zeroPage : s'.pmm.mmZeroPage = s.pmm.mmZeroPage
  refs : ∀ i, refs s' i = refs s i
  pte : ∀ t v, pte s'.mem roots t v =
    if t = sp ∧ v = vpn then (if has e ptePresent then some e else none) else pte s.mem roots t v
  isTable : ∀ g, IsTable s.mem roots g → IsTable s'.mem roots g
  data : ∀ w, ¬ IsTable s'.mem roots (w / 512) → s'.mem w = s.mem w

theorem leafSet_of_grown (hs : Shape s1.mem roots) (hg : Grown roots s s1)
    (hv : vpn < userPages) (ht : tableAt s1.mem roots sp 3 (vpn / 512) = some f) :
    LeafSet roots sp vpn e s
      { s1 with mem := update s1.mem (f * 512 + vpn % 512) e } where
  zeroPage := hg.zeroPage
  refs := hg.refs
  pte t v := by
    show pte (update s1.mem (f * 512 + vpn % 512) e) roots t v = _
    rw [pte_setLeaf hs hv ht, hg.pte]
  isTable g h := (isTable_setLeaf hs hv ht g).2 (hg.isTable h)
  data w hw := by
    have hw : ¬ IsTable s1.mem roots (w / 512) := fun hc => hw ((isTable_setLeaf hs hv ht _).2 hc)
    show update s1.mem (f * 512 + vpn % 512) e w = s.mem w
    rw [update_of_ne, hg.data w hw]
    rintro rfl
    rw [word_div_mod] at hw
    exact hw ⟨sp, 3, vpn / 512, userPos_leaf hv, ht⟩

theorem wrap_page (hv : vpn + i < userPages) :
    wrap64 (vpn * pageSize + i * pageSize) = (vpn + i) * pageSize := by
  simp only [userPages, wrap64, pageSize, Nat.reducePow] at hv ⊢
  omega

theorem page_div (vpn : Nat) : vpn * pageSize / pageSize = vpn :=
  Nat.mul_div_cancel vpn (by decide)

section

variable (h : PtInv s R roots O x) (hroot : roots sp = some f) (hv : vpn < userPages) (hg : g < 2 ^ 40)
include h hroot hv hg

theorem pagingMap_write (hfl : has flags pteUser = true) :
    wp (pagingMap (f * pageSize) (vpn * pageSize) (g * pageSize) 1 flags)
      (fun _ s' => ∃ s1 c, PtInv s1 R roots O x ∧ Grown roots s s1 ∧
        freeCount s ≤ freeCount s1 + 3 ∧ tableAt s1.mem roots sp 3 (vpn / 512) = some c ∧
        s' = ⟨s1.pmm, update s1.mem (c * 512 + vpn % 512)
          (entryOf (BitVec.ofNat 64 (g * pageSize)) flags)⟩)
      (fun err s' => err = .enomem ∧ PtInv s' R roots O x ∧ Grown roots s s' ∧ freeCount s ≤ 2)
      s := by
  have hw : wrap64 (vpn * pageSize + 0 * pageSize) = vpn * pageSize := wrap_page (i := 0) hv
  have hgw : wrap64 (g * pageSize + 0 * pageSize) = g * pageSize := by
    simp only [wrap64, pageSize]
    omega
  unfold pagingMap Prog.forRange Prog.forRange
  apply wp_bind
  apply wp_pure
  simp only [hw, hgw, hfl, if_true]
  refine (ptFor_create h hroot (by rwa [page_div])).bind ?_ (fun _ _ hc => hc.elim)
  rintro r s1 ⟨hinv, hgrow, hfree, hnone, hsome⟩
  cases r with
  | none => exact wp_error ⟨rfl, hinv, hgrow, hnone rfl⟩
  | some t =>
    obtain ⟨c, rfl, ht⟩ := hsome t rfl
    rw [page_div] at ht
    apply wp_write
    rw [word_eq, ptIdx_eq, page_div]
    exact ⟨s1, c, hinv, hgrow, hfree, ht, rfl⟩

theorem pagingMap_one (hfl : UserFlags flags)
    (hx : ∀ i, i ≠ zeroFrame s → x' i + (if g = i then 1 else 0) =
      x i + (if frameMap s.mem roots (sp, vpn) = some i then 1 else 0)) :
    wp (pagingMap (f * pageSize) (vpn * pageSize) (g * pageSize) 1 flags)
      (fun _ s' => PtInv s' R roots O x' ∧ freeCount s ≤ freeCount s' + 3 ∧
        LeafSet roots sp vpn (entryOf (BitVec.ofNat 64 (g * pageSize)) flags) s s')
      (fun err s' => err = .enomem ∧ PtInv s' R roots O x ∧ Grown roots s s' ∧ freeCount s ≤ 2)
      s := by
  refine (pagingMap_write h hroot hv hg hfl.user).post ?_
  rintro _ s' ⟨s1, c, hinv, hgrow, hfree, ht, rfl⟩
  refine ⟨?_, hfree, leafSet_of_grown hinv.shape hgrow hv ht⟩
  apply hinv.setLeaf hv ht (fun _ => hfl.leaf)
  intro i hi
  have hz := zeroFrame_eq hgrow.zeroPage
  have hmap : mapped (entryOf (BitVec.ofNat 64 (g * pageSize)) flags) = some g := by
    rw [mapped_entryOf hfl, pteFrame_ofNat hg]
  have hold : frameMap s1.mem roots (sp, vpn) = frameMap s.mem roots (sp, vpn) := by
    simp only [frameMap, hgrow.pte]
  rw [hz] at hi
  have := hx i hi
  rw [hmap, hold]
  simpa using this

end

section

variable (h : PtInv s R roots O x) (hroot : roots sp = some f) (hv : vpn < userPages)
  (hfl : UserFlags flags)
include h hroot hv hfl

theorem pagingProtect_step (hvi : wrap64 (virt + i * pageSize) = vpn * pageSize) :
    wp (do
        let v := wrap64 (virt + i * pageSize)
        match ← ptFor (f * pageSize) v false 0 with
        | none => Prog.error .enoent
        | some pt =>
          let e ← readEntry pt (ptIdx v)
          if has e ptePresent then
            writeEntry pt (ptIdx v) ((e &&& pteAddrMask) ||| ptePresent ||| flags)
          else Prog.error .enoent : PhysM Unit)
      (fun _ s' => ∃ e, pte s.mem roots sp vpn = some e ∧ PtInv s' R roots O x ∧
        LeafSet roots sp vpn (entryOf e flags) s s' ∧ freeCount s' = freeCount s)
      (fun err s' => err = .enoent ∧ s' = s ∧ pte s.mem roots sp vpn = none) s := by
  simp only [hvi]
  apply wp_bind
  apply wp_of_ok (ptFor_find h.shape hroot (by rwa [page_div]) 0)
  rw [page_div]
  cases ht : tableAt s.mem roots sp 3 (vpn / 512) with
  | none => exact wp_error ⟨rfl, rfl, pte_none_of_table ht⟩
  | some c =>
    apply wp_bind
    apply wp_of_ok (run_readEntry c _ s)
    rw [ptIdx_eq, page_div]
    have hp := pte_of_table hv ht
    by_cases hpres : has (s.mem (c * 512 + vpn % 512)) ptePresent
    · rw [if_pos hpres] at hp ⊢
      apply wp_write
      rw [word_eq]
      refine ⟨_, hp, ?_, leafSet_of_grown h.shape (Grown.refl roots s) hv ht, rfl⟩
      apply h.setLeaf hv ht (fun _ => hfl.leaf)
      intro i _
      rw [mapped_entryOf (a := s.mem (c * 512 + vpn % 512)) hfl]
      simp [frameMap, hp]
    · rw [if_neg hpres] at hp ⊢
      exact wp_error ⟨rfl, rfl, hp⟩

theorem pagingProtect_one :
    wp (pagingProtect (f * pageSize) (vpn * pageSize) 1 flags)
      (fun _ s' => ∃ e, pte s.mem roots sp vpn = some e ∧ PtInv s' R roots O x ∧
        LeafSet roots sp vpn (entryOf e flags) s s' ∧ freeCount s' = freeCount s)
      (fun err s' => err = .enoent ∧ s' = s ∧ pte s.mem roots sp vpn = none) s := by
  unfold pagingProtect Prog.forRange Prog.forRange
  apply wp_bind
  apply wp_pure
  exact pagingProtect_step h hroot hv hfl (wrap_page (i := 0) hv)

end

-- Entries have been cleared and their references dropped.
structure Dropped (roots : Nat → Option Nat) (s s' : Phys) : Prop where
  zeroPage : s'.pmm.mmZeroPage = s.pmm.mmZeroPage
  refs_le : ∀ i, refs s' i ≤ refs s i
  isTable : ∀ g, IsTable s'.mem roots g ↔ IsTable s.mem roots g
  data : ∀ w, ¬ IsTable s.mem roots (w / 512) →
    (refs s (w / 512) = 0 ∨ 0 < refs s' (w / 512)) → s'.mem w = s.mem w

theorem Dropped.refl (roots : Nat → Option Nat) (s : Phys) : Dropped roots s s :=
  ⟨rfl, fun _ => le_refl _, fun _ => Iff.rfl, fun _ _ _ => rfl⟩

theorem Dropped.trans (h : Dropped roots s s') (h' : Dropped roots s' s'') :
    Dropped roots s s'' where
  zeroPage := h'.zeroPage.trans h.zeroPage
  refs_le i := (h'.refs_le i).trans (h.refs_le i)
  isTable g := (h'.isTable g).trans (h.isTable g)
  data w hw hr := by
    have hle := h.refs_le (w / 512)
    have hle' := h'.refs_le (w / 512)
    have h1 : s''.mem w = s'.mem w := by
      apply h'.data w (fun hc => hw ((h.isTable _).1 hc))
      omega
    have h2 : s'.mem w = s.mem w := by
      apply h.data w hw
      omega
    exact h1.trans h2

theorem pmmPutUserPage_write (hpa : pa % pageSize = 0) (hw : w / 512 ≠ paToPfn pa) :
    pmmPutUserPage { s with mem := update s.mem w e } pa =
      (pmmPutUserPage s pa).map fun s' => { s' with mem := update s'.mem w e } := by
  have hset : memsetZero (update s.mem w e) pa (pmmOrderSize 0) =
      update (memsetZero s.mem pa (pmmOrderSize 0)) w e := by
    funext w'
    by_cases hww : w' = w
    · subst hww
      rw [update_self]
      unfold memsetZero
      rw [if_neg, update_self]
      simp only [paToPfn, pageSize, pmmOrderSize] at hpa hw ⊢
      omega
    · rw [update_of_ne hww]
      unfold memsetZero
      rw [update_of_ne hww]
  unfold pmmPutUserPage
  cases putUserPageLocked s.pmm pa with
  | error err => rfl
  | ok r =>
    obtain ⟨doFree, p⟩ := r
    simp only [bind, Except.bind]
    cases doFree with
    | false => rfl
    | true =>
      unfold pmmFreePages
      cases pmmFreeValidateLocked p pa 0 with
      | error err => rfl
      | ok u =>
        simp only [Except.map, hset]
        rfl

private theorem leafEntry_zero (hc : has (0 : BitVec 64) ptePresent = true) : LeafEntry 0 :=
  absurd hc (by decide)

section clear

variable (h : PtInv s R roots O x) (hv : vpn < userPages)
  (ht : tableAt s.mem roots sp 3 (vpn / 512) = some f)

include hv ht

private theorem update_data (w : Nat) (hw : ¬ IsTable s.mem roots (w / 512)) :
    update s.mem (f * 512 + vpn % 512) e w = s.mem w := by
  apply update_of_ne
  rintro rfl
  rw [word_div_mod] at hw
  exact hw ⟨sp, 3, vpn / 512, userPos_leaf hv, ht⟩

include h

private theorem pte_cleared (t v : Nat) :
    pte (update s.mem (f * 512 + vpn % 512) 0) roots t v =
      if t = sp ∧ v = vpn then none else pte s.mem roots t v := by
  rw [pte_setLeaf h.shape hv ht]
  rfl

theorem clearZeroEntry (hp : pte s.mem roots sp vpn = some e) (hz : pteFrame e = zeroFrame s) :
    PtInv { s with mem := update s.mem (f * 512 + vpn % 512) 0 } R roots O x ∧
      Dropped roots s { s with mem := update s.mem (f * 512 + vpn % 512) 0 } := by
  refine ⟨?_, ⟨rfl, fun _ => le_refl _, isTable_setLeaf h.shape hv ht,
    fun w hw _ => update_data hv ht w hw⟩⟩
  apply h.setLeaf hv ht leafEntry_zero
  intro i hi
  rw [show mapped (0 : BitVec 64) = none by decide, if_neg (by simp), if_neg]
  simp only [frameMap, hp, Option.map_some, hz, Option.some.injEq]
  exact Ne.symm hi

-- The reference is dropped before the entry is cleared; the invariant holds in between only in the other
-- order.
theorem dropEntry (hp : pte s.mem roots sp vpn = some e) (hz : pteFrame e ≠ zeroFrame s) :
    ∃ s1, pmmPutUserPage s (pteAddr e) = .ok s1 ∧
      PtInv { s1 with mem := update s1.mem (f * 512 + vpn % 512) 0 } R roots O x ∧
      Dropped roots s { s1 with mem := update s1.mem (f * 512 + vpn % 512) 0 } ∧
      ∀ t v, pte (update s1.mem (f * 512 + vpn % 512) 0) roots t v =
        if t = sp ∧ v = vpn then none else pte s.mem roots t v := by
  obtain ⟨g, hg⟩ : ∃ g, pteFrame e = g := ⟨_, rfl⟩
  rw [hg] at hz
  have hgpos : 0 < refs s g := hg ▸ h.mapped_refs hp (hg ▸ hz)
  have hmap : frameMap s.mem roots (sp, vpn) = some g := by
    simp only [frameMap, hp, Option.map_some, hg]
  have h1 : PtInv { s with mem := update s.mem (f * 512 + vpn % 512) 0 } R roots O
      (update x g (x g + 1)) := by
    apply h.setLeaf hv ht leafEntry_zero
    intro i _
    rw [show mapped (0 : BitVec 64) = none by decide, hmap, if_neg (by simp)]
    by_cases hig : i = g
    · rw [hig, update_self, if_pos rfl, Nat.add_zero]
    · rw [update_of_ne hig, if_neg (by simpa using Ne.symm hig)]
  obtain ⟨s2, hs2, h2, hzp, hrefs, hmem⟩ :=
    h1.put (f := g) hz (by rw [update_self]; omega)
  have hx : update (update x g (x g + 1)) g
      (update x g (x g + 1) g - 1) = x := by
    rw [update_self, update_idem, Nat.add_sub_cancel, update_eq_self]
  rw [hx] at h2
  have hfg : (f * 512 + vpn % 512) / 512 ≠ paToPfn (g * pageSize) := by
    rw [word_div_mod, show paToPfn (g * pageSize) = g from paToPfn_pfnToPa g]
    rintro rfl
    exact h.not_table hgpos ⟨sp, 3, vpn / 512, userPos_leaf hv, ht⟩
  rw [pmmPutUserPage_write (by simp [pageSize]) hfg] at hs2
  rw [pteAddr_frame, hg]
  cases hput : pmmPutUserPage s (g * pageSize) with
  | error err =>
    rw [hput] at hs2
    cases hs2
  | ok s1 =>
    rw [hput] at hs2
    obtain rfl : { s1 with mem := update s1.mem (f * 512 + vpn % 512) 0 } = s2 :=
      Except.ok.inj hs2
    have htab2 : ∀ w, IsTable (update s.mem (f * 512 + vpn % 512) 0) roots (w / 512) →
        update s1.mem (f * 512 + vpn % 512) 0 w =
          update s.mem (f * 512 + vpn % 512) 0 w := by
      intro w hw
      refine (hmem w).trans (if_neg ?_)
      rintro ⟨-, hwg⟩
      rw [hwg] at hw
      exact h.not_table hgpos ((isTable_setLeaf h.shape hv ht _).1 hw)
    refine ⟨s1, rfl, h2, ⟨hzp, ?_, ?_, ?_⟩, ?_⟩
    · intro i
      rw [hrefs]
      show (if i = g then refs s i - 1 else refs s i) ≤ refs s i
      split <;> omega
    · intro i
      exact (isTable_congr htab2 i).trans (isTable_setLeaf h.shape hv ht i)
    · intro w hw hr
      refine (hmem w).trans ?_
      rw [if_neg]
      · exact update_data hv ht w hw
      · rintro ⟨hone, hwg⟩
        rw [hwg, hrefs, if_pos rfl] at hr
        omega
    · intro t v
      rw [pte_congr htab2]
      exact pte_cleared h hv ht t v

theorem unmapEntry (hp : pte s.mem roots sp vpn = some e) :
    wp (do
        putEntry e
        writeEntry (f * pageSize) (vpn % 512) 0 : PhysM Unit)
      (fun _ s' => PtInv s' R roots O x ∧ Dropped roots s s' ∧
        ∀ t v, pte s'.mem roots t v = if t = sp ∧ v = vpn then none else pte s.mem roots t v)
      never s := by
  unfold putEntry
  rw [if_pos (h.shape.leaf sp vpn e hp).user]
  apply wp_bind
  apply wp_bind_read
  by_cases hz : pteAddr e = s.pmm.mmZeroPage
  · have hzf : pteFrame e = zeroFrame s := by
      unfold pteFrame zeroFrame
      rw [hz]
      rfl
    obtain ⟨hinv, hdrop⟩ := clearZeroEntry h hv ht hp hzf
    rw [if_neg (by simpa using hz)]
    apply wp_pure
    apply wp_write
    rw [word_eq]
    exact ⟨hinv, hdrop, pte_cleared h hv ht⟩
  · have hzf : pteFrame e ≠ zeroFrame s := by
      intro hc
      apply hz
      rw [pteAddr_frame, hc]
      exact pfnToPa_paToPfn h.zeroAligned
    obtain ⟨s1, hput, hinv, hdrop, hpte⟩ := dropEntry h hv ht hp hzf
    rw [if_pos hz]
    apply wp_of_ok (run_orPanic (f := (pmmPutUserPage · (pteAddr e))) hput)
    apply wp_write
    rw [word_eq]
    exact ⟨hinv, hdrop, hpte⟩

end clear

theorem pagingUnmap_spec (h : PtInv s R roots O x) (hroot : roots sp = some f)
    (hv : vpn + pages ≤ userPages) :
    wp (pagingUnmap (f * pageSize) (vpn * pageSize) pages)
      (fun _ s' => PtInv s' R roots O x ∧ Dropped roots s s' ∧
        ∀ t v, pte s'.mem roots t v =
          if t = sp ∧ vpn ≤ v ∧ v < vpn + pages then none else pte s.mem roots t v)
      never s := by
  unfold pagingUnmap
  apply wp_forRange (fun i s' => PtInv s' R roots O x ∧ Dropped roots s s' ∧
    ∀ t v, pte s'.mem roots t v =
      if t = sp ∧ vpn ≤ v ∧ v < vpn + i then none else pte s.mem roots t v)
  · refine ⟨h, Dropped.refl roots s, fun t v => ?_⟩
    rw [if_neg (by omega)]
  rintro i s1 hi ⟨hinv, hdrop, hpte⟩
  have hvi : vpn + i < userPages := by omega
  simp only [wrap_page hvi]
  apply wp_bind
  apply wp_of_ok (ptFor_find hinv.shape hroot (by rwa [page_div]) 0)
  rw [page_div]
  have hskip : pte s1.mem roots sp (vpn + i) = none →
      ∀ t v, pte s1.mem roots t v =
        if t = sp ∧ vpn ≤ v ∧ v < vpn + (i + 1) then none else pte s.mem roots t v := by
    intro hnone t v
    by_cases hkey : t = sp ∧ v = vpn + i
    · obtain ⟨rfl, rfl⟩ := hkey
      rw [hnone, if_pos (by omega)]
    rw [hpte]
    by_cases hc : t = sp ∧ vpn ≤ v ∧ v < vpn + i
    · rw [if_pos hc, if_pos (by omega)]
    · rw [if_neg hc, if_neg (by omega)]
  cases ht : tableAt s1.mem roots sp 3 ((vpn + i) / 512) with
  | none => exact wp_pure ⟨hinv, hdrop, hskip (pte_none_of_table ht)⟩
  | some c =>
    apply wp_bind
    apply wp_of_ok (run_readEntry c _ s1)
    rw [ptIdx_eq, page_div]
    have hp := pte_of_table hvi ht
    by_cases hpres : has (s1.mem (c * 512 + (vpn + i) % 512)) ptePresent
    · rw [if_pos hpres] at hp ⊢
      refine (unmapEntry hinv hvi ht hp).post ?_
      rintro _ s2 ⟨hinv2, hdrop2, hpte2⟩
      refine ⟨hinv2, hdrop.trans hdrop2, fun t v => ?_⟩
      rw [hpte2, hpte]
      by_cases hkey : t = sp ∧ v = vpn + i
      · rw [if_pos hkey, if_pos (by omega)]
      rw [if_neg hkey]
      by_cases hc : t = sp ∧ vpn ≤ v ∧ v < vpn + i
      · rw [if_pos hc, if_pos (by omega)]
      · rw [if_neg hc, if_neg (by omega)]
    · rw [if_neg hpres] at hp ⊢
      exact wp_pure ⟨hinv, hdrop, hskip hp⟩

end Jnu.Paging
