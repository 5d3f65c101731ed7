import Jnu.Mm.Cow

namespace Jnu.Mm

open Lib.Dyadic Lib.Effect Lib.Refs Paging Pmm PhysM
open Function

variable {s s' s1 : Phys} {R : Set Nat} {roots roots' : Nat → Option Nat} {O O' : Set Block}
  {x x' : Nat → Nat} {sp v va f g dst src f' : Nat} {e flags : BitVec 64}

-- The reference that the code in progress holds on one frame.
def oneRef (g i : Nat) : Nat := if i = g then 1 else 0

theorem pageKeep_of_mem (hz : s'.pmm.mmZeroPage = s.pmm.mmZeroPage) (hm : s'.mem = s.mem) :
    PageKeep roots s s' := by
  refine ⟨hz, fun t u => by rw [hm], fun t u i _ => ?_⟩
  unfold words
  rw [hm]

-- A fresh page, all zero and mapped nowhere.
structure FreshPage (roots : Nat → Option Nat) (g : Nat) (s s' : Phys) : Prop where
  keep : PageKeep roots s s'
  mem : s'.mem = s.mem
  before : refs s g = 0
  after : refs s' g = 1
  zero : PageZero s.mem g
  lt : g < 2 ^ 40
  ne : g ≠ zeroFrame s
  free : freeCount s ≤ freeCount s' + 1

theorem allocUserPage_spec (h : PtInv s R roots O fun _ => 0) :
    wp allocUserPage
      (fun pa s' => (pa = 0 ∧ s' = s ∧ freeCount s = 0) ∨
        ∃ g, pa = g * pageSize ∧ pa ≠ 0 ∧ PtInv s' R roots O (oneRef g) ∧ FreshPage roots g s s')
      never s := by
  refine .inl ⟨(pmmAllocUserPage s.pmm).1, { s with pmm := (pmmAllocUserPage s.pmm).2 }, rfl, ?_⟩
  obtain ⟨pa, p, ha⟩ : ∃ pa p, pmmAllocUserPage s.pmm = (pa, p) := ⟨_, _, rfl⟩
  rw [ha]
  by_cases hz : pa = 0
  · subst hz
    obtain ⟨rfl, hfree⟩ := pmmAllocUserPage_none h.phys ha
    exact .inl ⟨rfl, rfl, freeCount_eq_zero hfree⟩
  obtain ⟨hpt, hrefs, hr0, hal, hzero, hzp, hlt⟩ := h.allocUser ha hz
  obtain ⟨hphys, -⟩ := pmmAllocUserPage_phys h.phys ha hz
  set g := paToPfn pa with hg
  have hone : PtInv { s with pmm := p } R roots O (oneRef g) := by
    apply hpt.congr_refs
    intro i _
    unfold oneRef
    by_cases hi : i = g
    · rw [if_pos hi, hi, update_self]
    · rw [if_neg hi, update_of_ne hi]
  have hafter : refs { s with pmm := p } g = 1 := by rw [hrefs, if_pos rfl]
  have hne : g ≠ zeroFrame s := by
    have hne' : g ≠ zeroFrame { s with pmm := p } := hone.ne_zero (by omega)
    unfold zeroFrame at hne' ⊢
    rwa [← hzp]
  exact .inr ⟨g, (pfnToPa_paToPfn hal).symm, hz, hone,
    ⟨pageKeep_of_mem hzp rfl, rfl, hr0, hafter, hzero, hlt, hne,
      freeCount_take h.phys.inv hphys.inv⟩⟩

theorem FreshPage.frame (h : PtInv s R roots O fun _ => 0) (hg : FreshPage roots g s s')
    (hfl : UserFlags flags) :
    pteFrame (entryOf (BitVec.ofNat 64 (g * pageSize)) flags) ≠ zeroFrame s ∧
      ∀ t u e, pte s.mem roots t u = some e →
        pteFrame e ≠ pteFrame (entryOf (BitVec.ofNat 64 (g * pageSize)) flags) := by
  rw [entryOf_ofNat hfl hg.lt]
  exact ⟨hg.ne, fun t u e he => not_mapped h hg.before hg.ne he⟩

theorem put_keep (h : PtInv s R roots O x) (hz : g ≠ zeroFrame s) (hx : 0 < x g) :
    ∃ s', pmmPutUserPage s (g * pageSize) = .ok s' ∧
      PtInv s' R roots O (update x g (x g - 1)) ∧ PageKeep roots s s' := by
  obtain ⟨s', hs', hpt, hzp, hrefs, hmem⟩ := h.put hz hx
  have hg : 0 < refs s g := by
    have := h.counts g hz
    omega
  refine ⟨s', hs', hpt, pageKeep_of_data h hpt hzp ?_ ?_⟩
  · apply pte_congr
    intro w hw
    rw [hmem, if_neg]
    rintro ⟨-, hc⟩
    exact h.not_table hg (hc ▸ hw)
  · intro w _ hw
    rw [hmem, if_neg]
    rintro ⟨hone, hc⟩
    rw [hrefs, if_pos hc, hc, hone] at hw
    omega

theorem putUserPage_spec (h : PtInv s R roots O (oneRef g)) (hz : g ≠ zeroFrame s) :
    wp (putUserPage (g * pageSize))
      (fun _ s' => PtInv s' R roots O (fun _ => 0) ∧ PageKeep roots s s') never s := by
  have hone : oneRef g g = 1 := if_pos rfl
  obtain ⟨s', hs', hpt, hkeep⟩ := put_keep h hz (by rw [hone]; decide)
  apply wp_of_ok (run_orPanic (f := (pmmPutUserPage · (g * pageSize))) hs')
  refine ⟨hpt.congr_refs fun i _ => ?_, hkeep⟩
  by_cases hi : i = g
  · rw [hi, update_self, hone]
  · rw [update_of_ne hi]
    exact (if_neg hi).symm

section

variable (h : PtInv s R roots O x) (hroot : roots sp = some f) (hv : v < userPages)
  (hp : pte s.mem roots sp v = none) (hg : g < 2 ^ 40) (hfl : UserFlags flags) (hzero : PageZero s.mem g)
  (hx : ∀ i, i ≠ zeroFrame s → x i = oneRef g i)
include h hroot hv hp hg hfl hzero hx

theorem mapZero_spec :
    wp (pagingMap (f * pageSize) (v * pageSize) (g * pageSize) 1 flags)
      (fun _ s' => PtInv s' R roots O (fun _ => 0) ∧
        PageSet roots sp v (entryOf (BitVec.ofNat 64 (g * pageSize)) flags) s s' ∧
        freeCount s ≤ freeCount s' + 3)
      (fun err s' => err = .enomem ∧ freeCount s ≤ 2 ∧ PtInv s' R roots O x ∧
        PageKeep roots s s') s := by
  have hacc : ∀ i, i ≠ zeroFrame s → (fun _ => 0) i + (if g = i then 1 else 0) =
      x i + (if frameMap s.mem roots (sp, v) = some i then 1 else 0) := by
    intro i hi
    rw [hx i hi, show frameMap s.mem roots (sp, v) = none by simp [frameMap, hp]]
    simp [oneRef, eq_comm]
  refine (pagingMap_one h hroot hv hg hfl hacc).mono ?_ ?_
  · rintro _ s' ⟨hpt, hfree, hl⟩
    refine ⟨hpt, pageSet_of_leafSet h hpt hl entryOf_present fun i hi => ?_, hfree⟩
    rw [entryOf_ofNat hfl hg]
    unfold words
    rw [hp]
    exact hzero _ (by omega)
  · rintro err s1 ⟨rfl, hpt, hgrown, hfree⟩
    exact ⟨rfl, hfree, hpt, pageKeep_of_grown h hpt hgrown⟩

theorem lazyInstall_spec :
    wp (lazyInstall (f * pageSize) (v * pageSize) (g * pageSize) flags)
      (fun _ s' => PtInv s' R roots O (fun _ => 0) ∧
        PageSet roots sp v (entryOf (BitVec.ofNat 64 (g * pageSize)) flags) s s' ∧
        freeCount s ≤ freeCount s' + 3)
      (fun err s' => err = .enomem ∧ freeCount s ≤ 2 ∧ PtInv s' R roots O (fun _ => 0) ∧
        PageKeep roots s s') s := by
  unfold lazyInstall
  apply wp_bind_read
  apply wp_bind_attempt
  refine (mapZero_spec h hroot hv hp hg hfl hzero hx).mono ?_ ?_
  · exact fun _ s' hs' => wp_pure hs'
  rintro err s1 ⟨rfl, hfree, hpt, hkeep⟩
  have hzf := zeroFrame_eq hkeep.zeroPage
  dsimp only
  by_cases hgz : g = zeroFrame s
  · rw [if_neg (by rw [not_not]; exact (frame_eq_zero h).2 hgz)]
    apply wp_error
    refine ⟨rfl, hfree, hpt.congr_refs fun i hi => ?_, hkeep⟩
    rw [hzf] at hi
    rw [hx i hi, oneRef, if_neg (by omega)]
  · have hpt1 : PtInv s1 R roots O (oneRef g) := hpt.congr_refs fun i hi => by
      rw [hzf] at hi
      exact (hx i hi).symm
    rw [if_pos (mt (frame_eq_zero h).1 hgz)]
    refine (putUserPage_spec hpt1 (by rwa [hzf])).any.next ?_
    rintro _ s' ⟨hpt', hkeep'⟩
    exact wp_error ⟨rfl, hfree, hpt', hkeep.trans hkeep'⟩

end

-- The VMA allows the access that the fault code reports.
def FaultCode.permitted (ec : FaultCode) (vf : VmaFlags) : Bool :=
  if ec.id then vf.exec else if ec.w then vf.write else vf.read

theorem zeroFrame_lt (h : PtInv s R roots O x) : zeroFrame s < 2 ^ 40 := by
  have := (h.bound (.inl h.zeroHeld) (mem_page.2 rfl)).2
  have := h.wide
  omega

theorem lazyFresh_spec (h : PtInv s R roots O fun _ => 0) (hroot : roots sp = some f)
    (hv : v < userPages) (hp : pte s.mem roots sp v = none) (hfl : UserFlags flags) :
    wp (do
        let pa ← allocUserPage
        if pa = 0 then Prog.error .enomem
        else lazyInstall (f * pageSize) (v * pageSize) pa flags : PhysM Unit)
      (fun _ s' => PtInv s' R roots O (fun _ => 0) ∧ ∃ e, PageSet roots sp v e s s' ∧
        has e pteWrite = has flags pteWrite ∧ has e pteNx = has flags pteNx ∧
        pteFrame e ≠ zeroFrame s ∧ freeCount s ≤ freeCount s' + 4 ∧
        ∀ t u e', pte s.mem roots t u = some e' → pteFrame e' ≠ pteFrame e)
      (fun _ s' => PtInv s' R roots O (fun _ => 0) ∧ PageKeep roots s s' ∧ freeCount s ≤ 3) s := by
  refine (allocUserPage_spec h).any.next ?_
  rintro pa s1 (⟨rfl, rfl, hfree⟩ | ⟨g, rfl, hne, hpt, hg⟩)
  · exact wp_error ⟨h, PageKeep.refl roots _, by omega⟩
  rw [if_neg hne]
  have hp1 : pte s1.mem roots sp v = none := by rw [hg.keep.pte, hp]
  have hz1 : PageZero s1.mem g := by
    rw [hg.mem]
    exact hg.zero
  refine (lazyInstall_spec hpt hroot hv hp1 hg.lt hfl hz1 fun _ _ => rfl).mono ?_ ?_
  · rintro _ s' ⟨hpt', hset, hfree⟩
    obtain ⟨hne, honly⟩ := hg.frame h hfl
    refine ⟨hpt', _, hg.keep.set hset, entryOf_write, entryOf_nx, hne, ?_, honly⟩
    have := hg.free
    omega
  · rintro err s' ⟨-, hfree, hpt', hkeep⟩
    refine ⟨hpt', hg.keep.trans hkeep, ?_⟩
    have := hg.free
    omega

theorem vmmHandleLazyFault_spec (vma : Vma) (ec : FaultCode) (h : PtInv s R roots O fun _ => 0)
    (hroot : roots sp = some f) (hv : v < userPages) (hp : pte s.mem roots sp v = none) :
    wp (vmmHandleLazyFault (f * pageSize) vma (v * pageSize) ec)
      (fun _ s' => PtInv s' R roots O (fun _ => 0) ∧ ∃ e, PageSet roots sp v e s s' ∧
        has e pteWrite = (!ec.id && ec.w) ∧ has e pteNx = (!ec.id) ∧ ec.permitted vma.flags = true ∧
        freeCount s ≤ freeCount s' + 4 ∧ (has e pteWrite = true → pteFrame e ≠ zeroFrame s) ∧
        (pteFrame e ≠ zeroFrame s → ∀ t u e', pte s.mem roots t u = some e' →
          pteFrame e' ≠ pteFrame e))
      (fun _ s' => PtInv s' R roots O (fun _ => 0) ∧ PageKeep roots s s' ∧
        (ec.permitted vma.flags = true → freeCount s ≤ 3)) s := by
  unfold vmmHandleLazyFault FaultCode.permitted
  have hdeny : ∀ b : Bool, b = false → (b = true → freeCount s ≤ 3) := by
    intro b hb hc
    rw [hb] at hc
    cases hc
  cases hid : ec.id with
  | true =>
    simp only [if_true]
    refine wp_ite (fun hx => ?_) fun hx => ?_
    · exact wp_error ⟨h, PageKeep.refl roots s, hdeny _ hx⟩
    refine (lazyFresh_spec h hroot hv hp ⟨by decide, by decide, by decide⟩).mono ?_ ?_
    · rintro _ s' ⟨hpt, e, hset, hw, hnx, hz, hfree, hfresh⟩
      exact ⟨hpt, e, hset, by rw [hw]; rfl, by rw [hnx]; rfl, by simpa using hx, hfree,
        fun _ => hz, fun _ => hfresh⟩
    · exact fun _ s' he => ⟨he.1, he.2.1, fun _ => he.2.2⟩
  | false =>
    cases hw : ec.w with
    | true =>
      simp only [Bool.false_eq_true, if_false, if_true]
      refine wp_ite (fun hx => ?_) fun hx => ?_
      · exact wp_error ⟨h, PageKeep.refl roots s, hdeny _ hx⟩
      refine (lazyFresh_spec h hroot hv hp ⟨by decide, by decide, by decide⟩).mono ?_ ?_
      · rintro _ s' ⟨hpt, e, hset, hw, hnx, hz, hfree, hfresh⟩
        exact ⟨hpt, e, hset, by rw [hw]; decide, by rw [hnx]; decide, by simpa using hx, hfree,
          fun _ => hz, fun _ => hfresh⟩
      · exact fun _ s' he => ⟨he.1, he.2.1, fun _ => he.2.2⟩
    | false =>
      simp only [Bool.false_eq_true, if_false]
      refine wp_ite (fun hx => ?_) fun hx => ?_
      · exact wp_error ⟨h, PageKeep.refl roots s, hdeny _ hx⟩
      apply wp_bind_read
      have hfl : UserFlags (pteUser ||| pteNx) := ⟨by decide, by decide, by decide⟩
      rw [zeroPage_eq h]
      refine (lazyInstall_spec h hroot hv hp (zeroFrame_lt h) hfl h.zeroPage ?_).mono ?_ ?_
      · intro i hi
        exact (if_neg hi).symm
      · rintro _ s' ⟨hpt, hset, hfree⟩
        have hwr : has (entryOf (BitVec.ofNat 64 (zeroFrame s * pageSize))
            (pteUser ||| pteNx)) pteWrite = false := entryOf_write.trans (by decide)
        refine ⟨hpt, _, hset, hwr, entryOf_nx.trans (by decide), by simpa using hx, by omega, ?_,
          fun hc => absurd (entryOf_ofNat hfl (zeroFrame_lt h)) hc⟩
        rw [hwr]
        simp
      · exact fun _ s' he => ⟨he.2.2.1, he.2.2.2, fun _ => by omega⟩

theorem getFlags_spec (h : PtInv s R roots O x) (hroot : roots sp = some f) (hv : v < userPages)
    {Q : BitVec 64 → Phys → Prop} {E : Errno → Phys → Prop}
    (hsome : ∀ e, pte s.mem roots sp v = some e → Q e s)
    (hnone : pte s.mem roots sp v = none → E .enoent s) :
    wp (pagingGetFlags (f * pageSize) (v * pageSize)) Q E s := by
  have hrun := pagingGetFlags_run h.shape hroot (v := v * pageSize) (by rwa [page_div])
  rw [page_div] at hrun
  cases hp : pte s.mem roots sp v with
  | none =>
    rw [hp] at hrun
    exact .inr ⟨_, s, hrun, hnone hp⟩
  | some e =>
    rw [hp] at hrun
    exact .inl ⟨e, s, hrun, hsome e hp⟩

theorem protect_spec (h : PtInv s R roots O x) (hroot : roots sp = some f) (hv : v < userPages)
    (hp : pte s.mem roots sp v = some e) (hfl : UserFlags flags) :
    wp (pagingProtect (f * pageSize) (v * pageSize) 1 flags)
      (fun _ s' => PtInv s' R roots O x ∧ PageSet roots sp v (entryOf e flags) s s' ∧
        freeCount s' = freeCount s)
      never s := by
  refine (pagingProtect_one h hroot hv hfl).mono ?_ ?_
  · rintro _ s' ⟨e', he', hpt, hl, hfree⟩
    obtain rfl : e = e' := Option.some.inj (hp.symm.trans he')
    refine ⟨hpt, pageSet_of_leafSet h hpt hl entryOf_present fun i _ => ?_, hfree⟩
    unfold words
    rw [hp, entryOf_frame hfl.bits]
  · rintro err s' ⟨-, -, hnone⟩
    rw [hp] at hnone
    cases hnone

theorem copyPage_spec (h : PtInv s R roots O (oneRef g)) (hg : 0 < refs s g)
    (hp : pte s.mem roots sp v = some e)
    (hunmapped : ∀ t u e', pte s.mem roots t u = some e' → pteFrame e' ≠ g) :
    wp (copyPage (g * pageSize) (pteFrame e * pageSize))
      (fun _ s' => PtInv s' R roots O (oneRef g) ∧ PageKeep roots s s' ∧ s'.pmm = s.pmm ∧
        ∀ i, i < 512 → s'.mem (g * 512 + i) = words s' roots sp v i)
      never s := by
  have hdst : g * pageSize / 8 = g * 512 := by
    simp only [pageSize]
    omega
  have hsrc : pteFrame e * pageSize / 8 = pteFrame e * 512 := by
    simp only [pageSize]
    omega
  apply wp_write
  rw [hdst, hsrc]
  set mem' : Mem := fun w => if g * 512 ≤ w ∧ w < g * 512 + 512
    then s.mem (pteFrame e * 512 + (w - g * 512)) else s.mem w with hmem'
  have hother : ∀ w, w / 512 ≠ g → mem' w = s.mem w := by
    intro w hw
    exact if_neg (by omega)
  have hcopied : ∀ i, i < 512 → mem' (g * 512 + i) = s.mem (pteFrame e * 512 + i) := by
    intro i hi
    rw [hmem']
    simp only
    rw [if_pos (by omega), Nat.add_sub_cancel_left]
  have hpt : PtInv { s with mem := mem' } R roots O (oneRef g) := h.writeFrame (.inl hg) hother
  have hpte : ∀ t u, pte mem' roots t u = pte s.mem roots t u := by
    apply pte_congr
    intro w hw
    apply hother
    rintro rfl
    exact h.not_table hg hw
  have hwords : ∀ t u i, i < 512 → words { s with mem := mem' } roots t u i = words s roots t u i := by
    intro t u i hi
    unfold words
    rw [show pte ({ s with mem := mem' } : Phys).mem roots t u = _ from hpte t u]
    cases he : pte s.mem roots t u with
    | none => rfl
    | some e' =>
      apply hother
      have := hunmapped t u e' he
      omega
  refine ⟨hpt, ⟨rfl, hpte, hwords⟩, rfl, fun i hi => ?_⟩
  rw [hwords sp v i hi]
  unfold words
  rw [hp]
  exact hcopied i hi

theorem cowCopy_spec (h : PtInv s R roots O fun _ => 0) (hroot : roots sp = some f)
    (hv : v < userPages) (hp : pte s.mem roots sp v = some e) (hfl : UserFlags flags) :
    wp (do
        let newPa ← allocUserPage
        if newPa = 0 then Prog.error .enomem
        else
          copyPage newPa (pteAddr e)
          match ← (pagingMap (f * pageSize) (v * pageSize) newPa 1 flags).attempt with
          | .error err =>
            putUserPage newPa
            Prog.error err
          | .ok _ => if pteAddr e ≠ s.pmm.mmZeroPage then putUserPage (pteAddr e) : PhysM Unit)
      (fun _ s' => PtInv s' R roots O (fun _ => 0) ∧ ∃ e', PageSet roots sp v e' s s' ∧
        has e' pteWrite = has flags pteWrite ∧ has e' pteNx = has flags pteNx ∧
        pteFrame e' ≠ zeroFrame s ∧
        ∀ t u e'', pte s.mem roots t u = some e'' → pteFrame e'' ≠ pteFrame e')
      (fun _ s' => PtInv s' R roots O (fun _ => 0) ∧ PageKeep roots s s' ∧ freeCount s ≤ 3) s := by
  refine (allocUserPage_spec h).any.next ?_
  rintro pa s1 (⟨rfl, rfl, hfree⟩ | ⟨g, rfl, hne, hpt1, hg⟩)
  · exact wp_error ⟨h, PageKeep.refl roots _, by omega⟩
  rw [if_neg hne]
  have hfresh : ∀ t u e', pte s.mem roots t u = some e' → pteFrame e' ≠ g :=
    fun t u e' he' => not_mapped h hg.before hg.ne he'
  apply wp_bind
  rw [pteAddr_frame]
  refine (copyPage_spec hpt1 (by rw [hg.after]; decide) (by rw [hg.keep.pte, hp])
    fun t u e' he' => hfresh t u e' (by rw [← hg.keep.pte, he'])).any.post ?_
  rintro _ s2 ⟨hpt2, hkeep2, hpmm2, hcopy⟩
  have hkeep := hg.keep.trans hkeep2
  have hp2 : pte s2.mem roots sp v = some e := by rw [hkeep.pte, hp]
  have hfree2 : freeCount s ≤ freeCount s2 + 1 := by
    have : freeCount s2 = freeCount s1 := by
      unfold freeCount
      rw [hpmm2]
    have := hg.free
    omega
  -- the reference to the fresh page goes into the entry, the one it held comes out
  have hacc : ∀ i, i ≠ zeroFrame s2 → oneRef (pteFrame e) i + (if g = i then 1 else 0) =
      oneRef g i + (if frameMap s2.mem roots (sp, v) = some i then 1 else 0) := by
    intro i _
    rw [show frameMap s2.mem roots (sp, v) = some (pteFrame e) by simp [frameMap, hp2]]
    simp only [oneRef, Option.some.injEq, eq_comm (a := i)]
    omega
  apply wp_bind_attempt
  refine (pagingMap_one hpt2 hroot hv hg.lt hfl hacc).mono ?_ ?_
  · rintro _ s3 ⟨hpt3, -, hl⟩
    have hset : PageSet roots sp v (entryOf (BitVec.ofNat 64 (g * pageSize)) flags) s s3 := by
      apply hkeep.set
      apply pageSet_of_leafSet hpt2 hpt3 hl entryOf_present
      rwa [entryOf_ofNat hfl hg.lt]
    have hfacts := hg.frame h hfl
    have hzf3 := zeroFrame_eq hset.zeroPage
    by_cases hz : pteFrame e = zeroFrame s
    · rw [if_neg (by rw [not_not]; exact (frame_eq_zero h).2 hz)]
      apply wp_pure
      refine ⟨hpt3.congr_refs fun i hi => ?_, _, hset, entryOf_write, entryOf_nx, hfacts⟩
      exact (if_neg (by omega)).symm
    · rw [if_pos (mt (frame_eq_zero h).1 hz)]
      refine (putUserPage_spec hpt3 (by rwa [hzf3])).any.post ?_
      rintro _ s' ⟨hpt', hkeep'⟩
      exact ⟨hpt', _, hset.keep hkeep', entryOf_write, entryOf_nx, hfacts⟩
  · rintro err s3 ⟨rfl, hpt3, hgrown, hle⟩
    have hkeep3 := hkeep.trans (pageKeep_of_grown hpt2 hpt3 hgrown)
    have hzf3 := zeroFrame_eq hkeep3.zeroPage
    refine (putUserPage_spec hpt3 (by rw [hzf3]; exact hg.ne)).any.next ?_
    rintro _ s' ⟨hpt', hkeep'⟩
    exact wp_error ⟨hpt', hkeep3.trans hkeep', by omega⟩

theorem vmmHandleCowFault_spec (h : PtInv s R roots O fun _ => 0) (hroot : roots sp = some f)
    (hva : va / pageSize < userPages) :
    wp (vmmHandleCowFault (f * pageSize) va)
      (fun _ s' => PtInv s' R roots O (fun _ => 0) ∧ ∃ e e',
        pte s.mem roots sp (va / pageSize) = some e ∧ PageSet roots sp (va / pageSize) e' s s' ∧
        has e' pteWrite = true ∧ has e' pteNx = true ∧ pteFrame e' ≠ zeroFrame s ∧
        ∀ t u e'', ¬ (t = sp ∧ u = va / pageSize) → pte s.mem roots t u = some e'' →
          pteFrame e'' ≠ pteFrame e')
      (fun _ s' => PtInv s' R roots O (fun _ => 0) ∧ PageKeep roots s s' ∧
        (pte s.mem roots sp (va / pageSize) ≠ none → freeCount s ≤ 3)) s := by
  set v := va / pageSize with hv
  unfold vmmHandleCowFault
  apply wp_bind
  apply getFlags_spec h hroot hva
  · intro e hp
    have hleaf := h.shape.leaf sp v e hp
    have hfl := cowFlags_user hleaf.user
    rw [if_neg (by simp [hleaf.huge])]
    apply wp_bind_read
    refine wp_ite (fun hfast => ?_) fun hfast => ?_
    · rw [pteAddr_frame] at hfast
      have hz := mt (frame_eq_zero h).2 hfast.1
      have hone : refs s (pteFrame e) = 1 := by
        rw [← pmmUserRefcount_eq h (h.mapped_refs hp hz)]
        exact hfast.2
      refine (protect_spec h hroot hva hp hfl).any.post ?_
      rintro _ s' ⟨hpt, hset, -⟩
      refine ⟨hpt, e, _, hp, hset, ?_, ?_, ?_, ?_⟩
      · exact entryOf_write.trans cowFlags_write
      · exact entryOf_nx.trans cowFlags_nx
      · rwa [entryOf_frame hfl.bits]
      · intro t u e'' hne he'' hf
        rw [entryOf_frame hfl.bits] at hf
        exact hne ((mapped_once h hp hz).1 hone t u e'' he'' hf)
    · refine (cowCopy_spec h hroot hva hp hfl).mono ?_ ?_
      · rintro _ s' ⟨hpt, e', hset, hw, hnx, hz, hfresh⟩
        exact ⟨hpt, e, e', hp, hset, hw.trans cowFlags_write, hnx.trans cowFlags_nx, hz,
          fun t u e'' _ => hfresh t u e''⟩
      · exact fun _ s' he => ⟨he.1, he.2.1, fun _ => he.2.2⟩
  · intro hp
    exact ⟨h, PageKeep.refl roots s, fun hc => absurd hp hc⟩

-- One page of `mprotect`: it gets the new rights, without write access while it is shared.
theorem protectPage_spec {vf : VmaFlags} (h : PtInv s R roots O fun _ => 0)
    (hroot : roots sp = some f) (hv : v < userPages) :
    wp (protectPage (f * pageSize) (v * pageSize) vf)
      (fun _ s' => PtInv s' R roots O (fun _ => 0) ∧
        ((pte s.mem roots sp v = none ∧ s' = s) ∨ ∃ e e', pte s.mem roots sp v = some e ∧
          PageSet roots sp v e' s s' ∧ pteFrame e' = pteFrame e ∧ has e' pteNx = (!vf.exec) ∧
          (has e' pteWrite = true → vf.write = true ∧ pteFrame e ≠ zeroFrame s ∧
            ∀ t u e'', pte s.mem roots t u = some e'' → pteFrame e'' = pteFrame e →
              t = sp ∧ u = v)))
      never s := by
  unfold protectPage
  apply wp_bind_attempt
  apply getFlags_spec h hroot hv
  · intro e hp
    apply wp_bind_read
    obtain ⟨hfl, hfl'⟩ := vmaFlagsToPte_user vf
    obtain ⟨hnx, hnx'⟩ := vmaFlagsToPte_nx vf
    rw [pteAddr_frame]
    refine wp_ite (fun hsh => ?_) fun hsh => ?_
    · refine (protect_spec h hroot hv hp hfl').any.post ?_
      rintro _ s' ⟨hpt, hset, -⟩
      refine ⟨hpt, .inr ⟨e, _, hp, hset, entryOf_frame hfl'.bits, ?_, fun hw => ?_⟩⟩
      · rw [entryOf_nx, hnx']
      · rw [entryOf_write, has_and_not (by decide)] at hw
        cases hw
    refine (protect_spec h hroot hv hp hfl).any.post ?_
    rintro _ s' ⟨hpt, hset, -⟩
    refine ⟨hpt, .inr ⟨e, _, hp, hset, entryOf_frame hfl.bits, ?_, fun hw => ?_⟩⟩
    · rw [entryOf_nx, hnx]
    rw [entryOf_write] at hw
    simp only [hw, true_and, not_or, not_lt] at hsh
    have hz := mt (frame_eq_zero h).2 hsh.1
    have hpos := h.mapped_refs hp hz
    have hone : refs s (pteFrame e) = 1 := by
      have := hsh.2
      rw [pmmUserRefcount_eq h hpos] at this
      omega
    rw [vmaFlagsToPte_write] at hw
    exact ⟨hw, hz, (mapped_once h hp hz).1 hone⟩
  · intro hp
    apply wp_pure
    exact ⟨h, .inl ⟨hp, rfl⟩⟩

-- The page `v` of one space is shared with another one, read-only on both sides.
structure PageShared (roots : Nat → Option Nat) (src dst v : Nat) (e e₁ e₂ : BitVec 64)
    (s s' : Phys) : Prop where
  zeroPage : s'.pmm.mmZeroPage = s.pmm.mmZeroPage
  pte : ∀ t u, pte s'.mem roots t u = if t = dst ∧ u = v then some e₂
    else if t = src ∧ u = v then some e₁ else pte s.mem roots t u
  copy : ∀ i, i < 512 → words s' roots dst v i = words s roots src v i
  words : ∀ t u i, ¬ (t = dst ∧ u = v) → i < 512 → words s' roots t u i = words s roots t u i
  frame : pteFrame e₁ = pteFrame e ∧ pteFrame e₂ = pteFrame e
  readOnly : has e₁ pteWrite = false ∧ has e₂ pteWrite = false
  nx : has e₁ pteNx = has e pteNx ∧ has e₂ pteNx = has e pteNx

theorem refs_congr {s' : Phys} (h : PtInv s R roots O fun _ => 0) (h' : PtInv s' R roots' O' fun _ => 0)
    (hz : s'.pmm.mmZeroPage = s.pmm.mmZeroPage) (hg : g ≠ zeroFrame s)
    (hf : ∀ q, frameMap s'.mem roots' q = some g ↔ frameMap s.mem roots q = some g) :
    refs s' g = refs s g := by
  have hzf := zeroFrame_eq hz
  have hc := h.counts g hg
  have hc' := h'.counts g (by rwa [hzf])
  rw [Nat.add_zero] at hc hc'
  rw [hc, hc']
  unfold count
  congr 1
  ext q
  exact hf q

theorem stripWrite_spec (h : PtInv s R roots O x) (hroot : roots sp = some f) (hv : v < userPages)
    (hp : pte s.mem roots sp v = some e) :
    wp (if has e pteWrite then pagingProtect (f * pageSize) (v * pageSize) 1 (sharedFlags e)
        else pure () : PhysM Unit)
      (fun _ s' => PtInv s' R roots O x ∧ freeCount s' = freeCount s ∧
        ∃ e1, PageSet roots sp v e1 s s' ∧
          pteFrame e1 = pteFrame e ∧ has e1 pteWrite = false ∧ has e1 pteNx = has e pteNx)
      never s := by
  have hfl := sharedFlags_user (h.shape.leaf sp v e hp)
  refine wp_ite (fun hw => ?_) fun hw => ?_
  · refine (protect_spec h hroot hv hp hfl).post ?_
    rintro _ s' ⟨hpt, hset, hfree⟩
    refine ⟨hpt, hfree, _, hset, entryOf_frame hfl.bits, ?_, ?_⟩
    · rw [entryOf_write, sharedFlags_write]
    · rw [entryOf_nx, sharedFlags_nx]
  · apply wp_pure
    refine ⟨h, rfl, e, ⟨rfl, fun t u => ?_, fun _ _ _ _ => rfl⟩, rfl, by simpa using hw, rfl⟩
    by_cases htu : t = sp ∧ u = v
    · rw [if_pos htu, htu.1, htu.2, hp]
    · rw [if_neg htu]

-- The reference is taken after the entry is written; the invariant holds in between only in the other order.
theorem mapShared_spec (h : PtInv s R roots O fun _ => 0) (hroot : roots dst = some f)
    (hv : v < userPages) (hp : pte s.mem roots sp v = some e) (hvac : pte s.mem roots dst v = none)
    (hb : pteFrame e ≠ zeroFrame s → refs s (pteFrame e) < 0xFFFF) (hfl : UserFlags flags) :
    wp (do
        pagingMap (f * pageSize) (v * pageSize) (pteFrame e * pageSize) 1 flags
        let zeroPage ← Prog.read fun s => s.pmm.mmZeroPage
        if pteFrame e * pageSize ≠ zeroPage then getUserPage (pteFrame e * pageSize) : PhysM Unit)
      (fun _ s' => PtInv s' R roots O (fun _ => 0) ∧ freeCount s ≤ freeCount s' + 3 ∧
        s'.pmm.mmZeroPage = s.pmm.mmZeroPage ∧
        (∀ t u, pte s'.mem roots t u = if t = dst ∧ u = v
          then some (entryOf (BitVec.ofNat 64 (pteFrame e * pageSize)) flags)
          else pte s.mem roots t u) ∧
        (∀ t u i, ¬ (t = dst ∧ u = v) → i < 512 → words s' roots t u i = words s roots t u i) ∧
        ∀ i, i < 512 → words s' roots dst v i = words s roots sp v i)
      (fun _ s' => PtInv s' R roots O (fun _ => 0) ∧ freeCount s ≤ 2 ∧ PageKeep roots s s') s := by
  have hlt := pteFrame_lt e
  set g := pteFrame e with hg
  set e' := entryOf (BitVec.ofNat 64 (g * pageSize)) flags with he'
  have hframe : pteFrame e' = g := entryOf_ofNat hfl hlt
  refine (pagingMap_write h hroot hv hlt hfl.user).bind ?_ ?_
  · rintro _ s2 ⟨s1, c, hpt1, hgrow, hfree, ht, rfl⟩
    apply wp_bind_read
    have hzf := zeroFrame_eq hgrow.zeroPage
    have hp1 : pte s1.mem roots sp v = some e := by rw [hgrow.pte, hp]
    have hmap : PtInv.mapped e' = some g := by
      rw [he', mapped_entryOf hfl, pteFrame_ofNat hlt]
    have hold : frameMap s1.mem roots (dst, v) = none := by
      simp only [frameMap, hgrow.pte, hvac, Option.map_none]
    -- what is seen of the new state, whatever the counts are
    have hview : ∀ {s' : Phys} {x' : Nat → Nat}, PtInv s' R roots O x' →
        s'.pmm.mmZeroPage = s.pmm.mmZeroPage →
        s'.mem = update s1.mem (c * 512 + v % 512) e' →
        s'.pmm.mmZeroPage = s.pmm.mmZeroPage ∧
        (∀ t u, pte s'.mem roots t u = if t = dst ∧ u = v then some e' else pte s.mem roots t u) ∧
        (∀ t u i, ¬ (t = dst ∧ u = v) → i < 512 → words s' roots t u i = words s roots t u i) ∧
        ∀ i, i < 512 → words s' roots dst v i = words s roots sp v i := by
      intro s' x' hpt' hzp hmem
      have hl := leafSet_of_grown (e := e') hpt1.shape hgrow hv ht
      have hpte : ∀ t u, pte s'.mem roots t u =
          if t = dst ∧ u = v then some e' else pte s.mem roots t u := by
        intro t u
        have := hl.pte t u
        rw [if_pos (show has e' ptePresent = true from entryOf_present)] at this
        rw [hmem]
        exact this
      have hdata : ∀ w, 0 < refs s (w / 512) → 0 < refs s' (w / 512) → s'.mem w = s.mem w := by
        intro w _ hw
        rw [hmem]
        apply hl.data
        show ¬ IsTable (update s1.mem (c * 512 + v % 512) e') roots (w / 512)
        rw [← hmem]
        exact hpt'.not_table hw
      have hother : ∀ t u i, ¬ (t = dst ∧ u = v) → i < 512 →
          words s' roots t u i = words s roots t u i := by
        intro t u i htu hi
        refine words_congr h hpt' hzp ?_ hdata hi
        rw [hpte, if_neg htu]
      refine ⟨hzp, hpte, hother, fun i hi => ?_⟩
      -- both entries show the same frame
      have hne : ¬ (sp = dst ∧ v = v) := by
        rintro ⟨rfl, -⟩
        rw [hp] at hvac
        cases hvac
      rw [← hother sp v i hne hi]
      unfold words
      rw [hpte, if_pos ⟨rfl, rfl⟩, hpte, if_neg hne, hp]
      simp only
      rw [hframe]
    by_cases hz : g = zeroFrame s
    · rw [if_neg (by
        rw [not_not]
        exact ((frame_eq_zero h).2 hz).trans hgrow.zeroPage.symm)]
      apply wp_pure
      have hpt2 : PtInv { s1 with mem := update s1.mem (c * 512 + v % 512) e' } R roots O
          fun _ => 0 := by
        apply hpt1.setLeaf hv ht (fun _ => hfl.leaf)
        intro i hi
        rw [hmap, hold, if_neg (by rw [Option.some.injEq]; omega), if_neg (by simp)]
      exact ⟨hpt2, hfree, hview hpt2 hgrow.zeroPage rfl⟩
    rw [if_pos (by
      intro hc
      exact hz ((frame_eq_zero h).1 (hc.trans hgrow.zeroPage)))]
    have hpos : 0 < refs s1 g := hpt1.mapped_refs hp1 (by rwa [hzf])
    have hbound : refs s1 g < 0xFFFF := by
      rw [hgrow.refs]
      exact hb hz
    obtain ⟨p, hget, hptp, hzpp, -, hblocks⟩ := hpt1.get hpos hbound
    have hrun : (fun s : Phys => (pmmGetUserPage s.pmm (g * pageSize)).map fun pmm =>
        { s with pmm }) { s1 with mem := update s1.mem (c * 512 + v % 512) e' } =
        .ok ⟨p, update s1.mem (c * 512 + v % 512) e'⟩ := by
      show (pmmGetUserPage s1.pmm (g * pageSize)).map _ = _
      rw [hget]
      rfl
    apply wp_of_ok (run_orPanic hrun)
    have hpt2 : PtInv ⟨p, update s1.mem (c * 512 + v % 512) e'⟩ R roots O
        fun _ => 0 := by
      apply hptp.setLeaf hv ht (fun _ => hfl.leaf)
      intro i _
      rw [hmap, show frameMap ({ s1 with pmm := p } : Phys).mem roots (dst, v) = none from hold]
      by_cases hi : i = g
      · rw [hi, update_self]
        simp
      · rw [update_of_ne hi, if_neg (by rw [Option.some.injEq]; omega), if_neg (by simp)]
    refine ⟨hpt2, ?_, hview hpt2 (hzpp.trans hgrow.zeroPage) rfl⟩
    unfold freeCount at hfree ⊢
    rw [hblocks]
    exact hfree
  · rintro err s' ⟨-, hpt, hgrow, hfree⟩
    exact ⟨hpt, hfree, pageKeep_of_grown h hpt hgrow⟩

theorem clonePage_spec (h : PtInv s R roots O fun _ => 0) (hsrc : roots src = some f)
    (hdst : roots dst = some f') (hne : src ≠ dst) (hv : v < userPages)
    (hvac : pte s.mem roots dst v = none)
    (hb : ∀ e, pte s.mem roots src v = some e → pteFrame e ≠ zeroFrame s → refs s (pteFrame e) < 0xFFFF) :
    wp (clonePage (f * pageSize) (f' * pageSize) (v * pageSize))
      (fun _ s' => PtInv s' R roots O (fun _ => 0) ∧
        freeCount s ≤ freeCount s' + 3 ∧
        ((pte s.mem roots src v = none ∧ s' = s) ∨ ∃ e e1 e2, pte s.mem roots src v = some e ∧
          PageShared roots src dst v e e1 e2 s s'))
      (fun _ s' => PtInv s' R roots O (fun _ => 0) ∧ freeCount s ≤ 2 ∧
        ∃ e e1, pte s.mem roots src v = some e ∧ PageSet roots src v e1 s s' ∧
          pteFrame e1 = pteFrame e ∧ has e1 pteWrite = false ∧ has e1 pteNx = has e pteNx) s := by
  unfold clonePage
  apply wp_bind_attempt
  apply getFlags_spec h hsrc hv
  · intro e hp
    dsimp only
    have hleaf := h.shape.leaf src v e hp
    have hfl := sharedFlags_user hleaf
    rw [if_neg (by simp [hleaf.huge])]
    apply wp_when
    refine (stripWrite_spec h hsrc hv hp).any.post ?_
    rintro _ s1 ⟨hpt1, hfree1, e1, hset, hf1, hw1, hnx1⟩
    have hp1 : pte s1.mem roots src v = some e1 := by rw [hset.pte, if_pos ⟨rfl, rfl⟩]
    have hvac1 : pte s1.mem roots dst v = none := by
      rw [hset.pte, if_neg (fun hc => hne hc.1.symm), hvac]
    have hzf := zeroFrame_eq hset.zeroPage
    have hb1 : pteFrame e1 ≠ zeroFrame s1 → refs s1 (pteFrame e1) < 0xFFFF := by
      intro hz
      rw [hzf, hf1] at hz
      rw [hf1, refs_congr h hpt1 hset.zeroPage hz]
      · exact hb e hp hz
      rintro ⟨t, u⟩
      simp only [frameMap, hset.pte]
      by_cases htu : t = src ∧ u = v
      · rw [if_pos htu, htu.1, htu.2, hp, Option.map_some, Option.map_some, hf1]
      · rw [if_neg htu]
    rw [pteAddr_frame, ← hf1]
    refine (mapShared_spec hpt1 hdst hv hp1 hvac1 hb1 hfl).mono ?_ ?_
    · rintro _ s' ⟨hpt', hfree, hzp, hpte, hwords, hcopy⟩
      refine ⟨hpt', hfree1 ▸ hfree,
        .inr ⟨e, e1, entryOf (BitVec.ofNat 64 (pteFrame e1 * pageSize)) (sharedFlags e),
        hp, hzp.trans hset.zeroPage, fun t u => ?_, fun i hi => ?_, fun t u i htu hi => ?_,
        ⟨hf1, ?_⟩, ⟨hw1, ?_⟩, hnx1, ?_⟩⟩
      · rw [hpte, hset.pte]
      · rw [hcopy i hi, hset.words src v i hi]
      · rw [hwords t u i htu hi, hset.words t u i hi]
      · rw [entryOf_ofNat hfl (pteFrame_lt e1), hf1]
      · rw [entryOf_write, sharedFlags_write]
      · rw [entryOf_nx, sharedFlags_nx]
    · rintro err s' ⟨hpt', hfree, hkeep⟩
      exact ⟨hpt', hfree1 ▸ hfree, e, e1, hp, hset.keep hkeep, hf1, hw1, hnx1⟩
  · intro hp
    apply wp_pure
    exact ⟨h, Nat.le_add_right _ _, .inl ⟨hp, rfl⟩⟩

end Jnu.Mm
