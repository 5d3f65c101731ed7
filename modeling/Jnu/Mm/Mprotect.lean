import Jnu.Mm.Mmap

namespace Jnu.Mm

open Lib.Dyadic Lib.Effect Lib.Intervals Paging Pmm
open Function

variable {sp addr length : Nat} {vf : VmaFlags} {R : Set Nat} {s1 s' : Phys} {t t' : VmaTree}

-- The entries of the pages `In` have the access that the flags grant, or less; they keep their
-- frames.
structure Reflagged (sp : Nat) (In : Nat → Prop) (vf : VmaFlags)
    (p p' : Nat → Nat → Option (BitVec 64)) : Prop where
  vacant : ∀ u, In u → p sp u = none → p' sp u = none
  present : ∀ u e, In u → p sp u = some e → ∃ e', p' sp u = some e' ∧
    pteFrame e' = pteFrame e ∧ has e' pteNx = (!vf.exec) ∧ (has e' pteWrite = true → vf.write = true)
  same : ∀ t u, ¬ (t = sp ∧ In u) → p' t u = p t u

section reflagged

variable {In In' : Nat → Prop} {p p1 p' : Nat → Nat → Option (BitVec 64)}

theorem Reflagged.refl (p : Nat → Nat → Option (BitVec 64)) (hIn : ∀ u, ¬ In u) :
    Reflagged sp In vf p p :=
  ⟨fun u hu => absurd hu (hIn u), fun u _ hu => absurd hu (hIn u), fun _ _ _ => rfl⟩

theorem Reflagged.congr (h : Reflagged sp In vf p p') (hIn : ∀ u, In' u ↔ In u) :
    Reflagged sp In' vf p p' :=
  ⟨fun u hu => h.vacant u ((hIn u).1 hu), fun u e hu => h.present u e ((hIn u).1 hu),
    fun t u hu => h.same t u (fun hc => hu ⟨hc.1, (hIn u).2 hc.2⟩)⟩

theorem Reflagged.trans (h : Reflagged sp In vf p p1) (h' : Reflagged sp In' vf p1 p') :
    Reflagged sp (fun u => In u ∨ In' u) vf p p' where
  vacant u hu hp := by
    have h1 : p1 sp u = none := by
      by_cases hin : In u
      · exact h.vacant u hin hp
      · rw [h.same sp u (fun hc => hin hc.2), hp]
    by_cases hin : In' u
    · exact h'.vacant u hin h1
    · rw [h'.same sp u (fun hc => hin hc.2), h1]
  present u e hu hp := by
    by_cases hin : In u
    · obtain ⟨e1, hp1, hf1, hnx1, hw1⟩ := h.present u e hin hp
      by_cases hin' : In' u
      · obtain ⟨e', hp', hf', hc'⟩ := h'.present u e1 hin' hp1
        exact ⟨e', hp', hf'.trans hf1, hc'⟩
      · exact ⟨e1, by rw [h'.same sp u (fun hc => hin' hc.2), hp1], hf1, hnx1, hw1⟩
    · exact h'.present u e (hu.resolve_left hin) (by rw [h.same sp u (fun hc => hin hc.2), hp])
  same t u hu := by
    rw [h'.same t u (fun hc => hu ⟨hc.1, .inr hc.2⟩), h.same t u (fun hc => hu ⟨hc.1, .inl hc.2⟩)]

end reflagged

structure Unmoved (roots : Nat → Option Nat) (s s' : Phys) : Prop where
  zeroPage : s'.pmm.mmZeroPage = s.pmm.mmZeroPage
  words : ∀ t u i, i < 512 → words s' roots t u i = words s roots t u i

theorem Unmoved.refl (roots : Nat → Option Nat) (s : Phys) : Unmoved roots s s :=
  ⟨rfl, fun _ _ _ _ => rfl⟩

theorem Unmoved.trans {roots : Nat → Option Nat} {s : Phys} (h : Unmoved roots s s1)
    (h' : Unmoved roots s1 s') : Unmoved roots s s' :=
  ⟨h'.zeroPage.trans h.zeroPage, fun t u i hi => (h'.words t u i hi).trans (h.words t u i hi)⟩

section pages

variable {s : Phys} {roots : Nat → Option Nat} {O : Set Block} {f v start stop : Nat}

theorem protectPage_reflagged (h : PtInv s R roots O fun _ => 0)
    (ho : Owned (pte s.mem roots) (zeroFrame s)) (hroot : roots sp = some f) (hv : v < userPages) :
    wp (protectPage (f * pageSize) (v * pageSize) vf)
      (fun _ s' => PtInv s' R roots O (fun _ => 0) ∧ Owned (pte s'.mem roots) (zeroFrame s') ∧
        Reflagged sp (fun u => u = v) vf (pte s.mem roots) (pte s'.mem roots) ∧ Unmoved roots s s')
      never s := by
  refine (protectPage_spec h hroot hv).post ?_
  rintro _ s' ⟨hpt, ⟨hp, rfl⟩ | ⟨e, e', hp, hset, hf, hnx, hw⟩⟩
  · refine ⟨hpt, ho, ⟨fun _ _ hp => hp, fun u e hu hpe => ?_, fun _ _ _ => rfl⟩, .refl _ _⟩
    rw [hu, hp] at hpe
    cases hpe
  have hz := zeroFrame_eq hset.zeroPage
  refine ⟨hpt, ?_, ⟨fun u hu hpu => ?_, fun u e1 hu hpu => ?_, fun t u hu => ?_⟩,
    hset.zeroPage, hset.words⟩
  · rw [hz]
    exact ho.reflag hp hset.pte hf fun hwe => (hw hwe).2
  · rw [hu, hp] at hpu
    cases hpu
  · rw [hu, hp] at hpu
    cases hpu
    exact ⟨e', by rw [hset.pte, if_pos ⟨rfl, hu⟩], hf, hnx, fun hwe => (hw hwe).1⟩
  · rw [hset.pte, if_neg hu]

-- A loop over the pages of a range; `D` are the pages that are done.
theorem wp_forPages {f : Nat → PhysM Unit} {E : Errno → Phys → Prop}
    (I : (Nat → Prop) → Phys → Prop) (hs : start % pageSize = 0) (he : stop % pageSize = 0) (hle : start ≤ stop)
    (htop : stop ≤ userTop) (h0 : I (fun _ => False) s)
    (hstep : ∀ v D s, v < userPages → start ≤ v * pageSize ∧ v * pageSize < stop → ¬ D v → I D s →
      wp (f (v * pageSize)) (fun _ => I fun u => D u ∨ u = v) E s) :
    wp (Prog.forRange (fun i => f (start + i * pageSize)) (pagesIn start stop))
      (fun _ => I fun u => start ≤ u * pageSize ∧ u * pageSize < stop) E s := by
  have hpages : start / pageSize + pagesIn start stop ≤ userPages ∧ start = start / pageSize * pageSize ∧
      start / pageSize * pageSize + pagesIn start stop * pageSize = stop := by
    have htop' : stop ≤ 0x0000800000000000 := htop
    simp only [pagesIn, pageSize, userPages, Nat.reducePow] at hs he ⊢
    omega
  have hcongr : ∀ {D D' : Nat → Prop} {s : Phys}, I D s → (∀ u, D u ↔ D' u) → I D' s := by
    intro D D' s h hD
    rwa [← show D = D' from funext fun u => propext (hD u)]
  -- after `i` rounds the first `i` pages are done
  refine (wp_forRange (fun i => I fun u => start / pageSize ≤ u ∧ u < start / pageSize + i) ?_ ?_).post ?_
  · exact hcongr h0 fun u => iff_of_false id (by omega)
  · intro i s1 hi h1
    have hva : start + i * pageSize = (start / pageSize + i) * pageSize := by rw [Nat.add_mul, ← hpages.2.1]
    rw [hva]
    refine (hstep _ _ s1 (by omega) ?_ (by omega) h1).post (fun _ _ h2 => ?_)
    · simp only [pageSize] at hpages ⊢
      omega
    · exact hcongr h2 fun u => by omega
  · refine fun _ s' h' => hcongr h' fun u => ?_
    simp only [pageSize] at hpages ⊢
    omega

theorem protectPages_spec {vma : Vma} (vf : VmaFlags) (h : PtInv s R roots O fun _ => 0)
    (ho : Owned (pte s.mem roots) (zeroFrame s)) (hroot : roots sp = some f) (hg : GoodVma vma)
    (hne : vma.start < vma.stop) :
    wp (protectPages (f * pageSize) vma vf)
      (fun _ s' => PtInv s' R roots O (fun _ => 0) ∧ Owned (pte s'.mem roots) (zeroFrame s') ∧
        Reflagged sp vma.Covers vf (pte s.mem roots) (pte s'.mem roots) ∧ Unmoved roots s s')
      never s := by
  refine wp_forPages (f := fun va => protectPage (f * pageSize) va vf)
    (fun D s' => PtInv s' R roots O (fun _ => 0) ∧ Owned (pte s'.mem roots) (zeroFrame s') ∧
    Reflagged sp D vf (pte s.mem roots) (pte s'.mem roots) ∧ Unmoved roots s s') hg.startAligned hg.stopAligned
    hne.le hg.top ⟨h, ho, .refl _ (fun _ hc => hc), .refl _ _⟩ ?_
  rintro v D s1 hv - - ⟨hpt, ho1, hre, hun⟩
  refine (protectPage_reflagged hpt ho1 hroot hv).post ?_
  rintro _ s2 ⟨hpt2, ho2, hre2, hun2⟩
  exact ⟨hpt2, ho2, hre.trans hre2, hun.trans hun2⟩

end pages

theorem Base.phys {k : Kern} {R : Set Nat} {K : Set Block} (h : Base k R K)
    (hpt : PtInv s' R k.roots (K ∪ k.slabBlocks) fun _ => 0)
    (hz : s'.pmm.mmZeroPage = k.phys.pmm.mmZeroPage) : Base { k with phys := s' } R K where
  pt := hpt
  zeroHeld := by
    have hzf := zeroFrame_eq hz
    rw [hzf]
    exact h.zeroHeld
  numbered := h.numbered
  slabAligned := h.slabAligned
  slabOwn := h.slabOwn
  rootAligned := h.rootAligned
  spaceId := h.spaceId
  kernel := h.kernel

section loop

variable {k : Kern} {K : Set Block} {start stop : Nat} {a : AddrSpace} {A B L : List Nat}

theorem protectVma_spec (id : Nat) (vf : VmaFlags) (h : Base k R K) (ho : Owned k.pte (zeroFrame k.phys))
    (ha : k.space sp = some a) (hg : GoodVma (a.vmas.vma id))
    (hne : (a.vmas.vma id).start < (a.vmas.vma id).stop) :
    wp (protectVma sp id vf)
      (fun _ k' => Base k' R K ∧ Owned k'.pte (zeroFrame k'.phys) ∧ k'.heap = k.heap ∧
        k'.kernelPml4 = k.kernelPml4 ∧ k'.space =
          update k.space sp (some { a with vmas := a.vmas.setFlags id vf }) ∧
        Reflagged sp (a.vmas.vma id).Covers vf k.pte k'.pte ∧ Unmoved k.roots k.phys k'.phys)
      never k := by
  unfold protectVma
  apply wp_vmasOf ha
  apply wp_pml4Of ha
  apply wp_bind_write
  apply wp_bind_attempt
  apply wp_zoom
  set k1 := k.setVmas sp (a.vmas.setFlags id vf) with hk1
  have hroots : k1.roots = k.roots := setVmas_roots
  have hb1 : Base k1 R K := h.setVmas
  have ho1 : Owned (pte k1.phys.mem k1.roots) (zeroFrame k1.phys) := by
    rw [hroots]
    exact ho
  have hroot : k1.roots sp = some (paToPfn a.pml4Phys) := by
    rw [hroots]
    exact Kern.roots_eq ha
  have hspec := protectPages_spec vf hb1.pt ho1 hroot hg hne
  rw [← h.pml4_eq ha] at hspec
  refine hspec.any.post ?_
  rintro _ s' ⟨hpt, ho', hre, hun⟩
  apply wp_pure
  rw [hroots] at hun
  refine ⟨hb1.phys hpt hun.zeroPage, ho', rfl, rfl, ?_, ?_, hun⟩
  · show update k.space sp ((k.space sp).map fun a => _) = _
    rw [ha]
    rfl
  · rw [hroots] at hre
    show Reflagged sp _ vf k.pte (pte s'.mem k1.roots)
    rw [hroots]
    exact hre

theorem protectLoop_spec (h : Base k R K) (ho : Owned k.pte (zeroFrame k.phys)) (ha : k.space sp = some a)
    (ht : TreeInv GoodVma a.vmas k.heap.next (A ++ B)) (hB : ∀ i ∈ B, start ≤ (a.vmas.vma i).start)
    (hno : NoStraddle a.vmas B stop) (huser : vf.user = true) :
    wp (protectLoop sp start stop vf B.head?)
      (fun _ k' => Base k' R K ∧ Owned k'.pte (zeroFrame k'.phys) ∧ k'.heap = k.heap ∧
        k'.kernelPml4 = k.kernelPml4 ∧ (∀ t, t ≠ sp → k'.space t = k.space t) ∧
        ∃ t', k'.space sp = some { a with vmas := t' } ∧ t'.rb = a.vmas.rb ∧
          (∀ i, t'.vma i = if i ∈ B ∧ (a.vmas.vma i).start < stop
            then { a.vmas.vma i with flags := vf } else a.vmas.vma i) ∧
          Reflagged sp (fun u => ∃ i ∈ B, (a.vmas.vma i).start < stop ∧
            (a.vmas.vma i).Covers u) vf k.pte k'.pte ∧ Unmoved k.roots k.phys k'.phys)
      never k := by
  induction B generalizing k a A with
  | nil =>
    rw [protectLoop.eq_def]
    apply wp_pure
    exact ⟨h, ho, rfl, rfl, fun _ _ => rfl, a.vmas, ha, rfl, by simp, .refl _ (by simp),
      .refl _ _⟩
  | cons x B ih =>
    rw [protectLoop.eq_def]
    apply wp_vmasOf ha
    have hord := ht.holds.ordered
    refine wp_ite (fun hlt => ?_) fun hlt => ?_
    · apply wp_known ht.holds.vmaNext_eq
      have hxs : (a.vmas.vma x).stop ≤ stop := by
        rcases hno x (by simp) with hc | hc
        · exact hc
        · omega
      rw [if_pos ⟨hB x (by simp), hxs⟩]
      refine (protectVma_spec x vf h ho ha (ht.good x (by simp)) (ht.range (by simp))).any.next ?_
      rintro _ k1 ⟨hb1, ho1, hheap, hk1, hsp1, hre1, hun1⟩
      set t1 := a.vmas.setFlags x vf with ht1
      have ha1 : k1.space sp = some { a with vmas := t1 } := by rw [hsp1, update_self]
      have hother1 : ∀ t, t ≠ sp → k1.space t = k.space t := by
        intro t hts
        rw [hsp1, update_of_ne hts]
      have hroots := Kern.roots_congr ha hother1 ha1
      have hvx : t1.vma x = { a.vmas.vma x with flags := vf } := by simp [ht1]
      have hvi : ∀ i, i ≠ x → t1.vma i = a.vmas.vma i := by
        intro i hi
        rw [ht1, setFlags_vma, update_of_ne hi]
      have hstart : ∀ i, (t1.vma i).start = (a.vmas.vma i).start := by
        intro i
        by_cases hi : i = x
        · rw [hi, hvx]
        · rw [hvi i hi]
      have hstop : ∀ i, (t1.vma i).stop = (a.vmas.vma i).stop := by
        intro i
        by_cases hi : i = x
        · rw [hi, hvx]
        · rw [hvi i hi]
      have hcons : A ++ x :: B = (A ++ [x]) ++ B := by simp
      have hxB : x ∉ B := by
        have hnd := hord.nodup
        simp only [List.nodup_append, List.nodup_cons] at hnd
        exact hnd.2.1.1
      have htree : TreeInv GoodVma t1 k1.heap.next ((A ++ [x]) ++ B) := by
        rw [← hcons, hheap]
        refine ⟨ht.holds.congr_flags rfl (fun i _ => hstart i) (fun i _ => hstop i), ht.alloc,
          fun i hi => ?_⟩
        have hgood := ht.good i hi
        by_cases hix : i = x
        · subst hix
          rw [hvx]
          exact ⟨hgood.floor, hgood.top, hgood.startAligned, hgood.stopAligned, huser⟩
        · rw [hvi i hix]
          exact hgood
      have hrec := ih hb1 ho1 ha1 htree
        (fun i hi => by dsimp only; rw [hstart]; exact hB i (by simp [hi]))
        (fun i hi => by dsimp only; rw [hstart, hstop]; exact hno i (by simp [hi]))
      refine hrec.post ?_
      rintro _ k' ⟨hb', ho', hheap', hk', hother, t', hself, hrb, hvma, hre', hun'⟩
      refine ⟨hb', ho', hheap'.trans hheap, hk'.trans hk1, fun t hts => ?_, t', hself, hrb,
        fun i => ?_, ?_, hun1.trans (hroots ▸ hun')⟩
      · rw [hother t hts, hother1 t hts]
      · rw [hvma, hstart]
        by_cases hix : i = x
        · subst hix
          rw [if_neg (fun hc => hxB hc.1), if_pos ⟨by simp, hlt⟩, hvx]
        · rw [hvi i hix]
          simp only [List.mem_cons, hix, false_or]
      · refine (hre1.trans hre').congr fun u => ?_
        have hcov : ∀ i, i ∈ B → (t1.vma i).Covers u = (a.vmas.vma i).Covers u := by
          intro i hi
          rw [hvi i (fun hc => hxB (hc ▸ hi))]
        simp only [List.mem_cons, exists_eq_or_imp, hlt, true_and]
        apply or_congr_right
        constructor
        · rintro ⟨i, hi, hc, hcu⟩
          exact ⟨i, hi, by rwa [hstart], by rwa [hcov i hi]⟩
        · rintro ⟨i, hi, hc, hcu⟩
          exact ⟨i, hi, by rwa [hstart] at hc, by rwa [hcov i hi] at hcu⟩
    · apply wp_pure
      obtain ⟨-, hoxB, -⟩ := Family.Ordered.append_iff.1 hord
      obtain ⟨hne, -, hxB⟩ := Family.Ordered.cons_iff.1 hoxB
      have hne : (a.vmas.vma x).start < (a.vmas.vma x).stop := hne
      have hnone : ∀ i ∈ x :: B, ¬ (a.vmas.vma i).start < stop := by
        intro i hi hc
        rcases List.mem_cons.1 hi with rfl | hi
        · exact hlt hc
        · have : (a.vmas.vma x).stop ≤ (a.vmas.vma i).start := hxB i hi
          omega
      refine ⟨h, ho, rfl, rfl, fun _ _ => rfl, a.vmas, ha, rfl, fun i => ?_, .refl _ ?_,
        .refl _ _⟩
      · rw [if_neg (fun hc => hnone i hc.1 hc.2)]
      · rintro u ⟨i, hi, hc, -⟩
        exact hnone i hi hc

-- The pages in a range have new flags; so has the map.
structure Reprotect (k k' : Kern) (sp start stop : Nat) (vf : VmaFlags) : Prop where
  kernelPml4 : k'.kernelPml4 = k.kernelPml4
  next : k.heap.next ≤ k'.heap.next
  other : ∀ t, t ≠ sp → k'.space t = k.space t
  live : k'.space sp ≠ none
  flags : ∀ x, k'.flags sp x =
    if start ≤ x ∧ x < stop then (k.flags sp x).map fun _ => vf else k.flags sp x
  pages : Reflagged sp (fun u => start ≤ u * pageSize ∧ u * pageSize < stop ∧
    k.flags sp (u * pageSize) ≠ none) vf k.pte k'.pte
  words : ∀ t u i, i < 512 → k'.words t u i = k.words t u i

theorem addrMap_protect (h : t.spans.Ordered (A ++ B))
    (hA : ∀ i ∈ A, (t.vma i).stop ≤ start) (hB : ∀ i ∈ B, start ≤ (t.vma i).start)
    (hno : NoStraddle t B stop)
    (hvma : ∀ i, t'.vma i = if i ∈ B ∧ (t.vma i).start < stop
      then { t.vma i with flags := vf } else t.vma i) (x : Nat) :
    addrMap t' (A ++ B) x =
      if start ≤ x ∧ x < stop then (addrMap t (A ++ B) x).map fun _ => vf
      else addrMap t (A ++ B) x := by
  have hstart : ∀ i, (t'.vma i).start = (t.vma i).start := by
    intro i
    rw [hvma]
    split <;> rfl
  have hstop : ∀ i, (t'.vma i).stop = (t.vma i).stop := by
    intro i
    rw [hvma]
    split <;> rfl
  have hloc : t'.spans.locate (A ++ B) x = t.spans.locate (A ++ B) x := by
    apply List.find?_congr
    intro i _
    apply decide_eq_decide.2
    simp only [Family.Has, VmaTree.spans, hstart, hstop]
  unfold addrMap
  rw [hloc]
  cases hl : t.spans.locate (A ++ B) x with
  | none => simp
  | some i =>
    obtain ⟨hi, hs, he⟩ := h.locate_eq_some.1 hl
    have hs : (t.vma i).start ≤ x := hs
    have he : x < (t.vma i).stop := he
    simp only [Option.map_some]
    rw [hvma]
    by_cases hx : start ≤ x ∧ x < stop
    · have hiB : i ∈ B := by
        rcases List.mem_append.1 hi with hi | hi
        · have := hA i hi
          omega
        · exact hi
      rw [if_pos hx, if_pos ⟨hiB, by omega⟩]
    · rw [if_neg hx, if_neg]
      rintro ⟨hiB, hc⟩
      have h1 := hB i hiB
      have h2 := hno i hiB
      omega

theorem sysMprotect_spec {prot : BitVec 32} (h : Sound k R K)
    (ha : k.space sp = some a) (haddr : addr < 2 ^ 64) :
    wp (sysMprotect (some sp) addr length prot)
      (fun _ k' => Sound k' R K ∧ addr % pageSize = 0 ∧
        (hasBit prot protWrite && hasBit prot protExec) = false ∧
        Reprotect k k' sp addr (addr + pageAlignUp length) (protToVma prot))
      (fun _ k' => Sound k' R K ∧ Remap k k' sp (k.flags sp) fun _ => False) k := by
  have hfail := Remap.refl ha
  have hal := pageAlignUp_mod length
  have hlt := pageAlignUp_lt length
  unfold sysMprotect
  set len := pageAlignUp length with hlen
  refine wp_ite (fun _ => wp_error ⟨h, hfail⟩) fun h0 => ?_
  refine wp_ite (fun _ => wp_error ⟨h, hfail⟩) fun h1 => ?_
  refine wp_ite (fun _ => wp_error ⟨h, hfail⟩) fun h2 => ?_
  refine wp_ite (fun _ => wp_error ⟨h, hfail⟩) fun h3 => ?_
  have hw : wrap64 (addr + len) = addr + len := by
    unfold wrap64 at h3 ⊢
    omega
  rw [hw] at h3 ⊢
  have hend : (addr + len) % pageSize = 0 := by
    simp only [pageSize] at h1 hal ⊢
    omega
  have hwx : (hasBit prot protWrite && hasBit prot protExec) = false := by simpa using h0
  obtain ⟨L, hg⟩ := h.spaces sp a ha
  refine splitBounds_spec h.base ha hg.tree GoodVma.cuttable (by omega) hend (by omega) ?_ ?_
  · intro k1 t1 L1 hb1 hre1 ht1 hf1 hno1 hno2
    have ha1 := hre1.self
    apply wp_vmasOf ha1
    apply wp_known (vmaAtOrAbove_eq ht1.holds addr)
    obtain ⟨A, hL, hA, hB⟩ := divide ht1.holds.ordered hno1
    set B := L1.dropWhile fun i => decide ((t1.vma i).stop ≤ addr) with hBdef
    have ht1' := hL ▸ ht1
    have hord := ht1'.holds.ordered
    have hno2' : NoStraddle t1 B (addr + len) := fun i hi => hno2 i (by rw [hL]; simp [hi])
    have ho1 : Owned k1.pte (zeroFrame k1.phys) := by
      have hz := zeroFrame_eq hre1.idle.zeroPage
      rw [hz]
      exact h.owned.subset fun t v e he => by rwa [hre1.idle.pte] at he
    refine (protectLoop_spec hb1 ho1 ha1 ht1' hB hno2' (protToVma_user prot)).any.post ?_
    rintro _ k' ⟨hb', ho', hheap, hker, hother, t', hself, hrb, hvma, hre', hun'⟩
    have hmap := addrMap_protect hord hA hB hno2' hvma
    have htree : TreeInv GoodVma t' k'.heap.next (A ++ B) := by
      rw [hheap]
      refine ⟨ht1'.holds.congr_flags hrb (fun i _ => ?_) (fun i _ => ?_), ht1'.alloc, fun i hi => ?_⟩
      · rw [hvma]
        split <;> rfl
      · rw [hvma]
        split <;> rfl
      · have hgood := ht1'.good i hi
        rw [hvma]
        split
        · exact ⟨hgood.floor, hgood.top, hgood.startAligned, hgood.stopAligned, rfl⟩
        · exact hgood
    have hflags : ∀ x, addrMap t1 (A ++ B) x = k.flags sp x := by
      intro x
      rw [← hL, hf1.addrMap, flags_eq ha hg.tree.holds]
    have hroots := Kern.roots_congr ha hre1.other ha1
    have hroots' := (Kern.roots_congr ha1 hother hself).trans hroots
    have hpte : k1.pte = k.pte := by
      funext t u
      exact hre1.idle.pte t u
    refine ⟨⟨hb', fun t b hb => ?_, ho'⟩, by omega, hwx,
      hker.trans hre1.idle.kernelPml4, ?_, fun t ht => ?_, by simp [hself], fun x => ?_, ?_,
      fun t u i hi => ?_⟩
    · by_cases hts : t = sp
      · rw [hts, hself] at hb
        cases hb
        exact ⟨_, htree, hg.ceiling⟩
      · rw [hother t hts, hre1.other t hts] at hb
        obtain ⟨M, hM⟩ := h.spaces t b hb
        exact ⟨M, hM.mono (by rw [hheap]; exact hre1.idle.next)⟩
    · rw [hheap]
      exact hre1.idle.next
    · rw [hother t ht, hre1.other t ht]
    · rw [flags_eq hself htree.holds, hmap, hflags]
    · rw [← hpte]
      refine hre'.congr fun u => ?_
      rw [← hflags]
      exact covered_iff hord hA hB hno2'
    · rw [← hre1.idle.words t u i hi]
      unfold Kern.words
      rw [hroots', hroots]
      rw [hroots] at hun'
      exact hun'.words t u i hi
  · intro k' t' L' hb' hre ht' hf
    refine ⟨h.of_self hb' hre.idle.sheds hre.other hre.self ⟨ht', hg.ceiling⟩,
      hre.idle.sheds.congr fun t v => by simp, hre.other, by simp [hre.self], fun x => ?_⟩
    rw [flags_eq hre.self ht'.holds, hf.addrMap, flags_eq ha hg.tree.holds]

end loop

end Jnu.Mm
