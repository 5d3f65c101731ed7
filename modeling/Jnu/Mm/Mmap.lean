import Jnu.Mm.Sound

namespace Jnu.Mm

open Lib.Dyadic Lib.Effect Pmm

section insert

variable {P : Vma → Prop} {t : VmaTree} {n id m : Nat} {L : List Nat} {v : Vma}

-- A new mapping is refused for one that it meets, or gets its place between two others.
theorem VmaTree.Holds.insertNew (h : t.Holds L) (hid : id ∉ L) (hne : v.start < v.stop) :
    (vmaInsert (t.set id v) id = some (.error .eexist) ∧
      ∃ i ∈ L, v.start < (t.vma i).stop ∧ (t.vma i).start < v.stop) ∨
    ∃ t' A B, vmaInsert (t.set id v) id = some (.ok t') ∧ L = A ++ B ∧ t'.Holds (A ++ id :: B) ∧
      t'.vma id = v ∧ ∀ i ∈ L, t'.vma i = t.vma i := by
  have hself : (t.set id v).vma id = v := by simp
  have hold : ∀ i ∈ L, (t.set id v).vma i = t.vma i := by
    intro i hi
    rw [set_vma, Function.update_of_ne]
    rintro rfl
    exact hid hi
  have hholds : (t.set id v).Holds L := h.congr rfl hold
  rcases vmaInsert_spec hholds hid (by rwa [hself]) with ⟨he, i, hi, hm⟩ | ⟨t', A, B, he, hvma, hL, h'⟩
  · have h1 : ((t.set id v).vma id).start < ((t.set id v).vma i).stop := hm.1
    have h2 : ((t.set id v).vma i).start < ((t.set id v).vma id).stop := hm.2
    rw [hself, hold i hi] at h1 h2
    exact .inl ⟨he, i, hi, h1, h2⟩
  · exact .inr ⟨t', A, B, he, hL, h', by rw [hvma, hself], by rwa [hvma]⟩

theorem TreeInv.insertAt (h : TreeInv P t n L) (hid : id ∉ L) (hlt : id < m) (hm : n ≤ m) (hv : P v)
    (hne : v.start < v.stop) (hfree : ∀ i ∈ L, (t.vma i).stop ≤ v.start ∨ v.stop ≤ (t.vma i).start) :
    ∃ t' L', vmaInsert (t.set id v) id = some (.ok t') ∧ TreeInv P t' m L' ∧
      (∀ i, i ∈ L' ↔ i = id ∨ i ∈ L) ∧ t'.vma id = v ∧ ∀ x, addrMap t' L' x =
        if v.start ≤ x ∧ x < v.stop then some v.flags else addrMap t L x := by
  rcases h.holds.insertNew hid hne with ⟨-, i, hi, h1, h2⟩ | ⟨t', A, B, he, rfl, h', hself, hold⟩
  · have := hfree i hi
    omega
  have hmem : ∀ i, i ∈ A ++ id :: B ↔ i = id ∨ i ∈ A ++ B := by
    intro i
    simp only [List.mem_append, List.mem_cons]
    tauto
  refine ⟨t', A ++ id :: B, he, ⟨h', fun i hi => ?_, fun i hi => ?_⟩, hmem, hself, fun x => ?_⟩
  · rcases (hmem i).1 hi with rfl | hi
    · exact hlt
    · exact (h.alloc i hi).trans_le hm
  · rcases (hmem i).1 hi with rfl | hi
    · rwa [hself]
    · rw [hold i hi]
      exact h.good i hi
  · rw [addrMap_insert h'.ordered, hself]
    congr 1
    exact addrMap_congr hold x

theorem TreeInv.insert (h : TreeInv P t n L) (hv : P v) (hne : v.start < v.stop)
    (hfree : ∀ i ∈ L, (t.vma i).stop ≤ v.start ∨ v.stop ≤ (t.vma i).start) :
    ∃ t' L', vmaInsert (t.set n v) n = some (.ok t') ∧ TreeInv P t' (n + 1) L' ∧
      (n ∈ L' ∧ t'.vma n = v) ∧ ∀ x, addrMap t' L' x =
        if v.start ≤ x ∧ x < v.stop then some v.flags else addrMap t L x := by
  have hn : n ∉ L := fun hc => absurd (h.alloc n hc) (lt_irrefl n)
  obtain ⟨t', L', he, htree, hmem, hvma, hmap⟩ :=
    h.insertAt hn (Nat.lt_succ_self n) (Nat.le_succ n) hv hne hfree
  exact ⟨t', L', he, htree, ⟨(hmem n).2 (.inl rfl), hvma⟩, hmap⟩

end insert

section align

variable {length : Nat}

theorem pageAlignUp_mod (length : Nat) : pageAlignUp length % pageSize = 0 := by
  unfold pageAlignUp
  exact Nat.mul_mod_left _ _

theorem pageAlignUp_lt (length : Nat) : pageAlignUp length < 2 ^ 64 := by
  unfold pageAlignUp wrap64
  simp only [pageSize]
  omega

end align

section mmap

variable {k : Kern} {R : Set Nat} {K : Set Block} {sp chosen len start stop addr length ceiling : Nat}
  {a : AddrSpace} {L : List Nat} {vf : VmaFlags} {t : VmaTree} {prot flags : BitVec 32}

def HasVma (k : Kern) (sp : Nat) (v : Vma) : Prop :=
  ∃ a id, k.space sp = some a ∧ vmaFind a.vmas v.start = some (some id) ∧ a.vmas.vma id = v

theorem insertAnonymous_spec (h : Sound k R K) (ha : k.space sp = some a)
    (hg : GoodSpace a k.heap.next L) (hv : GoodVma ⟨chosen, chosen + len, vf⟩) (hlen : 0 < len)
    (hfree : ∀ i ∈ L, (a.vmas.vma i).stop ≤ chosen ∨ chosen + len ≤ (a.vmas.vma i).start) :
    wp (insertAnonymous sp chosen len vf)
      (fun r k' => r = chosen ∧ Sound k' R K ∧ HasVma k' sp ⟨chosen, chosen + len, vf⟩ ∧ Remap k k' sp
        (fun x => if chosen ≤ x ∧ x < chosen + len then some vf else k.flags sp x) fun _ => False)
      (fun e k' => e = .enomem ∧ Sound k' R K ∧ Remap k k' sp (k.flags sp) fun _ => False) k := by
  have hw : wrap64 (chosen + len) = chosen + len := by
    have htop : chosen + len ≤ 0x0000800000000000 := hv.top
    unfold wrap64
    omega
  obtain ⟨t', L', hins, htree, ⟨hmem, hvma⟩, hmap⟩ := hg.tree.insert hv (by simpa using hlen) hfree
  unfold insertAnonymous
  rw [hw]
  refine (kzalloc_spec h.base).any.next ?_
  rintro r k1 ⟨hb1, hi1, hsp1, hr⟩
  have ha1 : k1.space sp = some a := by rw [hsp1, ha]
  cases r with
  | none =>
    exact wp_error ⟨rfl, h.of_idle hb1 hi1 hsp1, .of_idle hi1 hsp1 (by simp [ha])⟩
  | some id =>
    obtain ⟨rfl, hnext⟩ := hr id rfl
    apply wp_vmasOf ha1
    apply wp_known hins
    apply wp_bind_write
    apply wp_pure
    have hi2 : Idle k (k1.setVmas sp t') := hi1.trans Idle.setVmas
    have hself : (k1.setVmas sp t').space sp = some { a with vmas := t' } := setVmas_self ha1
    have hother : ∀ t, t ≠ sp → (k1.setVmas sp t').space t = k.space t := by
      intro t ht
      rw [setVmas_of_ne ht, hsp1]
    refine ⟨rfl, h.of_self hb1.setVmas hi2.sheds hother hself ⟨hnext ▸ htree, hg.ceiling⟩,
      ⟨_, k.heap.next, hself, ?_, hvma⟩, hi2.sheds.congr fun t v => by simp, hother,
      by simp [hself], fun x => ?_⟩
    · rw [vmaFind_eq htree.holds, htree.holds.ordered.locate_eq_some.2]
      refine ⟨hmem, ?_, ?_⟩
      · show (t'.vma k.heap.next).start ≤ _
        rw [hvma]
      show _ < (t'.vma k.heap.next).stop
      rw [hvma]
      dsimp only
      omega
    · rw [flags_eq hself htree.holds, hmap, flags_eq ha hg.tree.holds]

theorem removeRange_spec (h : Sound k R K) (ha : k.space sp = some a) (hs : start % pageSize = 0)
    (he : stop % pageSize = 0) (hlt : start < stop) (htop : stop ≤ userTop) :
    wp (vmaRemoveRange sp (some sp) start stop)
      (fun _ k' => Sound k' R K ∧ Remap k k' sp
        (fun x => if start ≤ x ∧ x < stop then none else k.flags sp x)
        fun v => start ≤ v * pageSize ∧ v * pageSize < stop ∧ k.flags sp (v * pageSize) ≠ none)
      (fun e k' => e = .enomem ∧ Sound k' R K ∧ Remap k k' sp (k.flags sp) fun _ => False) k := by
  obtain ⟨L, hg⟩ := h.spaces sp a ha
  refine (vmaRemoveRange_spec h.base ha hg.tree GoodVma.cuttable GoodVma.aligned
    (.inr ⟨rfl, htop⟩) hs he hlt).mono ?_ ?_
  · rintro _ k' ⟨hb', hother, t', L', hself, htree, hmap, hsh⟩
    refine ⟨h.of_self hb' hsh hother hself ⟨htree, hg.ceiling⟩, hsh.congr fun t v => ?_, hother,
      by simp [hself], fun x => ?_⟩
    · rw [flags_eq ha hg.tree.holds, Option.some.injEq, eq_comm]
    · rw [flags_eq hself htree.holds, hmap, flags_eq ha hg.tree.holds]
  · rintro e k' ⟨rfl, hb', t', L', hre, htree, href⟩
    refine ⟨rfl, h.of_self hb' hre.idle.sheds hre.other hre.self ⟨htree, hg.ceiling⟩,
      hre.idle.sheds.congr fun t v => by simp, hre.other, by simp [hre.self], fun x => ?_⟩
    rw [flags_eq hre.self htree.holds, href.addrMap, flags_eq ha hg.tree.holds]

theorem protToVma_user (prot : BitVec 32) : (protToVma prot).user = true := rfl

-- The call that the gap search gets wrong: no VMA yet, and a length that makes `floor + size` wrap around.
def GapOverflow (k : Kern) (sp length : Nat) (flags : BitVec 32) : Prop :=
  hasBit flags mapFixed = false ∧ pageAlignUp length = 2 ^ 64 - pageSize ∧
    ∃ a, k.space sp = some a ∧ a.vmas.rb.root = none

-- The effect of a failed call: a mapping with `MAP_FIXED` may have removed what was there.
def MapFailed (k k' : Kern) (sp addr len : Nat) (flags : BitVec 32) : Prop :=
  Remap k k' sp (k.flags sp) (fun _ => False) ∨
  (hasBit flags mapFixed = true ∧ addr % pageSize = 0 ∧ addr + len ≤ userTop ∧ Remap k k' sp
    (fun x => if addr ≤ x ∧ x < addr + len then none else k.flags sp x)
    fun v => addr ≤ v * pageSize ∧ v * pageSize < addr + len ∧ k.flags sp (v * pageSize) ≠ none)

-- The new mapping is at a page boundary in user space and takes the place of what was there.
structure Mapped (k k' : Kern) (sp r len : Nat) (prot : BitVec 32) : Prop where
  aligned : r % pageSize = 0 ∧ len % pageSize = 0
  floor : pageSize ≤ r
  nonempty : 0 < len
  top : r + len ≤ userTop
  wx : (hasBit prot protWrite && hasBit prot protExec) = false
  vma : HasVma k' sp ⟨r, r + len, protToVma prot⟩
  remap : Remap k k' sp
    (fun x => if r ≤ x ∧ x < r + len then some (protToVma prot) else k.flags sp x)
    fun v => r ≤ v * pageSize ∧ v * pageSize < r + len ∧ k.flags sp (v * pageSize) ≠ none

theorem ne_nil_of_root (h : t.Holds L) (hr : t.rb.root ≠ none) : L ≠ [] := by
  rintro rfl
  obtain ⟨T, hT, hnil⟩ := h.tree
  cases T with
  | nil => exact hr hT.1.root
  | node l c x r => simp [Lib.RedBlack.RbTree.toList] at hnil

section gap

variable {n size : Nat}

theorem GoodSpace.starts (hg : GoodSpace a n L) :
    ∀ i ∈ L, pageSize ≤ (a.vmas.vma i).start ∧ (a.vmas.vma i).start < 2 ^ 64 := by
  intro i hi
  have hgood := hg.tree.good i hi
  have htop : (a.vmas.vma i).stop ≤ 0x0000800000000000 := hgood.top
  have := hg.tree.range hi
  exact ⟨hgood.floor, by omega⟩

theorem GoodSpace.base_lt (hg : GoodSpace a n L) : a.mmapBase < 2 ^ 64 := by
  have hceil : a.mmapBase ≤ 0x0000555500000000 := hg.ceiling.2
  omega

section

variable (hg : GoodSpace a n L) (hsize : size < 2 ^ 64) (hal : size % pageSize = 0)
include hg hsize hal

theorem gap_sane (hok : ¬ (size = 2 ^ 64 - pageSize ∧ a.vmas.rb.root = none)) :
    L ≠ [] ∨ size + pageSize < 2 ^ 64 := by
  by_cases hr : a.vmas.rb.root = none
  · right
    have : size ≠ 2 ^ 64 - pageSize := fun hc => hok ⟨hc, hr⟩
    simp only [pageSize] at this hal ⊢
    omega
  · exact .inl (ne_nil_of_root hg.tree.holds hr)

theorem findGap_spec (hpos : 0 < size) (hok : ¬ (size = 2 ^ 64 - pageSize ∧ a.vmas.rb.root = none)) :
    ∃ r, vmaFindGapTopDown a.vmas size a.mmapBase = some r ∧ (r = 0 → Full a.vmas L size a.mmapBase) ∧
      (r = 0 ∨ (r % pageSize = 0 ∧ pageSize ≤ r ∧ r + size ≤ a.mmapBase ∧
        ∀ i ∈ L, (a.vmas.vma i).stop ≤ r ∨ r + size ≤ (a.vmas.vma i).start)) := by
  obtain ⟨r, hr, hfits, hgreatest⟩ := vmaFindGapTopDown_spec hg.tree.holds hg.starts hg.base_lt hsize hal hpos
    (gap_sane hg hsize hal hok)
  refine ⟨r, hr, fun hz => full_of_none (hz ▸ hgreatest), hfits.imp_right fun hf => ?_⟩
  exact ⟨hf.aligned hal hg.ceiling.1 fun i hi => (hg.tree.good i hi).startAligned, hf.floor, hf.below, hf.free⟩

end

end gap

theorem vmmMapAnonymous_spec (h : Sound k R K)
    (ha : k.space sp = some a) (haddr : addr < 2 ^ 64) (hok : ¬ GapOverflow k sp length flags) :
    wp (vmmMapAnonymous sp addr length prot flags)
      (fun r k' => Sound k' R K ∧ Mapped k k' sp r (pageAlignUp length) prot ∧
        (hasBit flags mapFixed = true → r = addr) ∧
        (hasBit flags mapFixed = false → r + pageAlignUp length ≤ a.mmapBase))
      (fun _ k' => Sound k' R K ∧ MapFailed k k' sp addr (pageAlignUp length) flags) k := by
  have hfail : MapFailed k k sp addr (pageAlignUp length) flags := .inl (.refl ha)
  have hal := pageAlignUp_mod length
  have hlt := pageAlignUp_lt length
  unfold vmmMapAnonymous
  set len := pageAlignUp length with hlen
  refine wp_ite (fun _ => wp_error ⟨h, hfail⟩) fun h1 => ?_
  refine wp_ite (fun _ => wp_error ⟨h, hfail⟩) fun h2 => ?_
  refine wp_ite (fun _ => wp_error ⟨h, hfail⟩) fun h3 => ?_
  refine wp_ite (fun _ => wp_error ⟨h, hfail⟩) fun h4 => ?_
  refine wp_ite (fun _ => wp_error ⟨h, hfail⟩) fun h5 => ?_
  have hwx : (hasBit prot protWrite && hasBit prot protExec) = false := by simpa using h5
  by_cases hfix : hasBit flags mapFixed
  · rw [if_pos hfix]
    refine wp_ite (fun _ => wp_error ⟨h, hfail⟩) fun h6 => ?_
    refine wp_ite (fun _ => wp_error ⟨h, hfail⟩) fun h7 => ?_
    refine wp_ite (fun _ => wp_error ⟨h, hfail⟩) fun h8 => ?_
    have hw : wrap64 (addr + len) = addr + len := by
      unfold wrap64 at h8 ⊢
      omega
    rw [hw] at h8 ⊢
    have hend : (addr + len) % pageSize = 0 := by
      simp only [pageSize] at h6 hal ⊢
      omega
    refine (removeRange_spec h ha (by omega) hend (by omega) (by omega)).bind ?_ ?_
    · rintro _ k1 ⟨hs1, hre1⟩
      obtain ⟨a1, ha1⟩ := Option.ne_none_iff_exists'.1 hre1.live
      obtain ⟨L1, hg1⟩ := hs1.spaces sp a1 ha1
      have hv : GoodVma ⟨addr, addr + len, protToVma prot⟩ :=
        ⟨by dsimp only; omega, by dsimp only; omega, by dsimp only; omega, hend, rfl⟩
      have hfree : ∀ i ∈ L1, (a1.vmas.vma i).stop ≤ addr ∨ addr + len ≤ (a1.vmas.vma i).start := by
        intro i hi
        by_contra hc
        have hr := hg1.tree.range hi
        -- an address that is in the VMA and in the range
        have hx : addrMap a1.vmas L1 (max addr (a1.vmas.vma i).start) =
            some (a1.vmas.vma i).flags := by
          rw [addrMap_eq_some hg1.tree.holds.ordered]
          exact ⟨i, hi, by omega, by omega, rfl⟩
        rw [← flags_eq ha1 hg1.tree.holds, hre1.flags, if_pos (by omega)] at hx
        cases hx
      refine (insertAnonymous_spec hs1 ha1 hg1 hv (by omega) hfree).mono ?_ ?_
      · rintro r k2 ⟨rfl, hs2, hvma2, hre2⟩
        refine ⟨hs2, ⟨⟨by omega, hal⟩, by omega, by omega, by omega, hwx, hvma2, ?_⟩, fun _ => rfl,
          fun hc => absurd (hfix.symm.trans hc) (by decide)⟩
        refine (hre1.trans hre2).congr (fun x => ?_) fun v => by simp
        rw [hre1.flags]
        by_cases hx : r ≤ x ∧ x < r + len
        · rw [if_pos hx, if_pos hx]
        · rw [if_neg hx, if_neg hx, if_neg hx]
      · rintro e k2 ⟨rfl, hs2, hre2⟩
        refine ⟨hs2, .inr ⟨hfix, by omega, by omega, (hre1.trans hre2).congr (fun x => ?_)
          fun v => by simp⟩⟩
        rw [hre1.flags]
    · rintro e k1 ⟨rfl, hs1, hre1⟩
      exact ⟨hs1, .inl hre1⟩
  · rw [if_neg hfix]
    obtain ⟨L, hg⟩ := h.spaces sp a ha
    have hno : ¬ (len = 2 ^ 64 - pageSize ∧ a.vmas.rb.root = none) :=
      fun hc => hok ⟨by simpa using hfix, hc.1, a, ha, hc.2⟩
    have hpos : 0 < len := Nat.pos_of_ne_zero h2
    obtain ⟨r, hr, -, hres⟩ := findGap_spec hg hlt hal hpos hno
    apply wp_spaceOf ha
    apply wp_known hr
    refine wp_ite (fun _ => wp_error ⟨h, hfail⟩) fun hz => ?_
    obtain ⟨hral, hfloor, hbelow, hfree⟩ := hres.resolve_left hz
    have htop : r + len ≤ userTop := (hbelow.trans hg.ceiling.2).trans (by decide)
    have hend : (r + len) % pageSize = 0 := by
      simp only [pageSize] at hral hal ⊢
      omega
    refine (insertAnonymous_spec h ha hg ⟨hfloor, htop, hral, hend, rfl⟩ hpos hfree).mono ?_ ?_
    · rintro r' k1 ⟨rfl, hs1, hvma1, hre1⟩
      refine ⟨hs1, ⟨⟨hral, hal⟩, hfloor, hpos, htop, hwx, hvma1, hre1.congr (fun _ => rfl) fun v => ?_⟩,
        fun hc => absurd hc hfix, fun _ => hbelow⟩
      -- there is nothing where the gap is
      simp only [iff_false, not_and, not_not]
      intro hs he
      rw [flags_eq ha hg.tree.holds, addrMap_eq_none]
      intro i hi hc
      have := hfree i hi
      omega
    · rintro e k1 ⟨rfl, hs1, hre1⟩
      exact ⟨hs1, .inl hre1⟩

-- The page-aligned places for `size` bytes below the ceiling, and what an exact search answers.
def GapAt (t : VmaTree) (L : List Nat) (size ceiling c : Nat) : Prop :=
  c % pageSize = 0 ∧ pageSize ≤ c ∧ c + size ≤ ceiling ∧
    ∀ i ∈ L, (t.vma i).stop ≤ c ∨ c + size ≤ (t.vma i).start

def GapExact (t : VmaTree) (L : List Nat) (size ceiling : Nat) : Prop :=
  ∃ r, vmaFindGapTopDown t size ceiling = some r ∧ (r = 0 ↔ ∀ c, ¬ GapAt t L size ceiling c) ∧
    (r ≠ 0 → GapAt t L size ceiling r ∧ ∀ c, GapAt t L size ceiling c → c ≤ r)

-- `floor + size` is 0.
theorem gap_wraps (h : t.Holds []) (hc : ceiling ≤ userTop) :
    ¬ GapExact t [] (2 ^ 64 - pageSize) ceiling := by
  have hfind : vmaFindGapTopDown t (2 ^ 64 - pageSize) ceiling = some (sub64 ceiling (2 ^ 64 - pageSize)) := by
    unfold vmaFindGapTopDown
    rw [h.vmaFirst_eq]
    rfl
  rintro ⟨r, hr, -, hplace⟩
  rw [hfind, Option.some.injEq] at hr
  simp only [userTop, sub64, wrap64, pageSize] at hc hr
  have := (hplace (by omega)).1.2.2.1
  omega

theorem gap_search_exact (t : VmaTree) (L : List Nat) :
    (∀ size ceiling, t.Holds L →
      (∀ i ∈ L, (t.vma i).start % pageSize = 0 ∧ pageSize ≤ (t.vma i).start ∧ (t.vma i).stop ≤ userTop) →
      size % pageSize = 0 → 0 < size → size < 2 ^ 64 → ceiling % pageSize = 0 → ceiling ≤ userTop →
      (GapExact t L size ceiling ↔ L ≠ [] ∨ size ≠ 2 ^ 64 - pageSize)) ∧
    ∀ (k : Kern) (R : Set Nat) (K : Set Block) (sp : Nat) (a : AddrSpace) (addr length : Nat)
      (prot flags : BitVec 32), Sound k R K → k.space sp = some a → addr < 2 ^ 64 →
      hasBit flags mapFixed = false → ¬ GapOverflow k sp length flags →
      wp (vmmMapAnonymous sp addr length prot flags)
        (fun r k' => HasVma k' sp ⟨r, r + pageAlignUp length, protToVma prot⟩ ∧ r < r + pageAlignUp length ∧
          r + pageAlignUp length ≤ a.mmapBase) (fun _ _ => True) k := by
  refine ⟨fun size ceiling h hL hal hpos hsize hcal hceil => ⟨fun hex => ?_, fun hok => ?_⟩, ?_⟩
  · by_contra hc
    push Not at hc
    obtain ⟨rfl, rfl⟩ := hc
    exact gap_wraps h hceil hex
  · have htop : userTop < 2 ^ 64 := by decide
    have hstart : ∀ i ∈ L, pageSize ≤ (t.vma i).start ∧ (t.vma i).start < 2 ^ 64 := by
      intro i hi
      have hne : (t.vma i).start < (t.vma i).stop := h.ordered.nonempty i hi
      exact ⟨(hL i hi).2.1, by have := (hL i hi).2.2; omega⟩
    have hok' : L ≠ [] ∨ size + pageSize < 2 ^ 64 := hok.imp_right fun hne => by
      simp only [pageSize] at hne hal ⊢
      omega
    obtain ⟨r, hr, hfits, hgreatest⟩ := vmaFindGapTopDown_spec h hstart
      (hceil.trans_lt htop) hsize hal hpos hok'
    have hle : ∀ c, GapAt t L size ceiling c → c ≤ r :=
      fun c hc => hgreatest c ⟨hc.2.1, hc.2.2.2⟩ hc.2.2.1
    have hat : r ≠ 0 → GapAt t L size ceiling r := by
      intro hz
      have hf := hfits.resolve_left hz
      exact ⟨hf.aligned hal hcal fun i hi => (hL i hi).1, hf.floor, hf.below, hf.free⟩
    refine ⟨r, hr, ⟨fun hz c hc => ?_, fun hnone => ?_⟩, fun hz => ⟨hat hz, hle⟩⟩
    · have hfloor := hc.2.1
      have hc0 := hle c hc
      simp only [pageSize] at hfloor
      omega
    · by_contra hz
      exact hnone r (hat hz)
  · intro k R K sp a addr length prot flags h ha haddr hfix hok
    refine (vmmMapAnonymous_spec h ha haddr hok).mono ?_ fun _ _ _ => trivial
    rintro r k' ⟨-, hm, -, hbase⟩
    exact ⟨hm.vma, Nat.lt_add_of_pos_right hm.nonempty, hbase hfix⟩

-- Three VMAs, the last of which lies across the ceiling of 16 pages.
def threeVmas : VmaTree where
  rb :=
    { node := fun
        | 0 => ⟨some 1, none, none, .red⟩
        | 1 => ⟨none, some 0, some 2, .black⟩
        | _ => ⟨some 1, none, none, .red⟩
      root := some 1 }
  vma
    | 0 => ⟨4 * pageSize, 6 * pageSize, ⟨true, true, false, true⟩⟩
    | 1 => ⟨8 * pageSize, 9 * pageSize, ⟨true, false, true, true⟩⟩
    | _ => ⟨15 * pageSize, 18 * pageSize, ⟨true, true, false, true⟩⟩

theorem threeVmas_holds : threeVmas.Holds [0, 1, 2] := by
  refine ⟨⟨.node .black (.node .red .nil 0 .nil) 1 (.node .red .nil 2 .nil), ⟨⟨?_, trivial, rfl, by decide⟩,
    ⟨1, ?_⟩, rfl⟩, rfl⟩, ?_⟩
  · exact ⟨rfl, ⟨rfl, trivial, trivial⟩, rfl, trivial, trivial⟩
  · exact ⟨0, rfl, ⟨rfl, rfl, rfl, rfl⟩, rfl, rfl, rfl, rfl⟩
  · constructor <;> decide

theorem gap_search_exact_ceiling :
    vmaFindGapTopDown threeVmas pageSize (16 * pageSize) = some (14 * pageSize) := by
  obtain ⟨r, hr, hzero, hat⟩ :=
    ((gap_search_exact threeVmas [0, 1, 2]).1 pageSize (16 * pageSize) threeVmas_holds
    (by decide) (by decide) (by decide) (by decide) (by decide) (by decide)).2 (.inl (by decide))
  have hgap : GapAt threeVmas [0, 1, 2] pageSize (16 * pageSize) (14 * pageSize) := by
    unfold GapAt
    decide
  obtain ⟨⟨-, -, hceil, hfree⟩, hmax⟩ := hat fun hz => hzero.1 hz _ hgap
  have hlow := hmax _ hgap
  have hlast := hfree 2 (by decide)
  rw [hr, Option.some.injEq]
  change 18 * pageSize ≤ r ∨ r + pageSize ≤ 15 * pageSize at hlast
  simp only [pageSize] at *
  omega

theorem gap_search_wraps : VmaTree.empty.Holds [] ∧ ¬ GapExact .empty [] (2 ^ 64 - pageSize) (16 * pageSize) :=
  ⟨.empty, gap_wraps .empty (by decide)⟩

theorem sysMunmap_spec (h : Sound k R K) (ha : k.space sp = some a) (haddr : addr < 2 ^ 64) :
    wp (sysMunmap (some sp) addr length)
      (fun _ k' => Sound k' R K ∧ addr % pageSize = 0 ∧ Remap k k' sp
          (fun x => if addr ≤ x ∧ x < addr + pageAlignUp length then none else k.flags sp x)
          fun v => addr ≤ v * pageSize ∧ v * pageSize < addr + pageAlignUp length ∧
            k.flags sp (v * pageSize) ≠ none)
      (fun _ k' => Sound k' R K ∧ Remap k k' sp (k.flags sp) fun _ => False) k := by
  have hfail := Remap.refl ha
  have hal := pageAlignUp_mod length
  have hlt := pageAlignUp_lt length
  unfold sysMunmap
  set len := pageAlignUp length with hlen
  refine wp_ite (fun _ => wp_error ⟨h, hfail⟩) fun h1 => ?_
  refine wp_ite (fun _ => wp_error ⟨h, hfail⟩) fun h2 => ?_
  refine wp_ite (fun _ => wp_error ⟨h, hfail⟩) fun h3 => ?_
  have hw : wrap64 (addr + len) = addr + len := by
    unfold wrap64 at h3 ⊢
    omega
  rw [hw] at h3 ⊢
  have hend : (addr + len) % pageSize = 0 := by
    simp only [pageSize] at h1 hal ⊢
    omega
  refine (removeRange_spec h ha (by omega) hend (by omega) (by omega)).mono ?_ ?_
  · rintro _ k' ⟨hs, hre⟩
    exact ⟨hs, by omega, hre⟩
  · rintro e k' ⟨-, hs, hre⟩
    exact ⟨hs, hre⟩

end mmap

end Jnu.Mm
