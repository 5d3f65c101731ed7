import Jnu.Mm.Clone

namespace Jnu.Mm

open Lib.Dyadic Lib.Effect Paging Pmm
open Function

variable {k k' : Kern} {R : Set Nat} {K : Set Block} {sp v id cr2 sp' j w g : Nat} {a : AddrSpace}
  {e : BitVec 64} {s' : Phys} {ec : FaultCode} {vf : VmaFlags} {b : BitVec 8}

theorem Sound.phys (h : Sound k R K) (hpt : PtInv s' R k.roots (K ∪ k.slabBlocks) fun _ => 0)
    (hz : s'.pmm.mmZeroPage = k.phys.pmm.mmZeroPage)
    (ho : Owned (pte s'.mem k.roots) (zeroFrame k.phys)) : Sound { k with phys := s' } R K := by
  have hzf := zeroFrame_eq hz
  refine ⟨h.base.phys hpt hz, h.spaces, ?_⟩
  show Owned (pte s'.mem k.roots) (zeroFrame s')
  rw [hzf]
  exact ho

theorem Sound.keep (h : Sound k R K) (hpt : PtInv s' R k.roots (K ∪ k.slabBlocks) fun _ => 0)
    (hk : PageKeep k.roots k.phys s') : Sound { k with phys := s' } R K :=
  h.phys hpt hk.zeroPage (h.owned.subset fun t u e he => by
    rw [hk.pte] at he
    exact he)

-- The entry that a fault leaves behind grants no more than the VMA.
structure Granted (vf : VmaFlags) (e : BitVec 64) : Prop where
  write : has e pteWrite = true → vf.write = true
  exec : has e pteNx = false → vf.exec = true

theorem FaultCode.granted (h : ec.permitted vf = true)
    (hw : has e pteWrite = (!ec.id && ec.w)) (hnx : has e pteNx = (!ec.id)) : Granted vf e := by
  unfold FaultCode.permitted at h
  constructor
  · intro hc
    rw [hw] at hc
    simp only [Bool.and_eq_true, Bool.not_eq_true'] at hc
    simpa [hc.1, hc.2] using h
  · intro hc
    rw [hnx] at hc
    simp only [Bool.not_eq_false'] at hc
    simpa [hc] using h

theorem FaultCode.some_right (h : ec.permitted vf = true) : vf.read ∨ vf.write ∨ vf.exec := by
  unfold FaultCode.permitted at h
  cases hid : ec.id
  · cases hw : ec.w
    · exact .inl (by simpa [hid, hw] using h)
    · exact .inr (.inl (by simpa [hid, hw] using h))
  · exact .inr (.inr (by simpa [hid] using h))

def Resolved (k : Kern) (sp cr2 : Nat) (s' : Phys) : Prop :=
  ∃ vf e, k.flags sp cr2 = some vf ∧ PageSet k.roots sp (cr2 / pageSize) e k.phys s' ∧
    Granted vf e ∧ (k.pte sp (cr2 / pageSize) = none → vf.read ∨ vf.write ∨ vf.exec)

theorem lazyFault_spec {vma : Vma} (h : Sound k R K)
    (ha : k.space sp = some a) (hv : v < userPages) (hp : k.pte sp v = none) :
    wp (vmmHandleLazyFault a.pml4Phys vma (v * pageSize) ec)
      (fun _ s' => Sound { k with phys := s' } R K ∧ ∃ e, PageSet k.roots sp v e k.phys s' ∧
        has e pteWrite = (!ec.id && ec.w) ∧ has e pteNx = (!ec.id) ∧
        ec.permitted vma.flags = true)
      (fun _ s' => Sound { k with phys := s' } R K ∧ PageKeep k.roots k.phys s' ∧
        (ec.permitted vma.flags = true → freeCount k.phys ≤ 3)) k.phys := by
  rw [h.base.pml4_eq ha]
  refine (vmmHandleLazyFault_spec _ _ h.base.pt (Kern.roots_eq ha) hv hp).mono ?_ ?_
  · rintro _ s' ⟨hpt, e, hset, hw, hnx, hperm, -, hwz, hfresh⟩
    refine ⟨h.phys hpt hset.zeroPage ?_, e, hset, hw, hnx, hperm⟩
    refine h.owned.set hset.pte hwz fun t u e' _ he' hf => ?_
    by_cases hz : pteFrame e = zeroFrame k.phys
    · refine ⟨?_, ?_, fun hc => absurd hz hc⟩
      · by_contra hc
        exact hwz (by simpa using hc) hz
      · by_contra hc
        exact (h.owned.exclusive t u e' he' (by simpa using hc)).1 (hf.trans hz)
    · exact absurd hf (hfresh hz t u e' he')
  · rintro err s' ⟨hpt, hkeep, hfree⟩
    exact ⟨h.keep hpt hkeep, hkeep, hfree⟩

theorem cowFault_spec {va : Nat} (h : Sound k R K) (ha : k.space sp = some a)
    (hva : va / pageSize < userPages) :
    wp (vmmHandleCowFault a.pml4Phys va)
      (fun _ s' => Sound { k with phys := s' } R K ∧ ∃ e, k.pte sp (va / pageSize) ≠ none ∧
        PageSet k.roots sp (va / pageSize) e k.phys s' ∧ has e pteWrite = true ∧
        has e pteNx = true)
      (fun _ s' => Sound { k with phys := s' } R K ∧ PageKeep k.roots k.phys s' ∧
        (k.pte sp (va / pageSize) ≠ none → freeCount k.phys ≤ 3)) k.phys := by
  rw [h.base.pml4_eq ha]
  refine (vmmHandleCowFault_spec h.base.pt (Kern.roots_eq ha) hva).mono ?_ ?_
  · rintro _ s' ⟨hpt, e, e', hp, hset, hw, hnx, hz, hfresh⟩
    have hp : k.pte sp (va / pageSize) = some e := hp
    refine ⟨h.phys hpt hset.zeroPage ?_, e', by simp [hp], hset, hw, hnx⟩
    refine h.owned.set hset.pte (fun _ => hz) fun t u e'' hne he'' hf => ?_
    exact absurd hf (hfresh t u e'' hne he'')
  · rintro err s' ⟨hpt, hkeep, hfree⟩
    exact ⟨h.keep hpt hkeep, hkeep, hfree⟩

theorem page_lt {x : Nat} (h : x < userTop) : x / pageSize < userPages := by
  simp only [userTop, pageSize, userPages, Nat.reducePow] at h ⊢
  omega

theorem flags_find {L : List Nat} {x : Nat} (ha : k.space sp = some a) (hg : a.vmas.Holds L)
    (hloc : a.vmas.spans.locate L x = some id) : k.flags sp x = some (a.vmas.vma id).flags := by
  rw [flags_eq ha hg]
  unfold addrMap
  rw [hloc, Option.map_some]

-- A page fault. The present bit of the error code tells whether there was an entry.
theorem exceptionsHandle_spec (h : Sound k R K)
    (ha : k.space sp = some a) (hp : ec.p = false → k.pte sp (cr2 / pageSize) = none) :
    wp (exceptionsHandle (some sp) cr2 ec)
      (fun r k' => ∃ s', k' = { k with phys := s' } ∧ Sound k' R K ∧
        ((r = .killed ∧ PageKeep k.roots k.phys s') ∨ (r = .resumed ∧ Resolved k sp cr2 s')) ∧
        (r = .resumed → ∃ e, k'.pte sp (cr2 / pageSize) = some e ∧
          (ec.w = true → ec.id = false → has e pteWrite = true) ∧
          (ec.id = true → ec.p = false → has e pteNx = false)) ∧
        ∀ vf, k.flags sp cr2 = some vf → ec.permitted vf = true → 4 ≤ freeCount k.phys →
          (ec.p = true → ec.w = true ∧ ec.id = false ∧ k.pte sp (cr2 / pageSize) ≠ none) →
            r = .resumed)
      never k := by
  obtain ⟨L, hg⟩ := h.spaces sp a ha
  unfold exceptionsHandle
  apply wp_spaceOf ha
  apply wp_known (vmaFind_eq hg.tree.holds)
  cases hloc : a.vmas.spans.locate L cr2 with
  | none =>
    apply wp_pure
    refine ⟨k.phys, rfl, h, .inl ⟨rfl, .refl _ _⟩, by simp, fun vf hvf => ?_⟩
    rw [flags_eq ha hg.tree.holds] at hvf
    unfold addrMap at hvf
    rw [hloc] at hvf
    cases hvf
  | some id =>
    have hfl := flags_find ha hg.tree.holds hloc
    have hpage := page_lt (h.flags_user hfl).2.1
    have hround : cr2 / pageSize * pageSize / pageSize = cr2 / pageSize :=
      Nat.mul_div_cancel _ (by decide)
    dsimp only
    cases hpb : ec.p with
    | true =>
      rw [if_pos rfl]
      refine wp_ite (fun hw => ?_) fun hw => ?_
      · apply wp_bind_attempt
        apply wp_zoom
        refine (cowFault_spec h ha (by rwa [hround])).mono ?_ ?_
        · rintro _ s' ⟨hs, e, hpe, hset, hwe, hnx⟩
          rw [hround] at hset hpe
          apply wp_pure
          refine ⟨s', rfl, hs, .inr ⟨rfl, _, e, hfl, hset, ⟨fun _ => hw.2, fun hc => ?_⟩,
            fun hc => absurd hc hpe⟩, fun _ => ⟨e, ?_, fun _ _ => hwe, by simp⟩, by simp⟩
          · rw [hnx] at hc
            cases hc
          · exact (hset.pte _ _).trans (if_pos ⟨rfl, rfl⟩)
        · rintro err s' ⟨hs, hkeep, hfree⟩
          rw [hround] at hfree
          apply wp_pure
          refine ⟨s', rfl, hs, .inl ⟨rfl, hkeep⟩, by simp, fun vf _ _ hfr hc => ?_⟩
          have := hfree (hc rfl).2.2
          omega
      · apply wp_pure
        refine ⟨k.phys, rfl, h, .inl ⟨rfl, .refl _ _⟩, by simp, fun vf hvf hperm _ hc => ?_⟩
        obtain ⟨hcw, hcid, -⟩ := hc rfl
        rw [hfl] at hvf
        cases hvf
        unfold FaultCode.permitted at hperm
        rw [hcid, hcw] at hperm
        exact absurd ⟨hcw, by simpa using hperm⟩ hw
    | false =>
      have hnone := hp hpb
      apply wp_bind_attempt
      apply wp_zoom
      refine (lazyFault_spec h ha hpage hnone).mono ?_ ?_
      · rintro _ s' ⟨hs, e, hset, hwe, hnx, hperm⟩
        apply wp_pure
        refine ⟨s', rfl, hs, .inr ⟨rfl, _, e, hfl, hset, FaultCode.granted hperm hwe hnx,
          fun _ => FaultCode.some_right hperm⟩, fun _ => ⟨e, ?_, fun hw hid => ?_, fun hid _ => ?_⟩, by simp⟩
        · exact (hset.pte _ _).trans (if_pos ⟨rfl, rfl⟩)
        · rw [hwe, hw, hid]
          rfl
        · rw [hnx, hid]
          rfl
      · rintro err s' ⟨hs, hkeep, hfree⟩
        apply wp_pure
        refine ⟨s', rfl, hs, .inl ⟨rfl, hkeep⟩, by simp, fun vf hvf hperm hfr _ => ?_⟩
        rw [hfl] at hvf
        cases hvf
        have := hfree hperm
        omega

section bytes

variable {x pa : Nat} {mem : Mem}

def wordByte (w : BitVec 64) (j : Nat) : BitVec 8 := w.extractLsb' (8 * j) 8

-- The byte that user code sees at an address; a page that is not there yet is all zero.
def Kern.byte (k : Kern) (sp x : Nat) : BitVec 8 :=
  wordByte (k.words sp (x / pageSize) (x % pageSize / 8)) (x % 8)

theorem byte_congr (h : ∀ i, i < 512 → k'.words sp' (x / pageSize) i = k.words sp (x / pageSize) i) :
    k'.byte sp' x = k.byte sp x := by
  unfold Kern.byte
  rw [h]
  simp only [pageSize]
  omega

theorem byte_none (h : k.pte sp (x / pageSize) = none) : k.byte sp x = 0 := by
  have hp : pte k.phys.mem k.roots sp (x / pageSize) = none := h
  unfold Kern.byte Kern.words words
  rw [hp]
  apply BitVec.eq_of_getLsbD_eq
  intro i hi
  simp [wordByte]

theorem wordByte_setByte (hj : j < 8) :
    wordByte (setByte mem pa b (pa / 8)) j =
      if j = pa % 8 then b else wordByte (mem (pa / 8)) j := by
  have h255 : ∀ n, n < 64 → (255#64).getLsbD n = decide (n < 8) := by decide
  unfold setByte wordByte
  apply BitVec.eq_of_getLsbD_eq
  intro i hi
  by_cases h : j = pa % 8
  · subst h
    have h1 : 8 * (pa % 8) + i < 64 := by omega
    have h2 : i < 64 := by omega
    simp [hi, h1, h255 i h2]
  have h1 : 8 * j + i < 64 := by omega
  by_cases hlt : 8 * j + i < 8 * (pa % 8)
  · simp [h, hi, h1, hlt]
  have h2 : 8 * j + i - 8 * (pa % 8) < 64 := by omega
  have h3 : (255#64).getLsbD (8 * j + i - 8 * (pa % 8)) = false := by
    rw [h255 _ h2]
    exact decide_eq_false (by omega)
  have h4 : b.getLsbD (8 * j + i - 8 * (pa % 8)) = false :=
    BitVec.getLsbD_of_ge _ _ (by omega)
  rw [BitVec.getLsbD_eq_getElem h2] at h3
  simp [h, hi, h1, hlt, h3, h4]

theorem byteAt_setByte (mem : Mem) (pa q : Nat) (b : BitVec 8) :
    byteAt (setByte mem pa b) q = if q = pa then b else byteAt mem q := by
  by_cases hw : q / 8 = pa / 8
  · have hq : byteAt (setByte mem pa b) q = wordByte (setByte mem pa b (pa / 8)) (q % 8) := by
      rw [← hw]
      rfl
    rw [hq, wordByte_setByte (Nat.mod_lt _ (by decide)), ← hw]
    by_cases hqp : q = pa
    · rw [if_pos (by rw [hqp]), if_pos hqp]
    · rw [if_neg (by omega), if_neg hqp]
      rfl
  · rw [if_neg (by rintro rfl; exact hw rfl)]
    unfold byteAt setByte
    rw [update_of_ne hw]

theorem setByte_of_ne (h : w ≠ pa / 8) : setByte mem pa b w = mem w := update_of_ne h ..

theorem byteAt_copyTo (bs : List (BitVec 8)) (mem : Mem) (pa q : Nat) :
    byteAt (copyTo mem pa bs) q =
      if pa ≤ q ∧ q < pa + bs.length then bs.getD (q - pa) 0 else byteAt mem q := by
  induction bs generalizing mem pa with
  | nil =>
    rw [if_neg (by simp only [List.length_nil]; omega)]
    rfl
  | cons b bs ih =>
    unfold copyTo
    rw [ih, byteAt_setByte, List.length_cons]
    by_cases hq : q = pa
    · subst hq
      rw [if_neg (by omega), if_pos rfl, if_pos (by omega), Nat.sub_self]
      rfl
    · by_cases hlt : pa + 1 ≤ q ∧ q < pa + 1 + bs.length
      · rw [if_pos hlt, if_pos (by omega), show q - pa = (q - (pa + 1)) + 1 by omega]
        rfl
      · rw [if_neg hlt, if_neg hq, if_neg (by omega)]

theorem copyTo_of_frame {bs : List (BitVec 8)} (hlo : g * pageSize ≤ pa)
    (hhi : pa + bs.length ≤ (g + 1) * pageSize) (hw : w / 512 ≠ g) : copyTo mem pa bs w = mem w := by
  induction bs generalizing mem pa with
  | nil => rfl
  | cons b bs ih =>
    simp only [List.length_cons] at hhi
    unfold copyTo
    rw [ih (by omega) (by omega), setByte_of_ne]
    simp only [pageSize] at hlo hhi
    omega

theorem byte_eq {e : BitVec 64} (h : k.pte sp (x / pageSize) = some e) :
    k.byte sp x = byteAt k.phys.mem (pteAddr e + x % pageSize) := by
  unfold Kern.byte Kern.words words byteAt wordByte
  have hword : (pteFrame e * pageSize + x % pageSize) / 8 = pteFrame e * 512 + x % pageSize / 8 := by
    simp only [pageSize]
    omega
  have hbit : (pteFrame e * pageSize + x % pageSize) % 8 = x % 8 := by
    simp only [pageSize]
    omega
  rw [show pte k.phys.mem k.roots sp (x / pageSize) = some e from h, pteAddr_frame, hword, hbit]

end bytes

section access

variable {va : Nat}

section write

variable (hp : k.pte sp (va / pageSize) = some e)
  (hz : pteFrame e ≠ zeroFrame k.phys)
  (hex : ∀ t u e', k.pte t u = some e' → pteFrame e' = pteFrame e → t = sp ∧ u = va / pageSize)
  (bs : List (BitVec 8)) (hfit : va % pageSize + bs.length ≤ pageSize)
  (hs' : s' = { k.phys with mem := copyTo k.phys.mem (pteAddr e + va % pageSize) bs })
include hp hz hex hfit hs'

theorem write_base (h : Base k R K) : Base { k with phys := s' } R K ∧
      (∀ t u, ({ k with phys := s' } : Kern).pte t u = k.pte t u) ∧
      ∀ t x, ({ k with phys := s' } : Kern).byte t x =
        if t = sp ∧ va ≤ x ∧ x < va + bs.length then bs.getD (x - va) 0 else k.byte t x := by
  have hrefs := h.pt.mapped_refs hp hz
  have haddr := pteAddr_frame e
  set pa := pteAddr e + va % pageSize with hpa
  have hmem : ∀ w, w / 512 ≠ pteFrame e → copyTo k.phys.mem pa bs w = k.phys.mem w := by
    intro w hw
    apply copyTo_of_frame _ _ hw
    · omega
    · rw [Nat.add_mul]
      omega
  have hpt : PtInv s' R k.roots (K ∪ k.slabBlocks) fun _ => 0 := by
    rw [hs']
    exact h.pt.writeFrame (.inl hrefs) hmem
  have hmem' : s'.mem = copyTo k.phys.mem pa bs := by rw [hs']
  have hpte : ∀ t u, ({ k with phys := s' } : Kern).pte t u = k.pte t u := by
    apply pte_congr
    intro w hw
    show s'.mem w = _
    rw [hmem']
    apply hmem
    intro hc
    rw [hc] at hw
    exact h.pt.not_table hrefs hw
  have hpage : ∀ x, va ≤ x → x < va + bs.length → x / pageSize = va / pageSize := by
    intro x h1 h2
    simp only [pageSize] at hfit ⊢
    omega
  refine ⟨h.phys hpt (by rw [hs']), hpte, fun t x => ?_⟩
  cases hpx : k.pte t (x / pageSize) with
  | none =>
    have hne : ¬ (t = sp ∧ va ≤ x ∧ x < va + bs.length) := by
      rintro ⟨rfl, hlo, hhi⟩
      rw [hpage x hlo hhi, hp] at hpx
      cases hpx
    rw [if_neg hne, byte_none hpx, byte_none ((hpte t _).trans hpx)]
  | some e' =>
    rw [byte_eq ((hpte t _).trans hpx), byte_eq hpx]
    show byteAt s'.mem _ = _
    rw [hmem', byteAt_copyTo]
    have haddr' := pteAddr_frame e'
    by_cases hf : pteFrame e' = pteFrame e
    · obtain ⟨rfl, hpage⟩ := hex t _ e' hpx hf
      have hiff : (pa ≤ pteAddr e' + x % pageSize ∧ pteAddr e' + x % pageSize < pa + bs.length) ↔
          (t = t ∧ va ≤ x ∧ x < va + bs.length) := by
        rw [haddr', hpa, haddr, hf]
        simp only [pageSize, true_and] at hpage hfit ⊢
        omega
      by_cases hin : t = t ∧ va ≤ x ∧ x < va + bs.length
      · have hidx : pteAddr e' + x % pageSize - pa = x - va := by
          rw [haddr', hpa, haddr, hf]
          simp only [pageSize] at hpage ⊢
          omega
        rw [if_pos (hiff.2 hin), if_pos hin, hidx]
      · rw [if_neg (mt hiff.1 hin), if_neg hin]
    · rw [if_neg, if_neg]
      · rintro ⟨rfl, hlo, hhi⟩
        rw [hpage x hlo hhi, hp] at hpx
        cases hpx
        exact hf rfl
      · rw [haddr', hpa, haddr]
        simp only [pageSize] at hfit ⊢
        omega

theorem write_spec (h : Sound k R K) : Sound { k with phys := s' } R K ∧
      (∀ t u, ({ k with phys := s' } : Kern).pte t u = k.pte t u) ∧
      ∀ t x, ({ k with phys := s' } : Kern).byte t x =
        if t = sp ∧ va ≤ x ∧ x < va + bs.length then bs.getD (x - va) 0 else k.byte t x := by
  obtain ⟨hb, hpte, hbytes⟩ := write_base hp hz hex bs hfit hs' h.base
  refine ⟨h.phys hb.pt (by rw [hs']) (h.owned.subset fun t u e he => ?_), hpte, hbytes⟩
  rw [← hpte]
  exact he

end write

theorem store_spec (h : Sound k R K) (hp : k.pte sp (va / pageSize) = some e) (hw : has e pteWrite = true)
    (b : BitVec 8) (hs' : s' = { k.phys with mem := setByte k.phys.mem (pteAddr e + va % pageSize) b }) :
    Sound { k with phys := s' } R K ∧
      (∀ t u, ({ k with phys := s' } : Kern).pte t u = k.pte t u) ∧
      ∀ t x, ({ k with phys := s' } : Kern).byte t x =
        if t = sp ∧ x = va then b else k.byte t x := by
  obtain ⟨hz, hex⟩ := h.owned.exclusive sp _ e hp hw
  have hlt : va % pageSize < pageSize := Nat.mod_lt _ (by decide)
  obtain ⟨hs, hpte, hbytes⟩ := write_spec hp hz hex [b] (by simp; omega) hs' h
  refine ⟨hs, hpte, fun t x => ?_⟩
  rw [hbytes, List.length_singleton]
  by_cases hx : t = sp ∧ x = va
  · rw [if_pos (by omega), if_pos hx, hx.2, Nat.sub_self]
    rfl
  · rw [if_neg (by omega), if_neg hx]

structure Completed (k k' : Kern) (sp va : Nat) (acc : Access) (b : BitVec 8) : Prop where
  entry : ∃ e, k.pte sp (va / pageSize) = some e ∧ (acc.isStore = true → has e pteWrite = true) ∧
    (acc.isFetch = true → has e pteNx = false)
  pte : ∀ t u, k'.pte t u = k.pte t u
  bytes : ∀ t x, k'.byte t x = match acc with
    | .store c => if t = sp ∧ x = va then c else k.byte t x
    | _ => k.byte t x
  value : b = k'.byte sp va

structure Faulted (k : Kern) (s' : Phys) (sp va : Nat) (acc : Access) (r : Handled) : Prop where
  effect : (r = .killed ∧ PageKeep k.roots k.phys s') ∨ (r = .resumed ∧ Resolved k sp va s')
  ready : r = .resumed → ∃ e, pte s'.mem k.roots sp (va / pageSize) = some e ∧
    (acc.isStore = true → has e pteWrite = true) ∧
    (acc.isFetch = true → k.pte sp (va / pageSize) = none → has e pteNx = false)
  resumes : ∀ vf, k.flags sp va = some vf →
    (match acc with | .load => vf.read | .store _ => vf.write | .fetch => vf.exec) = true →
    4 ≤ freeCount k.phys → (acc.isFetch = true → k.pte sp (va / pageSize) = none) → r = .resumed

theorem translate_run (h : Base k R K) (ha : k.space sp = some a) (hv : va / pageSize < userPages) :
    translate k.phys.mem a.pml4Phys va = (k.pte sp (va / pageSize)).map fun e =>
      ⟨pteAddr e + va % pageSize, true, has e pteWrite, !has e pteNx⟩ := by
  rw [h.pml4_eq ha]
  exact translate_eq h.pt.shape (Kern.roots_eq ha) hv

theorem userAccess_spec (acc : Access) (h : Sound k R K) (ha : k.space sp = some a)
    (hva : va < userTop) :
    wp (userAccess sp va acc)
      (fun r k' => ∃ s', k' = { k with phys := s' } ∧ Sound k' R K ∧
        ((∃ b, r = .value b ∧ Completed k k' sp va acc b) ∨
          ∃ hd, r = .handled hd ∧ Faulted k s' sp va acc hd))
      never k := by
  have hpage := page_lt hva
  unfold userAccess
  apply wp_pml4Of ha
  apply wp_bind_read
  rw [translate_run h.base ha hpage]
  cases hp : k.pte sp (va / pageSize) with
  | none =>
    refine (exceptionsHandle_spec h ha (fun _ => hp)).any.next ?_
    rintro r k' ⟨s', rfl, hs, heff, hready, hres⟩
    apply wp_pure
    refine ⟨s', rfl, hs, .inr ⟨r, rfl, heff, fun hr => ?_, fun vf hvf hperm hfree _ => ?_⟩⟩
    · obtain ⟨e, hpe, hw, hnx⟩ := hready hr
      refine ⟨e, hpe, fun hst => hw hst ?_, fun hft _ => hnx hft rfl⟩
      cases acc <;> first | rfl | cases hst
    · refine hres vf hvf ?_ hfree (by simp)
      cases acc <;> exact hperm
  | some e =>
    refine wp_ite (fun hpass => ?_) fun hpass => ?_
    · have hentry : ∃ e, k.pte sp (va / pageSize) = some e ∧
          (acc.isStore = true → has e pteWrite = true) ∧
          (acc.isFetch = true → has e pteNx = false) := by
        unfold Access.passes at hpass
        refine ⟨e, hp, fun hst => ?_, fun hft => ?_⟩
        · simp only [hst] at hpass
          simp only [Bool.and_eq_true, Bool.or_eq_true] at hpass
          simpa using hpass.1.2
        · simp only [hft] at hpass
          simp only [Bool.and_eq_true, Bool.or_eq_true] at hpass
          simpa using hpass.2
      have hread := (byte_eq hp).symm
      have hload : acc.isStore = false → ∃ s', k = { k with phys := s' } ∧ Sound k R K ∧
          ((∃ b, Reply.value (byteAt k.phys.mem (pteAddr e + va % pageSize)) = .value b ∧
            Completed k k sp va acc b) ∨ ∃ hd,
              Reply.value (byteAt k.phys.mem (pteAddr e + va % pageSize)) = .handled hd ∧
              Faulted k s' sp va acc hd) := by
        intro hst
        refine ⟨k.phys, rfl, h, .inl ⟨_, rfl, hentry, fun _ _ => rfl, fun t x => ?_, hread⟩⟩
        cases acc with
        | load => rfl
        | fetch => rfl
        | store c => cases hst
      cases acc with
      | load =>
        apply wp_pure
        exact hload rfl
      | fetch =>
        apply wp_pure
        exact hload rfl
      | store c =>
        apply wp_bind_write
        apply wp_pure
        obtain ⟨e', hp', hw, -⟩ := hentry
        rw [hp] at hp'
        cases hp'
        obtain ⟨hs, hpte, hbytes⟩ := store_spec h hp (hw rfl) c rfl
        refine ⟨_, rfl, hs, .inl ⟨c, rfl, ⟨e, hp, hw, by simp [Access.isFetch]⟩, hpte, hbytes, ?_⟩⟩
        rw [hbytes, if_pos ⟨rfl, rfl⟩]
    · refine (exceptionsHandle_spec h ha (by simp)).any.next ?_
      rintro r k' ⟨s', rfl, hs, heff, hready, hres⟩
      apply wp_pure
      refine ⟨s', rfl, hs, .inr ⟨r, rfl, heff, fun hr => ?_, fun vf hvf hperm hfree hft => ?_⟩⟩
      · obtain ⟨e', hpe, hw, -⟩ := hready hr
        refine ⟨e', hpe, fun hst => hw hst ?_, fun _ hc => ?_⟩
        · cases acc <;> first | rfl | cases hst
        · rw [hp] at hc
          cases hc
      · -- a load goes through whatever the entry is
        cases acc with
        | load => simp [Access.passes, Access.isStore, Access.isFetch] at hpass
        | fetch =>
          have := hft rfl
          rw [hp] at this
          cases this
        | store c => exact hres vf hvf hperm hfree fun _ => ⟨rfl, rfl, by simp [hp]⟩

end access

end Jnu.Mm
