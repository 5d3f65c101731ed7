import Jnu.Paging.Shape

namespace Jnu.Paging

open Lib.Dyadic Lib.Refs Pmm PmmState
open Function

def refs (s : Phys) (f : Nat) : Nat := (s.pmm.pfnTable f).refcount

def zeroFrame (s : Phys) : Nat := paToPfn s.pmm.mmZeroPage

theorem zeroFrame_eq {s s' : Phys} (h : s'.pmm.mmZeroPage = s.pmm.mmZeroPage) : zeroFrame s' = zeroFrame s :=
  congrArg paToPfn h

theorem mem_page {f n : Nat} : n ∈ (⟨f, 0⟩ : Block) ↔ n = f := by
  simp only [Block.mem_def, Nat.pow_zero]
  omega

theorem eq_page {b : Block} {f : Nat} : b = ⟨f, 0⟩ ↔ b.order = 0 ∧ b.start = f := by
  rw [Block.mk.injEq, And.comm]

-- The blocks in hand: `O` for the rest of the kernel, the page tables and the user frames.
def heldBlocks (s : Phys) (roots : Nat → Option Nat) (O : Set Block) : Set Block :=
  {b | b ∈ O ∨ (b.order = 0 ∧ (IsTable s.mem roots b.start ∨ 0 < refs s b.start))}

-- The page tables own their frames, and the count of a user frame is the number of its entries and of the
-- references `x` of code in progress.
structure PtInv (s : Phys) (R : Set Nat) (roots : Nat → Option Nat) (O : Set Block)
    (x : Nat → Nat) : Prop where
  phys : PhysInv s R (heldBlocks s roots O)
  wide : s.pmm.pfnCount ≤ 2 ^ 40
  zeroHeld : (⟨zeroFrame s, 0⟩ : Block) ∈ O
  zeroAligned : s.pmm.mmZeroPage % pageSize = 0
  zeroPage : PageZero s.mem (zeroFrame s)
  shape : Shape s.mem roots
  tableRefs : ∀ f, IsTable s.mem roots f → refs s f = 0
  otherRefs : ∀ b ∈ O, ∀ n ∈ b, refs s n = 0
  otherTable : ∀ b ∈ O, ∀ n ∈ b, ¬ IsTable s.mem roots n
  finite : FiniteRefs (frameMap s.mem roots)
  counts : ∀ f, f ≠ zeroFrame s → refs s f = count (frameMap s.mem roots) f + x f

namespace PtInv

variable {s s' : Phys} {R : Set Nat} {roots : Nat → Option Nat} {O O' H : Set Block} {x x' : Nat → Nat}
  {sp k n f vpn g : Nat} {e : BitVec 64}
variable {b : Block} {mem' mem : Mem} {p : PmmState}

theorem table_held (hf : IsTable s.mem roots f) : (⟨f, 0⟩ : Block) ∈ heldBlocks s roots O :=
  .inr ⟨rfl, .inl hf⟩

theorem user_held (hf : 0 < refs s f) : (⟨f, 0⟩ : Block) ∈ heldBlocks s roots O :=
  .inr ⟨rfl, .inr hf⟩

section

variable (h : PtInv s R roots O x)
include h

theorem not_free (hb : b ∈ heldBlocks s roots O) (hn : n ∈ b) : ¬ Covers s.pmm.freeBlocks n := by
  rw [h.phys.inv.covers_free_iff]
  exact fun hc => hc.2 ⟨b, hb, hn⟩

theorem bound (hb : b ∈ heldBlocks s roots O) (hn : n ∈ b) : 0 < n ∧ n < s.pmm.pfnCount :=
  h.phys.inv.bound n ((h.phys.inv.cover n).2 (.inr ⟨b, hb, hn⟩))

theorem zero_refs : refs s (zeroFrame s) = 0 :=
  h.otherRefs _ h.zeroHeld _ (mem_page.2 rfl)

theorem zero_not_table : ¬ IsTable s.mem roots (zeroFrame s) :=
  h.otherTable _ h.zeroHeld _ (mem_page.2 rfl)

theorem ne_zero (hf : 0 < refs s f) : f ≠ zeroFrame s := by
  rintro rfl
  rw [h.zero_refs] at hf
  omega

theorem not_table (hf : 0 < refs s f) : ¬ IsTable s.mem roots f := by
  intro hc
  rw [h.tableRefs f hc] at hf
  omega

theorem mapped_refs (hp : pte s.mem roots sp vpn = some e) (hz : pteFrame e ≠ zeroFrame s) :
    0 < refs s (pteFrame e) := by
  rw [h.counts _ hz]
  have : 0 < count (frameMap s.mem roots) (pteFrame e) := by
    apply count_pos (k := (sp, vpn)) h.finite
    simp only [frameMap, hp, Option.map_some]
  omega

theorem transfer (hphys : PhysInv s' R (heldBlocks s' roots O'))
    (hcount : s'.pmm.pfnCount = s.pmm.pfnCount) (hzp : s'.pmm.mmZeroPage = s.pmm.mmZeroPage)
    (htab : ∀ w, IsTable s.mem roots (w / 512) → s'.mem w = s.mem w)
    (hzero : ∀ w, w / 512 = zeroFrame s → s'.mem w = s.mem w) (hzO : (⟨zeroFrame s, 0⟩ : Block) ∈ O')
    (htr : ∀ f, IsTable s.mem roots f → refs s' f = 0) (hOr : ∀ b ∈ O', ∀ n ∈ b, refs s' n = 0)
    (hOt : ∀ b ∈ O', ∀ n ∈ b, ¬ IsTable s.mem roots n)
    (hx : ∀ g, g ≠ zeroFrame s → refs s' g = count (frameMap s.mem roots) g + x' g) :
    PtInv s' R roots O' x' := by
  have hzf := zeroFrame_eq hzp
  have hmap : frameMap s'.mem roots = frameMap s.mem roots := by
    funext key
    simp only [frameMap, pte_congr htab]
  constructor
  · exact hphys
  · rw [hcount]
    exact h.wide
  · rw [hzf]
    exact hzO
  · rw [hzp]
    exact h.zeroAligned
  · intro w hw
    rw [hzf] at hw
    exact (hzero w hw).trans (h.zeroPage w hw)
  · exact h.shape.congr htab
  · intro f hf
    exact htr f ((isTable_congr htab f).1 hf)
  · exact hOr
  · intro b hb m hm hc
    exact hOt b hb m hm ((isTable_congr htab m).1 hc)
  · rw [hmap]
    exact h.finite
  · intro g hg
    rw [hzf] at hg
    rw [hmap]
    exact hx g hg

theorem congr_refs (hx : ∀ g, g ≠ zeroFrame s → x' g = x g) : PtInv s R roots O x' :=
  h.transfer h.phys rfl rfl (fun _ _ => rfl) (fun _ _ => rfl) h.zeroHeld h.tableRefs h.otherRefs
    h.otherTable fun g hg => by rw [hx g hg, h.counts g hg]

theorem writeData (htab : ∀ w, IsTable s.mem roots (w / 512) → mem' w = s.mem w)
    (hz : ∀ w, w / 512 = zeroFrame s → mem' w = s.mem w)
    (hfree : ∀ w, Covers s.pmm.freeBlocks (w / 512) → mem' w = s.mem w) :
    PtInv { s with mem := mem' } R roots O x := by
  have hheld : heldBlocks { s with mem := mem' } roots O = heldBlocks s roots O := by
    ext b
    simp only [heldBlocks, Set.mem_ofPred_eq, isTable_congr htab]
    rfl
  refine h.transfer ?_ rfl rfl htab hz h.zeroHeld h.tableRefs h.otherRefs h.otherTable h.counts
  rw [hheld]
  refine ⟨h.phys.inv, ?_⟩
  rintro m hm w rfl
  exact (hfree w hm).trans (h.phys.zero _ hm w rfl)

theorem writeFrame (hf : 0 < refs s f ∨ (f ≠ zeroFrame s ∧ ∃ b ∈ O, f ∈ b))
    (hmem : ∀ w, w / 512 ≠ f → mem' w = s.mem w) : PtInv { s with mem := mem' } R roots O x := by
  have htab : ¬ IsTable s.mem roots f := by
    rcases hf with hf | ⟨-, b, hb, hfb⟩
    · exact h.not_table hf
    · exact h.otherTable b hb f hfb
  have hz : f ≠ zeroFrame s := by
    rcases hf with hf | hf
    · exact h.ne_zero hf
    · exact hf.1
  have hfree : ¬ Covers s.pmm.freeBlocks f := by
    rcases hf with hf | ⟨-, b, hb, hfb⟩
    · exact h.not_free (user_held hf) (mem_page.2 rfl)
    · exact h.not_free (.inl hb) hfb
  apply h.writeData
  · intro w hw
    apply hmem
    rintro rfl
    exact htab hw
  · intro w hw
    apply hmem
    rintro rfl
    exact hz hw
  · intro w hw
    apply hmem
    rintro rfl
    exact hfree hw

end

def mapped (e : BitVec 64) : Option Nat := if has e ptePresent then some (pteFrame e) else none

section

variable (h : PtInv s R roots O x) (hv : vpn < userPages)
  (ht : tableAt s.mem roots sp 3 (vpn / 512) = some f)
include h hv ht

theorem frameMap_setLeaf :
    frameMap (update s.mem (f * 512 + vpn % 512) e) roots =
      update (frameMap s.mem roots) (sp, vpn) (mapped e) := by
  funext key
  obtain ⟨t, v⟩ := key
  unfold frameMap
  rw [pte_setLeaf h.shape hv ht]
  by_cases hkey : t = sp ∧ v = vpn
  · obtain ⟨rfl, rfl⟩ := hkey
    rw [if_pos ⟨rfl, rfl⟩, update_self]
    unfold mapped
    split_ifs <;> rfl
  · rw [if_neg hkey, update_of_ne]
    intro hc
    exact hkey (Prod.mk.inj hc)

theorem setLeaf (he : has e ptePresent = true → LeafEntry e)
    (hx : ∀ g, g ≠ zeroFrame s → x' g + (if mapped e = some g then 1 else 0) =
      x g + (if frameMap s.mem roots (sp, vpn) = some g then 1 else 0)) :
    PtInv { s with mem := update s.mem (f * 512 + vpn % 512) e } R roots O x' := by
  have hmap := h.frameMap_setLeaf (e := e) hv ht
  have htab : IsTable s.mem roots f := ⟨sp, 3, vpn / 512, userPos_leaf hv, ht⟩
  have hword : ∀ w, w / 512 ≠ f →
      update s.mem (f * 512 + vpn % 512) e w = s.mem w := by
    intro w hw
    apply update_of_ne
    rintro rfl
    exact hw (word_div_mod f vpn)
  have hheld : heldBlocks { s with mem := update s.mem (f * 512 + vpn % 512) e } roots O =
      heldBlocks s roots O := by
    ext b
    simp only [heldBlocks, Set.mem_ofPred_eq, isTable_setLeaf h.shape hv ht]
    rfl
  constructor
  · rw [hheld]
    refine ⟨h.phys.inv, ?_⟩
    rintro m hm w rfl
    refine (hword w ?_).trans (h.phys.zero _ hm w rfl)
    rintro rfl
    exact h.not_free (table_held htab) (mem_page.2 rfl) hm
  · exact h.wide
  · exact h.zeroHeld
  · exact h.zeroAligned
  · intro w hw
    refine (hword w ?_).trans (h.zeroPage w hw)
    rintro rfl
    have hw : w / 512 = zeroFrame s := hw
    exact h.zero_not_table (hw ▸ htab)
  · exact h.shape.setLeaf hv ht he
  · intro g hg
    exact h.tableRefs g ((isTable_setLeaf h.shape hv ht g).1 hg)
  · exact h.otherRefs
  · intro b hb m hm hc
    exact h.otherTable b hb m hm ((isTable_setLeaf h.shape hv ht m).1 hc)
  · rw [hmap]
    exact h.finite.update
  · intro g hg
    have hg : g ≠ zeroFrame s := hg
    rw [hmap]
    have hcount := count_update (k := (sp, vpn)) (o := mapped e) (v := g) h.finite
    have hold := h.counts g hg
    have := hx g hg
    show refs s g = _
    omega

end

theorem fresh_block (hinv : PmmInv p R (insert b (heldBlocks s roots O))) (hb : b ∉ heldBlocks s roots O)
    (hn : n ∈ b) : ¬ IsTable s.mem roots n ∧ refs s n = 0 ∧ ∀ c ∈ O, n ∉ c := by
  have hapart : ∀ c ∈ heldBlocks s roots O, n ∉ c := by
    intro c hc hnc
    have := hinv.heldDisjoint b (.inl rfl) c (.inr hc) n hn hnc
    exact hb (this ▸ hc)
  refine ⟨?_, ?_, fun c hc => hapart c (.inl hc)⟩
  · intro hc
    exact hapart _ (table_held hc) (mem_page.2 rfl)
  · by_contra hc
    exact hapart _ (user_held (Nat.pos_of_ne_zero hc)) (mem_page.2 rfl)

theorem fresh_lt (h : PtInv s R roots O x) (hinv : PmmInv p R (insert (⟨f, 0⟩ : Block) H))
    (hcount : p.pfnCount = s.pmm.pfnCount) : f < 2 ^ 40 := by
  have hb := (hinv.bound f ((hinv.cover f).2 (.inr ⟨_, .inl rfl, Block.start_mem _⟩))).2
  have := h.wide
  omega

theorem newTable (h : PtInv s R roots O x) {pa : Nat} (hpos : UserPos (k + 1) n)
    (hpar : tableAt s.mem roots sp k (n / 512) = some f)
    (hvac : has (s.mem (f * 512 + n % 512)) ptePresent = false)
    (ha : pmmAllocPages s.pmm 0 = (pa, p)) (hpa : pa ≠ 0) :
    NewTable s.mem roots sp k n f (paToPfn pa) (tableEntry pa) ∧
      PtInv ⟨p, update s.mem (f * 512 + n % 512) (tableEntry pa)⟩ R roots O x := by
  obtain ⟨hphys, hfresh, hal, hframe, hzero⟩ := pmmAllocPages_phys h.phys (by decide) ha hpa
  set c := paToPfn pa with hc
  have hpac : pa = c * pageSize := (pfnToPa_paToPfn hal).symm
  set e := tableEntry pa with he
  obtain ⟨hnt, hnr, hno⟩ := fresh_block hphys.inv hfresh (mem_page.2 (rfl : c = c))
  obtain ⟨hpres, hframe_e, hentry⟩ := tableEntry_spec (h.fresh_lt hphys.inv hframe.pfnCount)
  rw [← hpac, ← he] at hpres hframe_e hentry
  have hg : NewTable s.mem roots sp k n f c e :=
    ⟨hpos, hpar, hvac, hnt, hzero c (mem_page.2 rfl), hpres, hframe_e, hentry⟩
  refine ⟨hg, ?_⟩
  have hmap : frameMap (update s.mem (f * 512 + n % 512) e) roots =
      frameMap s.mem roots := by
    funext key
    simp only [frameMap, pte_newTable h.shape hg]
  have hrefs : ∀ i, refs ⟨p, update s.mem (f * 512 + n % 512) e⟩ i = refs s i :=
    hframe.refcount
  have hzf : zeroFrame ⟨p, update s.mem (f * 512 + n % 512) e⟩ = zeroFrame s := by
    exact congrArg paToPfn hframe.mmZeroPage
  have hheld : heldBlocks ⟨p, update s.mem (f * 512 + n % 512) e⟩ roots O =
      insert (⟨c, 0⟩ : Block) (heldBlocks s roots O) := by
    ext b
    simp only [heldBlocks, Set.mem_ofPred_eq, Set.mem_insert_iff, hrefs,
      isTable_newTable h.shape hg, eq_page]
    tauto
  have htab : IsTable s.mem roots f := ⟨sp, k, n / 512, userPos_admissible.up hpos, hpar⟩
  have hword : ∀ w, w / 512 ≠ f → update s.mem (f * 512 + n % 512) e w = s.mem w := by
    intro w hw
    apply update_of_ne
    rintro rfl
    exact hw (word_div_mod f n)
  constructor
  · rw [hheld]
    refine ⟨hphys.inv, ?_⟩
    rintro m hm w rfl
    refine (hword w ?_).trans (hphys.zero _ hm w rfl)
    rintro rfl
    rw [hphys.inv.covers_free_iff] at hm
    exact hm.2 ⟨_, .inr (table_held htab), mem_page.2 rfl⟩
  · show p.pfnCount ≤ _
    rw [hframe.pfnCount]
    exact h.wide
  · rw [hzf]
    exact h.zeroHeld
  · show p.mmZeroPage % pageSize = 0
    rw [hframe.mmZeroPage]
    exact h.zeroAligned
  · rw [hzf]
    intro w hw
    refine (hword w ?_).trans (h.zeroPage w hw)
    rintro rfl
    exact h.zero_not_table (hw ▸ htab)
  · exact h.shape.newTable hg
  · intro g hgt
    rw [hrefs]
    rcases (isTable_newTable h.shape hg g).1 hgt with rfl | hgt
    · exact hnr
    · exact h.tableRefs g hgt
  · intro b hb m hm
    rw [hrefs]
    exact h.otherRefs b hb m hm
  · intro b hb m hm hc
    rcases (isTable_newTable h.shape hg m).1 hc with rfl | hc
    · exact hno b hb hm
    · exact h.otherTable b hb m hm hc
  · show FiniteRefs (frameMap (update s.mem (f * 512 + n % 512) e) roots)
    rw [hmap]
    exact h.finite
  · intro g hgz
    rw [hzf] at hgz
    rw [hrefs, hmap]
    exact h.counts g hgz

section counting

variable {p : PmmState}

private theorem recount (h : PtInv s R roots O x)
    (hphys : PhysInv { s with pmm := p } R (heldBlocks { s with pmm := p } roots O))
    (hcount : p.pfnCount = s.pmm.pfnCount) (hzp : p.mmZeroPage = s.pmm.mmZeroPage)
    (hrefs : ∀ i, i ≠ f → (p.pfnTable i).refcount = refs s i)
    (hf : ¬ IsTable s.mem roots f ∧ ∀ b ∈ O, f ∉ b)
    (hx : (p.pfnTable f).refcount = count (frameMap s.mem roots) f + x' f)
    (hx' : ∀ g, g ≠ f → x' g = x g) : PtInv { s with pmm := p } R roots O x' := by
  refine h.transfer hphys hcount hzp (fun _ _ => rfl) (fun _ _ => rfl) h.zeroHeld ?_ ?_
    h.otherTable ?_
  · intro g hg
    refine (hrefs g ?_).trans (h.tableRefs g hg)
    rintro rfl
    exact hf.1 hg
  · intro b hb n hn
    refine (hrefs n ?_).trans (h.otherRefs b hb n hn)
    rintro rfl
    exact hf.2 b hb hn
  · intro g hg
    by_cases hgf : g = f
    · subst hgf
      exact hx
    · rw [hx' g hgf]
      exact (hrefs g hgf).trans (h.counts g hg)

theorem allocUser (h : PtInv s R roots O x) {pa : Nat}
    (ha : pmmAllocUserPage s.pmm = (pa, p)) (hpa : pa ≠ 0) :
    PtInv { s with pmm := p } R roots O
        (update x (paToPfn pa) (x (paToPfn pa) + 1)) ∧
      (∀ i, refs { s with pmm := p } i = if i = paToPfn pa then 1 else refs s i) ∧
      refs s (paToPfn pa) = 0 ∧ pa % pageSize = 0 ∧ PageZero s.mem (paToPfn pa) ∧
      p.mmZeroPage = s.pmm.mmZeroPage ∧ paToPfn pa < 2 ^ 40 := by
  obtain ⟨hphys, hfresh, hal, hcount, hzp, hrefs, hzero⟩ := pmmAllocUserPage_phys h.phys ha hpa
  set f := paToPfn pa with hf
  obtain ⟨hnt, hnr, hno⟩ := fresh_block hphys.inv hfresh (mem_page.2 (rfl : f = f))
  have hheld : heldBlocks { s with pmm := p } roots O =
      insert (⟨f, 0⟩ : Block) (heldBlocks s roots O) := by
    ext b
    have hb : refs { s with pmm := p } b.start = if b.start = f then 1 else refs s b.start :=
      hrefs b.start
    simp only [heldBlocks, Set.mem_ofPred_eq, Set.mem_insert_iff, hb, eq_page]
    grind
  refine ⟨?_, hrefs, hnr, hal, hzero f (mem_page.2 rfl), hzp, h.fresh_lt hphys.inv hcount⟩
  have hfz : f ≠ zeroFrame s := fun hc => hno _ h.zeroHeld (mem_page.2 hc)
  apply h.recount (f := f)
  · rw [hheld]
    exact hphys
  · exact hcount
  · exact hzp
  · intro i hi
    rw [hrefs, if_neg hi]
    rfl
  · exact ⟨hnt, hno⟩
  · have := h.counts f hfz
    rw [hrefs, if_pos rfl, update_self]
    omega
  · intro g hg
    rw [update_of_ne hg]

theorem get (h : PtInv s R roots O x) (hf : 0 < refs s f) (hlt : refs s f < 0xFFFF) :
    ∃ p, pmmGetUserPage s.pmm (f * pageSize) = .ok p ∧
      PtInv { s with pmm := p } R roots O (update x f (x f + 1)) ∧
      p.mmZeroPage = s.pmm.mmZeroPage ∧
      (∀ i, refs { s with pmm := p } i = if i = f then refs s f + 1 else refs s i) ∧
      p.freeBlocks = s.pmm.freeBlocks := by
  have hfz := h.ne_zero hf
  have hpfn : paToPfn (f * pageSize) = f := paToPfn_pfnToPa f
  have hne : f * pageSize ≠ s.pmm.mmZeroPage := by
    intro hc
    apply hfz
    unfold zeroFrame
    rw [← hc, hpfn]
  have hfree := h.phys.inv.free_false (user_held hf) (mem_page.2 rfl)
  have hbound := (h.bound (user_held hf) (mem_page.2 rfl)).2
  have hrc : (s.pmm.pfnTable f).refcount = refs s f := rfl
  set p := s.pmm.modify f fun e => { e with refcount := e.refcount + 1 } with hp
  have hrefs : ∀ i, refs { s with pmm := p } i = if i = f then refs s f + 1 else refs s i := by
    intro i
    unfold refs
    rw [hp, pfnTable_modify]
    by_cases hi : i = f
    · rw [if_pos hi, if_pos hi]
    · rw [if_neg hi, if_neg hi]
  refine ⟨p, ?_, ?_, rfl, hrefs, ?_⟩
  · unfold pmmGetUserPage
    simp only [hpfn]
    rw [if_neg hne, if_neg (by omega), hfree, if_neg (by simp), if_neg (by omega),
      if_neg (by omega)]
  · have hheld : heldBlocks { s with pmm := p } roots O = heldBlocks s roots O := by
      ext b
      simp only [heldBlocks, Set.mem_ofPred_eq, hrefs]
      by_cases hb : b.start = f
      · rw [if_pos hb, hb]
        simp [hf]
      · rw [if_neg hb]
    apply h.recount (f := f)
    · rw [hheld]
      exact h.phys.modify hfree (fun _ hf => hf) (fun _ => rfl) (fun _ => rfl)
    · rfl
    · rfl
    · intro i hi
      exact (hrefs i).trans (if_neg hi)
    · refine ⟨h.not_table hf, fun b hb hfb => ?_⟩
      rw [h.otherRefs b hb f hfb] at hf
      omega
    · have hcf := h.counts f hfz
      have hnew : (p.pfnTable f).refcount = refs s f + 1 := (hrefs f).trans (if_pos rfl)
      rw [update_self]
      omega
    · intro g hg
      rw [update_of_ne hg]
  · ext b
    simp only [PmmState.freeBlocks, Set.mem_ofPred_eq, hp, pfnTable_modify]
    by_cases hb : b.start = f
    · rw [if_pos hb, hb]
    · rw [if_neg hb]

theorem put (h : PtInv s R roots O x) (hfz : f ≠ zeroFrame s) (hxf : 0 < x f) :
    ∃ s', pmmPutUserPage s (f * pageSize) = .ok s' ∧
      PtInv s' R roots O (update x f (x f - 1)) ∧
      s'.pmm.mmZeroPage = s.pmm.mmZeroPage ∧
      (∀ i, refs s' i = if i = f then refs s i - 1 else refs s i) ∧
      (∀ w, s'.mem w = if refs s f = 1 ∧ w / 512 = f then 0 else s.mem w) := by
  have hcf := h.counts f hfz
  have hf : 0 < refs s f := by omega
  have hpfn : paToPfn (f * pageSize) = f := paToPfn_pfnToPa f
  have hblock : blockAt (f * pageSize) 0 = ⟨f, 0⟩ := by
    unfold blockAt
    rw [hpfn]
  have hne : f * pageSize ≠ s.pmm.mmZeroPage := by
    intro hc
    apply hfz
    unfold zeroFrame
    rw [← hc, hpfn]
  have hnt := h.not_table hf
  have hno : ∀ b ∈ O, f ∉ b := by
    intro b hb hfb
    rw [h.otherRefs b hb f hfb] at hf
    omega
  have hnO : (⟨f, 0⟩ : Block) ∉ O := fun hc => hno _ hc (mem_page.2 rfl)
  -- the held blocks with and without the frame
  set H := {b | b ∈ heldBlocks s roots O ∧ b ≠ ⟨f, 0⟩} with hH
  have hins : insert (⟨f, 0⟩ : Block) H = heldBlocks s roots O := Set.insert_sdiff_self_of_mem (user_held hf)
  have hphys := h.phys
  rw [← hins, ← hblock] at hphys
  obtain ⟨s', hs', hphys', hcount, hzp, hrefs, hmem⟩ :=
    pmmPutUserPage_held hphys (by rw [hblock, hH]; simp) (by simp [pageSize]) hne (by rwa [hpfn])
  rw [hblock] at hphys'
  rw [hpfn] at hphys' hmem
  simp only [hpfn] at hrefs
  have hmem' : ∀ w, w / 512 ≠ f → s'.mem w = s.mem w := by
    intro w hw
    rw [hmem, if_neg (fun hc => hw hc.2)]
  have htab : ∀ w, IsTable s.mem roots (w / 512) → s'.mem w = s.mem w := by
    intro w hw
    apply hmem'
    rintro rfl
    exact hnt hw
  have hrefs' : ∀ i, refs s' i = if i = f then refs s i - 1 else refs s i := hrefs
  refine ⟨s', hs', ?_, hzp, hrefs', hmem⟩
  refine h.transfer ?_ hcount hzp htab ?_ h.zeroHeld ?_ ?_ h.otherTable ?_
  · convert hphys' using 1
    ext b
    have hb := hrefs' b.start
    simp only [heldBlocks, Set.mem_ofPred_eq, hb, isTable_congr htab]
    rw [show (s.pmm.pfnTable f).refcount = refs s f from rfl]
    -- the last reference frees the frame
    by_cases hone : refs s f = 1
    · have hb' : b ∈ O → ¬ (b.order = 0 ∧ b.start = f) := fun hO hc => hnO (eq_page.2 hc ▸ hO)
      simp only [hH, Set.mem_ofPred_eq, heldBlocks, ne_eq, eq_page]
      grind
    · rw [if_neg hone, hins]
      simp only [Set.mem_ofPred_eq, heldBlocks]
      grind
  · intro w hw
    apply hmem'
    rintro rfl
    exact hfz hw
  · intro g hg
    rw [hrefs', if_neg, h.tableRefs g hg]
    rintro rfl
    exact hnt hg
  · intro b hb n hn
    rw [hrefs', if_neg, h.otherRefs b hb n hn]
    rintro rfl
    exact hno b hb hn
  · intro g hg
    have hcg := h.counts g hg
    rw [hrefs']
    by_cases hgf : g = f
    · subst hgf
      rw [if_pos rfl, update_self]
      omega
    · rw [if_neg hgf, update_of_ne hgf]
      exact hcg

end counting

section others

variable {pa order : Nat}

theorem allocOther (h : PtInv s R roots O x) {p : PmmState}
    (ho : order < pmmMaxOrder) (ha : pmmAllocPages s.pmm order = (pa, p)) (hpa : pa ≠ 0) :
    PtInv { s with pmm := p } R roots (insert (blockAt pa order) O) x ∧
      blockAt pa order ∉ O ∧ pa % pageSize = 0 ∧ (∀ n ∈ blockAt pa order, PageZero s.mem n) ∧
      Frame s.pmm p ∧ (∀ n ∈ blockAt pa order, ¬ IsTable s.mem roots n ∧ refs s n = 0) := by
  obtain ⟨hphys, hfresh, hal, hframe, hzero⟩ := pmmAllocPages_phys h.phys ho ha hpa
  have hnew : ∀ n ∈ blockAt pa order,
      ¬ IsTable s.mem roots n ∧ refs s n = 0 ∧ ∀ c ∈ O, n ∉ c :=
    fun n hn => fresh_block hphys.inv hfresh hn
  have hrefs : ∀ i, refs { s with pmm := p } i = refs s i := hframe.refcount
  refine ⟨?_, fun hc => hfresh (.inl hc), hal, hzero, hframe,
    fun n hn => ⟨(hnew n hn).1, (hnew n hn).2.1⟩⟩
  refine h.transfer ?_ hframe.pfnCount hframe.mmZeroPage (fun _ _ => rfl) (fun _ _ => rfl)
    (.inr h.zeroHeld) ?_ ?_ ?_ ?_
  · convert hphys using 1
    ext b
    simp only [heldBlocks, Set.mem_ofPred_eq, Set.mem_insert_iff, hrefs]
    tauto
  · intro f hf
    rw [hrefs]
    exact h.tableRefs f hf
  · rintro b (rfl | hb) n hn
    · rw [hrefs]
      exact (hnew n hn).2.1
    · rw [hrefs]
      exact h.otherRefs b hb n hn
  · rintro b (rfl | hb) n hn
    · exact (hnew n hn).1
    · exact h.otherTable b hb n hn
  · intro g hg
    rw [hrefs]
    exact h.counts g hg

theorem freeOther (h : PtInv s R roots O x) (hpa : pa % pageSize = 0)
    (hb : blockAt pa order ∈ O) (hz : blockAt pa order ≠ ⟨zeroFrame s, 0⟩) :
    ∃ s', pmmFreePages s pa order = .ok s' ∧
      PtInv s' R roots {b | b ∈ O ∧ b ≠ blockAt pa order} x ∧ Frame s.pmm s'.pmm ∧
      (∀ w, s'.mem w = if w / 512 ∈ blockAt pa order then 0 else s.mem w) := by
  set B := blockAt pa order with hB
  have hins : insert B {b | b ∈ heldBlocks s roots O ∧ b ≠ B} = heldBlocks s roots O :=
    Set.insert_sdiff_self_of_mem (.inl hb)
  have hphys := h.phys
  rw [← hins] at hphys
  obtain ⟨s', hs', hphys', hframe, hmem⟩ := pmmFreePages_spec hphys (by simp [← hB]) hpa
  have htab : ∀ w, IsTable s.mem roots (w / 512) → s'.mem w = s.mem w := by
    intro w hw
    rw [hmem, if_neg]
    intro hc
    exact h.otherTable B hb _ hc hw
  have hrefs : ∀ i, refs s' i = refs s i := hframe.refcount
  refine ⟨s', hs', ?_, hframe, hmem⟩
  refine h.transfer ?_ hframe.pfnCount hframe.mmZeroPage htab ?_ ⟨h.zeroHeld, Ne.symm hz⟩ ?_ ?_ ?_ ?_
  · convert hphys' using 1
    ext b
    simp only [heldBlocks, Set.mem_ofPred_eq, hrefs, isTable_congr htab]
    constructor
    · rintro (⟨hO, hne⟩ | ⟨ho, hu⟩)
      · exact ⟨.inl hO, hne⟩
      refine ⟨.inr ⟨ho, hu⟩, ?_⟩
      rintro rfl
      rcases hu with hu | hu
      · exact h.otherTable B hb _ B.start_mem hu
      · rw [h.otherRefs B hb _ B.start_mem] at hu
        omega
    · rintro ⟨hO | hu, hne⟩
      · exact .inl ⟨hO, hne⟩
      · exact .inr hu
  · intro w hw
    rw [hmem, if_neg]
    intro hc
    have := h.phys.inv.heldDisjoint B (.inl hb) _ (.inl h.zeroHeld) _ hc (mem_page.2 hw)
    exact hz this
  · intro f hf
    rw [hrefs]
    exact h.tableRefs f hf
  · intro b hb' n hn
    rw [hrefs]
    exact h.otherRefs b hb'.1 n hn
  · intro b hb' n hn
    exact h.otherTable b hb'.1 n hn
  · intro g hg
    rw [hrefs]
    exact h.counts g hg

end others

theorem plant (h : PtInv s R roots O x) (hb : (⟨f, 0⟩ : Block) ∈ O) (hz : f ≠ zeroFrame s)
    (hsp : roots sp = none) (hempty : ∀ i, i < 256 → has (s.mem (f * 512 + i)) ptePresent = false) :
    PtInv s R (update roots sp (some f)) {b | b ∈ O ∧ b ≠ ⟨f, 0⟩} x := by
  have hr : NewRoot s.mem roots sp f := ⟨hsp, h.otherTable _ hb f (mem_page.2 rfl), hempty⟩
  have hmap : frameMap s.mem (update roots sp (some f)) = frameMap s.mem roots := by
    funext key
    simp only [frameMap, pte_plant hr]
  have hO : ∀ b ∈ O, b ≠ ⟨f, 0⟩ → f ∉ b := by
    intro b hb' hne hfb
    exact hne (h.phys.inv.heldDisjoint b (.inl hb') _ (.inl hb) f hfb (mem_page.2 rfl))
  constructor
  · convert h.phys using 1
    ext b
    simp only [heldBlocks, Set.mem_ofPred_eq, isTable_plant hr]
    constructor
    · rintro (⟨hO', -⟩ | ⟨ho, (hs | ht) | hu⟩)
      · exact .inl hO'
      · exact .inl (eq_page.2 ⟨ho, hs⟩ ▸ hb)
      · exact .inr ⟨ho, .inl ht⟩
      · exact .inr ⟨ho, .inr hu⟩
    · rw [ne_eq, eq_page]
      tauto
  · exact h.wide
  · refine ⟨h.zeroHeld, ?_⟩
    intro hc
    exact hz (Block.mk.injEq .. ▸ hc).1.symm
  · exact h.zeroAligned
  · exact h.zeroPage
  · exact h.shape.plant hr
  · intro g hg
    rcases (isTable_plant hr g).1 hg with rfl | hg
    · exact h.otherRefs _ hb _ (mem_page.2 rfl)
    · exact h.tableRefs g hg
  · exact fun b hb' n hn => h.otherRefs b hb'.1 n hn
  · intro b hb' n hn hc
    rcases (isTable_plant hr n).1 hc with rfl | hc
    · exact hO b hb'.1 hb'.2 hn
    · exact h.otherTable b hb'.1 n hn hc
  · rw [hmap]
    exact h.finite
  · rw [hmap]
    exact h.counts

def tablesOf (mem : Mem) (roots : Nat → Option Nat) (sp : Nat) : Set Block :=
  {b | b.order = 0 ∧ ∃ k n, UserPos k n ∧ tableAt mem roots sp k n = some b.start}

theorem isTable_uproot : IsTable mem (update roots sp none) g ↔
    ∃ t k n, t ≠ sp ∧ UserPos k n ∧ tableAt mem roots t k n = some g := by
  simp only [IsTable, tableAt_uproot]
  grind

theorem uproot (h : PtInv s R roots O x) (sp : Nat) :
    PtInv s R (update roots sp none) (O ∪ tablesOf s.mem roots sp)
      (fun g => x g + count (fun v => frameMap s.mem roots (sp, v)) g) := by
  have hmap : frameMap s.mem (update roots sp none) =
      fun key => if key.1 = sp then none else frameMap s.mem roots key := by
    funext key
    unfold frameMap
    rw [pte_uproot]
    split <;> rfl
  have hsub : ∀ g, IsTable s.mem (update roots sp none) g → IsTable s.mem roots g := by
    intro g hg
    obtain ⟨t, k, n, -, hpos, hx⟩ := isTable_uproot.1 hg
    exact ⟨t, k, n, hpos, hx⟩
  constructor
  · convert h.phys using 1
    ext b
    constructor
    · rintro ((hO | ⟨ho, k, n, hpos, ht⟩) | ⟨ho, ht | hu⟩)
      · exact .inl hO
      · exact .inr ⟨ho, .inl ⟨sp, k, n, hpos, ht⟩⟩
      · exact .inr ⟨ho, .inl (hsub _ ht)⟩
      · exact .inr ⟨ho, .inr hu⟩
    · rintro (hO | ⟨ho, ⟨t, k, n, hpos, ht⟩ | hu⟩)
      · exact .inl (.inl hO)
      · by_cases hts : t = sp
        · subst hts
          exact .inl (.inr ⟨ho, k, n, hpos, ht⟩)
        · exact .inr ⟨ho, .inl (isTable_uproot.2 ⟨t, k, n, hts, hpos, ht⟩)⟩
      · exact .inr ⟨ho, .inr hu⟩
  · exact h.wide
  · exact .inl h.zeroHeld
  · exact h.zeroAligned
  · exact h.zeroPage
  · exact h.shape.uproot sp
  · intro g hg
    exact h.tableRefs g (hsub g hg)
  · rintro b (hb | ⟨ho, k, n, hpos, ht⟩) m hm
    · exact h.otherRefs b hb m hm
    obtain ⟨start, order⟩ := b
    obtain rfl : order = 0 := ho
    rw [mem_page.1 hm]
    exact h.tableRefs _ ⟨sp, k, n, hpos, ht⟩
  · rintro b (hb | ⟨ho, k, n, hpos, ht⟩) m hm hc
    · exact h.otherTable b hb m hm (hsub m hc)
    obtain ⟨start, order⟩ := b
    obtain rfl : order = 0 := ho
    obtain ⟨t, k', n', hts, hpos', ht'⟩ := isTable_uproot.1 hc
    rw [mem_page.1 hm] at ht'
    exact hts (h.shape.apart _ _ _ _ _ _ _ hpos' hpos ht' ht).1
  · rw [hmap]
    apply h.finite.subset
    intro key hkey
    by_cases hk : key.1 = sp
    · simp [hk] at hkey
    · simpa [hk] using hkey
  · intro g hg
    have := count_row h.finite sp g
    rw [hmap, h.counts g hg]
    omega

end PtInv

end Jnu.Paging
