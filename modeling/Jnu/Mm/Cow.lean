import Jnu.Mm.Invariant

namespace Jnu.Mm

open Lib.Dyadic Lib.Refs Paging Pmm

section flags

variable {e m flag : BitVec 64}

theorem flagBits_and (h : FlagBits m) : FlagBits (e &&& m) := by
  unfold FlagBits at *
  rw [BitVec.and_assoc, h, BitVec.and_zero]

theorem has_and (h : m &&& flag = flag) : has (e &&& m) flag = has e flag := by
  unfold has
  rw [BitVec.and_assoc, h]

theorem has_and_not (h : m &&& flag = 0#64) : has (e &&& m) flag = false := by
  unfold has
  rw [BitVec.and_assoc, h, BitVec.and_zero]
  rfl

def cowFlags (e : BitVec 64) : BitVec 64 := (e &&& pteUser) ||| pteWrite ||| pteNx

theorem cowFlags_user (h : has e pteUser = true) : UserFlags (cowFlags e) where
  bits := flagBits_or (flagBits_or (flagBits_and flagBits_user) flagBits_write) flagBits_nx
  user := by
    unfold cowFlags
    rw [has_or, has_or, has_and (by decide), h]
    rfl
  huge := by
    unfold cowFlags
    rw [has_or, has_or, has_and_not (by decide)]
    decide

theorem cowFlags_write : has (cowFlags e) pteWrite = true := by
  unfold cowFlags
  rw [has_or, has_or, show has pteWrite pteWrite = true by decide, Bool.or_true, Bool.true_or]

theorem cowFlags_nx : has (cowFlags e) pteNx = true := by
  unfold cowFlags
  rw [has_or, show has pteNx pteNx = true by decide, Bool.or_true]

def sharedFlags (e : BitVec 64) : BitVec 64 := e &&& clonePteFlagsMask &&& ~~~pteWrite

theorem sharedFlags_eq : sharedFlags e = e &&& (clonePteFlagsMask &&& ~~~pteWrite) :=
  BitVec.and_assoc ..

theorem sharedFlags_user (h : LeafEntry e) : UserFlags (sharedFlags e) where
  bits := by
    rw [sharedFlags_eq]
    exact flagBits_and (by decide)
  user := by
    rw [sharedFlags_eq, has_and (by decide)]
    exact h.user
  huge := by
    rw [sharedFlags_eq]
    exact has_and_not (by decide)

theorem sharedFlags_write : has (sharedFlags e) pteWrite = false := by
  exact has_and_not (by decide)

theorem sharedFlags_nx : has (sharedFlags e) pteNx = has e pteNx := by
  rw [sharedFlags_eq]
  exact has_and (by decide)

theorem vmaFlagsToPte_user (f : VmaFlags) :
    UserFlags (vmaFlagsToPte f) ∧ UserFlags (vmaFlagsToPte f &&& ~~~pteWrite) := by
  obtain ⟨r, w, x, u⟩ := f
  cases w <;> cases x <;> exact ⟨⟨by decide +revert, by decide +revert, by decide +revert⟩,
    ⟨by decide +revert, by decide +revert, by decide +revert⟩⟩

theorem vmaFlagsToPte_write (f : VmaFlags) : has (vmaFlagsToPte f) pteWrite = f.write := by
  obtain ⟨r, w, x, u⟩ := f
  cases w <;> cases x <;> decide +revert

theorem vmaFlagsToPte_nx (f : VmaFlags) :
    has (vmaFlagsToPte f) pteNx = !f.exec ∧ has (vmaFlagsToPte f &&& ~~~pteWrite) pteNx = !f.exec := by
  obtain ⟨r, w, x, u⟩ := f
  cases w <;> cases x <;> decide +revert

end flags

-- The entries `p` of all spaces: what may be written is mapped once, and a user frame appears at one address
-- only.
structure Owned (p : Nat → Nat → Option (BitVec 64)) (z : Nat) : Prop where
  exclusive : ∀ sp v e, p sp v = some e → has e pteWrite = true → pteFrame e ≠ z ∧
    ∀ t u e', p t u = some e' → pteFrame e' = pteFrame e → t = sp ∧ u = v
  placed : ∀ sp v e t u e', p sp v = some e → p t u = some e' → pteFrame e' = pteFrame e →
    pteFrame e ≠ z → u = v

section owned

variable {p p' : Nat → Nat → Option (BitVec 64)} {z sp v : Nat} {e e' : BitVec 64}

theorem Owned.subset (h : Owned p z) (hp : ∀ sp v e, p' sp v = some e → p sp v = some e) :
    Owned p' z where
  exclusive sp v e he hw := by
    obtain ⟨hz, hex⟩ := h.exclusive sp v e (hp _ _ _ he) hw
    exact ⟨hz, fun t u e' he' => hex t u e' (hp _ _ _ he')⟩
  placed sp v e t u e' he he' := h.placed sp v e t u e' (hp _ _ _ he) (hp _ _ _ he')

-- A frame that may be written is not mapped elsewhere, and one that is has that address and is read-only.
theorem Owned.set (h : Owned p z)
    (hp : ∀ t u, p' t u = if t = sp ∧ u = v then some e else p t u)
    (hw : has e pteWrite = true → pteFrame e ≠ z)
    (ho : ∀ t u e', ¬ (t = sp ∧ u = v) → p t u = some e' → pteFrame e' = pteFrame e →
      has e pteWrite = false ∧ has e' pteWrite = false ∧ (pteFrame e ≠ z → u = v)) :
    Owned p' z := by
  have hcase : ∀ t u e', p' t u = some e' → (t = sp ∧ u = v ∧ e' = e) ∨
      (¬ (t = sp ∧ u = v) ∧ p t u = some e') := by
    intro t u e' he'
    rw [hp] at he'
    by_cases htu : t = sp ∧ u = v
    · rw [if_pos htu] at he'
      exact .inl ⟨htu.1, htu.2, (Option.some.inj he').symm⟩
    · rw [if_neg htu] at he'
      exact .inr ⟨htu, he'⟩
  constructor
  · intro t u e1 he1 hw1
    rcases hcase t u e1 he1 with ⟨rfl, rfl, rfl⟩ | ⟨hne, he1⟩
    · refine ⟨hw hw1, fun t' u' e2 he2 hf => ?_⟩
      rcases hcase t' u' e2 he2 with ⟨rfl, rfl, -⟩ | ⟨hne, he2⟩
      · exact ⟨rfl, rfl⟩
      · have := (ho t' u' e2 hne he2 hf).1
        rw [hw1] at this
        cases this
    · obtain ⟨hz, hex⟩ := h.exclusive t u e1 he1 hw1
      refine ⟨hz, fun t' u' e2 he2 hf => ?_⟩
      rcases hcase t' u' e2 he2 with ⟨rfl, rfl, rfl⟩ | ⟨-, he2⟩
      · have := (ho t u e1 hne he1 hf.symm).2.1
        rw [hw1] at this
        cases this
      · exact hex t' u' e2 he2 hf
  · intro t u e1 t' u' e2 he1 he2 hf hz
    rcases hcase t u e1 he1 with ⟨rfl, rfl, rfl⟩ | ⟨hne, he1⟩
    · rcases hcase t' u' e2 he2 with ⟨-, rfl, -⟩ | ⟨hne, he2⟩
      · rfl
      · exact (ho t' u' e2 hne he2 hf).2.2 hz
    · rcases hcase t' u' e2 he2 with ⟨rfl, rfl, rfl⟩ | ⟨-, he2⟩
      · exact ((ho t u e1 hne he1 hf.symm).2.2 (hf ▸ hz)).symm
      · exact h.placed t u e1 t' u' e2 he1 he2 hf hz

-- An entry that keeps its frame may lose its write access, or get it back if it is alone.
theorem Owned.reflag (h : Owned p z) (hp : p sp v = some e)
    (hp' : ∀ t u, p' t u = if t = sp ∧ u = v then some e' else p t u)
    (hf : pteFrame e' = pteFrame e)
    (hw : has e' pteWrite = true → pteFrame e ≠ z ∧ ∀ t u e'', p t u = some e'' →
      pteFrame e'' = pteFrame e → t = sp ∧ u = v) : Owned p' z := by
  apply h.set hp'
  · intro hwe
    rw [hf]
    exact (hw hwe).1
  intro t u e'' hne he'' hf'
  rw [hf] at hf' ⊢
  refine ⟨?_, ?_, fun hz => h.placed sp v e t u e'' hp he'' hf' hz⟩
  · by_contra hc
    exact hne ((hw (by simpa using hc)).2 t u e'' he'' hf')
  · by_contra hc
    have := (h.exclusive t u e'' he'' (by simpa using hc)).2 sp v e hp hf'.symm
    exact hne ⟨this.1.symm, this.2.symm⟩

end owned

-- One entry has been written; no page has changed its contents.
structure PageSet (roots : Nat → Option Nat) (sp v : Nat) (e : BitVec 64) (s s' : Phys) : Prop where
  zeroPage : s'.pmm.mmZeroPage = s.pmm.mmZeroPage
  pte : ∀ t u, pte s'.mem roots t u = if t = sp ∧ u = v then some e else pte s.mem roots t u
  words : ∀ t u i, i < 512 → words s' roots t u i = words s roots t u i

structure PageKeep (roots : Nat → Option Nat) (s s' : Phys) : Prop where
  zeroPage : s'.pmm.mmZeroPage = s.pmm.mmZeroPage
  pte : ∀ t u, pte s'.mem roots t u = pte s.mem roots t u
  words : ∀ t u i, i < 512 → words s' roots t u i = words s roots t u i

section steps

variable {s s' s1 : Phys} {R : Set Nat} {roots : Nat → Option Nat} {O : Set Block} {x x' : Nat → Nat}
  {sp v f t u : Nat} {e e' : BitVec 64}

theorem PageKeep.refl (roots : Nat → Option Nat) (s : Phys) : PageKeep roots s s :=
  ⟨rfl, fun _ _ => rfl, fun _ _ _ _ => rfl⟩

theorem PageKeep.trans (h : PageKeep roots s s1) (h' : PageKeep roots s1 s') : PageKeep roots s s' :=
  ⟨h'.zeroPage.trans h.zeroPage, fun t u => (h'.pte t u).trans (h.pte t u),
    fun t u i hi => (h'.words t u i hi).trans (h.words t u i hi)⟩

theorem PageKeep.set (h : PageKeep roots s s1) (h' : PageSet roots sp v e s1 s') :
    PageSet roots sp v e s s' := by
  refine ⟨h'.zeroPage.trans h.zeroPage, fun t u => ?_,
    fun t u i hi => (h'.words t u i hi).trans (h.words t u i hi)⟩
  rw [h'.pte, h.pte]

theorem PageSet.keep (h : PageSet roots sp v e s s1) (h' : PageKeep roots s1 s') :
    PageSet roots sp v e s s' := by
  refine ⟨h'.zeroPage.trans h.zeroPage, fun t u => ?_,
    fun t u i hi => (h'.words t u i hi).trans (h.words t u i hi)⟩
  rw [h'.pte, h.pte]

section

variable (h : PtInv s R roots O x) (h' : PtInv s' R roots O x')
include h h'

theorem pageKeep_of_data (hz : s'.pmm.mmZeroPage = s.pmm.mmZeroPage)
    (hp : ∀ t u, pte s'.mem roots t u = pte s.mem roots t u)
    (hdata : ∀ w, 0 < refs s (w / 512) → 0 < refs s' (w / 512) → s'.mem w = s.mem w) :
    PageKeep roots s s' :=
  ⟨hz, hp, fun t u _ hi => words_congr h h' hz (hp t u) hdata hi⟩

theorem pageKeep_of_grown (hg : Grown roots s s') : PageKeep roots s s' :=
  pageKeep_of_data h h' hg.zeroPage hg.pte fun w _ hw => hg.data w (h'.not_table hw)

theorem pageSet_of_leafSet (hl : LeafSet roots sp v e s s') (he : has e ptePresent = true)
    (hw : ∀ i, i < 512 → s.mem (pteFrame e * 512 + i) = words s roots sp v i) :
    PageSet roots sp v e s s' := by
  have hpte : ∀ t u, pte s'.mem roots t u = if t = sp ∧ u = v then some e else pte s.mem roots t u := by
    intro t u
    rw [hl.pte, if_pos he]
  refine ⟨hl.zeroPage, hpte, fun t u i hi => ?_⟩
  have hdata : ∀ w, 0 < refs s (w / 512) → 0 < refs s' (w / 512) → s'.mem w = s.mem w :=
    fun w _ hw' => hl.data w (h'.not_table hw')
  by_cases htu : t = sp ∧ u = v
  · obtain ⟨rfl, rfl⟩ := htu
    have hnew : pte s'.mem roots t u = some e := by rw [hpte, if_pos ⟨rfl, rfl⟩]
    rw [← hw i hi]
    unfold words
    rw [hnew]
    apply hl.data
    rw [show (pteFrame e * 512 + i) / 512 = pteFrame e by omega]
    by_cases hz : pteFrame e = zeroFrame s'
    · rw [hz]
      exact h'.zero_not_table
    · exact h'.not_table (h'.mapped_refs hnew hz)
  · refine words_congr h h' hl.zeroPage ?_ hdata hi
    rw [hpte, if_neg htu]

end

theorem not_mapped (h : PtInv s R roots O x) (hf : refs s f = 0) (hz : f ≠ zeroFrame s)
    (he : pte s.mem roots t u = some e') : pteFrame e' ≠ f := by
  rintro rfl
  have := h.mapped_refs he hz
  omega

theorem mapped_once (h : PtInv s R roots O fun _ => 0) (hp : pte s.mem roots sp v = some e)
    (hz : pteFrame e ≠ zeroFrame s) : refs s (pteFrame e) = 1 ↔
      ∀ t u e', pte s.mem roots t u = some e' → pteFrame e' = pteFrame e → t = sp ∧ u = v := by
  have hmap : frameMap s.mem roots (sp, v) = some (pteFrame e) := by
    simp only [frameMap, hp, Option.map_some]
  have hcount := h.counts _ hz
  rw [Nat.add_zero] at hcount
  rw [hcount]
  constructor
  · intro hone t u e' he' hf
    have hmap' : frameMap s.mem roots (t, u) = some (pteFrame e) := by
      simp only [frameMap, he', Option.map_some, hf]
    exact Prod.mk.inj (eq_of_count_eq_one hone hmap' hmap)
  intro hex
  unfold count
  rw [Set.ncard_eq_one]
  refine ⟨(sp, v), Set.eq_singleton_iff_unique_mem.2 ⟨hmap, ?_⟩⟩
  rintro ⟨t, u⟩ htu
  have htu : frameMap s.mem roots (t, u) = some (pteFrame e) := htu
  simp only [frameMap, Option.map_eq_some_iff] at htu
  obtain ⟨e', he', hf⟩ := htu
  exact Prod.ext (hex t u e' he' hf).1 (hex t u e' he' hf).2

theorem pmmUserRefcount_eq (h : PtInv s R roots O x) (hf : 0 < refs s f) :
    pmmUserRefcount s.pmm (f * pageSize) = refs s f := by
  have hb := (h.bound (PtInv.user_held hf) (mem_page.2 rfl)).2
  unfold pmmUserRefcount
  rw [show paToPfn (f * pageSize) = f from paToPfn_pfnToPa f, if_neg (by omega)]
  rfl

theorem zeroPage_eq (h : PtInv s R roots O x) : s.pmm.mmZeroPage = zeroFrame s * pageSize :=
  (pfnToPa_paToPfn h.zeroAligned).symm

theorem frame_eq_zero (h : PtInv s R roots O x) : f * pageSize = s.pmm.mmZeroPage ↔ f = zeroFrame s := by
  rw [zeroPage_eq h]
  simp only [pageSize]
  omega

end steps

end Jnu.Mm
