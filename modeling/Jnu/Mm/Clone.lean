import Jnu.Mm.Mprotect

namespace Jnu.Mm

open Lib.Dyadic Lib.Effect Lib.Intervals Paging Pmm
open Function

variable {src dst v id : Nat} {k : Kern} {R : Set Nat} {K : Set Block} {a : AddrSpace}

-- An entry keeps its frame and its NX bit and is read-only.
structure Stripped (e e' : BitVec 64) : Prop where
  frame : pteFrame e' = pteFrame e
  readOnly : has e' pteWrite = false
  nx : has e' pteNx = has e pteNx

-- The pages `In` of `src` are shared with `dst`, which has no others.
structure Shared (src dst : Nat) (In : Nat → Prop) (p p' : Nat → Nat → Option (BitVec 64)) :
    Prop where
  same : ∀ t u, t ≠ dst → ¬ (t = src ∧ In u) → p' t u = p t u
  vacant : ∀ u, In u → p src u = none → p' src u = none ∧ p' dst u = none
  present : ∀ u e, In u → p src u = some e → ∃ e1 e2, p' src u = some e1 ∧ p' dst u = some e2 ∧
    Stripped e e1 ∧ Stripped e e2
  rest : ∀ u, ¬ In u → p' dst u = none

-- How far the entries of the spaces other than `dst` may have changed.
def Weakened (dst : Nat) (p p' : Nat → Nat → Option (BitVec 64)) : Prop :=
  ∀ t u, t ≠ dst → p' t u = p t u ∨ ∃ e e', p t u = some e ∧ p' t u = some e' ∧ Stripped e e'

section relations

variable {In In' : Nat → Prop} {p p1 p' : Nat → Nat → Option (BitVec 64)} {e e1 e2 : BitVec 64}

theorem Stripped.trans (h : Stripped e e1) (h' : Stripped e1 e2) : Stripped e e2 :=
  ⟨h'.frame.trans h.frame, h'.readOnly, h'.nx.trans h.nx⟩

theorem Shared.refl (hdst : ∀ u, p dst u = none) (hIn : ∀ u, ¬ In u) : Shared src dst In p p :=
  ⟨fun _ _ _ _ => rfl, fun u hu => absurd hu (hIn u), fun u _ hu => absurd hu (hIn u),
    fun u _ => hdst u⟩

theorem Shared.congr (h : Shared src dst In p p') (hIn : ∀ u, In' u ↔ In u) :
    Shared src dst In' p p' :=
  ⟨fun t u ht hu => h.same t u ht (fun hc => hu ⟨hc.1, (hIn u).2 hc.2⟩),
    fun u hu => h.vacant u ((hIn u).1 hu), fun u e hu => h.present u e ((hIn u).1 hu),
    fun u hu => h.rest u (mt (hIn u).2 hu)⟩

theorem Shared.weakened (h : Shared src dst In p p') : Weakened dst p p' := by
  intro t u ht
  by_cases hc : t = src ∧ In u
  · obtain ⟨rfl, hu⟩ := hc
    cases hp : p t u with
    | none => exact .inl (h.vacant u hu hp).1
    | some e =>
      obtain ⟨e1, e2, hp1, -, hs, -⟩ := h.present u e hu hp
      exact .inr ⟨e, e1, rfl, hp1, hs⟩
  · exact .inl (h.same t u ht hc)

theorem Weakened.trans (h : Weakened dst p p1) (h' : Weakened dst p1 p') : Weakened dst p p' := by
  intro t u ht
  rcases h t u ht with hp | ⟨e, e1, hp, hp1, hs⟩
  · rw [← hp]
    exact h' t u ht
  rcases h' t u ht with hp' | ⟨e', e2, hp', hp2, hs'⟩
  · exact .inr ⟨e, e1, hp, hp'.trans hp1, hs⟩
  · rw [hp1] at hp'
    cases hp'
    exact .inr ⟨e, e2, hp, hp2, hs.trans hs'⟩

theorem Shared.skip (h : Shared src dst In p p') (hv : ¬ In v) (hne : src ≠ dst)
    (hp : p' src v = none) : Shared src dst (fun u => In u ∨ u = v) p p' := by
  have hpv : p src v = none := by rw [← h.same src v hne (fun hc => hv hc.2), hp]
  refine ⟨fun t u ht hu => h.same t u ht (fun hc => hu ⟨hc.1, .inl hc.2⟩), ?_, ?_, ?_⟩
  · rintro u (hu | rfl) hpu
    · exact h.vacant u hu hpu
    · exact ⟨hp, h.rest u hv⟩
  · rintro u e (hu | rfl) hpu
    · exact h.present u e hu hpu
    · rw [hpv] at hpu
      cases hpu
  · intro u hu
    exact h.rest u (fun hc => hu (.inl hc))

theorem Shared.add (h : Shared src dst In p p1) (hv : ¬ In v) (hne : src ≠ dst)
    (hp : p1 src v = some e) (h1 : Stripped e e1) (h2 : Stripped e e2)
    (hp' : ∀ t u, p' t u = if t = dst ∧ u = v then some e2
      else if t = src ∧ u = v then some e1 else p1 t u) :
    Shared src dst (fun u => In u ∨ u = v) p p' := by
  have hpv : p src v = some e := by rw [← h.same src v hne (fun hc => hv hc.2), hp]
  have hold : ∀ t u, u ≠ v → p' t u = p1 t u := by
    intro t u hu
    rw [hp', if_neg (fun hc => hu hc.2), if_neg (fun hc => hu hc.2)]
  have hsrc : p' src v = some e1 := by
    rw [hp', if_neg (fun hc => hne hc.1), if_pos ⟨rfl, rfl⟩]
  have hdst : p' dst v = some e2 := by rw [hp', if_pos ⟨rfl, rfl⟩]
  have hIn : ∀ u, In u → u ≠ v := by
    rintro u hu rfl
    exact hv hu
  refine ⟨fun t u ht hu => ?_, ?_, ?_, fun u hu => ?_⟩
  · rw [hp', if_neg (fun hc => ht hc.1), if_neg (fun hc => hu ⟨hc.1, .inr hc.2⟩)]
    exact h.same t u ht (fun hc => hu ⟨hc.1, .inl hc.2⟩)
  · rintro u (hu | rfl) hpu
    · rw [hold src u (hIn u hu), hold dst u (hIn u hu)]
      exact h.vacant u hu hpu
    · rw [hpv] at hpu
      cases hpu
  · rintro u e' (hu | rfl) hpu
    · rw [hold src u (hIn u hu), hold dst u (hIn u hu)]
      exact h.present u e' hu hpu
    · rw [hpv] at hpu
      cases hpu
      exact ⟨e1, e2, hsrc, hdst, h1, h2⟩
  · rw [hold dst u (fun hc => hu (.inr hc))]
    exact h.rest u (fun hc => hu (.inl hc))

end relations

-- The state of `vmm_clone_space` that began in `k0`: the pages `In` have been done.
structure Cloning (k0 k : Kern) (src dst : Nat) (In : Nat → Prop) : Prop where
  zeroPage : k.phys.pmm.mmZeroPage = k0.phys.pmm.mmZeroPage
  roots : k.roots = k0.roots
  owned : Owned k.pte (zeroFrame k.phys)
  shared : Shared src dst In k0.pte k.pte
  words : ∀ t u i, t ≠ dst → i < 512 → k.words t u i = k0.words t u i
  copy : ∀ u i, In u → i < 512 → k.words dst u i = k0.words src u i

structure Broken (k0 k : Kern) (dst : Nat) : Prop where
  zeroPage : k.phys.pmm.mmZeroPage = k0.phys.pmm.mmZeroPage
  owned : Owned k.pte (zeroFrame k.phys)
  weakened : Weakened dst k0.pte k.pte
  words : ∀ t u i, t ≠ dst → i < 512 → k.words t u i = k0.words t u i

section cloning

variable {k0 k' : Kern} {f f' : Nat} {In In' : Nat → Prop}

section

variable (h : Cloning k0 k src dst In)
include h

theorem Cloning.congr (hIn : ∀ u, In' u ↔ In u) : Cloning k0 k src dst In' :=
  ⟨h.zeroPage, h.roots, h.owned, h.shared.congr hIn, h.words,
    fun u i hu => h.copy u i ((hIn u).1 hu)⟩

theorem Cloning.broken : Broken k0 k dst :=
  ⟨h.zeroPage, h.owned, h.shared.weakened, h.words⟩

theorem Cloning.idle (hi : Idle k k') (hr : k'.roots = k.roots) : Cloning k0 k' src dst In := by
  have hpte : k'.pte = k.pte := by
    funext t u
    exact hi.pte t u
  have hz := zeroFrame_eq hi.zeroPage
  refine ⟨hi.zeroPage.trans h.zeroPage, hr.trans h.roots, ?_, ?_, fun t u i ht hi' => ?_,
    fun u i hu hi' => ?_⟩
  · rw [hpte, hz]
    exact h.owned
  · rw [hpte]
    exact h.shared
  · rw [hi.words t u i hi', h.words t u i ht hi']
  · rw [hi.words dst u i hi', h.copy u i hu hi']

theorem Cloning.refs_eq (hb0 : Base k0 R K) (hb : Base k R K) (hne : src ≠ dst)
    (hdst : ∀ u, k0.pte dst u = none) (ho0 : Owned k0.pte (zeroFrame k0.phys)) (hv : ¬ In v) {e : BitVec 64}
    (hp : k.pte src v = some e) (hz : pteFrame e ≠ zeroFrame k0.phys) :
    refs k.phys (pteFrame e) = refs k0.phys (pteFrame e) := by
  have hp0 : k0.pte src v = some e := by rw [← h.shared.same src v hne (fun hc => hv hc.2), hp]
  apply refs_congr hb0.pt hb.pt h.zeroPage hz
  rintro ⟨t, u⟩
  show Option.map pteFrame (k.pte t u) = some (pteFrame e) ↔
    Option.map pteFrame (k0.pte t u) = some (pteFrame e)
  by_cases ht : t = dst
  · subst ht
    rw [hdst u, Option.map_none]
    constructor
    · intro hc
      obtain ⟨e2, hp2, hf2⟩ := Option.map_eq_some_iff.1 hc
      by_cases hu : In u
      · cases hpu : k0.pte src u with
        | none =>
          rw [(h.shared.vacant u hu hpu).2] at hp2
          cases hp2
        | some e' =>
          -- the frame is mapped in `src` at one address only
          obtain ⟨-, e2', -, hp2', -, hs2⟩ := h.shared.present u e' hu hpu
          rw [hp2] at hp2'
          cases hp2'
          have hf : pteFrame e' = pteFrame e := by rw [← hs2.frame, hf2]
          have := ho0.placed src v e src u e' hp0 hpu hf hz
          exact absurd (this ▸ hu) hv
      · rw [h.shared.rest u hu] at hp2
        cases hp2
    · intro hc
      cases hc
  · rcases h.shared.weakened t u ht with hs | ⟨e0, e', hp0', hp', hs⟩
    · rw [hs]
    · rw [hp0', hp', Option.map_some, Option.map_some, hs.frame]

end

variable (hb0 : Base k0 R K) (ho0 : Owned k0.pte (zeroFrame k0.phys))
  (hdst0 : ∀ u, k0.pte dst u = none)
  (hbound : ∀ g, g ≠ zeroFrame k0.phys → refs k0.phys g < 0xFFFF)

include hb0 ho0 hdst0 hbound

section

variable (h : Cloning k0 k src dst In) (hb : Base k R K) (hne : src ≠ dst) (hsrc : k.roots src = some f)
  (hdst : k.roots dst = some f')
include h hb hne hsrc hdst

theorem clonePage_cloning (hv : v < userPages) (hIn : ¬ In v) :
    wp (clonePage (f * pageSize) (f' * pageSize) (v * pageSize))
      (fun _ s' => Base { k with phys := s' } R K ∧
        Cloning k0 { k with phys := s' } src dst fun u => In u ∨ u = v)
      (fun _ s' => Base { k with phys := s' } R K ∧ Broken k0 { k with phys := s' } dst)
      k.phys := by
  have hz0 := zeroFrame_eq h.zeroPage
  have hcount : ∀ e, pte k.phys.mem k.roots src v = some e → pteFrame e ≠ zeroFrame k.phys →
      refs k.phys (pteFrame e) < 0xFFFF := by
    intro e hp hz
    rw [hz0] at hz
    rw [h.refs_eq hb0 hb hne hdst0 ho0 hIn hp hz]
    exact hbound _ hz
  refine (clonePage_spec hb.pt hsrc hdst hne hv (h.shared.rest v hIn) hcount).mono ?_ ?_
  · rintro _ s' ⟨hpt, -, ⟨hp, rfl⟩ | ⟨e, e1, e2, hp, hsh⟩⟩
    · have hnone : k0.pte src v = none := by
        rw [← h.shared.same src v hne (fun hc => hIn hc.2)]
        exact hp
      refine ⟨hb, h.zeroPage, h.roots, h.owned, h.shared.skip hIn hne hp, h.words, ?_⟩
      rintro u i (hu | rfl) hi
      · exact h.copy u i hu hi
      have hd := h.shared.rest u hIn
      show words k.phys k.roots dst u i = words k0.phys k0.roots src u i
      unfold words
      rw [show pte k.phys.mem k.roots dst u = none from hd,
        show pte k0.phys.mem k0.roots src u = none from hnone]
    have hz := zeroFrame_eq hsh.zeroPage
    have hs1 : Stripped e e1 := ⟨hsh.frame.1, hsh.readOnly.1, hsh.nx.1⟩
    have hs2 : Stripped e e2 := ⟨hsh.frame.2, hsh.readOnly.2, hsh.nx.2⟩
    -- first the entry of `src` changes, then the one of `dst`
    set p1 : Nat → Nat → Option (BitVec 64) :=
      fun t u => if t = src ∧ u = v then some e1 else k.pte t u with hp1
    have ho1 : Owned p1 (zeroFrame k.phys) := by
      refine h.owned.reflag hp (fun _ _ => rfl) hs1.frame fun hw => ?_
      rw [hs1.readOnly] at hw
      cases hw
    have ho2 : Owned (pte s'.mem k.roots) (zeroFrame k.phys) := by
      refine ho1.set hsh.pte (fun hw => ?_) fun t u e' hne' he' hf => ?_
      · rw [hs2.readOnly] at hw
        cases hw
      have hsv : p1 src v = some e1 := if_pos ⟨rfl, rfl⟩
      have hf' : pteFrame e' = pteFrame e1 := by rw [hf, hs2.frame, hs1.frame]
      refine ⟨hs2.readOnly, ?_, fun hz => ?_⟩
      · by_contra hw
        have := (ho1.exclusive t u e' he' (by simpa using hw)).2 src v e1 hsv hf'.symm
        rw [← this.1, ← this.2, hsv] at he'
        cases he'
        exact hw hs1.readOnly
      · rw [hs2.frame, ← hs1.frame] at hz
        exact ho1.placed src v e1 t u e' hsv he' hf' hz
    refine ⟨hb.phys hpt hsh.zeroPage, hsh.zeroPage.trans h.zeroPage, h.roots, ?_,
      h.shared.add hIn hne hp hs1 hs2 hsh.pte, fun t u i ht hi => ?_, ?_⟩
    · show Owned (pte s'.mem k.roots) (zeroFrame s')
      rw [hz]
      exact ho2
    · rw [← h.words t u i ht hi]
      exact hsh.words t u i (fun hc => ht hc.1) hi
    · rintro u i (hu | rfl) hi
      · rw [← h.copy u i hu hi]
        apply hsh.words dst u i _ hi
        rintro ⟨-, rfl⟩
        exact hIn hu
      · rw [← h.words src u i hne hi]
        exact hsh.copy i hi
  · rintro err s' ⟨hpt, -, e, e1, hp, hset, hf, hw, hnx⟩
    have hz := zeroFrame_eq hset.zeroPage
    refine ⟨hb.phys hpt hset.zeroPage, hset.zeroPage.trans h.zeroPage, ?_, ?_, fun t u i ht hi => ?_⟩
    · show Owned (pte s'.mem k.roots) (zeroFrame s')
      rw [hz]
      refine h.owned.reflag hp hset.pte hf fun hc => ?_
      rw [hw] at hc
      cases hc
    · apply h.shared.weakened.trans
      intro t u ht
      by_cases htu : t = src ∧ u = v
      · obtain ⟨rfl, rfl⟩ := htu
        refine .inr ⟨e, e1, hp, ?_, hf, hw, hnx⟩
        exact (hset.pte t u).trans (if_pos ⟨rfl, rfl⟩)
      · exact .inl ((hset.pte t u).trans (if_neg htu))
    · rw [← h.words t u i ht hi]
      exact hset.words t u i hi

theorem clonePages_spec {vma : Vma} (hg : GoodVma vma) (hlt : vma.start < vma.stop)
    (hIn : ∀ u, vma.Covers u → ¬ In u) :
    wp (Prog.forRange (fun i => clonePage (f * pageSize) (f' * pageSize) (vma.start + i * pageSize))
        (pagesIn vma.start vma.stop))
      (fun _ s' => Base { k with phys := s' } R K ∧
        Cloning k0 { k with phys := s' } src dst fun u => In u ∨ vma.Covers u)
      (fun _ s' => Base { k with phys := s' } R K ∧ Broken k0 { k with phys := s' } dst)
      k.phys := by
  refine wp_forPages (f := clonePage (f * pageSize) (f' * pageSize))
    (fun D s' => Base { k with phys := s' } R K ∧
    Cloning k0 { k with phys := s' } src dst fun u => In u ∨ D u) hg.startAligned hg.stopAligned hlt.le hg.top
    ⟨hb, h.congr fun u => or_iff_left fun hc => hc⟩ ?_
  rintro v D s1 hv hcov hD ⟨hb1, h1⟩
  have hnew : ¬ (In v ∨ D v) := fun hc => hc.elim (hIn v hcov) hD
  refine (clonePage_cloning hb0 ho0 hdst0 hbound h1 hb1 hne hsrc hdst hv hnew).post ?_
  rintro _ s2 ⟨hb2, h2⟩
  exact ⟨hb2, h2.congr fun u => or_assoc.symm⟩

end

-- What the loop over the VMAs keeps: only the tree of `dst` changes.
structure CloneSpaces (k0 k : Kern) (dst : Nat) (d : AddrSpace) (t : VmaTree) (L : List Nat) :
    Prop where
  next : k0.heap.next ≤ k.heap.next
  kernelPml4 : k.kernelPml4 = k0.kernelPml4
  other : ∀ sp, sp ≠ dst → k.space sp = k0.space sp
  self : k.space dst = some { d with vmas := t }
  tree : TreeInv GoodVma t k.heap.next L

variable {d : AddrSpace} {t : VmaTree} {A B L : List Nat}

theorem cloneOneVma_spec (ha : k0.space src = some a) (hne : src ≠ dst) (hg : GoodVma (a.vmas.vma id))
    (hlt : (a.vmas.vma id).start < (a.vmas.vma id).stop) (hb : Base k R K) (h : Cloning k0 k src dst In)
    (hc : CloneSpaces k0 k dst d t L) (hIn : ∀ u, (a.vmas.vma id).Covers u → ¬ In u)
    (hfree : ∀ i ∈ L, (t.vma i).stop ≤ (a.vmas.vma id).start ∨ (a.vmas.vma id).stop ≤ (t.vma i).start) :
    wp (cloneOneVma src dst (a.vmas.vma id))
      (fun _ k' => Base k' R K ∧
        Cloning k0 k' src dst (fun u => In u ∨ (a.vmas.vma id).Covers u) ∧
        ∃ t' L', CloneSpaces k0 k' dst d t' L' ∧ ∀ x, addrMap t' L' x =
          if (a.vmas.vma id).start ≤ x ∧ x < (a.vmas.vma id).stop
          then some (a.vmas.vma id).flags else addrMap t L x)
      (fun _ k' => Base k' R K ∧ Broken k0 k' dst ∧ ∃ t' L', CloneSpaces k0 k' dst d t' L') k := by
  obtain ⟨t', L', hins, htree, -, hmap⟩ := hc.tree.insert hg hlt hfree
  unfold cloneOneVma
  refine (kzalloc_spec hb).any.next ?_
  rintro r k1 ⟨hb1, hi1, hsp1, hr⟩
  have hroots1 : k1.roots = k.roots := by
    unfold Kern.roots
    rw [hsp1]
  have h1 := h.idle hi1 hroots1
  cases r with
  | none =>
    refine wp_error ⟨hb1, h1.broken, t, L, hc.next.trans hi1.next,
      hi1.kernelPml4.trans hc.kernelPml4, fun sp hsp => ?_, ?_, hc.tree.mono hi1.next⟩
    · rw [hsp1, hc.other sp hsp]
    · rw [hsp1, hc.self]
  | some n =>
    obtain ⟨rfl, hnext⟩ := hr n rfl
    have hself1 : k1.space dst = some { d with vmas := t } := by rw [hsp1, hc.self]
    apply wp_vmasOf hself1
    apply wp_known hins
    apply wp_bind_write
    set k2 := k1.setVmas dst t' with hk2
    have hroots2 : k2.roots = k1.roots := setVmas_roots
    have h2 := h1.idle Idle.setVmas hroots2
    have hself2 : k2.space dst = some { d with vmas := t' } := by
      rw [hk2, setVmas_self hself1]
    have hother2 : ∀ sp, sp ≠ dst → k2.space sp = k0.space sp := by
      intro sp hsp
      rw [hk2, setVmas_of_ne hsp, hsp1, hc.other sp hsp]
    have hsrc2 : k2.space src = some a := by rw [hother2 src hne, ha]
    have hspaces : ∀ s', CloneSpaces k0 { k2 with phys := s' } dst d t' L' := by
      intro s'
      refine ⟨hc.next.trans hi1.next, hi1.kernelPml4.trans hc.kernelPml4, hother2, hself2, ?_⟩
      show TreeInv GoodVma t' k1.heap.next L'
      rw [hnext]
      exact htree
    apply wp_pml4Of hsrc2
    apply wp_pml4Of hself2
    apply wp_zoom
    have hb2 : Base k2 R K := hb1.setVmas
    have hspec := clonePages_spec hb0 ho0 hdst0 hbound h2 hb2 hne (Kern.roots_eq hsrc2)
      (Kern.roots_eq hself2) hg hlt hIn
    rw [← hb2.pml4_eq hsrc2, ← hb2.pml4_eq hself2] at hspec
    refine hspec.mono ?_ ?_
    · rintro _ s' ⟨hb', h'⟩
      exact ⟨hb', h', t', L', hspaces s', hmap⟩
    · rintro _ s' ⟨hb', h'⟩
      exact ⟨hb', h', t', L', hspaces s'⟩

theorem cloneLoop_spec (ha : k0.space src = some a) (hne : src ≠ dst)
    (hsrc : TreeInv GoodVma a.vmas k0.heap.next (A ++ B)) (hb : Base k R K)
    (h : Cloning k0 k src dst fun u => ∃ i ∈ A, (a.vmas.vma i).Covers u)
    (hc : CloneSpaces k0 k dst d t L) (hmap : ∀ x, addrMap t L x = addrMap a.vmas A x) :
    wp (cloneLoop src dst B.head?)
      (fun _ k' => Base k' R K ∧
        Cloning k0 k' src dst (fun u => ∃ i ∈ A ++ B, (a.vmas.vma i).Covers u) ∧
        ∃ t' L', CloneSpaces k0 k' dst d t' L' ∧ ∀ x, addrMap t' L' x = addrMap a.vmas (A ++ B) x)
      (fun _ k' => Base k' R K ∧ Broken k0 k' dst ∧ ∃ t' L', CloneSpaces k0 k' dst d t' L') k := by
  induction B generalizing A k t L with
  | nil =>
    rw [cloneLoop.eq_def]
    apply wp_pure
    rw [List.append_nil]
    exact ⟨hb, h, t, L, hc, hmap⟩
  | cons x B ih =>
    have hord := hsrc.holds.ordered
    have hcons : A ++ x :: B = (A ++ [x]) ++ B := by simp
    obtain ⟨hoA, hoxB, hAx⟩ := Family.Ordered.append_iff.1 hord
    have hAx : ∀ i ∈ A, (a.vmas.vma i).stop ≤ (a.vmas.vma x).start :=
      fun i hi => hAx i hi x (by simp)
    have hrange := hsrc.range (show x ∈ A ++ x :: B by simp)
    rw [cloneLoop.eq_def]
    have hspa : k.space src = some a := by rw [hc.other src hne, ha]
    apply wp_vmasOf hspa
    apply wp_bind
    have hIn : ∀ u, (a.vmas.vma x).Covers u → ¬ ∃ i ∈ A, (a.vmas.vma i).Covers u := by
      rintro u hxu ⟨i, hi, hiu⟩
      have := hAx i hi
      unfold Vma.Covers at hxu hiu
      omega
    have hfree : ∀ i ∈ L, (t.vma i).stop ≤ (a.vmas.vma x).start ∨
        (a.vmas.vma x).stop ≤ (t.vma i).start := by
      intro i hi
      left
      -- the last address of the VMA is in a VMA of `A`
      have hri := hc.tree.range hi
      have hlast : addrMap t L ((t.vma i).stop - 1) = some (t.vma i).flags := by
        rw [addrMap_eq_some hc.tree.holds.ordered]
        exact ⟨i, hi, by omega, by omega, rfl⟩
      rw [hmap, addrMap_eq_some hoA] at hlast
      obtain ⟨j, hj, -, hje, -⟩ := hlast
      have := hAx j hj
      omega
    refine (cloneOneVma_spec hb0 ho0 hdst0 hbound ha hne (hsrc.good x (by simp)) hrange hb h hc
      hIn hfree).post ?_
    rintro _ k1 ⟨hb1, h1, t1, L1, hc1, hmap1⟩
    have hspa1 : k1.space src = some a := by rw [hc1.other src hne, ha]
    apply wp_vmasOf hspa1
    apply wp_known hsrc.holds.vmaNext_eq
    have hmap1' : ∀ y, addrMap t1 L1 y = addrMap a.vmas (A ++ [x]) y := by
      intro y
      have hox : a.vmas.spans.Ordered (A ++ x :: []) := by
        rw [hcons] at hord
        exact (Family.Ordered.append_iff.1 hord).1
      rw [hmap1, hmap, addrMap_insert hox, List.append_nil]
    have h1' : Cloning k0 k1 src dst fun u => ∃ i ∈ A ++ [x], (a.vmas.vma i).Covers u := by
      refine h1.congr fun u => ?_
      simp only [List.mem_append, List.mem_singleton]
      constructor
      · rintro ⟨i, hi | rfl, hu⟩
        · exact .inl ⟨i, hi, hu⟩
        · exact .inr hu
      · rintro (⟨i, hi, hu⟩ | hu)
        · exact ⟨i, .inl hi, hu⟩
        · exact ⟨x, .inr rfl, hu⟩
    rw [hcons]
    exact ih (hcons ▸ hsrc) hb1 h1' hc1 hmap1'

end cloning

-- The child has the map of its parent and shares its pages.
structure Cloned (k k' : Kern) (src dst : Nat) : Prop where
  kernelPml4 : k'.kernelPml4 = k.kernelPml4
  zeroPage : k'.phys.pmm.mmZeroPage = k.phys.pmm.mmZeroPage
  fresh : k.space dst = none
  live : k'.space dst ≠ none
  other : ∀ t, t ≠ dst → k'.space t = k.space t
  flags : ∀ x, k'.flags dst x = k.flags src x
  shared : Shared src dst (fun u => k.flags src (u * pageSize) ≠ none) k.pte k'.pte
  words : ∀ t u i, t ≠ dst → i < 512 → k'.words t u i = k.words t u i
  copy : ∀ u i, k.flags src (u * pageSize) ≠ none → i < 512 → k'.words dst u i = k.words src u i

-- A clone that failed: pages of the parent may have become read-only.
structure CloneFailed (k k' : Kern) : Prop where
  kernelPml4 : k'.kernelPml4 = k.kernelPml4
  zeroPage : k'.phys.pmm.mmZeroPage = k.phys.pmm.mmZeroPage
  space : k'.space = k.space
  pte : ∀ t u, k'.pte t u = k.pte t u ∨
    ∃ e e', k.pte t u = some e ∧ k'.pte t u = some e' ∧ Stripped e e'
  words : ∀ t u i, i < 512 → k'.words t u i = k.words t u i

theorem vmmCloneSpace_spec (h : Sound k R K) (ha : k.space src = some a)
    (hbound : ∀ g, g ≠ zeroFrame k.phys → refs k.phys g < 0xFFFF) :
    wp (vmmCloneSpace src)
      (fun dst k' => Sound k' R K ∧ Cloned k k' src dst)
      (fun _ k' => Sound k' R K ∧ CloneFailed k k') k := by
  unfold vmmCloneSpace
  refine (vmmCreateSpace_spec h.base).any.next ?_
  rintro r k1 ⟨hb1, hi1, hnone, hsome⟩
  cases r with
  | none =>
    have hsp1 := hnone rfl
    exact wp_error ⟨h.of_idle hb1 hi1 hsp1, hi1.kernelPml4, hi1.zeroPage, hsp1,
      fun t u => .inl (hi1.pte t u), fun t u i hi => hi1.words t u i hi⟩
  | some dst =>
    obtain ⟨hfresh, pml4, offset, hsp1, hoff, hoff'⟩ := hsome dst rfl
    set d : AddrSpace := ⟨pml4, .empty, mmapBaseTop - offset⟩ with hd
    have hne : src ≠ dst := by
      rintro rfl
      rw [ha] at hfresh
      cases hfresh
    have hother1 : ∀ t, t ≠ dst → k1.space t = k.space t := by
      intro t ht
      rw [hsp1, update_of_ne ht]
    have hself1 : k1.space dst = some d := by rw [hsp1, update_self]
    have ha1 : k1.space src = some a := by rw [hother1 src hne, ha]
    have hpte : k1.pte = k.pte := by
      funext t u
      exact hi1.pte t u
    have hz1 := zeroFrame_eq hi1.zeroPage
    have ho1 : Owned k1.pte (zeroFrame k1.phys) := by
      rw [hpte, hz1]
      exact h.owned
    have hvac : ∀ u, k1.pte dst u = none := by
      intro u
      rw [hpte]
      exact pte_none hfresh u
    have hbound1 : ∀ g, g ≠ zeroFrame k1.phys → refs k1.phys g < 0xFFFF := by
      intro g hg
      rw [hz1] at hg
      rw [refs_congr h.base.pt hb1.pt hi1.zeroPage hg]
      · exact hbound g hg
      · rintro ⟨t, u⟩
        show Option.map pteFrame (k1.pte t u) = _ ↔ Option.map pteFrame (k.pte t u) = _
        rw [hpte]
    obtain ⟨L, hg⟩ := h.spaces src a ha
    have htree1 : TreeInv GoodVma a.vmas k1.heap.next ([] ++ L) := hg.tree.mono hi1.next
    apply wp_vmasOf ha1
    apply wp_known hg.tree.holds.vmaFirst_eq
    apply wp_bind_attempt
    have hstart : Cloning k1 k1 src dst fun u => ∃ i ∈ [], (a.vmas.vma i).Covers u :=
      ⟨rfl, rfl, ho1, .refl hvac (by simp), fun _ _ _ _ _ => rfl, by simp⟩
    have hspaces : CloneSpaces k1 k1 dst d .empty [] :=
      ⟨le_refl _, rfl, fun _ _ => rfl, hself1, ⟨.empty, by simp, by simp⟩⟩
    have hceil : d.mmapBase % pageSize = 0 ∧ d.mmapBase ≤ mmapBaseTop := by
      simp only [hd, mmapBaseTop, pageSize] at hoff hoff' ⊢
      omega
    refine (cloneLoop_spec hb1 ho1 hvac hbound1 ha1 hne htree1 hb1 hstart hspaces
      (fun _ => rfl)).mono ?_ ?_
    · rintro _ k2 ⟨hb2, h2, t', L', hc2, hmap⟩
      apply wp_pure
      rw [List.nil_append] at h2 hmap
      have hother2 : ∀ t, t ≠ dst → k2.space t = k.space t := by
        intro t ht
        rw [hc2.other t ht, hother1 t ht]
      have hIn : ∀ u, k.flags src (u * pageSize) ≠ none ↔ ∃ i ∈ L, (a.vmas.vma i).Covers u := by
        intro u
        rw [flags_eq ha hg.tree.holds, Option.ne_none_iff_exists']
        constructor
        · rintro ⟨vf, hvf⟩
          obtain ⟨i, hi, hs, he, -⟩ := (addrMap_eq_some hg.tree.holds.ordered).1 hvf
          exact ⟨i, hi, hs, he⟩
        · rintro ⟨i, hi, hs, he⟩
          exact ⟨_, (addrMap_eq_some hg.tree.holds.ordered).2 ⟨i, hi, hs, he, rfl⟩⟩
      refine ⟨⟨hb2, fun t b hb => ?_, h2.owned⟩, hc2.kernelPml4.trans hi1.kernelPml4,
        h2.zeroPage.trans hi1.zeroPage, hfresh, by simp [hc2.self], hother2, fun x => ?_,
        hpte ▸ h2.shared.congr hIn, fun t u i ht hi => ?_, fun u i hu hi => ?_⟩
      · by_cases ht : t = dst
        · subst ht
          rw [hc2.self] at hb
          cases hb
          exact ⟨L', hc2.tree, hceil⟩
        · rw [hother2 t ht] at hb
          obtain ⟨M, hM⟩ := h.spaces t b hb
          exact ⟨M, hM.mono (hi1.next.trans hc2.next)⟩
      · rw [flags_eq hc2.self hc2.tree.holds, hmap, flags_eq ha hg.tree.holds]
      · rw [h2.words t u i ht hi, hi1.words t u i hi]
      · rw [h2.copy u i ((hIn u).1 hu) hi, hi1.words src u i hi]
    · rintro err k2 ⟨hb2, h2, t', L', hc2⟩
      -- the child is torn down
      refine (vmmDestroySpace_spec hb2 hc2.self hc2.tree).any.next ?_
      rintro _ k3 ⟨hb3, hsp3, hsh3⟩
      apply wp_error
      have hspace : k3.space = k.space := hsp3.trans (update_eq_iff.2
        ⟨hfresh.symm, fun t ht => (hc2.other t ht).trans (hother1 t ht)⟩)
      have hz3 := zeroFrame_eq hsh3.zeroPage
      refine ⟨⟨hb3, fun t b hb => ?_, ?_⟩, ?_, ?_, hspace, fun t u => ?_, fun t u i hi => ?_⟩
      · rw [hspace] at hb
        obtain ⟨M, hM⟩ := h.spaces t b hb
        exact ⟨M, hM.mono (hi1.next.trans (hc2.next.trans hsh3.next))⟩
      · rw [hz3]
        apply h2.owned.subset
        intro t u e he
        by_cases ht : t = dst
        · rw [hsh3.gone t u ht] at he
          cases he
        · rwa [hsh3.pte t u ht] at he
      · rw [hsh3.kernelPml4, hc2.kernelPml4, hi1.kernelPml4]
      · rw [hsh3.zeroPage, h2.zeroPage, hi1.zeroPage]
      · by_cases ht : t = dst
        · left
          rw [hsh3.gone t u ht, ht, pte_none hfresh]
        · rw [hsh3.pte t u ht, ← hpte]
          exact h2.weakened t u ht
      · by_cases ht : t = dst
        · have hnone3 : Paging.pte k3.phys.mem k3.roots t u = none := hsh3.gone t u ht
          have hnone : Paging.pte k.phys.mem k.roots t u = none := by
            rw [ht]
            exact pte_none hfresh u
          unfold Kern.words words
          rw [hnone3, hnone]
        · rw [hsh3.words t u i ht hi, h2.words t u i ht hi, hi1.words t u i hi]

end Jnu.Mm
