import Jnu.Paging.Leaves

namespace Jnu.Paging

open Lib.Dyadic Lib.Effect Lib.Refs Pmm PhysM PtInv
open Function

variable {R : Set Nat} {roots : Nat → Option Nat} {O : Set Block} {x : Nat → Nat} {s0 s s' : Phys}
  {sp root c r k n m i v g kernelPml4 : Nat} {P P' : Nat → Nat → Prop} {prog : Nat → PhysM Unit}

-- `(k, n)` is at or below the position `(j, m)`; a page is a position of depth 4.
def Below (j m k n : Nat) : Prop := j ≤ k ∧ n / 512 ^ (k - j) = m

theorem below_self (k n : Nat) : Below k n k n := by
  unfold Below
  simp

theorem below_eq (h : Below k m k n) : n = m := by
  have := h.2
  simpa using this

theorem below_child_iff : (∃ i, i < 512 ∧ Below (m + 1) (n * 512 + i) k c) ↔
    Below m n k c ∧ m < k := by
  constructor
  · rintro ⟨i, hi, hk, hdiv⟩
    refine ⟨⟨by omega, ?_⟩, by omega⟩
    rw [show k - m = (k - (m + 1)) + 1 by omega, Nat.pow_succ, ← Nat.div_div_eq_div_mul, hdiv]
    omega
  · rintro ⟨⟨-, hdiv⟩, hk⟩
    rw [show k - m = (k - (m + 1)) + 1 by omega, Nat.pow_succ, ← Nat.div_div_eq_div_mul] at hdiv
    refine ⟨c / 512 ^ (k - (m + 1)) % 512, Nat.mod_lt _ (by decide), by omega, ?_⟩
    omega

theorem below_up (h : Below m n (k + 1) c) (hne : m ≤ k) : Below m n k (c / 512) := by
  refine ⟨hne, ?_⟩
  have := h.2
  rw [show k + 1 - m = (k - m) + 1 by omega, Nat.pow_succ', ← Nat.div_div_eq_div_mul] at this
  exact this

theorem tableAt_below {mem : Mem} (h : tableAt mem roots sp m n = none) (hb : Below m n k c) :
    tableAt mem roots sp k c = none := by
  induction k generalizing c with
  | zero =>
    obtain rfl : m = 0 := Nat.le_zero.1 hb.1
    exact h
  | succ k ih =>
    by_cases hk : m = k + 1
    · subst hk
      obtain rfl := below_eq hb
      exact h
    · have hle := hb.1
      rw [tableAt_succ, ih (below_up hb (by omega))]
      rfl

-- The tables at the positions `P` of a space that is being destroyed, as the memory `mem` of the
-- start has them.
def liveTables (mem : Mem) (roots : Nat → Option Nat) (sp : Nat) (P : Nat → Nat → Prop) :
    Set Block :=
  {b | b.order = 0 ∧ ∃ k n, UserPos k n ∧ P k n ∧ tableAt mem roots sp k n = some b.start}

-- The frames behind its pages at the positions `P`.
open Classical in
noncomputable def livePages (mem : Mem) (roots : Nat → Option Nat) (sp : Nat)
    (P : Nat → Nat → Prop) (v : Nat) : Option Nat :=
  if P 4 v then frameMap mem roots (sp, v) else none

-- A space is half destroyed: what is at the positions `P` is still there, of the root the entries
-- from `r` on.
structure Dying (s0 : Phys) (R : Set Nat) (roots : Nat → Option Nat) (O : Set Block)
    (x : Nat → Nat) (sp root : Nat) (P : Nat → Nat → Prop) (r : Nat) (s : Phys) : Prop where
  inv : PtInv s R (update roots sp none) (O ∪ liveTables s0.mem roots sp P)
    (fun g => x g + count (livePages s0.mem roots sp P) g)
  zeroPage : s.pmm.mmZeroPage = s0.pmm.mmZeroPage
  refs_le : ∀ i, refs s i ≤ refs s0 i
  tables : ∀ w, IsTable s0.mem (update roots sp none) (w / 512) → s.mem w = s0.mem w
  own : ∀ k n c, 1 ≤ k → UserPos k n → P k n → tableAt s0.mem roots sp k n = some c →
    ∀ w, w / 512 = c → s.mem w = s0.mem w
  rootWords : ∀ j, r ≤ j → j < 512 → s.mem (root * 512 + j) = s0.mem (root * 512 + j)
  data : ∀ w, (0 < refs s (w / 512) ∨ w / 512 = zeroFrame s0) → s.mem w = s0.mem w

namespace Dying

section

variable (h : Dying s0 R roots O x sp root P r s)
include h

theorem congr (hT : ∀ k n c, UserPos k n → tableAt s0.mem roots sp k n = some c → (P' k n ↔ P k n))
    (hD : ∀ v g, frameMap s0.mem roots (sp, v) = some g → g ≠ zeroFrame s0 → (P' 4 v ↔ P 4 v)) :
    Dying s0 R roots O x sp root P' r s := by
  have htab : liveTables s0.mem roots sp P' = liveTables s0.mem roots sp P := by
    ext b
    unfold liveTables
    constructor
    · rintro ⟨ho, k, n, hpos, hp, ht⟩
      exact ⟨ho, k, n, hpos, (hT k n _ hpos ht).1 hp, ht⟩
    · rintro ⟨ho, k, n, hpos, hp, ht⟩
      exact ⟨ho, k, n, hpos, (hT k n _ hpos ht).2 hp, ht⟩
  have hpages : ∀ v g, g ≠ zeroFrame s0 →
      (livePages s0.mem roots sp P' v = some g ↔ livePages s0.mem roots sp P v = some g) := by
    intro v g hg
    unfold livePages
    by_cases hf : frameMap s0.mem roots (sp, v) = some g
    · have := hD v g hf hg
      by_cases hp : P 4 v
      · rw [if_pos hp, if_pos (this.2 hp)]
      · rw [if_neg hp, if_neg (fun hc => hp (this.1 hc))]
    constructor
    · intro hc
      split at hc
      · exact absurd hc hf
      · cases hc
    · intro hc
      split at hc
      · exact absurd hc hf
      · cases hc
  refine ⟨?_, h.zeroPage, h.refs_le, h.tables, ?_, h.rootWords, h.data⟩
  · rw [htab]
    apply h.inv.congr_refs
    intro g hg
    have hzs := zeroFrame_eq h.zeroPage
    rw [hzs] at hg
    unfold count
    simp only [hpages _ g hg]
  · intro k n c hk hpos hp ht
    exact h.own k n c hk hpos ((hT k n c hpos ht).1 hp) ht

theorem of_iff (hP : ∀ k c, P' k c ↔ P k c) : Dying s0 R roots O x sp root P' r s :=
  h.congr (fun k n _ _ _ => hP k n) fun v _ _ _ => hP 4 v

theorem congr_absent (hm : m ≤ 3) (habs : tableAt s0.mem roots sp m n = none) :
    Dying s0 R roots O x sp root (fun k c => P k c ∧ ¬ Below m n k c) r s := by
  apply h.congr
  · intro k c g _ ht
    constructor
    · exact fun hp => hp.1
    intro hp
    refine ⟨hp, fun hb => ?_⟩
    rw [tableAt_below habs hb] at ht
    cases ht
  · intro v g hf _
    constructor
    · exact fun hp => hp.1
    intro hp
    refine ⟨hp, fun hb => ?_⟩
    have hnone := tableAt_below habs (below_up (k := 3) hb hm)
    simp only [frameMap, pte_none_of_table hnone, Option.map_none] at hf
    cases hf

theorem congr_page (hv : ∀ g, frameMap s0.mem roots (sp, v) = some g → g = zeroFrame s0) :
    Dying s0 R roots O x sp root (fun k c => P k c ∧ ¬ (k = 4 ∧ c = v)) r s := by
  apply h.congr
  · intro k c _ hpos _
    have hk := hpos.1
    have hk4 : ¬ (k = 4 ∧ c = v) := by omega
    simp only [hk4, not_false_eq_true, and_true]
  · intro u g hg hgz
    constructor
    · exact fun hp => hp.1
    intro hp
    refine ⟨hp, ?_⟩
    rintro ⟨-, rfl⟩
    exact hgz (hv g hg)

theorem own_word (hk : 1 ≤ k) (hpos : UserPos k n) (hp : P k n) (ht : tableAt s0.mem roots sp k n = some c)
    (hi : i < 512) :
    s.mem (c * 512 + i) = s0.mem (c * 512 + i) :=
  h.own k n c hk hpos hp ht _ (word_div c hi)

end

section steps

variable (h0 : PtInv s0 R roots O x) (h : Dying s0 R roots O x sp root P r s)

include h0 h

theorem putPage (hp : P 4 v) (hf : frameMap s0.mem roots (sp, v) = some g)
    (hz : g ≠ zeroFrame s0) (hroot : roots sp = some root) :
    ∃ s', pmmPutUserPage s (g * pageSize) = .ok s' ∧
      Dying s0 R roots O x sp root (fun k c => P k c ∧ ¬ (k = 4 ∧ c = v)) r s' := by
  have hzs := zeroFrame_eq h.zeroPage
  have hinv1 := h.inv
  set D := livePages s0.mem roots sp P with hD
  have hDv : D v = some g := by
    rw [hD]
    unfold livePages
    rw [if_pos hp, hf]
  have hfin : FiniteRefs D := by
    apply (h0.finite.row sp).subset
    intro j hj
    simp only [hD, livePages, Set.mem_ofPred_eq] at hj ⊢
    by_cases hpj : P 4 j
    · rwa [if_pos hpj] at hj
    · rw [if_neg hpj] at hj
      exact absurd rfl hj
  have hcpos := count_pos hfin hDv
  have hrefs : 0 < refs s0 g := by
    have hc := hinv1.counts g (hzs ▸ hz)
    have := h.refs_le g
    omega
  obtain ⟨s', hs', hinv, hzp, hrefs', hmem⟩ := hinv1.put (f := g) (hzs ▸ hz) (by omega)
  have hD' : livePages s0.mem roots sp (fun k c => P k c ∧ ¬ (k = 4 ∧ c = v)) =
      update D v none := by
    funext j
    unfold livePages
    by_cases hj : j = v
    · rw [hj, if_neg (by simp), update_self]
    rw [update_of_ne hj, hD]
    unfold livePages
    by_cases hpj : P 4 j
    · rw [if_pos ⟨hpj, by simp [hj]⟩, if_pos hpj]
    · rw [if_neg (fun hc => hpj hc.1), if_neg hpj]
  have hT' : liveTables s0.mem roots sp (fun k c => P k c ∧ ¬ (k = 4 ∧ c = v)) =
      liveTables s0.mem roots sp P := by
    ext b
    unfold liveTables
    constructor
    · rintro ⟨ho, k, n, hpos, hp, ht⟩
      exact ⟨ho, k, n, hpos, hp.1, ht⟩
    rintro ⟨ho, k, n, hpos, hp, ht⟩
    refine ⟨ho, k, n, hpos, ⟨hp, ?_⟩, ht⟩
    have := hpos.1
    omega
  -- the frame is neither a table of another space nor one of this space
  have hnt := h0.not_table hrefs
  have hmem' : ∀ w, w / 512 ≠ g → s'.mem w = s.mem w := by
    intro w hw
    rw [hmem, if_neg (fun hc => hw hc.2)]
  refine ⟨s', hs', ?_, hzp.trans h.zeroPage, ?_, ?_, ?_, ?_, ?_⟩
  · rw [hT', hD']
    convert hinv using 1
    funext j
    have hcount := count_update (k := v) (o := none) (v := j) hfin
    rw [hDv] at hcount
    by_cases hj : j = g
    · subst hj
      rw [update_self]
      simp at hcount
      omega
    · rw [update_of_ne hj]
      have hne : ¬ (some g = some j) := by
        intro hc
        exact hj (Option.some.inj hc).symm
      rw [if_neg hne] at hcount
      simp at hcount
      omega
  · intro j
    rw [hrefs']
    have := h.refs_le j
    split <;> omega
  · intro w hw
    refine (hmem' w ?_).trans (h.tables w hw)
    rintro rfl
    obtain ⟨t, k, n, -, hpos, ht⟩ := isTable_uproot.1 hw
    exact hnt ⟨t, k, n, hpos, ht⟩
  · intro k n c hk hpos hp ht w hw
    refine (hmem' w ?_).trans (h.own k n c hk hpos hp.1 ht w hw)
    rintro rfl
    rw [← hw] at ht
    exact hnt ⟨sp, k, n, hpos, ht⟩
  · intro j hj hj'
    refine (hmem' _ ?_).trans (h.rootWords j hj hj')
    rw [word_div root hj']
    rintro rfl
    exact hnt ⟨sp, 0, 0, ⟨by decide, by decide⟩, hroot⟩
  · intro w hw
    by_cases hwg : w / 512 = g
    · rcases hw with hw | hw
      · rw [hrefs', if_pos hwg] at hw
        have hge : refs s g ≠ 1 := by
          rw [hwg] at hw
          omega
        rw [hmem, if_neg (fun hc => hge hc.1)]
        apply h.data
        left
        omega
      · exact absurd (hwg.symm.trans hw) hz
    · rw [hmem' w hwg]
      apply h.data
      rw [hrefs', if_neg hwg] at hw
      exact hw

theorem freeTable (hpos : UserPos k n) (hp : P k n) (ht : tableAt s0.mem roots sp k n = some c)
    (hroot : roots sp = some root) (hr : 1 ≤ k ∨ 512 ≤ r) :
    ∃ s', pmmFreePages s (c * pageSize) 0 = .ok s' ∧
      Dying s0 R roots O x sp root (fun k' c' => P k' c' ∧ ¬ (k' = k ∧ c' = n)) r s' := by
  have hzs := zeroFrame_eq h.zeroPage
  have hblock : blockAt (c * pageSize) 0 = ⟨c, 0⟩ := by
    unfold blockAt
    rw [show paToPfn (c * pageSize) = c from paToPfn_pfnToPa c]
  have htab : IsTable s0.mem roots c := ⟨sp, k, n, hpos, ht⟩
  have hnO : ∀ b ∈ O, c ∉ b := fun b hb hc => h0.otherTable b hb c hc htab
  have hc0 : c * pageSize % pageSize = 0 := Nat.mul_mod_left ..
  obtain ⟨s', hs', hinv, hframe, hmem⟩ := h.inv.freeOther hc0
    (by rw [hblock]; exact .inr ⟨rfl, k, n, hpos, hp, ht⟩) (by
      rw [hblock, hzs]
      intro hc
      have hcz : c = zeroFrame s0 := (Block.mk.injEq .. ▸ hc).1
      exact h0.zero_not_table (hcz ▸ htab))
  rw [hblock] at hinv hmem
  have hmem' : ∀ w, w / 512 ≠ c → s'.mem w = s.mem w := by
    intro w hw
    rw [hmem, if_neg (fun hc => hw (mem_page.1 hc))]
  have hpages : livePages s0.mem roots sp (fun k' c' => P k' c' ∧ ¬ (k' = k ∧ c' = n)) =
      livePages s0.mem roots sp P := by
    funext v
    unfold livePages
    have hk := hpos.1
    by_cases hpv : P 4 v
    · rw [if_pos ⟨hpv, by omega⟩, if_pos hpv]
    · rw [if_neg (fun hc => hpv hc.1), if_neg hpv]
  refine ⟨s', hs', ?_, hframe.mmZeroPage.trans h.zeroPage, ?_, ?_, ?_, ?_, ?_⟩
  · rw [hpages]
    convert hinv using 1
    ext b
    constructor
    · rintro (hb | ⟨ho, k', n', hpos', ⟨hp', hne⟩, ht'⟩)
      · exact ⟨.inl hb, fun hc => hnO b hb (hc ▸ mem_page.2 rfl)⟩
      refine ⟨.inr ⟨ho, k', n', hpos', hp', ht'⟩, ?_⟩
      rintro rfl
      obtain ⟨-, rfl, rfl⟩ := h0.shape.apart _ _ _ _ _ _ _ hpos' hpos ht' ht
      exact hne ⟨rfl, rfl⟩
    · rintro ⟨hb | ⟨ho, k', n', hpos', hp', ht'⟩, hne⟩
      · exact .inl hb
      refine .inr ⟨ho, k', n', hpos', ⟨hp', ?_⟩, ht'⟩
      rintro ⟨rfl, rfl⟩
      apply hne
      obtain ⟨start, order⟩ := b
      obtain rfl : order = 0 := ho
      rw [ht] at ht'
      rw [Option.some.inj ht']
  · intro j
    exact (hframe.refcount j).trans_le (h.refs_le j)
  · intro w hw
    refine (hmem' w ?_).trans (h.tables w hw)
    rintro rfl
    obtain ⟨t, k', n', hts, hpos', ht'⟩ := isTable_uproot.1 hw
    exact hts (h0.shape.apart _ _ _ _ _ _ _ hpos' hpos ht' ht).1
  · intro k' n' c' hk' hpos' hp' ht' w hw
    refine (hmem' w ?_).trans (h.own k' n' c' hk' hpos' hp'.1 ht' w hw)
    rintro rfl
    rw [← hw] at ht'
    obtain ⟨-, rfl, rfl⟩ := h0.shape.apart _ _ _ _ _ _ _ hpos' hpos ht' ht
    exact hp'.2 ⟨rfl, rfl⟩
  · intro j hj hj'
    refine (hmem' _ ?_).trans (h.rootWords j hj hj')
    rw [word_div root hj']
    rintro rfl
    obtain ⟨-, rfl, -⟩ := h0.shape.apart _ _ _ _ _ _ _ (⟨by decide, by decide⟩ : UserPos 0 0) hpos
      hroot ht
    omega
  · intro w hw
    have hwc : w / 512 ≠ c := by
      rintro rfl
      rcases hw with hw | hw
      · have h1 : refs s' (w / 512) = refs s (w / 512) := hframe.refcount _
        have h2 := h.refs_le (w / 512)
        have h3 := h0.tableRefs _ htab
        omega
      · exact h0.zero_not_table (hw ▸ htab)
    rw [hmem' w hwc]
    apply h.data
    have h1 : refs s' (w / 512) = refs s (w / 512) := hframe.refcount _
    rwa [h1] at hw

end steps

end Dying

-- The positions left after the first `i` entries of the table at `(m, n)`.
def Rest (P : Nat → Nat → Prop) (m n i k c : Nat) : Prop :=
  P k c ∧ ¬ ∃ j, j < i ∧ Below (m + 1) (n * 512 + j) k c

theorem rest_zero : Rest P m n 0 k c ↔ P k c := by simp [Rest]

theorem rest_table : Rest P m n i m n ↔ P m n := by
  constructor
  · exact fun h => h.1
  intro h
  refine ⟨h, ?_⟩
  rintro ⟨j, -, hj⟩
  have := hj.1
  omega

theorem rest_below (hP : ∀ k c, Below m n k c → P k c) (hi : i < 512)
    (h : Below (m + 1) (n * 512 + i) k c) : Rest P m n i k c := by
  refine ⟨hP k c (below_child_iff.1 ⟨i, hi, h⟩).1, ?_⟩
  rintro ⟨j, hj, hb⟩
  have h1 := h.2
  have h2 := hb.2
  omega

theorem rest_succ : (Rest P m n i k c ∧ ¬ Below (m + 1) (n * 512 + i) k c) ↔
    Rest P m n (i + 1) k c := by
  unfold Rest
  constructor
  · rintro ⟨⟨hp, hno⟩, hi⟩
    refine ⟨hp, ?_⟩
    rintro ⟨j, hj, hb⟩
    by_cases hji : j = i
    · exact hi (hji ▸ hb)
    · exact hno ⟨j, by omega, hb⟩
  · rintro ⟨hp, hno⟩
    refine ⟨⟨hp, ?_⟩, fun hb => hno ⟨i, by omega, hb⟩⟩
    rintro ⟨j, hj, hb⟩
    exact hno ⟨j, by omega, hb⟩

theorem rest_all : Rest P m n 512 k c ↔ P k c ∧ ¬ (Below m n k c ∧ m < k) := by
  unfold Rest
  rw [below_child_iff]

-- `prog` takes down what hangs below a table of depth `k`.
def Destroys (s0 : Phys) (R : Set Nat) (roots : Nat → Option Nat) (O : Set Block) (x : Nat → Nat)
    (sp root k : Nat) (prog : Nat → PhysM Unit) : Prop :=
  ∀ n c P r s, UserPos k n → tableAt s0.mem roots sp k n = some c →
    (∀ k' c', Below k n k' c' → P k' c') → Dying s0 R roots O x sp root P r s →
    wp (prog (c * pageSize))
      (fun _ s' => Dying s0 R roots O x sp root
        (fun k' c' => P k' c' ∧ ¬ (Below k n k' c' ∧ k < k')) r s')
      (fun _ _ => False) s

section levels

variable (h0 : PtInv s0 R roots O x) (hroot : roots sp = some root)

include h0 hroot

theorem destroyPt_spec : Destroys s0 R roots O x sp root 3 destroyPt := by
  intro n c P r s hpos ht hP h
  have hn : n < 2 ^ 26 := hpos.2
  unfold destroyPt
  refine (wp_forRange (fun i s' => Dying s0 R roots O x sp root (Rest P 3 n i) r s') ?_ ?_).post ?_
  · exact h.of_iff fun _ _ => rest_zero
  · intro i s hi h
    have hv : n * 512 + i < userPages := by
      simp only [userPages, Nat.reducePow] at hn ⊢
      omega
    have htab : tableAt s0.mem roots sp 3 ((n * 512 + i) / 512) = some c := by
      rwa [word_div n hi]
    have hpte := pte_of_table hv htab
    rw [show (n * 512 + i) % 512 = i by omega] at hpte
    have hword := h.own_word (by decide) hpos (rest_table.2 (hP 3 n (below_self 3 n))) ht hi
    -- what remains to be shown once the page is out of the way
    have hdone : ∀ s', Dying s0 R roots O x sp root
        (fun k c => Rest P 3 n i k c ∧ ¬ (k = 4 ∧ c = n * 512 + i)) r s' →
        Dying s0 R roots O x sp root (Rest P 3 n (i + 1)) r s' := by
      intro s' h'
      apply h'.congr
      · intro k c _ hpos' _
        have hk := hpos'.1
        rw [← rest_succ]
        have hb : ¬ Below (3 + 1) (n * 512 + i) k c := by
          intro hb
          have := hb.1
          omega
        have hk4 : ¬ (k = 4 ∧ c = n * 512 + i) := by omega
        simp only [hb, hk4]
      · intro v _ _ _
        rw [← rest_succ]
        have hb : Below (3 + 1) (n * 512 + i) 4 v ↔ v = n * 512 + i := by
          constructor
          · exact fun hb => below_eq hb
          · rintro rfl
            exact below_self 4 _
        simp [hb]
    apply wp_bind
    apply wp_of_ok (run_readEntry c i s)
    rw [hword]
    by_cases hp : has (s0.mem (c * 512 + i)) ptePresent
    · rw [if_pos hp] at hpte ⊢
      have hf : frameMap s0.mem roots (sp, n * 512 + i) =
          some (pteFrame (s0.mem (c * 512 + i))) := by
        simp only [frameMap, hpte, Option.map_some]
      apply wp_bind_read
      rw [h.zeroPage]
      by_cases hz : pteAddr (s0.mem (c * 512 + i)) = s0.pmm.mmZeroPage
      · have hzf : pteFrame (s0.mem (c * 512 + i)) = zeroFrame s0 := by
          unfold pteFrame zeroFrame
          rw [hz]
          rfl
        rw [if_neg (by simpa using hz)]
        apply wp_pure
        apply hdone
        apply h.congr_page
        intro g hg
        rw [hf] at hg
        exact hzf ▸ (Option.some.inj hg).symm
      · have hzf : pteFrame (s0.mem (c * 512 + i)) ≠ zeroFrame s0 := by
          intro hc
          apply hz
          rw [pteAddr_frame, hc]
          exact pfnToPa_paToPfn h0.zeroAligned
        have hin := rest_below hP hi (below_self 4 _)
        obtain ⟨s', hs', h'⟩ := h.putPage h0 hin hf hzf hroot
        rw [if_pos hz, pteAddr_frame]
        exact wp_of_ok (run_orPanic
          (f := (pmmPutUserPage · (pteFrame (s0.mem (c * 512 + i)) * pageSize))) hs') (hdone s' h')
    · rw [if_neg hp] at hpte ⊢
      apply wp_pure
      apply hdone
      apply h.congr_page
      intro g hg
      simp only [frameMap, hpte, Option.map_none] at hg
      cases hg
  · exact fun _ s' h' => h'.of_iff fun _ _ => rest_all.symm

theorem Destroys.entry (hprog : Destroys s0 R roots O x sp root (k + 1) prog)
    (hpos : UserPos (k + 1) m) (ht : tableAt s0.mem roots sp (k + 1) m = some c)
    (hP : ∀ k' c', Below (k + 1) m k' c' → P k' c') (h : Dying s0 R roots O x sp root P r s) :
    wp (do
        prog (c * pageSize)
        freePages (c * pageSize) 0 : PhysM Unit)
      (fun _ s' => Dying s0 R roots O x sp root
        (fun k' c' => P k' c' ∧ ¬ Below (k + 1) m k' c') r s')
      never s := by
  refine (hprog m c P r s hpos ht hP h).next ?_
  intro _ s1 h1
  obtain ⟨s', hs', h'⟩ := h1.freeTable h0 hpos
    (show P (k + 1) m ∧ ¬ (Below (k + 1) m (k + 1) m ∧ k + 1 < k + 1) from
      ⟨hP _ _ (below_self _ _), by omega⟩) ht hroot (.inl (by omega))
  apply wp_of_ok (run_orPanic (f := (pmmFreePages · (c * pageSize) 0)) hs')
  refine h'.of_iff fun k' c' => ?_
  constructor
  · rintro ⟨hp, hb⟩
    refine ⟨⟨hp, fun hc => hb hc.1⟩, ?_⟩
    rintro ⟨rfl, rfl⟩
    exact hb (below_self _ _)
  · rintro ⟨⟨hp, hb⟩, hne⟩
    refine ⟨hp, fun hc => ?_⟩
    have hle := hc.1
    by_cases hk : k' = k + 1
    · subst hk
      exact hne ⟨rfl, below_eq hc⟩
    · exact hb ⟨hc, by omega⟩

theorem Destroys.level (huge : Nat → PhysM Unit) (hk : 1 ≤ k)
    (hprog : Destroys s0 R roots O x sp root (k + 1) prog) (hk3 : k + 1 ≤ 3) :
    Destroys s0 R roots O x sp root k fun table => Prog.forRange (fun i => do
      let e ← readEntry table i
      if has e ptePresent then
        if has e pteHuge then huge (pteAddr e)
        else
          prog (pteAddr e)
          freePages (pteAddr e) 0) 512 := by
  intro n c P r s hpos ht hP h
  refine (wp_forRange (fun i s' => Dying s0 R roots O x sp root (Rest P k n i) r s') ?_ ?_).post ?_
  · exact h.of_iff fun _ _ => rest_zero
  · intro i s hi h
    have hposi : UserPos (k + 1) (n * 512 + i) := by
      refine ⟨hk3, ?_⟩
      have hn := hpos.2
      rw [show 9 * (k + 1) - 1 = (9 * k - 1) + 9 by omega, Nat.pow_add]
      omega
    have hword := h.own_word hk hpos (rest_table.2 (hP k n (below_self k n))) ht hi
    have hdone : ∀ s', Dying s0 R roots O x sp root
        (fun k' c' => Rest P k n i k' c' ∧ ¬ Below (k + 1) (n * 512 + i) k' c') r s' →
        Dying s0 R roots O x sp root (Rest P k n (i + 1)) r s' :=
      fun s' h' => h'.of_iff fun _ _ => rest_succ.symm
    have hchild := tableAt_child (n := n * 512 + i) (by rwa [word_div n hi])
    rw [show (n * 512 + i) % 512 = i by omega] at hchild
    apply wp_bind
    apply wp_of_ok (run_readEntry c i s)
    rw [hword]
    by_cases hp : has (s0.mem (c * 512 + i)) ptePresent
    · have hinner := h0.shape.inner sp k (n * 512 + i) c hposi (by rwa [word_div n hi])
        (by rwa [show (n * 512 + i) % 512 = i by omega])
      rw [show (n * 512 + i) % 512 = i by omega] at hinner
      have htc := hchild.trans (if_pos hp)
      rw [if_pos hp, if_neg (by simp [hinner.huge]), pteAddr_frame]
      refine (Destroys.entry h0 hroot hprog hposi htc (fun k' c' hb => rest_below hP hi hb) h).post ?_
      exact fun _ s' h' => hdone s' h'
    · have htc := hchild.trans (if_neg hp)
      rw [if_neg hp]
      exact wp_pure (hdone s (h.congr_absent hk3 htc))
  · exact fun _ s' h' => h'.of_iff fun _ _ => rest_all.symm

theorem destroyPd_spec : Destroys s0 R roots O x sp root 2 destroyPd := by
  have hlevel := Destroys.level h0 hroot (fun pa => putHugeUserRange pa (2 ^ 21)) (by decide)
    (destroyPt_spec h0 hroot) (by decide)
  intro n c P r s hpos ht hP h
  exact hlevel n c P r s hpos ht hP h

theorem destroyPdpt_spec : Destroys s0 R roots O x sp root 1 destroyPdpt := by
  have hlevel := Destroys.level h0 hroot (fun pa => putHugeUserRange pa (2 ^ 30)) (by decide)
    (destroyPd_spec h0 hroot) (by decide)
  intro n c P r s hpos ht hP h
  exact hlevel n c P r s hpos ht hP h

end levels

-- A space is gone, with its tables and the references of its pages.
structure Destroyed (roots : Nat → Option Nat) (sp : Nat) (s s' : Phys) : Prop where
  zeroPage : s'.pmm.mmZeroPage = s.pmm.mmZeroPage
  refs_le : ∀ i, refs s' i ≤ refs s i
  pte : ∀ t v, pte s'.mem (update roots sp none) t v =
    if t = sp then none else pte s.mem roots t v
  data : ∀ w, (0 < refs s' (w / 512) ∨ w / 512 = zeroFrame s) → s'.mem w = s.mem w

section top

private theorem userPos_below {k n : Nat} (hk : 1 ≤ k) (hn : n < 2 ^ (9 * k - 1)) :
    ∃ j, j < 256 ∧ Below 1 (0 * 512 + j) k n := by
  refine ⟨n / 512 ^ (k - 1), ?_, hk, by simp⟩
  apply Nat.div_lt_of_lt_mul
  rw [show (512 : Nat) = 2 ^ 9 by decide, ← Nat.pow_mul, show (256 : Nat) = 2 ^ 8 by decide,
    ← Nat.pow_add, show 9 * (k - 1) + 8 = 9 * k - 1 by omega]
  exact hn

variable (h0 : PtInv s0 R roots O x) (hroot : roots sp = some root)

include h0

theorem Dying.start : Dying s0 R roots O x sp root (fun _ _ => True) 0 s0 where
  inv := by
    convert h0.uproot sp using 2
    · ext b
      unfold liveTables tablesOf
      simp
    · unfold livePages
      simp
  zeroPage := rfl
  refs_le _ := le_refl _
  tables _ _ := rfl
  own _ _ _ _ _ _ _ _ _ := rfl
  rootWords _ _ _ := rfl
  data _ _ := rfl

include hroot

theorem Dying.clearRoot (h : Dying s0 R roots O x sp root P r s) (hP : P 0 0) (hi : i < 512)
    (hr : r ≤ i) : Dying s0 R roots O x sp root P (i + 1)
      { s with mem := update s.mem (root * 512 + i) 0 } := by
  have hpos : UserPos 0 0 := ⟨by decide, by decide⟩
  have htab : IsTable s0.mem roots root := ⟨sp, 0, 0, hpos, hroot⟩
  have hzs := zeroFrame_eq h.zeroPage
  have hword : ∀ w, w / 512 ≠ root → update s.mem (root * 512 + i) 0 w = s.mem w := by
    intro w hw
    apply update_of_ne
    rintro rfl
    exact hw (word_div root hi)
  refine ⟨?_, h.zeroPage, h.refs_le, ?_, ?_, ?_, ?_⟩
  · apply h.inv.writeFrame (f := root) (.inr ⟨?_, ⟨root, 0⟩, .inr ⟨rfl, 0, 0, hpos, hP, hroot⟩,
      mem_page.2 rfl⟩) hword
    rw [hzs]
    rintro rfl
    exact h0.zero_not_table htab
  · intro w hw
    refine (hword w ?_).trans (h.tables w hw)
    rintro rfl
    obtain ⟨t, k, n, hts, hpos', ht⟩ := isTable_uproot.1 hw
    exact hts (h0.shape.apart _ _ _ _ _ _ _ hpos' hpos ht hroot).1
  · intro k n c hk hpos' hp ht w hw
    refine (hword w ?_).trans (h.own k n c hk hpos' hp ht w hw)
    rintro rfl
    rw [← hw] at ht
    obtain ⟨-, rfl, -⟩ := h0.shape.apart _ _ _ _ _ _ _ hpos' hpos ht hroot
    omega
  · intro j hj hj'
    show update s.mem (root * 512 + i) 0 (root * 512 + j) = _
    rw [update_of_ne (by omega)]
    exact h.rootWords j (by omega) hj'
  · intro w hw
    refine (hword w ?_).trans (h.data w hw)
    rintro rfl
    rcases hw with hw | hw
    · have hle := h.refs_le (w / 512)
      have hzero := h0.tableRefs _ htab
      have hw : 0 < refs s (w / 512) := hw
      omega
    · exact h0.zero_not_table (hw ▸ htab)

theorem pagingDestroyUserHalf_spec (hk : root * pageSize ≠ kernelPml4) :
    wp (pagingDestroyUserHalf kernelPml4 (root * pageSize))
      (fun _ s' => Dying s0 R roots O x sp root (fun k _ => k = 0) 512 s') never
      s0 := by
  unfold pagingDestroyUserHalf
  rw [if_neg hk]
  refine (wp_forRange (fun i s' => Dying s0 R roots O x sp root
    (Rest (fun _ _ => True) 0 0 i) i s') ?_ ?_).post ?_
  · exact (Dying.start h0).of_iff fun _ _ => rest_zero
  · intro i s hi h
    have hposi : UserPos 1 (0 * 512 + i) := by
      refine ⟨by decide, ?_⟩
      omega
    have hP : Rest (fun _ _ => True) 0 0 i 0 0 := rest_table.2 trivial
    have hchild := tableAt_child (k := 0) (n := 0 * 512 + i) (m := s0.mem) hroot
    rw [show (0 * 512 + i) % 512 = i by omega] at hchild
    have hdone : ∀ s', Dying s0 R roots O x sp root
        (fun k c => Rest (fun _ _ => True) 0 0 i k c ∧ ¬ Below 1 (0 * 512 + i) k c) (i + 1) s' →
        Dying s0 R roots O x sp root (Rest (fun _ _ => True) 0 0 (i + 1)) (i + 1) s' :=
      fun s' h' => h'.of_iff fun _ _ => rest_succ.symm
    apply wp_bind
    apply wp_of_ok (run_readEntry root i s)
    rw [h.rootWords i (le_refl i) (by omega)]
    by_cases hp : has (s0.mem (root * 512 + i)) ptePresent
    · have htc := hchild.trans (if_pos hp)
      rw [if_pos hp, pteAddr_frame, ← bind_assoc]
      refine (Destroys.entry h0 hroot (destroyPdpt_spec h0 hroot) hposi htc
        (fun k' c' hb => rest_below (fun _ _ _ => trivial) (by omega) hb) h).next ?_
      intro _ s' h'
      apply wp_write
      rw [word_eq]
      apply hdone
      apply Dying.clearRoot h0 hroot h' _ (by omega) (le_refl i)
      refine ⟨hP, fun hb => ?_⟩
      have := hb.1
      omega
    · have htc := hchild.trans (if_neg hp)
      rw [if_neg hp]
      apply wp_pure
      apply hdone
      have h' := h.congr_absent (by decide) htc
      exact ⟨h'.inv, h'.zeroPage, h'.refs_le, h'.tables, h'.own,
        fun j hj => h'.rootWords j (by omega), h'.data⟩
  · intro _ s' h'
    have hall : Dying s0 R roots O x sp root (fun k _ => k = 0) 256 s' := by
      apply h'.congr
      · intro k n c hpos _
        constructor
        · rintro rfl
          refine ⟨trivial, ?_⟩
          rintro ⟨j, -, hb⟩
          have := hb.1
          omega
        · intro hrest
          by_contra hk0
          exact hrest.2 (userPos_below (by omega) hpos.2)
      · intro v g hg _
        constructor
        · intro hc
          omega
        intro hrest
        exfalso
        apply hrest.2
        apply userPos_below (by decide)
        have hv : v < userPages := by
          by_contra hc
          simp only [frameMap, pte, if_neg hc, Option.map_none] at hg
          cases hg
        exact hv
    exact ⟨hall.inv, hall.zeroPage, hall.refs_le, hall.tables, hall.own,
      fun j hj hj' => by omega, hall.data⟩

theorem pagingDestroy_spec (hk : root * pageSize ≠ kernelPml4) :
    wp (do
        pagingDestroyUserHalf kernelPml4 (root * pageSize)
        freePages (root * pageSize) 0 : PhysM Unit)
      (fun _ s' => PtInv s' R (update roots sp none) O x ∧ Destroyed roots sp s0 s')
      never s0 := by
  refine (pagingDestroyUserHalf_spec h0 hroot hk).next ?_
  intro _ s1 h1
  obtain ⟨s', hs', h'⟩ := h1.freeTable h0 (⟨by decide, by decide⟩ : UserPos 0 0) rfl
    (c := root) hroot hroot (.inr (le_refl 512))
  apply wp_of_ok (run_orPanic (f := (pmmFreePages · (root * pageSize) 0)) hs')
  have hempty : liveTables s0.mem roots sp (fun k c => k = 0 ∧ ¬ (k = 0 ∧ c = 0)) = ∅ := by
    apply Set.eq_empty_iff_forall_notMem.2
    rintro b ⟨-, k, n, hpos, ⟨rfl, hne⟩, -⟩
    exact hne ⟨rfl, userPos_admissible.root hpos⟩
  have hnone : ∀ v, livePages s0.mem roots sp (fun k c => k = 0 ∧ ¬ (k = 0 ∧ c = 0)) v = none := by
    intro v
    unfold livePages
    rw [if_neg (by omega)]
  have hzero : ∀ g, count (livePages s0.mem roots sp
      (fun k c => k = 0 ∧ ¬ (k = 0 ∧ c = 0))) g = 0 := by
    intro g
    unfold count
    simp only [hnone]
    simp
  refine ⟨?_, h'.zeroPage, h'.refs_le, ?_, h'.data⟩
  · have hinv := h'.inv
    rw [hempty, Set.union_empty] at hinv
    simp only [hzero, Nat.add_zero] at hinv
    exact hinv
  · intro t v
    rw [pte_congr h'.tables, pte_uproot]

end top

end Jnu.Paging
