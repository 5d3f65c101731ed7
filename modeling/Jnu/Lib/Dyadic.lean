import Mathlib

namespace Jnu.Lib.Dyadic

-- The `2 ^ order` consecutive numbers from `start` on.
structure Block where
  start : Nat
  order : Nat
  deriving DecidableEq, Repr

namespace Block

variable {b c : Block} {n k p m : Nat}

instance : Membership Nat Block where
  mem b n := b.start ≤ n ∧ n < b.start + 2 ^ b.order

instance (b : Block) (n : Nat) : Decidable (n ∈ b) :=
  inferInstanceAs (Decidable (b.start ≤ n ∧ n < b.start + 2 ^ b.order))

def Aligned (b : Block) : Prop := 2 ^ b.order ∣ b.start

instance (b : Block) : Decidable b.Aligned := inferInstanceAs (Decidable (2 ^ b.order ∣ b.start))

-- The other half of the block of the next order that `b` is half of.
def buddy (b : Block) : Block := ⟨b.start ^^^ 2 ^ b.order, b.order⟩

def parent (b : Block) : Block :=
  ⟨b.start / 2 ^ (b.order + 1) * 2 ^ (b.order + 1), b.order + 1⟩

theorem mem_def : n ∈ b ↔ b.start ≤ n ∧ n < b.start + 2 ^ b.order :=
  Iff.rfl

theorem start_mem (b : Block) : b.start ∈ b :=
  ⟨le_rfl, Nat.lt_add_of_pos_right (Nat.two_pow_pos _)⟩

@[simp] theorem buddy_order (b : Block) : b.buddy.order = b.order := rfl

@[simp] theorem parent_order (b : Block) : b.parent.order = b.order + 1 := rfl

@[simp] theorem aligned_parent (b : Block) : b.parent.Aligned := Dvd.intro_left _ rfl

theorem mem_iff_div (hb : b.Aligned) : n ∈ b ↔ n / 2 ^ b.order = b.start / 2 ^ b.order := by
  obtain ⟨k, hk⟩ := hb
  rw [mem_def, hk, Nat.mul_div_cancel_left _ (Nat.two_pow_pos _), Nat.div_eq_iff (Nat.two_pow_pos _)]
  have hpos := Nat.two_pow_pos b.order
  have hcomm : 2 ^ b.order * k = k * 2 ^ b.order := Nat.mul_comm _ _
  omega

-- Two aligned blocks that meet are nested.
theorem mem_of_mem_of_le (hb : b.Aligned) (hc : c.Aligned) (ho : b.order ≤ c.order) (hnb : n ∈ b)
    (hnc : n ∈ c) (hm : m ∈ b) : m ∈ c := by
  rw [mem_iff_div hb] at hnb hm
  rw [mem_iff_div hc] at hnc ⊢
  have hsplit : 2 ^ c.order = 2 ^ b.order * 2 ^ (c.order - b.order) := by
    rw [← Nat.pow_add]
    congr 1
    omega
  rw [hsplit, ← Nat.div_div_eq_div_mul] at hnc ⊢
  rw [hm, ← hnb]
  exact hnc

theorem eq_of_mem (hb : b.Aligned) (hc : c.Aligned) (ho : b.order = c.order)
    (hnb : n ∈ b) (hnc : n ∈ c) : b = c := by
  have hcb := mem_of_mem_of_le hb hc ho.le hnb hnc b.start_mem
  have hbc := mem_of_mem_of_le hc hb ho.ge hnc hnb c.start_mem
  have hs : b.start = c.start := Nat.le_antisymm hbc.1 hcb.1
  cases b
  cases c
  simp_all

private theorem xor_one (k : Nat) : k ^^^ 1 = if k % 2 = 0 then k + 1 else k - 1 := by
  have hdiv : (k ^^^ 1) / 2 = k / 2 := by simp [Nat.xor_div_two]
  have hmod : (k ^^^ 1) % 2 = (k + 1) % 2 := by
    rw [Nat.xor_mod_two_eq]
  split <;> omega

-- The start of the buddy, by the parity of the block's index among those of its order.
theorem buddy_start (hk : b.start = 2 ^ b.order * k) :
    b.buddy.start = 2 ^ b.order * (if k % 2 = 0 then k + 1 else k - 1) := by
  rw [← xor_one]
  show b.start ^^^ 2 ^ b.order = _
  have h := Nat.shiftLeft_xor_distrib (a := k) (b := 1) (i := b.order)
  simp only [Nat.shiftLeft_eq, Nat.one_mul] at h
  rw [hk, Nat.mul_comm _ (k ^^^ 1), h, Nat.mul_comm k]

theorem aligned_buddy (hb : b.Aligned) : b.buddy.Aligned := by
  obtain ⟨k, hk⟩ := hb
  exact ⟨_, buddy_start hk⟩

theorem parent_start (hk : b.start = 2 ^ b.order * k) : b.parent.start = 2 ^ b.order * (k / 2 * 2) := by
  show b.start / 2 ^ (b.order + 1) * 2 ^ (b.order + 1) = _
  rw [hk, Nat.pow_succ, ← Nat.div_div_eq_div_mul, Nat.mul_div_cancel_left _ (Nat.two_pow_pos _)]
  ring

theorem min_start_buddy (hb : b.Aligned) :
    (if b.buddy.start < b.start then b.buddy.start else b.start) = b.parent.start := by
  obtain ⟨k, hk⟩ := hb
  rw [parent_start hk, buddy_start hk, hk]
  have hpos := Nat.two_pow_pos b.order
  rcases Nat.mod_two_eq_zero_or_one k with h | h
  · have hhalf : k / 2 * 2 = k := by omega
    have hlt : ¬ 2 ^ b.order * (k + 1) < 2 ^ b.order * k := by
      rw [Nat.mul_lt_mul_left hpos]
      omega
    simp [h, hhalf, hlt]
  · have hhalf : k / 2 * 2 = k - 1 := by omega
    have hlt : 2 ^ b.order * (k - 1) < 2 ^ b.order * k := by
      rw [Nat.mul_lt_mul_left hpos]
      omega
    simp [h, hhalf, hlt]

theorem mem_parent (hb : b.Aligned) : n ∈ b.parent ↔ n ∈ b ∨ n ∈ b.buddy := by
  obtain ⟨k, hk⟩ := hb
  simp only [mem_def, buddy_order, parent_order, parent_start hk, buddy_start hk, hk, Nat.pow_succ]
  generalize 2 ^ b.order = w
  rcases Nat.mod_two_eq_zero_or_one k with h | h
  · have hhalf : k / 2 * 2 = k := by omega
    have hnext : w * (k + 1) = w * k + w := by ring
    simp only [h, hhalf, hnext, if_true]
    omega
  · obtain ⟨j, rfl⟩ : ∃ j, k = j + 1 := ⟨k - 1, by omega⟩
    have hhalf : (j + 1) / 2 * 2 = j := by omega
    have hnext : w * (j + 1) = w * j + w := by ring
    simp only [h, hhalf, hnext, Nat.add_sub_cancel, if_neg, one_ne_zero, not_false_eq_true]
    omega

theorem not_mem_buddy (hb : b.Aligned) (h : n ∈ b) : n ∉ b.buddy := by
  intro hn
  have heq := congrArg Block.start (eq_of_mem hb (aligned_buddy hb) rfl h hn)
  obtain ⟨k, hk⟩ := hb
  rw [buddy_start hk, hk] at heq
  have := Nat.eq_of_mul_eq_mul_left (Nat.two_pow_pos _) heq
  split at this <;> omega

theorem buddy_buddy (b : Block) : b.buddy.buddy = b := by
  cases b
  simp [buddy]

theorem parent_buddy (hb : b.Aligned) : b.buddy.parent = b.parent :=
  eq_of_mem b.buddy.aligned_parent b.aligned_parent rfl
    ((mem_parent (aligned_buddy hb)).2 (.inr (by rw [buddy_buddy]; exact b.start_mem)))
    ((mem_parent hb).2 (.inl b.start_mem))

theorem mem_of_mem_parent (hb : b.Aligned) (hc : c.Aligned) (ho : b.order < c.order) (hnb : n ∈ b)
    (hnc : n ∈ c) (hm : m ∈ b.parent) : m ∈ c :=
  mem_of_mem_of_le b.aligned_parent hc ho ((mem_parent hb).2 (.inl hnb)) hnc hm

theorem buddy_ne (hb : b.Aligned) : b.buddy ≠ b :=
  fun he => not_mem_buddy hb b.start_mem (he.symm ▸ b.start_mem)

-- The lower half of an aligned block, and the upper half as its buddy.
theorem aligned_lower (h : (⟨p, k + 1⟩ : Block).Aligned) : (⟨p, k⟩ : Block).Aligned :=
  (Nat.pow_dvd_pow 2 (Nat.le_succ k)).trans h

theorem parent_lower (h : (⟨p, k + 1⟩ : Block).Aligned) : (⟨p, k⟩ : Block).parent = ⟨p, k + 1⟩ :=
  eq_of_mem (aligned_parent _) h rfl
    ((mem_parent (aligned_lower h)).2 (.inl (start_mem ⟨p, k⟩))) (start_mem ⟨p, k + 1⟩)

theorem buddy_lower (h : (⟨p, k + 1⟩ : Block).Aligned) :
    (⟨p, k⟩ : Block).buddy = ⟨p + 2 ^ k, k⟩ := by
  obtain ⟨j, hj⟩ := h
  have hj : p = 2 ^ (k + 1) * j := hj
  have hk : (⟨p, k⟩ : Block).start = 2 ^ k * (2 * j) := by
    rw [← Nat.mul_assoc, ← Nat.pow_succ]
    exact hj
  have hs := buddy_start hk
  rw [if_pos (by omega)] at hs
  have : (⟨p, k⟩ : Block).buddy.start = p + 2 ^ k := by
    rw [hs, show p = 2 ^ k * (2 * j) from hk]
    show 2 ^ k * (2 * j + 1) = _
    ring
  exact congrArg (Block.mk · k) this

end Block

def Covers (F : Set Block) (n : Nat) : Prop := ∃ b ∈ F, n ∈ b

theorem covers_insert {F : Set Block} {b : Block} {n : Nat} : Covers (insert b F) n ↔ n ∈ b ∨ Covers F n :=
  Set.exists_mem_insert

theorem disjoint_insert {F : Set Block} {b : Block} (hF : ∀ c ∈ F, ∀ d ∈ F, ∀ n, n ∈ c → n ∈ d → c = d)
    (hb : ∀ n ∈ b, ¬ Covers F n) : ∀ c ∈ insert b F, ∀ d ∈ insert b F, ∀ n, n ∈ c → n ∈ d → c = d := by
  rintro c (rfl | hc) d (rfl | hd) n hnc hnd
  · rfl
  · exact absurd ⟨d, hd, hnd⟩ (hb n hnc)
  · exact absurd ⟨c, hc, hnc⟩ (hb n hnd)
  · exact hF c hc d hd n hnc hnd

-- Disjoint aligned blocks of order at most `top`, with every pair of buddies merged.
structure Canonical (top : Nat) (F : Set Block) : Prop where
  aligned : ∀ b ∈ F, b.Aligned
  order_le : ∀ b ∈ F, b.order ≤ top
  disjoint : ∀ b ∈ F, ∀ c ∈ F, ∀ n, n ∈ b → n ∈ c → b = c
  noBuddies : ∀ b ∈ F, b.order < top → b.buddy ∉ F

namespace Canonical

variable {top : Nat} {F G : Set Block}

-- A larger block that meets a member of `F` is never wholly covered: a member at the start of the buddy is
-- smaller, and the induction on the order goes on with it.
theorem exists_not_covers (h : Canonical top F) {p : Block} (hp : p.Aligned) :
    ∀ k, ∀ c ∈ F, c.order = k → c.order < top → c.order < p.order → c.start ∈ p →
      ∃ n ∈ p, ¬ Covers F n := by
  intro k
  induction k using Nat.strongRecOn with
  | ind k ih =>
    intro c hc hk htop hop hcp
    have hca := h.aligned c hc
    have hpar : ∀ n ∈ c.parent, n ∈ p := fun n hn =>
      Block.mem_of_mem_parent hca hp hop c.start_mem hcp hn
    have hbud : c.buddy.start ∈ c.parent := (Block.mem_parent hca).2 (.inr c.buddy.start_mem)
    by_cases hcov : Covers F c.buddy.start
    · obtain ⟨e, he, hmem⟩ := hcov
      have hea := h.aligned e he
      rcases Nat.lt_trichotomy e.order c.order with ho | ho | ho
      · have hep : e.start ∈ c.buddy :=
          Block.mem_of_mem_of_le hea (Block.aligned_buddy hca) ho.le hmem c.buddy.start_mem
            e.start_mem
        exact ih e.order (by omega) e he rfl (by omega) (by omega)
          (hpar _ ((Block.mem_parent hca).2 (.inr hep)))
      · have heq := Block.eq_of_mem hea (Block.aligned_buddy hca) ho hmem c.buddy.start_mem
        exact absurd (heq ▸ he) (h.noBuddies c hc htop)
      · have hce : c.start ∈ e :=
          Block.mem_of_mem_parent (Block.aligned_buddy hca) hea ho c.buddy.start_mem hmem
            (by rw [Block.parent_buddy hca]; exact (Block.mem_parent hca).2 (.inl c.start_mem))
        have heq := h.disjoint c hc e he _ c.start_mem hce
        subst heq
        omega
    · exact ⟨_, hpar _ hbud, hcov⟩

-- The members of `F` are determined by the numbers they cover.
theorem eq_of_covers_iff (hF : Canonical top F) (hG : Canonical top G)
    (h : ∀ n, Covers F n ↔ Covers G n) : F = G := by
  have key : ∀ {F G : Set Block}, Canonical top F → Canonical top G →
      (∀ n, Covers F n ↔ Covers G n) → F ⊆ G := by
    intro F G hF hG h b hb
    obtain ⟨c, hc, hmem⟩ := (h b.start).1 ⟨b, hb, b.start_mem⟩
    have hba := hF.aligned b hb
    have hca := hG.aligned c hc
    rcases Nat.lt_trichotomy b.order c.order with ho | ho | ho
    · obtain ⟨n, hn, hnot⟩ := hF.exists_not_covers hca _ b hb rfl
        (by have := hG.order_le c hc; omega) ho hmem
      exact absurd ((h n).2 ⟨c, hc, hn⟩) hnot
    · rwa [Block.eq_of_mem hba hca ho b.start_mem hmem]
    · have hcb := Block.mem_of_mem_of_le hca hba ho.le hmem b.start_mem c.start_mem
      obtain ⟨n, hn, hnot⟩ := hG.exists_not_covers hba _ c hc rfl
        (by have := hF.order_le b hb; omega) ho hcb
      exact absurd ((h n).1 ⟨b, hb, hn⟩) hnot
  exact Set.Subset.antisymm (key hF hG h) (key hG hF (fun n => (h n).symm))

end Canonical

end Jnu.Lib.Dyadic
