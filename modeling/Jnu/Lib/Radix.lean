import Mathlib

namespace Jnu.Lib.Radix

open Function

variable {ν τ : Type} {k n : Nat}

-- Radix trees to the base `B` in a store: `step x i` is the child of `x` under the digit `i`. A node at
-- depth `k` is numbered by the first `k` digits of its keys.
def reach (B : Nat) (step : ν → Nat → Option ν) (root : τ → Option ν) (t : τ) :
    Nat → Nat → Option ν
  | 0, _ => root t
  | k + 1, n => (reach B step root t k (n / B)).bind (step · (n % B))

-- Trees on the admissible positions `ok` that share no node.
def Apart (B : Nat) (step : ν → Nat → Option ν) (root : τ → Option ν) (ok : Nat → Nat → Prop) :
    Prop :=
  ∀ t k n t' k' n' x, ok k n → ok k' n' → reach B step root t k n = some x →
    reach B step root t' k' n' = some x → t = t' ∧ k = k' ∧ n = n'

-- With a position, the positions above it are admissible; there is one root.
structure Admissible (B : Nat) (ok : Nat → Nat → Prop) : Prop where
  up : ∀ {k n}, ok (k + 1) n → ok k (n / B)
  root : ∀ {n}, ok 0 n → n = 0

-- A node that no tree contains is hung at the position `m` of depth `k + 1`, below `x`.
structure Graft (B : Nat) (step step' : ν → Nat → Option ν) (root : τ → Option ν)
    (ok : Nat → Nat → Prop) (t : τ) (k m : Nat) (x c : ν) : Prop where
  parent : reach B step root t k (m / B) = some x
  admissible : ok (k + 1) m
  vacant : step x (m % B) = none
  fresh : ∀ t k n, ok k n → reach B step root t k n ≠ some c
  child : step' x (m % B) = some c
  leaf : ∀ n, ok (k + 2) n → n / B = m → step' c (n % B) = none
  other : ∀ y i, i < B → (y, i) ≠ (x, m % B) → y ≠ c → step' y i = step y i

section

variable {B : Nat} {step step' : ν → Nat → Option ν} {root : τ → Option ν}
  {ok : Nat → Nat → Prop}

theorem reach_succ (t : τ) (k n : Nat) :
    reach B step root t (k + 1) n = (reach B step root t k (n / B)).bind (step · (n % B)) := rfl

-- Only the admissible digits of nodes that are reached matter.
theorem reach_congr (hok : Admissible B ok)
    (h : ∀ t k n x, ok (k + 1) n → reach B step root t k (n / B) = some x →
      step' x (n % B) = step x (n % B))
    (t : τ) (hn : ok k n) : reach B step' root t k n = reach B step root t k n := by
  induction k generalizing n with
  | zero => rfl
  | succ k ih =>
    rw [reach_succ, reach_succ, ih (hok.up hn)]
    cases hx : reach B step root t k (n / B) with
    | none => rfl
    | some x => exact h t k n x hn hx

variable [DecidableEq τ] {t0 : τ} {k0 m0 : Nat} {x0 c : ν}

section

variable (hB : 0 < B) (hok : Admissible B ok) (ha : Apart B step root ok)
  (g : Graft B step step' root ok t0 k0 m0 x0 c)
include hB hok ha g

theorem Graft.reach (t : τ) (hn : ok k n) :
    reach B step' root t k n =
      if t = t0 ∧ k = k0 + 1 ∧ n = m0 then some c else Radix.reach B step root t k n := by
  induction k generalizing n with
  | zero => rw [if_neg (by omega), Radix.reach, Radix.reach]
  | succ k ih =>
    have hup := hok.up hn
    rw [reach_succ, reach_succ, ih hup]
    by_cases hnew : t = t0 ∧ k = k0 + 1 ∧ n / B = m0
    · -- below the new node there is nothing, before and after
      obtain ⟨rfl, rfl, rfl⟩ := hnew
      have hold : Radix.reach B step root t (k0 + 1) (n / B) = none := by
        rw [reach_succ, g.parent]
        exact g.vacant
      rw [if_pos ⟨rfl, rfl, rfl⟩, if_neg (by omega), hold]
      exact g.leaf n hn rfl
    rw [if_neg hnew]
    cases hx : Radix.reach B step root t k (n / B) with
    | none =>
      rw [if_neg]
      · rfl
      rintro ⟨rfl, hk, rfl⟩
      obtain rfl : k = k0 := by omega
      rw [g.parent] at hx
      cases hx
    | some x =>
      by_cases hi : (x, n % B) = (x0, m0 % B)
      · obtain ⟨rfl, hmod⟩ := Prod.mk.inj hi
        obtain ⟨rfl, rfl, hdiv⟩ := ha _ _ _ _ _ _ _ hup (hok.up g.admissible) hx g.parent
        obtain rfl : n = m0 := by rw [← Nat.div_add_mod n B, hdiv, hmod, Nat.div_add_mod]
        rw [if_pos ⟨rfl, rfl, rfl⟩]
        exact g.child
      · have hc : x ≠ c := by
          rintro rfl
          exact g.fresh t k _ hup hx
        rw [if_neg]
        · exact g.other x _ (Nat.mod_lt n hB) hi hc
        rintro ⟨rfl, hk, rfl⟩
        obtain rfl : k = k0 := by omega
        rw [g.parent] at hx
        exact hi (by rw [Option.some.inj hx])

theorem Graft.apart : Apart B step' root ok := by
  intro t k n t' k' n' x hn hn' hx hx'
  rw [g.reach hB hok ha t hn] at hx
  rw [g.reach hB hok ha t' hn'] at hx'
  by_cases h : t = t0 ∧ k = k0 + 1 ∧ n = m0
  · rw [if_pos h] at hx
    by_cases h' : t' = t0 ∧ k' = k0 + 1 ∧ n' = m0
    · exact ⟨h.1.trans h'.1.symm, h.2.1.trans h'.2.1.symm, h.2.2.trans h'.2.2.symm⟩
    · rw [if_neg h', ← hx] at hx'
      exact absurd hx' (g.fresh t' k' n' hn')
  · rw [if_neg h] at hx
    by_cases h' : t' = t0 ∧ k' = k0 + 1 ∧ n' = m0
    · rw [if_pos h', ← hx] at hx'
      exact absurd hx'.symm (g.fresh t k n hn)
    · rw [if_neg h'] at hx'
      exact ha t k n t' k' n' x hn hn' hx hx'

end

end

section

variable {B : Nat} {step : ν → Nat → Option ν} {root : τ → Option ν} {ok : Nat → Nat → Prop}
  [DecidableEq τ]

theorem reach_uproot (t0 t : τ) (k n : Nat) :
    reach B step (update root t0 none) t k n =
      if t = t0 then none else reach B step root t k n := by
  induction k generalizing n with
  | zero =>
    simp only [reach, update_apply]
  | succ k ih =>
    rw [reach_succ, reach_succ, ih]
    by_cases h : t = t0
    · rw [if_pos h, if_pos h]
      rfl
    · rw [if_neg h, if_neg h]

-- A node without children becomes a tree of its own.
theorem reach_plant {t0 : τ} {x : ν} (hok : Admissible B ok)
    (hx : ∀ i, ok 1 i → step x (i % B) = none) (t : τ) (hn : ok k n) :
    reach B step (update root t0 (some x)) t k n =
      if t = t0 then (if k = 0 then some x else none) else reach B step root t k n := by
  induction k generalizing n with
  | zero =>
    simp only [reach, update_apply]
    rfl
  | succ k ih =>
    rw [reach_succ, reach_succ, ih (hok.up hn)]
    by_cases h : t = t0
    · rw [if_pos h, if_pos h, if_neg (Nat.succ_ne_zero k)]
      cases k with
      | zero => exact hx n hn
      | succ k => rfl
    · rw [if_neg h, if_neg h]

end

end Jnu.Lib.Radix
