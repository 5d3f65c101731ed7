import Jnu.Paging.Walk

namespace Jnu.Paging

open Lib.Radix Pmm
open Function

-- An entry that leads to a lower table gives user code every right.
structure InnerEntry (e : BitVec 64) : Prop where
  huge : has e pteHuge = false
  user : has e pteUser = true
  write : has e pteWrite = true
  nx : has e pteNx = false

structure LeafEntry (e : BitVec 64) : Prop where
  user : has e pteUser = true
  huge : has e pteHuge = false

theorem page_bit {c i : Nat} (hc : c < 2 ^ 40) (hi : i < 12 ∨ 52 ≤ i) :
    (BitVec.ofNat 64 (c * pageSize)).getLsbD i = false := by
  have hshift : c * pageSize = c <<< 12 := by
    rw [Nat.shiftLeft_eq]
    rfl
  rw [BitVec.getLsbD_ofNat]
  rcases hi with hi | hi
  · rw [hshift]
    simp
    omega
  have hlt : c * pageSize < 2 ^ i := by
    calc c * pageSize < 2 ^ 52 := by
          omega
      _ ≤ 2 ^ i := Nat.pow_le_pow_right (by decide) hi
  rw [Nat.testBit_lt_two_pow hlt, Bool.and_false]

-- The entry that `table_for` writes for a new table of a user mapping.
def tableEntry (pa : Nat) : BitVec 64 := BitVec.ofNat 64 pa ||| ptePresent ||| pteWrite ||| pteUser

theorem tableEntry_spec {c : Nat} (hc : c < 2 ^ 40) :
    has (tableEntry (c * pageSize)) ptePresent = true ∧
      pteFrame (tableEntry (c * pageSize)) = c ∧ InnerEntry (tableEntry (c * pageSize)) := by
  refine ⟨?_, ?_, ?_, ?_, ?_, ?_⟩
  · unfold tableEntry
    rw [has_or, has_or, has_or]
    simp [show has ptePresent ptePresent = true by decide]
  · unfold tableEntry
    rw [pteFrame_or flagBits_user, pteFrame_or flagBits_write, pteFrame_or flagBits_present,
      pteFrame_ofNat hc]
  · unfold tableEntry
    rw [has_or, has_or, has_or, show pteHuge = BitVec.twoPow 64 7 from rfl, has_twoPow (by decide),
      page_bit hc (.inl (by decide))]
    decide
  · unfold tableEntry
    rw [has_or]
    simp [show has pteUser pteUser = true by decide]
  · unfold tableEntry
    rw [has_or, has_or]
    simp [show has pteWrite pteWrite = true by decide]
  · unfold tableEntry
    rw [has_or, has_or, has_or, show pteNx = BitVec.twoPow 64 63 from rfl, has_twoPow (by decide),
      page_bit hc (.inr (by decide))]
    decide

-- The lower halves of the page tables are trees that share no table.
structure Shape (mem : Mem) (roots : Nat → Option Nat) : Prop where
  apart : Apart 512 (child mem) roots UserPos
  inner : ∀ sp k n f, UserPos (k + 1) n → tableAt mem roots sp k (n / 512) = some f →
    has (mem (f * 512 + n % 512)) ptePresent = true → InnerEntry (mem (f * 512 + n % 512))
  leaf : ∀ sp vpn e, pte mem roots sp vpn = some e → LeafEntry e

variable {mem mem' : Mem} {roots : Nat → Option Nat} {sp k n f vpn i g j t x k' n' : Nat} {e : BitVec 64}

theorem word_div (f : Nat) (hi : i < 512) : (f * 512 + i) / 512 = f := by omega

theorem word_div_mod (f n : Nat) : (f * 512 + n % 512) / 512 = f := by omega

theorem word_inj {f : Nat} (hi : i < 512) (hj : j < 512) (h : f * 512 + i = g * 512 + j) :
    f = g ∧ i = j := by omega

section congr

-- Only the words of tables matter.
variable (h : ∀ w, IsTable mem roots (w / 512) → mem' w = mem w)

include h

theorem tableAt_congr (sp : Nat) (hn : UserPos k n) :
    tableAt mem' roots sp k n = tableAt mem roots sp k n := by
  apply reach_congr userPos_admissible _ sp hn
  intro t k n x hpos hx
  have hw : mem' (x * 512 + n % 512) = mem (x * 512 + n % 512) := by
    apply h
    rw [word_div_mod]
    exact ⟨t, k, n / 512, userPos_admissible.up hpos, hx⟩
  unfold child
  rw [hw]

theorem pte_congr (sp vpn : Nat) : pte mem' roots sp vpn = pte mem roots sp vpn := by
  unfold pte
  by_cases hv : vpn < userPages
  · rw [if_pos hv, if_pos hv, tableAt_congr h sp (userPos_leaf hv)]
    cases ht : tableAt mem roots sp 3 (vpn / 512) with
    | none => rfl
    | some f =>
      have hw : mem' (f * 512 + vpn % 512) = mem (f * 512 + vpn % 512) := by
        apply h
        rw [word_div_mod]
        exact ⟨sp, 3, vpn / 512, userPos_leaf hv, ht⟩
      simp only [hw]
  · rw [if_neg hv, if_neg hv]

theorem isTable_congr (f : Nat) : IsTable mem' roots f ↔ IsTable mem roots f := by
  unfold IsTable
  constructor
  · rintro ⟨sp, k, n, hpos, ht⟩
    exact ⟨sp, k, n, hpos, (tableAt_congr h sp hpos).symm.trans ht⟩
  · rintro ⟨sp, k, n, hpos, ht⟩
    exact ⟨sp, k, n, hpos, (tableAt_congr h sp hpos).trans ht⟩

theorem Shape.congr (hs : Shape mem roots) : Shape mem' roots where
  apart := by
    intro t k n t' k' n' x hn hn' hx hx'
    have hx : tableAt mem' roots t k n = some x := hx
    have hx' : tableAt mem' roots t' k' n' = some x := hx'
    rw [tableAt_congr h t hn] at hx
    rw [tableAt_congr h t' hn'] at hx'
    exact hs.apart t k n t' k' n' x hn hn' hx hx'
  inner := by
    intro sp k n f hpos ht hp
    rw [tableAt_congr h sp (userPos_admissible.up hpos)] at ht
    have hw : mem' (f * 512 + n % 512) = mem (f * 512 + n % 512) := by
      apply h
      rw [word_div_mod]
      exact ⟨sp, k, n / 512, userPos_admissible.up hpos, ht⟩
    rw [hw] at hp ⊢
    exact hs.inner sp k n f hpos ht hp
  leaf := by
    intro sp vpn e he
    rw [pte_congr h] at he
    exact hs.leaf sp vpn e he

end congr

section leaf

-- Writing the entry of the page `vpn` of the space `sp`.
variable (hs : Shape mem roots) (hv : vpn < userPages)
  (ht : tableAt mem roots sp 3 (vpn / 512) = some f)

include hs hv ht

private theorem child_setLeaf {k n : Nat} (hpos : UserPos (k + 1) n)
    (hx : tableAt mem roots t k (n / 512) = some x) :
    update mem (f * 512 + vpn % 512) e (x * 512 + n % 512) = mem (x * 512 + n % 512) := by
  apply update_of_ne
  intro hc
  obtain ⟨rfl, -⟩ := word_inj (Nat.mod_lt n (by decide)) (Nat.mod_lt vpn (by decide)) hc
  obtain ⟨-, rfl, -⟩ := hs.apart _ _ _ _ _ _ _ (userPos_admissible.up hpos) (userPos_leaf hv) hx ht
  have := hpos.1
  omega

theorem tableAt_setLeaf (t : Nat) (hn : UserPos k n) :
    tableAt (update mem (f * 512 + vpn % 512) e) roots t k n =
      tableAt mem roots t k n := by
  apply reach_congr userPos_admissible _ t hn
  intro t k n x hpos hx
  unfold child
  rw [child_setLeaf hs hv ht hpos hx]

theorem isTable_setLeaf (g : Nat) :
    IsTable (update mem (f * 512 + vpn % 512) e) roots g ↔ IsTable mem roots g := by
  unfold IsTable
  constructor
  · rintro ⟨t, k, n, hpos, hx⟩
    exact ⟨t, k, n, hpos, (tableAt_setLeaf hs hv ht t hpos).symm.trans hx⟩
  · rintro ⟨t, k, n, hpos, hx⟩
    exact ⟨t, k, n, hpos, (tableAt_setLeaf hs hv ht t hpos).trans hx⟩

theorem pte_setLeaf (t v : Nat) :
    pte (update mem (f * 512 + vpn % 512) e) roots t v =
      if t = sp ∧ v = vpn then (if has e ptePresent then some e else none)
      else pte mem roots t v := by
  by_cases hvv : v < userPages
  · by_cases hkey : t = sp ∧ v = vpn
    · obtain ⟨rfl, rfl⟩ := hkey
      rw [if_pos ⟨rfl, rfl⟩,
        pte_of_table hv ((tableAt_setLeaf hs hv ht t (userPos_leaf hv)).trans ht),
        update_self]
    rw [if_neg hkey]
    cases hx : tableAt mem roots t 3 (v / 512) with
    | none =>
      rw [pte_none_of_table hx,
        pte_none_of_table ((tableAt_setLeaf hs hv ht t (userPos_leaf hvv)).trans hx)]
    | some x =>
      have hne : x * 512 + v % 512 ≠ f * 512 + vpn % 512 := by
        intro hc
        obtain ⟨rfl, hmod⟩ := word_inj (Nat.mod_lt v (by decide)) (Nat.mod_lt vpn (by decide)) hc
        obtain ⟨rfl, -, hdiv⟩ :=
          hs.apart _ _ _ _ _ _ _ (userPos_leaf hvv) (userPos_leaf hv) hx ht
        exact hkey ⟨rfl, by omega⟩
      rw [pte_of_table hvv hx,
        pte_of_table hvv ((tableAt_setLeaf hs hv ht t (userPos_leaf hvv)).trans hx),
        update_of_ne hne]
  · have hout : ∀ m : Mem, pte m roots t v = none := by
      intro m
      unfold pte
      rw [if_neg hvv]
    rw [hout, hout, if_neg]
    rintro ⟨-, rfl⟩
    exact hvv hv

theorem Shape.setLeaf (he : has e ptePresent = true → LeafEntry e) :
    Shape (update mem (f * 512 + vpn % 512) e) roots where
  apart := by
    intro t k n t' k' n' x hn hn' hx hx'
    have hx : tableAt _ roots t k n = some x := hx
    have hx' : tableAt _ roots t' k' n' = some x := hx'
    rw [tableAt_setLeaf hs hv ht t hn] at hx
    rw [tableAt_setLeaf hs hv ht t' hn'] at hx'
    exact hs.apart t k n t' k' n' x hn hn' hx hx'
  inner := by
    intro t k n x hpos hx hp
    rw [tableAt_setLeaf hs hv ht t (userPos_admissible.up hpos)] at hx
    rw [child_setLeaf hs hv ht hpos hx] at hp ⊢
    exact hs.inner t k n x hpos hx hp
  leaf := by
    intro t v e' hp
    rw [pte_setLeaf hs hv ht] at hp
    by_cases hkey : t = sp ∧ v = vpn
    · rw [if_pos hkey] at hp
      by_cases hpe : has e ptePresent
      · rw [if_pos hpe, Option.some.injEq] at hp
        rw [← hp]
        exact he hpe
      · rw [if_neg hpe] at hp
        cases hp
    · rw [if_neg hkey] at hp
      exact hs.leaf t v e' hp

end leaf

section grow

-- A zeroed frame `c` becomes the table at the position `n` of depth `k + 1`.
structure NewTable (mem : Mem) (roots : Nat → Option Nat) (sp k n f c : Nat) (e : BitVec 64) :
    Prop where
  pos : UserPos (k + 1) n
  parent : tableAt mem roots sp k (n / 512) = some f
  vacant : has (mem (f * 512 + n % 512)) ptePresent = false
  fresh : ¬ IsTable mem roots c
  zero : PageZero mem c
  present : has e ptePresent = true
  frame : pteFrame e = c
  entry : InnerEntry e

variable {c : Nat} (hs : Shape mem roots) (hg : NewTable mem roots sp k n f c e)

include hg

private theorem newTable_graft : Graft 512 (child mem)
    (child (update mem (f * 512 + n % 512) e)) roots UserPos sp k n f c where
  parent := hg.parent
  admissible := hg.pos
  vacant := by
    unfold child
    rw [hg.vacant]
    rfl
  fresh := fun t k' n' hpos hx => hg.fresh ⟨t, k', n', hpos, hx⟩
  child := by
    unfold child
    rw [update_self, if_pos hg.present, hg.frame]
  leaf := by
    intro m _ _
    have hne : c * 512 + m % 512 ≠ f * 512 + n % 512 := by
      intro hc
      obtain ⟨rfl, -⟩ := word_inj (Nat.mod_lt m (by decide)) (Nat.mod_lt n (by decide)) hc
      exact hg.fresh ⟨sp, k, n / 512, userPos_admissible.up hg.pos, hg.parent⟩
    unfold child
    rw [update_of_ne hne, hg.zero _ (word_div_mod c m)]
    rfl
  other := by
    intro y i hi hne _
    unfold child
    rw [update_of_ne]
    intro hc
    obtain ⟨rfl, rfl⟩ := word_inj hi (Nat.mod_lt n (by decide)) hc
    exact hne rfl

include hs

theorem tableAt_newTable (t : Nat) (hn : UserPos k' n') :
    tableAt (update mem (f * 512 + n % 512) e) roots t k' n' =
      if t = sp ∧ k' = k + 1 ∧ n' = n then some c else tableAt mem roots t k' n' :=
  (newTable_graft hg).reach (by decide) userPos_admissible hs.apart t hn

theorem isTable_newTable (g : Nat) :
    IsTable (update mem (f * 512 + n % 512) e) roots g ↔
      g = c ∨ IsTable mem roots g := by
  constructor
  · rintro ⟨t, k', n', hpos, hx⟩
    rw [tableAt_newTable hs hg t hpos] at hx
    by_cases hkey : t = sp ∧ k' = k + 1 ∧ n' = n
    · rw [if_pos hkey, Option.some.injEq] at hx
      exact .inl hx.symm
    · rw [if_neg hkey] at hx
      exact .inr ⟨t, k', n', hpos, hx⟩
  · rintro (rfl | ⟨t, k', n', hpos, hx⟩)
    · exact ⟨sp, k + 1, n, hg.pos, by rw [tableAt_newTable hs hg sp hg.pos, if_pos ⟨rfl, rfl, rfl⟩]⟩
    refine ⟨t, k', n', hpos, ?_⟩
    rw [tableAt_newTable hs hg t hpos, if_neg, hx]
    rintro ⟨rfl, rfl, rfl⟩
    have hnone : tableAt mem roots t (k + 1) n' = none := by
      rw [tableAt_succ, hg.parent]
      exact (newTable_graft hg).vacant
    rw [hnone] at hx
    cases hx

theorem pte_newTable (t v : Nat) :
    pte (update mem (f * 512 + n % 512) e) roots t v = pte mem roots t v := by
  by_cases hv : v < userPages
  · have htab := tableAt_newTable hs hg t (userPos_leaf hv)
    by_cases hkey : t = sp ∧ 3 = k + 1 ∧ v / 512 = n
    · rw [if_pos hkey] at htab
      have hne : c * 512 + v % 512 ≠ f * 512 + n % 512 := by
        intro hc
        obtain ⟨rfl, -⟩ := word_inj (Nat.mod_lt v (by decide)) (Nat.mod_lt n (by decide)) hc
        exact hg.fresh ⟨sp, k, n / 512, userPos_admissible.up hg.pos, hg.parent⟩
      have hold : tableAt mem roots t 3 (v / 512) = none := by
        obtain ⟨rfl, hk, rfl⟩ := hkey
        rw [hk, tableAt_succ, hg.parent]
        exact (newTable_graft hg).vacant
      rw [pte_of_table hv htab, update_of_ne hne, hg.zero _ (word_div_mod c v),
        pte_none_of_table hold]
      rfl
    · rw [if_neg hkey] at htab
      cases hx : tableAt mem roots t 3 (v / 512) with
      | none => rw [pte_none_of_table hx, pte_none_of_table (htab.trans hx)]
      | some x =>
        have hne : x * 512 + v % 512 ≠ f * 512 + n % 512 := by
          intro hc
          obtain ⟨rfl, -⟩ := word_inj (Nat.mod_lt v (by decide)) (Nat.mod_lt n (by decide)) hc
          obtain ⟨-, hk, -⟩ := hs.apart _ _ _ _ _ _ _ (userPos_leaf hv)
            (userPos_admissible.up hg.pos) hx hg.parent
          have := hg.pos.1
          omega
        rw [pte_of_table hv hx, pte_of_table hv (htab.trans hx), update_of_ne hne]
  · unfold pte
    rw [if_neg hv, if_neg hv]

theorem Shape.newTable : Shape (update mem (f * 512 + n % 512) e) roots where
  apart := (newTable_graft hg).apart (by decide) userPos_admissible hs.apart
  inner := by
    intro t k' n' x hpos hx hp
    rw [tableAt_newTable hs hg t (userPos_admissible.up hpos)] at hx
    by_cases hw : x * 512 + n' % 512 = f * 512 + n % 512
    · rw [hw, update_self]
      exact hg.entry
    rw [update_of_ne hw] at hp ⊢
    by_cases hkey : t = sp ∧ k' = k + 1 ∧ n' / 512 = n
    · rw [if_pos hkey, Option.some.injEq] at hx
      subst hx
      rw [hg.zero _ (word_div_mod c n')] at hp
      exact absurd hp (by decide)
    · rw [if_neg hkey] at hx
      exact hs.inner t k' n' x hpos hx hp
  leaf := by
    intro t v e' hp
    rw [pte_newTable hs hg] at hp
    exact hs.leaf t v e' hp

end grow

section roots

theorem tableAt_noRoot (h : roots sp = none) : tableAt mem roots sp k n = none := by
  induction k generalizing n with
  | zero => exact h
  | succ k ih =>
    rw [tableAt_succ, ih]
    rfl

theorem tableAt_uproot (sp t k n : Nat) :
    tableAt mem (update roots sp none) t k n =
      if t = sp then none else tableAt mem roots t k n :=
  reach_uproot sp t k n

theorem pte_uproot (sp t v : Nat) :
    pte mem (update roots sp none) t v = if t = sp then none else pte mem roots t v := by
  unfold pte
  rw [tableAt_uproot]
  by_cases h : t = sp
  · rw [if_pos h, if_pos h]
    simp
  · rw [if_neg h, if_neg h]

theorem Shape.uproot (hs : Shape mem roots) (sp : Nat) : Shape mem (update roots sp none) := by
  have htab : ∀ {t k n x}, tableAt mem (update roots sp none) t k n = some x →
      tableAt mem roots t k n = some x := by
    intro t k n x hx
    rw [tableAt_uproot] at hx
    by_cases h : t = sp
    · rw [if_pos h] at hx
      cases hx
    · rwa [if_neg h] at hx
  refine ⟨fun t k n t' k' n' x hn hn' hx hx' => hs.apart t k n t' k' n' x hn hn' (htab hx) (htab hx'),
    fun t k n x hpos hx => hs.inner t k n x hpos (htab hx), fun t v e hp => ?_⟩
  rw [pte_uproot] at hp
  by_cases h : t = sp
  · rw [if_pos h] at hp
    cases hp
  · rw [if_neg h] at hp
    exact hs.leaf t v e hp

-- A frame with an empty lower half that is no table yet.
structure NewRoot (mem : Mem) (roots : Nat → Option Nat) (sp f : Nat) : Prop where
  vacant : roots sp = none
  fresh : ¬ IsTable mem roots f
  empty : ∀ i, i < 256 → has (mem (f * 512 + i)) ptePresent = false

variable (hs : Shape mem roots) (hr : NewRoot mem roots sp f)

include hr

theorem tableAt_plant (t : Nat) (hn : UserPos k n) :
    tableAt mem (update roots sp (some f)) t k n =
      if t = sp then (if k = 0 then some f else none) else tableAt mem roots t k n := by
  apply reach_plant userPos_admissible _ t hn
  intro i hi
  have hlt : i < 2 ^ (9 * 1 - 1) := hi.2
  unfold child
  rw [Nat.mod_eq_of_lt (by omega), hr.empty i hlt]
  rfl

theorem pte_plant (t v : Nat) : pte mem (update roots sp (some f)) t v = pte mem roots t v := by
  by_cases hv : v < userPages
  · have htab := tableAt_plant hr t (userPos_leaf hv)
    by_cases h : t = sp
    · have hold : tableAt mem roots t 3 (v / 512) = none := tableAt_noRoot (h ▸ hr.vacant)
      rw [if_pos h] at htab
      rw [pte_none_of_table htab, pte_none_of_table hold]
    · rw [if_neg h] at htab
      unfold pte
      rw [htab]
  · unfold pte
    rw [if_neg hv, if_neg hv]

theorem tableAt_plant_cases (hn : UserPos k n)
    (hx : tableAt mem (update roots sp (some f)) t k n = some x) :
    (t = sp ∧ k = 0 ∧ x = f) ∨ tableAt mem roots t k n = some x := by
  rw [tableAt_plant hr t hn] at hx
  by_cases h : t = sp
  · rw [if_pos h] at hx
    by_cases hk : k = 0
    · rw [if_pos hk, Option.some.injEq] at hx
      exact .inl ⟨h, hk, hx.symm⟩
    · rw [if_neg hk] at hx
      cases hx
  · rw [if_neg h] at hx
    exact .inr hx

theorem isTable_plant (g : Nat) :
    IsTable mem (update roots sp (some f)) g ↔ g = f ∨ IsTable mem roots g := by
  constructor
  · rintro ⟨t, k, n, hpos, hx⟩
    exact (tableAt_plant_cases hr hpos hx).imp (fun h => h.2.2) fun hx => ⟨t, k, n, hpos, hx⟩
  · rintro (rfl | ⟨t, k, n, hpos, hx⟩)
    · refine ⟨sp, 0, 0, ⟨by decide, by decide⟩, ?_⟩
      rw [tableAt_zero, update_self]
    refine ⟨t, k, n, hpos, ?_⟩
    rw [tableAt_plant hr t hpos, if_neg, hx]
    rintro rfl
    rw [tableAt_noRoot hr.vacant] at hx
    cases hx

include hs

theorem Shape.plant : Shape mem (update roots sp (some f)) where
  apart := by
    intro t k n t' k' n' x hn hn' hx hx'
    rcases tableAt_plant_cases hr hn hx with ⟨ht, rfl, rfl⟩ | hy
    · rcases tableAt_plant_cases hr hn' hx' with ⟨ht', rfl, -⟩ | hx'
      · exact ⟨ht.trans ht'.symm, rfl, (userPos_admissible.root hn).trans (userPos_admissible.root hn').symm⟩
      · exact absurd ⟨t', k', n', hn', hx'⟩ hr.fresh
    · rcases tableAt_plant_cases hr hn' hx' with ⟨-, -, rfl⟩ | hx'
      · exact absurd ⟨t, k, n, hn, hy⟩ hr.fresh
      · exact hs.apart t k n t' k' n' x hn hn' hy hx'
  inner := by
    intro t k n x hpos hx hp
    rcases tableAt_plant_cases hr (userPos_admissible.up hpos) hx with ⟨-, rfl, rfl⟩ | hx
    · have hlt : n < 2 ^ (9 * 1 - 1) := hpos.2
      rw [Nat.mod_eq_of_lt (by omega), hr.empty n hlt] at hp
      cases hp
    · exact hs.inner t k n x hpos hx hp
  leaf := by
    intro t v e hp
    rw [pte_plant hr] at hp
    exact hs.leaf t v e hp

end roots

end Jnu.Paging
