import Jnu.Lib.Radix
import Jnu.Lib.Refs
import Jnu.Paging.Defs

namespace Jnu.Paging

open Lib.Radix Pmm

section entries

variable {e e' x flags flag : BitVec 64} {i f : Nat}

theorem has_twoPow (hi : i < 64) : has e (BitVec.twoPow 64 i) = e.getLsbD i := by
  unfold has
  rw [BitVec.and_twoPow]
  cases h : e.getLsbD i with
  | false => simp
  | true =>
    have hne : (BitVec.twoPow 64 i).getLsbD i = true := by simp [hi]
    have : BitVec.twoPow 64 i ≠ 0#64 := by
      intro hc
      rw [hc] at hne
      simp at hne
    simpa using this

def pteFrame (e : BitVec 64) : Nat := pteAddr e / pageSize

theorem pteAddrMask_eq : pteAddrMask.toNat = (2 ^ 40 - 1) <<< 12 := by decide

theorem and_mask (n : Nat) : n &&& (2 ^ 40 - 1) <<< 12 = n / 2 ^ 12 % 2 ^ 40 * 2 ^ 12 := by
  have hor : n = (n / 2 ^ 12) <<< 12 ||| n % 2 ^ 12 := by
    rw [← Nat.shiftLeft_add_eq_or_of_lt (Nat.mod_lt n (by decide)), Nat.shiftLeft_eq]
    omega
  have hlow : n % 2 ^ 12 &&& (2 ^ 40 - 1) <<< 12 = 0 := by
    apply Nat.eq_of_testBit_eq
    intro j
    simp only [Nat.testBit_and, Nat.testBit_mod_two_pow, Nat.testBit_shiftLeft, Nat.zero_testBit]
    by_cases hj : j < 12
    · have : ¬ 12 ≤ j := by omega
      simp [this]
    · simp [hj]
  rw [← Nat.shiftLeft_eq, ← Nat.and_two_pow_sub_one_eq_mod, Nat.shiftLeft_and_distrib]
  conv => lhs; rw [hor, Nat.and_or_distrib_right, hlow, Nat.or_zero]

theorem pteAddr_eq (e : BitVec 64) : pteAddr e = e.toNat / 2 ^ 12 % 2 ^ 40 * 2 ^ 12 := by
  unfold pteAddr
  rw [BitVec.toNat_and, pteAddrMask_eq, and_mask]

theorem pteFrame_eq (e : BitVec 64) : pteFrame e = e.toNat / 2 ^ 12 % 2 ^ 40 := by
  unfold pteFrame
  rw [pteAddr_eq]
  simp only [pageSize]
  omega

theorem pteAddr_frame (e : BitVec 64) : pteAddr e = pteFrame e * pageSize := by
  rw [pteAddr_eq, pteFrame_eq]
  rfl

theorem pteFrame_lt (e : BitVec 64) : pteFrame e < 2 ^ 40 := by
  rw [pteFrame_eq]
  exact Nat.mod_lt _ (by decide)

theorem pteFrame_ofNat (hf : f < 2 ^ 40) : pteFrame (BitVec.ofNat 64 (f * pageSize)) = f := by
  rw [pteFrame_eq, BitVec.toNat_ofNat]
  simp only [pageSize]
  omega

def FlagBits (flags : BitVec 64) : Prop := flags &&& pteAddrMask = 0#64

instance (flags : BitVec 64) : Decidable (FlagBits flags) :=
  inferInstanceAs (Decidable (_ = _))

theorem pteFrame_or (hf : FlagBits flags) : pteFrame (x ||| flags) = pteFrame x := by
  unfold pteFrame pteAddr
  unfold FlagBits at hf
  rw [BitVec.and_or_distrib_right, hf, BitVec.or_zero]

theorem pteFrame_and_mask : pteFrame (x &&& pteAddrMask) = pteFrame x := by
  unfold pteFrame pteAddr
  rw [BitVec.and_assoc, BitVec.and_self]

theorem flagBits_or (h : FlagBits e) (h' : FlagBits e') : FlagBits (e ||| e') := by
  unfold FlagBits at *
  rw [BitVec.and_or_distrib_right, h, h', BitVec.or_zero]

theorem flagBits_present : FlagBits ptePresent := by decide

theorem flagBits_write : FlagBits pteWrite := by decide

theorem flagBits_user : FlagBits pteUser := by decide

theorem flagBits_nx : FlagBits pteNx := by decide

theorem has_or (flag : BitVec 64) : has (e ||| e') flag = (has e flag || has e' flag) := by
  unfold has
  rw [BitVec.and_or_distrib_right]
  by_cases h : e &&& flag = 0#64
  · simp [h]
  by_cases h' : e' &&& flag = 0#64
  · simp [h']
  have hor : ¬ (e &&& flag ||| e' &&& flag = 0#64) := by
    intro hc
    exact h (BitVec.or_eq_zero_iff.1 hc).1
  rw [bne_iff_ne.2 hor, bne_iff_ne.2 h]
  rfl

-- A frame with the flags of an entry, as `paging_map` and `paging_protect` write it.
theorem has_masked (hf : FlagBits flag) : has (x &&& pteAddrMask) flag = false := by
  unfold has
  unfold FlagBits at hf
  rw [BitVec.and_assoc, BitVec.and_comm pteAddrMask, hf, BitVec.and_zero]
  rfl

end entries

def child (mem : Mem) (f i : Nat) : Option Nat :=
  if has (mem (f * 512 + i)) ptePresent then some (pteFrame (mem (f * 512 + i))) else none

-- Positions of the tables of the lower half: the first `k` digits of a page number.
def UserPos (k n : Nat) : Prop := k ≤ 3 ∧ n < 2 ^ (9 * k - 1)

theorem userPos_admissible : Admissible 512 UserPos where
  up := by
    intro k n h
    obtain ⟨hk, hn⟩ := h
    refine ⟨by omega, ?_⟩
    obtain rfl | rfl | rfl : k = 0 ∨ k = 1 ∨ k = 2 := by omega
    all_goals
      omega
  root := by
    intro n h
    have hn : n < 2 ^ (9 * 0 - 1) := h.2
    omega

def userPages : Nat := 2 ^ 35

section view

variable (mem : Mem) (roots : Nat → Option Nat)

-- The frame of a page table; `roots` has the frame of the PML4 of each space.
def tableAt (sp k n : Nat) : Option Nat := reach 512 (child mem) roots sp k n

-- The page-table entry of a user page, if it is present.
def pte (sp vpn : Nat) : Option (BitVec 64) :=
  if vpn < userPages then
    match tableAt mem roots sp 3 (vpn / 512) with
    | none => none
    | some f =>
      if has (mem (f * 512 + vpn % 512)) ptePresent then some (mem (f * 512 + vpn % 512)) else none
  else none

def frameMap (key : Nat × Nat) : Option Nat := (pte mem roots key.1 key.2).map pteFrame

def IsTable (f : Nat) : Prop := ∃ sp k n, UserPos k n ∧ tableAt mem roots sp k n = some f

end view

variable {mem : Mem} {roots : Nat → Option Nat} {sp k n f vpn : Nat}

theorem tableAt_zero : tableAt mem roots sp 0 n = roots sp := rfl

theorem tableAt_succ : tableAt mem roots sp (k + 1) n =
    (tableAt mem roots sp k (n / 512)).bind (child mem · (n % 512)) := rfl

theorem userPos_leaf (hv : vpn < userPages) : UserPos 3 (vpn / 512) := by
  refine ⟨le_refl 3, ?_⟩
  simp only [userPages, Nat.reducePow] at hv
  omega

theorem pte_of_table (hv : vpn < userPages) (ht : tableAt mem roots sp 3 (vpn / 512) = some f) :
    pte mem roots sp vpn = if has (mem (f * 512 + vpn % 512)) ptePresent
      then some (mem (f * 512 + vpn % 512)) else none := by
  unfold pte
  rw [if_pos hv, ht]

theorem pte_none_of_table (ht : tableAt mem roots sp 3 (vpn / 512) = none) :
    pte mem roots sp vpn = none := by
  unfold pte
  rw [ht]
  simp

end Jnu.Paging
