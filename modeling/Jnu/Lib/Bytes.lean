import Mathlib

namespace Jnu.Lib.Bytes

abbrev Byte := BitVec 8

-- A run of bytes, one for each index; what it is a part of bounds the indices in use.
abbrev Mem := Nat → Byte

variable {m m' : Mem} {off off' n n' v i : Nat} {bs : List Byte}

-- The little-endian number in `n` bytes from `off` on.
def load (m : Mem) (off : Nat) : Nat → Nat
  | 0 => 0
  | n + 1 => (m off).toNat + 256 * load m (off + 1) n

def store (m : Mem) (off n v : Nat) : Mem := fun i =>
  if off ≤ i ∧ i < off + n then BitVec.ofNat 8 (v / 256 ^ (i - off)) else m i

def blit (m : Mem) (off : Nat) (bs : List Byte) : Mem := fun i =>
  if off ≤ i ∧ i < off + bs.length then bs.getD (i - off) 0 else m i

def slice (m : Mem) (off n : Nat) : List Byte := (List.range n).map fun i => m (off + i)

theorem load_congr (h : ∀ i, off ≤ i → i < off + n → m i = m' i) : load m off n = load m' off n := by
  induction n generalizing off with
  | zero => rfl
  | succ n ih =>
    rw [load, load, h off (Nat.le_refl off) (by omega),
      ih fun i h1 h2 => h i (by omega) (by omega)]

-- A range that holds the bytes of `v` loads as `v`.
theorem load_of_bytes (hv : v < 256 ^ n)
    (h : ∀ k, k < n → m (off + k) = BitVec.ofNat 8 (v / 256 ^ k)) : load m off n = v := by
  induction n generalizing off v with
  | zero =>
    rw [pow_zero, Nat.lt_one_iff] at hv
    exact hv.symm
  | succ n ih =>
    have hlow : (m off).toNat = v % 256 := by
      have h0 := h 0 (Nat.succ_pos n)
      rw [Nat.add_zero, pow_zero, Nat.div_one] at h0
      rw [h0, BitVec.toNat_ofNat]
    have hrest : load m (off + 1) n = v / 256 := by
      apply ih
      · omega
      intro k hk
      have hk' := h (k + 1) (by omega)
      rw [pow_succ', ← Nat.div_div_eq_div_mul] at hk'
      rw [← hk', Nat.add_assoc, Nat.add_comm 1 k]
    rw [load, hlow, hrest]
    omega

theorem store_of_outside (h : i < off ∨ off + n ≤ i) : store m off n v i = m i := by
  rw [store, if_neg (by omega)]

theorem load_store (hv : v < 256 ^ n) : load (store m off n v) off n = v := by
  apply load_of_bytes hv
  intro k hk
  rw [store, if_pos (by omega), Nat.add_sub_cancel_left]

theorem load_store_of_disjoint (h : off + n ≤ off' ∨ off' + n' ≤ off) :
    load (store m off' n' v) off n = load m off n := by
  apply load_congr
  intro i h1 h2
  exact store_of_outside (by omega)

theorem blit_of_outside (h : i < off ∨ off + bs.length ≤ i) : blit m off bs i = m i := by
  rw [blit, if_neg (by omega)]

theorem blit_of_inside (h : i < bs.length) : blit m off bs (off + i) = bs.getD i 0 := by
  rw [blit, if_pos (by omega), Nat.add_sub_cancel_left]

@[simp] theorem slice_length : (slice m off n).length = n := by simp [slice]

theorem slice_getD (h : i < n) : (slice m off n).getD i 0 = m (off + i) := by
  simp [slice, List.getD, h]

theorem slice_congr (h : ∀ i, i < n → m (off + i) = m' (off' + i)) : slice m off n = slice m' off' n := by
  apply List.map_congr_left
  intro i hi
  exact h i (List.mem_range.1 hi)

theorem slice_add : slice m off (n + n') = slice m off n ++ slice m (off + n) n' := by
  unfold slice
  rw [List.range_add, List.map_append, List.map_map]
  congr 1
  apply List.map_congr_left
  intro i _
  rw [Function.comp_apply, Nat.add_assoc]

end Jnu.Lib.Bytes
