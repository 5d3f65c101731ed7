import Jnu.Minix.Alloc
import Jnu.Minix.Dir

namespace Jnu.Minix

open Lib.Bytes Lib.Effect

variable {s s' : Fs} {o b i t n j index : Nat} {nd : Node} {c : Clock} {sb : Super} {block : Nat → Mem}
  {raw : RawInode} {ok : DirEntry → Bool}

-- A device that answers every read, and holds all zones of the volume.
structure Readable (s : Fs) : Prop where
  calm : s.Calm
  device : s.sb.nzones ≤ s.nblocks

section bmap

variable {Q : Nat → Fs → Prop} {E : Errno → Fs → Prop}

-- The zone of a block, as `minix_bmap` finds it on a readable device.
def bmapOf (sb : Super) (block : Nat → Mem) (raw : RawInode) (b : Nat) : Nat :=
  if b < 7 then checked sb (raw.izone b)
  else if b - 7 < perBlock then
    if raw.izone 7 = 0 ∨ ¬ inData sb (raw.izone 7) then 0
    else checked sb (entry (block (raw.izone 7)) (b - 7))
  else if b - 7 - perBlock < perBlock * perBlock then
    if raw.izone 8 = 0 ∨ ¬ inData sb (raw.izone 8) then 0
    else if entry (block (raw.izone 8)) ((b - 7 - perBlock) / perBlock) = 0 ∨
        ¬ inData sb (entry (block (raw.izone 8)) ((b - 7 - perBlock) / perBlock)) then 0
    else checked sb (entry (block (entry (block (raw.izone 8)) ((b - 7 - perBlock) / perBlock)))
      ((b - 7 - perBlock) % perBlock))
  else 0

theorem wp_zoneSlot_read (hn : s.node o = some nd)
    (hQ : Q (nd.raw.izone i) s) : wp (zoneSlot o i false) Q E s := by
  apply wp_bind_nodeOf hn
  rw [if_neg (by simp)]
  apply wp_bind_nodeOf hn
  exact wp_pure hQ

theorem wp_entrySlot_read (hs : s.Calm) (ht : t < s.nblocks) (hQ : ∀ c, Q (entry (s.block t) i) (s.at c)) :
    wp (entrySlot t i false) Q E s := by
  apply wp_get_then hs ht
  intro c
  apply wp_dataOf
  rw [if_neg (by simp)]
  apply wp_dataOf
  exact wp_pure (hQ c)

theorem wp_minixBmap_read (hs : Readable s)
    (hn : s.node o = some nd) (hQ : ∀ c, Q (bmapOf s.sb s.block nd.raw b) (s.at c)) :
    wp (minixBmap o b false) Q E s := by
  have hblock : ∀ t, ¬ (t = 0 ∨ ¬ inData s.sb t = true) → t < s.nblocks := by
    intro t ht
    push Not at ht
    exact Nat.lt_of_lt_of_le (of_decide_eq_true ht.2).2 hs.device
  unfold bmapOf at hQ
  apply wp_bind
  apply wp_superOf
  by_cases h1 : b < 7
  · rw [if_pos h1]
    apply wp_bind
    apply wp_zoneSlot_read hn
    apply wp_pure
    have hq := hQ s.clock
    rw [if_pos h1] at hq
    exact hq
  rw [if_neg h1]
  simp only [if_neg h1] at hQ
  by_cases h2 : b - 7 < perBlock
  · rw [if_pos h2]
    simp only [if_pos h2] at hQ
    apply wp_bind
    apply wp_zoneSlot_read hn
    refine wp_ite (fun h3 => ?_) fun h3 => ?_
    · simp only [if_pos h3] at hQ
      exact wp_pure (hQ s.clock)
    simp only [if_neg h3] at hQ
    apply wp_bind
    apply wp_entrySlot_read hs.calm (hblock _ h3)
    exact fun c => wp_pure (hQ c)
  rw [if_neg h2]
  simp only [if_neg h2] at hQ
  by_cases h3 : b - 7 - perBlock < perBlock * perBlock
  · rw [if_pos h3]
    simp only [if_pos h3] at hQ
    apply wp_bind
    apply wp_zoneSlot_read hn
    refine wp_ite (fun h4 => ?_) fun h4 => ?_
    · simp only [if_pos h4] at hQ
      exact wp_pure (hQ s.clock)
    simp only [if_neg h4] at hQ
    apply wp_bind
    apply wp_entrySlot_read hs.calm (hblock _ h4)
    intro c
    refine wp_ite (fun h5 => ?_) fun h5 => ?_
    · simp only [if_pos h5] at hQ
      exact wp_pure (hQ c)
    simp only [if_neg h5] at hQ
    apply wp_bind
    apply wp_entrySlot_read (s := s.at c) hs.calm.at (hblock _ h5)
    exact fun c' => wp_pure (hQ c')
  · rw [if_neg h3]
    simp only [if_neg h3] at hQ
    exact wp_pure (hQ s.clock)

theorem bmapOf_data (h : bmapOf sb block raw b ≠ 0) : InData sb (bmapOf sb block raw b) := by
  have hchecked : ∀ z, checked sb z ≠ 0 → InData sb (checked sb z) := by
    intro z hz
    unfold checked at hz ⊢
    split_ifs at hz ⊢ with hc
    · exact absurd rfl hz
    · push Not at hc
      exact of_decide_eq_true (hc hz)
  unfold bmapOf at h ⊢
  split_ifs at h ⊢
  · exact hchecked _ h
  · exact absurd rfl h
  · exact hchecked _ h
  · exact absurd rfl h
  · exact absurd rfl h
  · exact hchecked _ h
  · exact absurd rfl h

end bmap

-- The number of entries that a directory of `size` bytes has room for.
def slotCount (size : Nat) : Nat := (size + dirEntrySize - 1) / dirEntrySize

-- Entry number `k` of a directory, with its offset; nothing where the block is missing.
def slotAt (sb : Super) (block : Nat → Mem) (raw : RawInode) (k : Nat) : Option (Nat × DirEntry) :=
  if bmapOf sb block raw (dirEntrySize * k / blockSize) = 0 then none
  else some (dirEntrySize * k, DirEntry.read (block (bmapOf sb block raw (dirEntrySize * k / blockSize)))
    (dirEntrySize * k % blockSize))

def slotsFrom (sb : Super) (block : Nat → Mem) (raw : RawInode) (k : Nat) : List (Nat × DirEntry) :=
  (List.range' k (slotCount raw.size.toNat - k)).filterMap (slotAt sb block raw)

def dirSlots (sb : Super) (block : Nat → Mem) (raw : RawInode) : List (Nat × DirEntry) :=
  slotsFrom sb block raw 0

theorem slotsFrom_block (sb : Super) (block : Nat → Mem) (raw : RawInode) (j : Nat) :
    slotsFrom sb block raw (64 * j) =
      (if bmapOf sb block raw j = 0 then []
        else (List.range (min 64 (slotCount raw.size.toNat - 64 * j))).map fun i =>
          (blockSize * j + dirEntrySize * i,
            DirEntry.read (block (bmapOf sb block raw j)) (dirEntrySize * i))) ++
        slotsFrom sb block raw (64 * (j + 1)) := by
  unfold slotsFrom
  generalize slotCount raw.size.toNat = n
  have hsplit : List.range' (64 * j) (n - 64 * j) =
      List.range' (64 * j) (min 64 (n - 64 * j)) ++ List.range' (64 * (j + 1)) (n - 64 * (j + 1)) := by
    by_cases hn : 64 ≤ n - 64 * j
    · rw [Nat.min_eq_left hn, show 64 * (j + 1) = 64 * j + 1 * 64 by omega, List.range'_append]
      congr 1
      omega
    · rw [Nat.min_eq_right (by omega), show n - 64 * (j + 1) = 0 by omega]
      simp
  rw [hsplit, List.filterMap_append]
  congr 1
  -- entry `i` of the block is entry `64 * j + i` of the directory
  have hslot : ∀ i, i < 64 → slotAt sb block raw (64 * j + i) =
      if bmapOf sb block raw j = 0 then none
      else some (blockSize * j + dirEntrySize * i,
        DirEntry.read (block (bmapOf sb block raw j)) (dirEntrySize * i)) := by
    intro i hi
    have hdiv : dirEntrySize * (64 * j + i) / blockSize = j := by
      unfold dirEntrySize blockSize
      omega
    have hmod : dirEntrySize * (64 * j + i) % blockSize = dirEntrySize * i := by
      unfold dirEntrySize blockSize
      omega
    have hoff : dirEntrySize * (64 * j + i) = blockSize * j + dirEntrySize * i := by
      unfold dirEntrySize blockSize
      omega
    unfold slotAt
    rw [hdiv, hmod, hoff]
  rw [List.range'_eq_map_range, List.filterMap_map]
  split_ifs with h0
  · rw [List.filterMap_eq_nil_iff]
    intro i hi
    rw [List.mem_range] at hi
    rw [Function.comp_apply, hslot i (by omega), if_pos h0]
  · rw [List.filterMap_eq_map_iff_forall_eq_some]
    intro i hi
    rw [List.mem_range] at hi
    rw [Function.comp_apply, hslot i (by omega), if_neg h0]

theorem hits_filter (ok : DirEntry → Bool) (m : Mem) (size j : Nat) :
    ((List.range (min 64 (slotCount size - 64 * j))).map fun i =>
        (blockSize * j + dirEntrySize * i, DirEntry.read m (dirEntrySize * i))).filter (fun p => ok p.2) =
      (hits ok m (min (size - blockSize * j) blockSize)).map fun i =>
        (blockSize * j + i, DirEntry.read m i) := by
  have hcount : (min (size - blockSize * j) blockSize + dirEntrySize - 1) / dirEntrySize =
      min 64 (slotCount size - 64 * j) := by
    unfold slotCount dirEntrySize blockSize
    omega
  unfold hits
  rw [hcount, List.filter_map, List.filter_map, List.map_map]
  rfl

theorem slotsFrom_end (h : raw.size.toNat ≤ blockSize * j) : slotsFrom sb block raw (64 * j) = [] := by
  unfold blockSize at h
  unfold slotsFrom slotCount dirEntrySize
  rw [show (raw.size.toNat + 16 - 1) / 16 - 64 * j = 0 by omega]
  rfl

-- The loop over the blocks finds entry number `index` of those that satisfy `ok`.
theorem dirScan_run (hs : Readable s) (hn : s.node o = some nd)
    (hj : j ≤ (nd.raw.size.toNat + blockSize - 1) / blockSize) (hfuel : n + j = dirPass nd.raw.size.toNat) :
    ∃ c, (dirScan o nd.raw.size.toNat ok n (blockSize * j % 2 ^ 32) index).run s =
      (if 2 ^ 32 - blockSize < nd.raw.size.toNat ∧
          ((slotsFrom s.sb s.block nd.raw (64 * j)).filter fun p => ok p.2)[index]? = none then none
        else done (((slotsFrom s.sb s.block nd.raw (64 * j)).filter fun p => ok p.2)[index]?) (s.at c)) := by
  have hsize := nd.raw.size.isLt
  unfold dirPass at hfuel
  induction n generalizing j index s with
  | zero =>
    refine ⟨s.clock, ?_⟩
    have hbig : 2 ^ 32 - blockSize < nd.raw.size.toNat ∧ nd.raw.size.toNat ≤ blockSize * j := by
      unfold blockSize at *
      omega
    rw [slotsFrom_end hbig.2, if_pos ⟨hbig.1, rfl⟩]
    rfl
  | succ n ih =>
    have hoffset : blockSize * j % 2 ^ 32 = blockSize * j := by
      unfold blockSize at *
      omega
    have hnext : (blockSize * j + blockSize) % 2 ^ 32 = blockSize * (j + 1) % 2 ^ 32 := by
      unfold blockSize
      omega
    rw [hoffset, dirScan, hnext]
    by_cases hle : nd.raw.size.toNat ≤ blockSize * j
    · refine ⟨s.clock, ?_⟩
      rw [slotsFrom_end hle, if_pos hle, if_neg]
      · rfl
      · unfold blockSize at *
        omega
    rw [if_neg hle]
    have hj' : j + 1 ≤ (nd.raw.size.toNat + blockSize - 1) / blockSize := by
      unfold blockSize at *
      omega
    have hbmap : ∃ c, (minixBmap o (blockSize * j / blockSize) false).run s =
        done (bmapOf s.sb s.block nd.raw j) (s.at c) := by
      rw [Nat.mul_div_cancel_left j (by decide)]
      have hread : wp (minixBmap o j false) (fun z s' => z = bmapOf s.sb s.block nd.raw j ∧
          ∃ c, s' = s.at c) never s := wp_minixBmap_read hs hn fun c => ⟨rfl, c, rfl⟩
      obtain ⟨z, s', hrun, hz, c, hs'⟩ := hread.exists_ok
      rw [hz, hs'] at hrun
      exact ⟨c, hrun⟩
    obtain ⟨c1, hbmap⟩ := hbmap
    have hs1 : Readable (s.at c1) := ⟨hs.calm, hs.device⟩
    rw [run_bind_ok hbmap, slotsFrom_block]
    by_cases h0 : bmapOf s.sb s.block nd.raw j = 0
    · rw [if_pos h0, if_pos h0, List.nil_append]
      exact ih (s := s.at c1) (j := j + 1) hs1 hn hj' (by omega)
    rw [if_neg h0, if_neg h0, List.filter_append, hits_filter]
    have hget : ∃ c, (bufcacheGet (bmapOf s.sb s.block nd.raw j)).run (s.at c1) =
        done true (s.at c) := by
      have hlt : bmapOf s.sb s.block nd.raw j < s.nblocks :=
        Nat.lt_of_lt_of_le (bmapOf_data h0).2 hs.device
      have hwp : wp (bufcacheGet (bmapOf s.sb s.block nd.raw j)) (fun ok s' => ok = true ∧
          ∃ c, s' = s.at c) never (s.at c1) :=
        wp_bufcacheGet hs1.calm fun c => ⟨decide_eq_true hlt, c, rfl⟩
      obtain ⟨ok, s', hrun, hok, c, hs'⟩ := hwp.exists_ok
      rw [hok, hs'] at hrun
      exact ⟨c, hrun⟩
    obtain ⟨c2, hget⟩ := hget
    have hdata : (dataOf (bmapOf s.sb s.block nd.raw j)).run (s.at c2) =
        done (s.block (bmapOf s.sb s.block nd.raw j)) (s.at c2) := rfl
    rw [run_bind_ok hget, if_pos rfl, run_bind_ok hdata]
    dsimp only
    cases hfound : (hits ok (s.block (bmapOf s.sb s.block nd.raw j))
        (min (nd.raw.size.toNat - blockSize * j) blockSize))[index]? with
    | some i =>
      obtain ⟨hlt, -⟩ := List.getElem?_eq_some_iff.1 hfound
      rw [List.getElem?_append_left (by rw [List.length_map]; exact hlt), List.getElem?_map, hfound]
      refine ⟨c2, ?_⟩
      rw [if_neg (by simp)]
      rfl
    | none =>
      have hle := List.getElem?_eq_none_iff.1 hfound
      rw [List.getElem?_append_right (by rw [List.length_map]; exact hle), List.length_map]
      exact ih (s := s.at c2) (j := j + 1) ⟨hs.calm, hs.device⟩ hn hj' (by omega)

theorem dirFind_run (ok : DirEntry → Bool) (index : Nat) (hs : Readable s) (hn : s.node o = some nd) :
    ∃ c, (dirFind o ok index).run s =
      (if 2 ^ 32 - blockSize < nd.raw.size.toNat ∧
          ((dirSlots s.sb s.block nd.raw).filter fun p => ok p.2)[index]? = none then none
        else done (((dirSlots s.sb s.block nd.raw).filter fun p => ok p.2)[index]?) (s.at c)) := by
  have hnode : (nodeOf o).run s = done nd s := by
    unfold nodeOf
    exact run_known hn
  unfold dirFind
  rw [run_bind_ok hnode]
  exact dirScan_run (j := 0) hs hn (Nat.zero_le _) rfl

theorem wpOr_dirFind {D : Prop} {Q : Option (Nat × DirEntry) → Fs → Prop} {E : Errno → Fs → Prop}
    (hs : Readable s) (hn : s.node o = some nd) (hD : 2 ^ 32 - blockSize < nd.raw.size.toNat → D)
    (hQ : ∀ c, Q ((dirSlots s.sb s.block nd.raw).filter fun p => ok p.2)[index]? (s.at c)) :
    wpOr D (dirFind o ok index) Q E s := by
  obtain ⟨c, hrun⟩ := dirFind_run ok index hs hn
  split_ifs at hrun with hbig
  · exact wpOr_none (hD hbig.1) hrun
  · exact (wp_of_ok hrun (hQ c)).wpOr

end Jnu.Minix
