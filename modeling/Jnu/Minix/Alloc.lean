import Jnu.Minix.Held

namespace Jnu.Minix

open Lib.Bytes Lib.Effect
open Function

variable {block : Nat → Mem}

def Fs.at (s : Fs) (c : Clock) : Fs := { s with clock := c }

def Fs.Calm (s : Fs) : Prop := ∀ n, s.env.ioFails n = false

def Fs.Plenty (s : Fs) : Prop := ∀ n, s.env.memFails n = false

def Fs.withBlock (s : Fs) (block : Nat → Mem) : Fs := { s with block := block }

def Fs.withNode (s : Fs) (o : Nat) (nd : Node) : Fs :=
  { s with node := update s.node o (some nd) }

variable {α : Type} {s : Fs} {c c' : Clock} {b o o' blk : Nat} {nd : Node} {m : Mem}

@[simp] theorem at_at : (s.at c).at c' = s.at c' := rfl
@[simp] theorem at_sb : (s.at c).sb = s.sb := rfl
@[simp] theorem at_nblocks : (s.at c).nblocks = s.nblocks := rfl
@[simp] theorem at_block : (s.at c).block = s.block := rfl
@[simp] theorem at_node : (s.at c).node = s.node := rfl
@[simp] theorem withBlock_block : (s.withBlock block).block = block := rfl
@[simp] theorem withBlock_node : (s.withBlock block).node = s.node := rfl
@[simp] theorem withNode_self : (s.withNode o nd).node o = some nd := update_self ..

theorem withNode_other (h : o' ≠ o) : (s.withNode o nd).node o' = s.node o' :=
  update_of_ne h ..

section steps

variable {Q : α → Fs → Prop} {E : Errno → Fs → Prop}

theorem Fs.Calm.at (h : s.Calm) : (s.at c).Calm := h

theorem wp_superOf {Q : Super → Fs → Prop} (h : Q s.sb s) : wp superOf Q E s := wp_read h

theorem wp_nodeOf {Q : Node → Fs → Prop} (hn : s.node o = some nd) (h : Q nd s) :
    wp (nodeOf o) Q E s := wp_bind (wp_read (.inl ⟨nd, s, run_known hn, h⟩))

theorem wp_setNode {Q : Unit → Fs → Prop} (h : Q () (s.withNode o nd)) : wp (setNode o nd) Q E s := wp_write h

theorem wp_bind_nodeOf {f : Node → FsM α} {Q : α → Fs → Prop} (hn : s.node o = some nd) (h : wp (f nd) Q E s) :
    wp (nodeOf o >>= f) Q E s := wp_bind (wp_nodeOf hn h)

theorem wp_dataOf {f : Mem → FsM α} {Q : α → Fs → Prop} (h : wp (f (s.block b)) Q E s) :
    wp (dataOf b >>= f) Q E s := wp_bind_read h

theorem wp_setData {Q : Unit → Fs → Prop} (h : Q () (s.withBlock (update s.block b m))) :
    wp (setData b m) Q E s := wp_write h

theorem wp_bufcacheGet {Q : Bool → Fs → Prop} (hs : s.Calm) (h : ∀ c, Q (decide (b < s.nblocks)) (s.at c)) :
    wp (bufcacheGet b) Q E s := by
  apply wp_bind_read
  apply wp_bind_write
  apply wp_pure
  rw [id_eq, hs s.clock.ios, Bool.not_false, Bool.and_true]
  exact h _

theorem wp_kmalloc_cases {Q : Bool → Fs → Prop} (hok : ∀ c, Q true (s.at c))
    (hfail : ∀ c, ¬ s.Plenty → Q false (s.at c)) : wp kmalloc Q E s := by
  apply wp_bind_read
  apply wp_bind_write
  apply wp_pure
  rw [id_eq]
  cases hm : s.env.memFails s.clock.mems with
  | false => exact hok _
  | true => exact hfail _ fun hp => Bool.noConfusion (hm.symm.trans (hp _))

theorem wp_rtcNowUnix {Q : BitVec 32 → Fs → Prop} (h : ∀ t c, Q t (s.at c)) : wp rtcNowUnix Q E s := by
  apply wp_bind_read
  apply wp_bind_write
  apply wp_pure
  exact h _ _

theorem wp_get_then {k : Bool → FsM α} (hs : s.Calm) (hb : b < s.nblocks)
    (h : ∀ c, wp (k true) Q E (s.at c)) : wp (bufcacheGet b >>= k) Q E s := by
  apply wp_bind
  apply wp_bufcacheGet hs
  intro c
  rw [decide_eq_true hb]
  exact h c

end steps

section bitmap

variable {start limit base n bit idx : Nat}

theorem firstClear_some (h : firstClear m base limit n bit = some b) :
    bit ≤ b ∧ b < bit + n ∧ base + b ≠ 0 ∧ base + b ≤ limit ∧ testBit m b = false := by
  induction n generalizing bit with
  | zero => cases h
  | succ n ih =>
    rw [firstClear] at h
    split_ifs at h with h0 hl ht
    · obtain ⟨h1, h2, h3⟩ := ih h
      exact ⟨by omega, by omega, h3⟩
    · obtain ⟨h1, h2, h3⟩ := ih h
      exact ⟨by omega, by omega, h3⟩
    · rw [Option.some.injEq] at h
      subst h
      exact ⟨Nat.le_refl bit, by omega, h0, by omega, Bool.eq_false_iff.2 ht⟩

theorem firstClear_none (h : firstClear m base limit n bit = none) (hb : bit ≤ b)
    (hn : b < bit + n) (h0 : base + b ≠ 0) (hl : base + b ≤ limit) : testBit m b = true := by
  induction n generalizing bit with
  | zero => omega
  | succ n ih =>
    rw [firstClear] at h
    split_ifs at h with h0' hl' ht
    · exact ih h (by omega) (by omega)
    · omega
    · by_cases hc : bit = b
      · exact hc ▸ ht
      · exact ih h (by omega) (by omega)

def setMapBit (block : Nat → Mem) (start idx : Nat) : Nat → Mem :=
  update block (start + idx / bitsPerBlock)
    (setBit (block (start + idx / bitsPerBlock)) (idx % bitsPerBlock))

def clearMapBit (block : Nat → Mem) (start idx : Nat) : Nat → Mem :=
  update block (start + idx / bitsPerBlock)
    (clearBit (block (start + idx / bitsPerBlock)) (idx % bitsPerBlock))

-- The outcome of a search of a bitmap from block `blk` to block `stop`: no clear bit there, or
-- one that is set now.
def Searched (start limit blk stop : Nat) (s : Fs) (idx : Nat) (s' : Fs) : Prop :=
  (idx = 0 ∧ (∃ c, s' = s.at c) ∧ ∀ i, blk * bitsPerBlock ≤ i → i < stop * bitsPerBlock →
      i ≠ 0 → i ≤ limit → mapBit s.block start i = true) ∨
    (idx ≠ 0 ∧ idx ≤ limit ∧ idx < stop * bitsPerBlock ∧ mapBit s.block start idx = false ∧
      ∃ c, s' = (s.at c).withBlock (setMapBit s.block start idx))

theorem div_bits (blk : Nat) (h : bit < bitsPerBlock) :
    (blk * bitsPerBlock + bit) / bitsPerBlock = blk ∧
      (blk * bitsPerBlock + bit) % bitsPerBlock = bit := by
  unfold bitsPerBlock at *
  omega

theorem minixAllocFromMap_spec (hs : s.Calm) (hin : start + (blk + n) ≤ s.nblocks) :
    wp (minixAllocFromMap start limit n blk) (Searched start limit blk (blk + n) s)
      never s := by
  -- on the blocks left; what was searched before has no clear bit
  induction n generalizing blk s with
  | zero =>
    apply wp_pure
    exact .inl ⟨rfl, ⟨s.clock, rfl⟩, fun i h1 h2 => absurd h1 (by simpa using h2)⟩
  | succ n ih =>
    apply wp_get_then hs (by omega)
    intro c
    apply wp_dataOf
    cases hfind : firstClear ((s.at c).block (start + blk)) (blk * bitsPerBlock) limit bitsPerBlock 0 with
    | some bit =>
      obtain ⟨-, hlt, h0, hl, hbit⟩ := firstClear_some hfind
      obtain ⟨hdiv, hmod⟩ := div_bits blk hlt
      apply wp_bind
      apply wp_setData
      apply wp_pure
      refine .inr ⟨h0, hl, ?_, ?_, c, ?_⟩
      · rw [Nat.add_mul, Nat.add_mul, Nat.one_mul]
        omega
      · rw [mapBit, hdiv, hmod]
        exact hbit
      · rw [setMapBit, hdiv, hmod]
        rfl
    | none =>
      have hdone : ∀ i, blk * bitsPerBlock ≤ i → i < (blk + 1) * bitsPerBlock → i ≠ 0 →
          i ≤ limit → mapBit s.block start i = true := by
        intro i h1 h2 h3 h4
        rw [Nat.add_mul, Nat.one_mul] at h2
        obtain ⟨bit, rfl⟩ := Nat.exists_eq_add_of_le h1
        have hbit : bit < bitsPerBlock := by omega
        obtain ⟨hdiv, hmod⟩ := div_bits blk hbit
        rw [mapBit, hdiv, hmod]
        exact firstClear_none hfind (Nat.zero_le bit) (by omega) h3 h4
      have hin' : start + (blk + 1 + n) ≤ (s.at c).nblocks := by
        rw [at_nblocks]
        omega
      apply (ih hs.at hin').post _
      intro idx s' h
      rw [show blk + 1 + n = blk + (n + 1) by omega] at h
      rcases h with ⟨h1, ⟨c', h2⟩, h3⟩ | ⟨h1, h2, h3, h4, c', h5⟩
      · refine .inl ⟨h1, ⟨c', h2⟩, fun i hi1 hi2 hi3 hi4 => ?_⟩
        by_cases hi : i < (blk + 1) * bitsPerBlock
        · exact hdone i hi1 hi hi3 hi4
        · exact h3 i (by omega) hi2 hi3 hi4
      · exact .inr ⟨h1, h2, h3, h4, c', h5⟩

theorem minixFreeFromMap_spec {Q : Unit → Fs → Prop} {E : Errno → Fs → Prop} (hs : s.Calm)
    (hin : start + idx / bitsPerBlock < s.nblocks) (hbit : mapBit s.block start idx = true)
    (h : ∀ c, Q () ((s.at c).withBlock (clearMapBit s.block start idx))) :
    wp (minixFreeFromMap start idx) Q E s := by
  apply wp_get_then hs hin
  intro c
  apply wp_dataOf
  have ht : testBit ((s.at c).block (start + idx / bitsPerBlock)) (idx % bitsPerBlock) = true := hbit
  rw [if_pos ht]
  apply wp_setData
  exact h c

end bitmap

section zone

variable {z : Nat} {Q : Unit → Fs → Prop} {E : Errno → Fs → Prop}

-- A zone for new data: none is free, or a free one that is marked and zeroed now.
def Fetched (s : Fs) (z : Nat) (s' : Fs) : Prop :=
  (z = 0 ∧ (∃ c, s' = s.at c) ∧ ∀ w, InData s.sb w → zmarked s.sb s.block w = true) ∨
    (InData s.sb z ∧ zmarked s.sb s.block z = false ∧
      ∃ c, s' = (s.at c).withBlock (freshen s.sb s.block z))

section

variable (hs : s.Calm) (hf : s.sb.Fits s.nblocks)
include hs hf

theorem minixAllocZone_spec :
    wp minixAllocZone (fun z s' =>
      (z = 0 ∧ (∃ c, s' = s.at c) ∧ ∀ w, InData s.sb w → zmarked s.sb s.block w = true) ∨
        (InData s.sb z ∧ zmarked s.sb s.block z = false ∧
          ∃ c, s' = (s.at c).withBlock (mark s.sb s.block z))) never s := by
  have hfirst := hf.first
  have hlt := hf.first_lt
  have hdev := hf.device
  apply wp_bind
  apply wp_superOf
  apply (minixAllocFromMap_spec hs (by omega)).next _
  intro zidx s' h
  rw [Nat.zero_add] at h
  rcases h with ⟨h1, h2, h3⟩ | ⟨h1, h2, h3, h4, c, h5⟩
  · rw [if_pos h1]
    apply wp_pure
    refine .inl ⟨rfl, h2, fun w hw => ?_⟩
    have := hf.zmap
    have := hw.2
    exact h3 _ (by omega) (by omega) (by omega) (by omega)
  · rw [if_neg h1]
    apply wp_pure
    have hidx : s.sb.firstdatazone + zidx - 1 - s.sb.firstdatazone + 1 = zidx := by omega
    refine .inr ⟨⟨by omega, by omega⟩, ?_, c, ?_⟩
    · rw [zmarked, hidx]
      exact h4
    · rw [h5, mark, zmapBlock, hidx]
      rfl

theorem minixFreeZone_spec (hz : InData s.sb z)
    (hm : zmarked s.sb s.block z = true) (h : ∀ c, Q () ((s.at c).withBlock (unmark s.sb s.block z))) :
    wp (minixFreeZone z) Q E s := by
  apply wp_bind
  apply wp_superOf
  have hin : ¬ (z < s.sb.firstdatazone ∨ s.sb.nzones ≤ z) := by
    have := hz.1
    have := hz.2
    omega
  rw [if_neg hin]
  refine minixFreeFromMap_spec hs ?_ hm h
  have h1 := hf.zmapBlock_lt hz
  have h2 := hf.first
  have h4 := hf.device
  unfold zmapBlock inodesStart at h1
  omega

theorem minixAllocDataZone_spec : wp minixAllocDataZone (Fetched s) never s := by
  apply (minixAllocZone_spec hs hf).next _
  intro z s' h
  rcases h with ⟨hz, hc, hfull⟩ | ⟨hz, hm, c, rfl⟩
  · rw [if_pos hz]
    exact wp_pure (.inl ⟨rfl, hc, hfull⟩)
  rw [if_neg (hf.ne_zero hz)]
  apply wp_get_then (s := (s.at c).withBlock _) hs (Nat.lt_of_lt_of_le hz.2 hf.device)
  intro c'
  apply wp_bind
  apply wp_setData
  apply wp_pure
  exact .inr ⟨hz, hm, c', rfl⟩

theorem minixSafeFreeZone_spec (hm : InData s.sb z → zmarked s.sb s.block z = true)
    (h : ∀ c, Q () ((s.at c).withBlock (release s.sb s.block z))) : wp (minixSafeFreeZone z) Q E s := by
  apply wp_bind
  apply wp_superOf
  by_cases hz : InData s.sb z
  · have h0 := hf.ne_zero hz
    have hin : ¬ (z = 0 ∨ z < s.sb.firstdatazone ∨ s.sb.nzones ≤ z) := by
      have := hz.1
      have := hz.2
      omega
    rw [if_neg hin]
    apply minixFreeZone_spec hs hf hz (hm hz)
    intro c
    have := h c
    rw [release, if_pos hz] at this
    exact this
  · have hout : z = 0 ∨ z < s.sb.firstdatazone ∨ s.sb.nzones ≤ z := by
      unfold InData at hz
      omega
    rw [if_pos hout]
    apply wp_pure
    have := h s.clock
    rw [release, if_neg hz] at this
    exact this

end

end zone

end Jnu.Minix
