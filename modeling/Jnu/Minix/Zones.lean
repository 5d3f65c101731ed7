import Jnu.Minix.Defs

namespace Jnu.Minix

open Lib.Bytes
open Function

variable {m : Mem} {r : RawInode} {i z n start : Nat} {block block' : Nat → Mem}

section tables

variable {j : Nat}

theorem entry_putEntry (hz : z < 2 ^ 16) : entry (putEntry m i z) j = if i = j then z else entry m j := by
  unfold entry putEntry
  rw [Nat.mod_eq_of_lt hz]
  by_cases h : i = j
  · rw [if_pos h, h]
    exact load_store hz
  · rw [if_neg h]
    apply load_store_of_disjoint
    omega

@[simp] theorem entry_zero : entry (fun _ => 0) i = 0 := by
  simp [entry, load]

theorem emptyTable_iff : emptyTable m = true ↔ ∀ i, i < perBlock → entry m i = 0 := by
  simp [emptyTable]

theorem izone_setZone (hi : i < 9) (hz : z < 2 ^ 16) :
    (r.setZone i z).izone j = if i = j then z else r.izone j := by
  unfold RawInode.izone RawInode.setZone
  rw [dif_pos hi]
  by_cases hj : j < 9
  · rw [dif_pos hj, dif_pos hj]
    by_cases h : i = j
    · subst h
      simp only [update_self, BitVec.toNat_ofNat]
      exact Nat.mod_eq_of_lt hz
    · have hne : (⟨j, hj⟩ : Fin 9) ≠ ⟨i, hi⟩ := fun hc => h (congrArg Fin.val hc).symm
      rw [if_neg h]
      simp only [update_of_ne hne]
  · rw [dif_neg hj, dif_neg hj, if_neg (by omega)]

-- A table in parts of `n` cells, where one cell is given the value `v`.
theorem cell_update {α : Type} {f : Nat → α} {c : α → Nat → Bool} {p : α → Nat → α} {v : Bool}
    (hn : 0 < n) (hp : ∀ a i j, i < n → j < n → c (p a i) j = if i = j then v else c a j) :
    c (update f (i / n) (p (f (i / n)) (i % n)) (j / n)) (j % n) =
      if i = j then v else c (f (j / n)) (j % n) := by
  by_cases hb : j / n = i / n
  · have hiff : i % n = j % n ↔ i = j := by
      refine ⟨fun h => ?_, fun h => h ▸ rfl⟩
      rw [← Nat.div_add_mod i n, ← Nat.div_add_mod j n, hb, h]
    rw [hb, update_self, hp _ _ _ (Nat.mod_lt _ hn) (Nat.mod_lt _ hn)]
    simp only [hiff]
  · rw [update_of_ne hb, if_neg (by rintro rfl; exact hb rfl)]

theorem testBit_setBit : testBit (setBit m i) j = if i = j then true else testBit m j := by
  refine cell_update (p := fun b i => b ||| BitVec.twoPow 8 i) (n := 8) (by decide) fun b i j _ hj => ?_
  rw [BitVec.getLsbD_or, BitVec.getLsbD_twoPow]
  split_ifs with h <;> simp [h, hj]

theorem testBit_clearBit : testBit (clearBit m i) j = if i = j then false else testBit m j := by
  refine cell_update (p := fun b i => b &&& ~~~BitVec.twoPow 8 i) (n := 8) (by decide) fun b i j _ hj => ?_
  rw [BitVec.getLsbD_and, BitVec.getLsbD_not, BitVec.getLsbD_twoPow]
  split_ifs with h <;> simp [h, hj]

end tables

-- The places of an inode that name a zone: the logical blocks, the single and the double
-- indirect table, and the tables behind the double indirect one.
inductive Slot
  | data (b : Nat)
  | single
  | double
  | inner (j : Nat)
  deriving DecidableEq, Repr

inductive Home
  | field (i : Nat)
  | entry (t : Slot) (i : Nat)
  | nowhere
  deriving DecidableEq

namespace Slot

variable {sl t sl' : Slot}

def IsTable : Slot → Prop
  | data _ => False
  | single | double | inner _ => True

theorem not_table (b : Nat) : ¬ (data b).IsTable := fun h => h

def depth : Slot → Nat
  | single | double => 0
  | inner _ => 1
  | data _ => 2

def home : Slot → Home
  | data b =>
    if b < 7 then .field b
    else if b - 7 < perBlock then .entry single (b - 7)
    else if b - 7 - perBlock < perBlock * perBlock then
      .entry (inner ((b - 7 - perBlock) / perBlock)) ((b - 7 - perBlock) % perBlock)
    else .nowhere
  | single => .field 7
  | double => .field 8
  | inner j => if j < perBlock then .entry double j else .nowhere

theorem home_entry (h : sl.home = .entry t i) : t.IsTable ∧ t.depth < sl.depth ∧ i < perBlock := by
  cases sl with
  | data b =>
    simp only [home] at h
    split_ifs at h with h1 h2 h3
    · cases h
      exact ⟨trivial, by simp [depth], h2⟩
    · cases h
      exact ⟨trivial, by simp [depth], Nat.mod_lt _ (by decide)⟩
  | single => cases h
  | double => cases h
  | inner j =>
    simp only [home] at h
    split_ifs at h with h1
    cases h
    exact ⟨trivial, by simp [depth], h1⟩

theorem home_field (h : sl.home = .field i) : i < 9 := by
  cases sl with
  | data b =>
    simp only [home] at h
    split_ifs at h
    cases h
    omega
  | single =>
    cases h
    decide
  | double =>
    cases h
    decide
  | inner j =>
    simp only [home] at h
    split_ifs at h

-- The slot whose number is kept at a place.
def ofHome : Home → Slot
  | .field i => if i < 7 then data i else if i = 7 then single else double
  | .entry single i => data (i + 7)
  | .entry double j => inner j
  | .entry (inner j) i => data (perBlock * j + i + perBlock + 7)
  | .entry (data b) _ => data b
  | .nowhere => single

theorem ofHome_home (h : sl.home ≠ .nowhere) : ofHome sl.home = sl := by
  cases sl with
  | data b =>
    simp only [home] at h ⊢
    by_cases h1 : b < 7
    · rw [if_pos h1, ofHome, if_pos h1]
    rw [if_neg h1] at h ⊢
    by_cases h2 : b - 7 < perBlock
    · rw [if_pos h2, ofHome]
      exact congrArg data (by omega)
    rw [if_neg h2] at h ⊢
    by_cases h3 : b - 7 - perBlock < perBlock * perBlock
    · have hdm := Nat.div_add_mod (b - 7 - perBlock) perBlock
      rw [if_pos h3, ofHome, hdm]
      exact congrArg data (by omega)
    · rw [if_neg h3] at h
      exact absurd rfl h
  | single => rfl
  | double => rfl
  | inner j =>
    simp only [home] at h ⊢
    by_cases h1 : j < perBlock
    · rw [if_pos h1, ofHome]
    · rw [if_neg h1] at h
      exact absurd rfl h

theorem home_inj (h : sl.home = sl'.home) (hn : sl.home ≠ .nowhere) : sl = sl' := by
  rw [← ofHome_home hn, h]
  exact ofHome_home (h ▸ hn)

theorem exists_below (ht : t.IsTable) (hh : t.home ≠ .nowhere)
    (hi : i < perBlock) : ∃ sl : Slot, sl.home = .entry t i := by
  cases t with
  | data b => exact absurd ht (not_table b)
  | single =>
    refine ⟨data (i + 7), ?_⟩
    simp only [home]
    rw [if_neg (by omega), if_pos (by omega), Nat.add_sub_cancel]
  | double => exact ⟨inner i, if_pos hi⟩
  | inner j =>
    have hj : j < perBlock := by
      by_contra hc
      exact hh (if_neg hc)
    have hsub : perBlock * j + i + perBlock + 7 - 7 - perBlock = perBlock * j + i := by omega
    have hlt : perBlock * j + i < perBlock * perBlock := by
      calc perBlock * j + i < perBlock * j + perBlock := by omega
        _ = perBlock * (j + 1) := by rw [Nat.mul_add, Nat.mul_one]
        _ ≤ perBlock * perBlock := Nat.mul_le_mul_left _ hj
    have hdiv : (perBlock * j + i) / perBlock = j := by
      rw [Nat.mul_add_div (by decide), Nat.div_eq_of_lt hi, Nat.add_zero]
    have hmod : (perBlock * j + i) % perBlock = i := by
      rw [Nat.mul_add_mod, Nat.mod_eq_of_lt hi]
    refine ⟨data (perBlock * j + i + perBlock + 7), ?_⟩
    simp only [home]
    rw [if_neg (by omega), if_neg (by omega), hsub, if_pos hlt, hdiv, hmod]

end Slot

section zones

-- Entry `i` of the table in zone `t`, if there is a table.
def tableEntry (block : Nat → Mem) (t i : Nat) : Nat := if t = 0 then 0 else entry (block t) i

def zoneOf (block : Nat → Mem) (r : RawInode) : Slot → Nat
  | .data b =>
    if b < 7 then r.izone b
    else if b - 7 < perBlock then tableEntry block (r.izone 7) (b - 7)
    else if b - 7 - perBlock < perBlock * perBlock then
      tableEntry block (tableEntry block (r.izone 8) ((b - 7 - perBlock) / perBlock))
        ((b - 7 - perBlock) % perBlock)
    else 0
  | .single => r.izone 7
  | .double => r.izone 8
  | .inner j => if j < perBlock then tableEntry block (r.izone 8) j else 0

theorem zoneOf_home (block : Nat → Mem) (r : RawInode) (sl : Slot) :
    zoneOf block r sl = match sl.home with
      | .field i => r.izone i
      | .entry t i => tableEntry block (zoneOf block r t) i
      | .nowhere => 0 := by
  cases sl with
  | data b =>
    simp only [zoneOf, Slot.home]
    by_cases h1 : b < 7
    · rw [if_pos h1, if_pos h1]
    rw [if_neg h1, if_neg h1]
    by_cases h2 : b - 7 < perBlock
    · rw [if_pos h2, if_pos h2]
    rw [if_neg h2, if_neg h2]
    by_cases h3 : b - 7 - perBlock < perBlock * perBlock
    · rw [if_pos h3, if_pos h3]
      have h4 : (b - 7 - perBlock) / perBlock < perBlock := Nat.div_lt_of_lt_mul h3
      dsimp only
      rw [if_pos h4]
    · rw [if_neg h3, if_neg h3]
  | single => rfl
  | double => rfl
  | inner j =>
    simp only [zoneOf, Slot.home]
    by_cases h : j < perBlock
    · rw [if_pos h, if_pos h]
    · rw [if_neg h, if_neg h]

variable {r' : RawInode} {sl : Slot} {t : Slot}

theorem zoneOf_field (h : sl.home = .field i) : zoneOf block r sl = r.izone i := by
  rw [zoneOf_home, h]

theorem zoneOf_entry (h : sl.home = .entry t i) :
    zoneOf block r sl = tableEntry block (zoneOf block r t) i := by
  rw [zoneOf_home, h]

theorem zoneOf_nowhere (h : sl.home = .nowhere) : zoneOf block r sl = 0 := by
  rw [zoneOf_home, h]

theorem zoneOf_table_ne (h : sl.home = .entry t i) (hne : zoneOf block r sl ≠ 0) : zoneOf block r t ≠ 0 := by
  intro hc
  rw [zoneOf_entry h, tableEntry, if_pos hc] at hne
  exact hne rfl

theorem izone_zone (h : r'.zone = r.zone) (i : Nat) : r'.izone i = r.izone i := by
  unfold RawInode.izone
  rw [h]

theorem zoneOf_congr (hr : r'.zone = r.zone)
    (h : ∀ t : Slot, t.IsTable → zoneOf block r t ≠ 0 →
      block' (zoneOf block r t) = block (zoneOf block r t)) (sl : Slot) :
    zoneOf block' r' sl = zoneOf block r sl := by
  -- on the depth of the slot: its table is less deep
  induction hd : sl.depth using Nat.strong_induction_on generalizing sl with
  | _ d ih =>
    cases hh : sl.home with
    | field i => rw [zoneOf_field hh, zoneOf_field hh, izone_zone hr]
    | entry t i =>
      obtain ⟨ht, hlt, -⟩ := Slot.home_entry hh
      have hz : zoneOf block' r' t = zoneOf block r t := ih t.depth (hd ▸ hlt) t rfl
      rw [zoneOf_entry hh, zoneOf_entry hh, hz, tableEntry, tableEntry]
      by_cases h0 : zoneOf block r t = 0
      · rw [if_pos h0, if_pos h0]
      · rw [if_neg h0, if_neg h0, h t ht h0]
    | nowhere => rw [zoneOf_nowhere hh, zoneOf_nowhere hh]

end zones

-- The numbers of the superblock fit, as `minix_mount` checks, with a bit for every inode and zone.
structure Super.Fits (sb : Super) (nblocks : Nat) : Prop where
  ninodes_lt : sb.ninodes < 2 ^ 16
  nzones_lt : sb.nzones < 2 ^ 16
  table : inodesStart sb + (sb.ninodes * rawInodeSize + blockSize - 1) / blockSize ≤ sb.firstdatazone
  first_lt : sb.firstdatazone < sb.nzones
  device : sb.nzones ≤ nblocks
  imap : sb.ninodes < sb.imapBlocks * bitsPerBlock
  zmap : sb.nzones - sb.firstdatazone < sb.zmapBlocks * bitsPerBlock

def mapBit (block : Nat → Mem) (start idx : Nat) : Bool :=
  testBit (block (start + idx / bitsPerBlock)) (idx % bitsPerBlock)

def zmarked (sb : Super) (block : Nat → Mem) (z : Nat) : Bool :=
  mapBit block (2 + sb.imapBlocks) (z - sb.firstdatazone + 1)

def imarked (block : Nat → Mem) (ino : Nat) : Bool := mapBit block 2 ino

section data

variable {sb : Super} {nblocks z' j : Nat}

def InData (sb : Super) (z : Nat) : Prop := sb.firstdatazone ≤ z ∧ z < sb.nzones

instance : Decidable (InData sb z) := inferInstanceAs (Decidable (_ ∧ _))

@[simp] theorem inData_iff : inData sb z = true ↔ InData sb z := by
  simp [inData, InData]

theorem Super.Fits.first (h : sb.Fits nblocks) : 2 + sb.imapBlocks + sb.zmapBlocks ≤ sb.firstdatazone := by
  have := h.table
  unfold inodesStart at this
  exact (Nat.le_add_right _ _).trans this

theorem Super.Fits.ne_zero (h : sb.Fits nblocks) (hz : InData sb z) : z ≠ 0 := by
  have := h.first
  have := hz.1
  omega

def zmapBlock (sb : Super) (z : Nat) : Nat :=
  2 + sb.imapBlocks + (z - sb.firstdatazone + 1) / bitsPerBlock

theorem Super.Fits.zmapBlock_lt (h : sb.Fits nblocks) (hz : InData sb z) :
    zmapBlock sb z < inodesStart sb := by
  have h1 : (z - sb.firstdatazone + 1) / bitsPerBlock < sb.zmapBlocks := by
    apply Nat.div_lt_of_lt_mul
    have := h.zmap
    have := hz.1
    have := hz.2
    rw [Nat.mul_comm]
    omega
  unfold zmapBlock inodesStart
  omega

theorem Super.Fits.zmapBlock_ne (h : sb.Fits nblocks) (hz : InData sb z) (hz' : InData sb z') :
    z' ≠ zmapBlock sb z := by
  have h1 := h.zmapBlock_lt hz
  have h2 := h.first
  have h3 := hz'.1
  unfold inodesStart at h1
  omega

theorem zmarked_congr (h : block' (zmapBlock sb z) = block (zmapBlock sb z)) :
    zmarked sb block' z = zmarked sb block z := by
  unfold zmarked mapBit zmapBlock at *
  rw [h]

def mark (sb : Super) (block : Nat → Mem) (z : Nat) : Nat → Mem :=
  update block (zmapBlock sb z)
    (setBit (block (zmapBlock sb z)) ((z - sb.firstdatazone + 1) % bitsPerBlock))

def unmark (sb : Super) (block : Nat → Mem) (z : Nat) : Nat → Mem :=
  update block (zmapBlock sb z)
    (clearBit (block (zmapBlock sb z)) ((z - sb.firstdatazone + 1) % bitsPerBlock))

theorem mapBit_update {put : Mem → Nat → Mem} {v : Bool} {i : Nat}
    (hput : ∀ m i j, testBit (put m i) j = if i = j then v else testBit m j) :
    mapBit (update block (start + i / bitsPerBlock)
      (put (block (start + i / bitsPerBlock)) (i % bitsPerBlock))) start j =
        if i = j then v else mapBit block start j := by
  have h := cell_update (f := fun b => block (start + b)) (i := i) (j := j) (n := bitsPerBlock) (by decide)
    fun m i j _ _ => hput m i j
  simpa only [mapBit, update_apply, Nat.add_left_cancel_iff] using h

theorem zidx_iff (hz : InData sb z) (hz' : InData sb z') :
    z - sb.firstdatazone + 1 = z' - sb.firstdatazone + 1 ↔ z = z' := by
  have := hz.1
  have := hz'.1
  omega

theorem zmarked_mark (hz : InData sb z) (hz' : InData sb z') :
    zmarked sb (mark sb block z) z' = (decide (z = z') || zmarked sb block z') := by
  rw [zmarked, mark, zmapBlock, mapBit_update fun _ _ _ => testBit_setBit]
  simp only [zidx_iff hz hz']
  split_ifs with h <;> simp [h, zmarked]

theorem zmarked_unmark (hz : InData sb z) (hz' : InData sb z') :
    zmarked sb (unmark sb block z) z' = (!decide (z = z') && zmarked sb block z') := by
  rw [zmarked, unmark, zmapBlock, mapBit_update fun _ _ _ => testBit_clearBit]
  simp only [zidx_iff hz hz']
  split_ifs with h <;> simp [h, zmarked]

end data

end Jnu.Minix
