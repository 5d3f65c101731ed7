import Jnu.Minix.Zones

namespace Jnu.Minix

open Lib.Bytes
open Function

variable {ι : Type} {t : Slot} {M M' : ι → Slot → Nat}

-- A family of inodes: files in memory, files on disk, or both.
abbrev Files (ι : Type) := ι → Option RawInode

def slotZone (block : Nat → Mem) (F : Files ι) (κ : ι) (sl : Slot) : Nat :=
  match F κ with
  | some r => zoneOf block r sl
  | none => 0

-- Byte `x` of a file as its blocks hold it; a hole and a number outside the data area read as zero.
def byteAt (sb : Super) (block : Nat → Mem) (F : Files ι) (κ : ι) (x : Nat) : Byte :=
  if InData sb (slotZone block F κ (.data (x / blockSize))) then
    block (slotZone block F κ (.data (x / blockSize))) (x % blockSize)
  else 0

-- The indirect tables lie in the data area, and no zone of the data area is named twice.
structure Apart (sb : Super) (M : ι → Slot → Nat) : Prop where
  table : ∀ κ sl, sl.IsTable → M κ sl ≠ 0 → InData sb (M κ sl)
  inj : ∀ κ sl κ' sl', InData sb (M κ sl) → M κ sl = M κ' sl' → κ = κ' ∧ sl = sl'

-- The files lie on the volume without sharing a zone, and their zones are marked as used.
structure Held (sb : Super) (block : Nat → Mem) (F : Files ι) : Prop where
  apart : Apart sb (slotZone block F)
  marked : ∀ κ sl, InData sb (slotZone block F κ sl) → zmarked sb block (slotZone block F κ sl) = true

variable {sb : Super} {nblocks z : Nat} {block block' : Nat → Mem} {F F' : Files ι} {κ κ' : ι}
  {r r1 : RawInode} {sl sl' : Slot}

theorem slotZone_eq (h : F κ = some r) : slotZone block F κ sl = zoneOf block r sl := by
  unfold slotZone
  rw [h]

theorem slotZone_none (h : F κ = none) : slotZone block F κ sl = 0 := by
  unfold slotZone
  rw [h]

theorem slotZone_entry {i : Nat} (hh : sl.home = .entry t i) (ht : slotZone block F κ t ≠ 0) :
    slotZone block F κ sl = entry (block (slotZone block F κ t)) i := by
  cases hF : F κ with
  | none => exact absurd (slotZone_none hF) ht
  | some r => rw [slotZone_eq hF, zoneOf_entry hh, ← slotZone_eq hF, tableEntry, if_neg ht]

theorem slotZone_home_ne (h : slotZone block F κ sl ≠ 0) : sl.home ≠ .nowhere := by
  intro hc
  cases hF : F κ with
  | none => exact h (slotZone_none hF)
  | some r =>
    rw [slotZone_eq hF] at h
    exact h (zoneOf_nowhere hc)

theorem slotZone_congr
    (h : ∀ κ t, t.IsTable → slotZone block F κ t ≠ 0 →
      block' (slotZone block F κ t) = block (slotZone block F κ t)) :
    slotZone block' F = slotZone block F := by
  funext κ sl
  cases hκ : F κ with
  | none =>
    unfold slotZone
    rw [hκ]
  | some r =>
    rw [slotZone_eq hκ, slotZone_eq hκ]
    apply zoneOf_congr rfl
    intro t ht hne
    have := h κ t ht
    rw [slotZone_eq hκ] at this
    exact this hne

theorem slotZone_other (h : F' κ = F κ) : slotZone block F' κ = slotZone block F κ := by
  funext sl
  unfold slotZone
  rw [h]

theorem byteAt_congr {x : Nat}
    (hmap : slotZone block' F' κ (.data (x / blockSize)) = slotZone block F κ (.data (x / blockSize)))
    (hdata : InData sb (slotZone block F κ (.data (x / blockSize))) →
      block' (slotZone block F κ (.data (x / blockSize))) =
        block (slotZone block F κ (.data (x / blockSize)))) :
    byteAt sb block' F' κ x = byteAt sb block F κ x := by
  unfold byteAt
  rw [hmap]
  by_cases h : InData sb (slotZone block F κ (.data (x / blockSize)))
  · rw [if_pos h, if_pos h, hdata h]
  · rw [if_neg h, if_neg h]

section place

variable {i b : Nat}

def place (block : Nat → Mem) (r : RawInode) (sl : Slot) (z : Nat) : (Nat → Mem) × RawInode :=
  match sl.home with
  | .field i => (block, r.setZone i z)
  | .entry t i =>
    (update block (zoneOf block r t) (putEntry (block (zoneOf block r t)) i z), r)
  | .nowhere => (block, r)

-- The slot can be given a number: the table it is kept in is there.
def Open (block : Nat → Mem) (r : RawInode) (sl : Slot) : Prop :=
  match sl.home with
  | .field _ => True
  | .entry t _ => zoneOf block r t ≠ 0
  | .nowhere => False

-- Nothing hangs below the slot.
def Bare (block : Nat → Mem) (r : RawInode) (sl : Slot) : Prop :=
  ∀ sl' i, sl'.home = .entry sl i → zoneOf block r sl' = 0

theorem Open.congr (ho : Open block r sl) (h : ∀ t, zoneOf block' r t = zoneOf block r t) :
    Open block' r sl := by
  unfold Open at ho ⊢
  cases hh : sl.home with
  | field i => trivial
  | entry t i =>
    rw [hh] at ho
    dsimp only
    rw [h t]
    exact ho
  | nowhere =>
    rw [hh] at ho
    exact ho

theorem Bare.congr (hb : Bare block r sl) (h : ∀ t, zoneOf block' r t = zoneOf block r t) :
    Bare block' r sl := by
  intro sl' i hh
  rw [h]
  exact hb sl' i hh

theorem bare_of_zero (h : zoneOf block r sl = 0) : Bare block r sl := by
  intro sl' i hh
  rw [zoneOf_entry hh, tableEntry, if_pos h]

theorem bare_data (b : Nat) : Bare block r (.data b) := by
  intro sl' i hh
  exact ((Slot.home_entry hh).1).elim

theorem place_field (h : sl.home = .field i) : place block r sl z = (block, r.setZone i z) := by
  unfold place
  rw [h]

theorem place_entry (h : sl.home = .entry t i) : place block r sl z =
      (update block (zoneOf block r t) (putEntry (block (zoneOf block r t)) i z), r) := by
  unfold place
  rw [h]

theorem open_entry (ho : Open block r sl) (h : sl.home = .entry t i) : zoneOf block r t ≠ 0 := by
  unfold Open at ho
  rw [h] at ho
  exact ho

theorem Open.home_ne (ho : Open block r sl) : sl.home ≠ .nowhere := by
  intro hc
  unfold Open at ho
  rw [hc] at ho
  exact ho

theorem place_block (h : ∀ t i, sl.home = .entry t i → b ≠ zoneOf block r t) :
    (place block r sl z).1 b = block b := by
  cases hh : sl.home with
  | field i => rw [place_field hh]
  | entry t i =>
    rw [place_entry hh]
    exact update_of_ne (h t i hh) _ _
  | nowhere =>
    unfold place
    rw [hh]

theorem setZone_other (r : RawInode) (i z : Nat) :
    r.setZone i z = { r with zone := (r.setZone i z).zone } := by
  unfold RawInode.setZone
  split_ifs <;> rfl

theorem place_raw : (place block r sl z).2 = { r with zone := (place block r sl z).2.zone } := by
  cases hh : sl.home with
  | field i =>
    rw [place_field hh]
    exact setZone_other r i z
  | entry t i => rw [place_entry hh]
  | nowhere =>
    unfold place
    rw [hh]

theorem izone_place (hz : z < 2 ^ 16) :
    (place block r sl z).2.izone i = if sl.home = .field i then z else r.izone i := by
  cases hh : sl.home with
  | field i' =>
    rw [place_field hh, izone_setZone (Slot.home_field hh) hz]
    by_cases hi : i' = i
    · rw [if_pos hi, if_pos (by rw [hi])]
    · rw [if_neg hi, if_neg (by simpa using hi)]
  | entry t i' =>
    rw [place_entry hh]
    simp
  | nowhere =>
    unfold place
    rw [hh]
    simp

theorem entry_place (block : Nat → Mem) (r : RawInode) (sl : Slot) (w i : Nat) (hz : z < 2 ^ 16) :
    (entry ((place block r sl z).1 w) i = z ∧ ∃ t, sl.home = .entry t i ∧ w = zoneOf block r t) ∨
      (entry ((place block r sl z).1 w) i = entry (block w) i ∧
        ¬ ∃ t, sl.home = .entry t i ∧ w = zoneOf block r t) := by
  by_cases h : ∃ t i', sl.home = .entry t i' ∧ w = zoneOf block r t
  · obtain ⟨t, i', hh, hw⟩ := h
    have hval : entry ((place block r sl z).1 w) i = if i' = i then z else entry (block w) i := by
      rw [place_entry hh, hw]
      dsimp only
      rw [update_self, entry_putEntry hz]
    by_cases hi : i' = i
    · rw [if_pos hi] at hval
      exact .inl ⟨hval, t, by rw [hh, hi], hw⟩
    rw [if_neg hi] at hval
    refine .inr ⟨hval, fun ⟨t', hh', _⟩ => hi ?_⟩
    rw [hh] at hh'
    cases hh'
    rfl
  · refine .inr ⟨?_, fun ⟨t, hh, hw⟩ => h ⟨t, i, hh, hw⟩⟩
    rw [place_block fun t i' hh hw => h ⟨t, i', hh, hw⟩]

variable [DecidableEq ι]

theorem update_place (hκ : F κ = some r) (hz : z < 2 ^ 16)
    (hF : update F κ (some (place block r sl z).2) κ' = some r1) :
    ∃ r0, F κ' = some r0 ∧ (κ' = κ → r0 = r) ∧
      ∀ i, r1.izone i = if κ' = κ ∧ sl.home = .field i then z else r0.izone i := by
  by_cases hk : κ' = κ
  · rw [hk, update_self, Option.some.injEq] at hF
    refine ⟨r, by rw [hk, hκ], fun _ => rfl, fun i => ?_⟩
    rw [← hF, izone_place hz]
    simp [hk]
  · rw [update_of_ne hk] at hF
    exact ⟨r1, hF, fun hc => absurd hc hk, fun i => by rw [if_neg fun hc => hk hc.1]⟩

theorem slotZone_place (ha : Apart sb (slotZone block F)) (hκ : F κ = some r)
    (hz : z < 2 ^ 16) (ho : Open block r sl) (hbare : Bare block r sl)
    (hnew : sl.IsTable → z ≠ 0 → ∀ i, entry (block z) i = 0)
    (hfresh : z ≠ 0 → ∀ t, zoneOf block r t ≠ z) (κ' : ι) (sl' : Slot) :
    slotZone (place block r sl z).1 (update F κ (some (place block r sl z).2)) κ' sl' =
      if κ' = κ ∧ sl' = sl then z else slotZone block F κ' sl' := by
  -- on the depth of the slot: its table is less deep
  induction hd : sl'.depth using Nat.strong_induction_on generalizing sl' with
  | _ d ih =>
  cases hF : update F κ (some (place block r sl z).2) κ' with
  | none =>
    have hne : κ' ≠ κ := by
      intro hc
      rw [hc, update_self] at hF
      cases hF
    rw [slotZone_none hF, if_neg fun hc => hne hc.1, slotZone_none]
    rwa [update_of_ne hne] at hF
  | some r1 =>
  obtain ⟨r0, hr0, hrr, hraw⟩ := update_place hκ hz hF
  rw [slotZone_eq hF, slotZone_eq hr0]
  cases hh : sl'.home with
  | field i =>
    have hiff : sl.home = .field i ↔ sl' = sl := by
      rw [← hh]
      exact ⟨fun hc => (Slot.home_inj hc ho.home_ne).symm, fun hc => by rw [hc]⟩
    rw [zoneOf_field hh, zoneOf_field hh, hraw i]
    simp only [hiff]
  | nowhere =>
    have hs : sl' ≠ sl := fun hc => ho.home_ne (hc ▸ hh)
    rw [zoneOf_nowhere hh, zoneOf_nowhere hh, if_neg fun hc => hs hc.2]
  | entry t' i' =>
    obtain ⟨ht', hlt, -⟩ := Slot.home_entry hh
    have iht := ih t'.depth (hd ▸ hlt) t' rfl
    rw [slotZone_eq hF, slotZone_eq hr0] at iht
    rw [zoneOf_entry hh, zoneOf_entry hh, iht]
    by_cases hself : κ' = κ ∧ t' = sl
    · -- a slot below the one that changes: empty before, empty after
      have hsl : sl' ≠ sl := fun hc => by
        rw [hself.2, hc] at hlt
        exact Nat.lt_irrefl _ hlt
      have hold : tableEntry block (zoneOf block r0 t') i' = 0 := by
        rw [hrr hself.1, ← zoneOf_entry hh]
        exact hbare sl' i' (hself.2 ▸ hh)
      rw [if_pos hself, if_neg fun hc => hsl hc.2, hold, tableEntry]
      by_cases hz0 : z = 0
      · rw [if_pos hz0]
      · rw [if_neg hz0, place_block fun t i _ => (hfresh hz0 t).symm]
        exact hnew (hself.2 ▸ ht') hz0 i'
    · rw [if_neg hself]
      by_cases hw : zoneOf block r0 t' = 0
      · have hne : ¬ (κ' = κ ∧ sl' = sl) := fun hc =>
          open_entry ho (hc.2 ▸ hh) (hrr hc.1 ▸ hw)
        rw [if_neg hne, tableEntry, tableEntry, if_pos hw, if_pos hw]
      have hwM : slotZone block F κ' t' = zoneOf block r0 t' := slotZone_eq hr0
      have hin := ha.table κ' t' ht' (hwM ▸ hw)
      rw [tableEntry, tableEntry, if_neg hw, if_neg hw]
      rcases entry_place block r sl (zoneOf block r0 t') i' hz with
        ⟨hval, t, hsh, hu⟩ | ⟨hval, hno⟩
      · -- one table, one entry: one slot
        obtain ⟨hk, ht⟩ := ha.inj κ' t' κ t hin (by rw [hwM, slotZone_eq hκ, hu])
        have hs : sl = sl' := Slot.home_inj (by rw [hsh, hh, ht]) ho.home_ne
        rw [hval, if_pos ⟨hk, hs.symm⟩]
      · rw [hval, if_neg]
        exact fun hc => hno ⟨t', hc.2 ▸ hh, by rw [hrr hc.1]⟩

end place

section volume

variable {b w x i : Nat}

-- A free zone taken: marked and zeroed.
def freshen (sb : Super) (block : Nat → Mem) (z : Nat) : Nat → Mem :=
  update (mark sb block z) z fun _ => 0

theorem freshen_self : freshen sb block z z = fun _ => 0 := update_self ..

theorem freshen_of_ne (hb : b ≠ z) (hm : b ≠ zmapBlock sb z) : freshen sb block z b = block b := by
  rw [freshen, update_of_ne hb, mark, update_of_ne hm]

theorem zmarked_freshen (hf : sb.Fits nblocks) (hz : InData sb z) (hw : InData sb w) :
    zmarked sb (freshen sb block z) w = (decide (z = w) || zmarked sb block w) := by
  rw [← zmarked_mark hz hw]
  apply zmarked_congr
  exact update_of_ne (hf.zmapBlock_ne hw hz).symm _ _

theorem Held.unused (h : Held sb block F) (hz : InData sb z) (hm : zmarked sb block z = false)
    (κ : ι) (sl : Slot) : slotZone block F κ sl ≠ z := by
  intro hc
  have := h.marked κ sl (hc ▸ hz)
  rw [hc, hm] at this
  cases this

section

variable (hf : sb.Fits nblocks) (h : Held sb block F) (hz : InData sb z) (hm : zmarked sb block z = false)
include hf h hz hm

theorem Held.slotZone_freshen : slotZone (freshen sb block z) F = slotZone block F := by
  apply slotZone_congr
  intro κ t ht hne
  have hin := h.apart.table κ t ht hne
  exact freshen_of_ne (h.unused hz hm κ t) (hf.zmapBlock_ne hz hin)

theorem Held.byteAt_freshen : byteAt sb (freshen sb block z) F κ x = byteAt sb block F κ x := by
  apply byteAt_congr
  · rw [h.slotZone_freshen hf hz hm]
  · intro hin
    exact freshen_of_ne (h.unused hz hm κ _) (hf.zmapBlock_ne hz hin)

theorem Held.freshen : Held sb (freshen sb block z) F := by
  have hmap := h.slotZone_freshen hf hz hm
  refine ⟨by rw [hmap]; exact h.apart, fun κ sl hin => ?_⟩
  rw [hmap] at hin ⊢
  rw [zmarked_freshen hf hz hin, h.marked κ sl hin, Bool.or_true]

end

section

variable (ha : Apart sb (slotZone block F)) (hκ : F κ = some r)
include ha hκ

theorem Apart.place_table (ho : Open block r sl) (hh : sl.home = .entry t i) :
    InData sb (slotZone block F κ t) := by
  apply ha.table κ t (Slot.home_entry hh).1
  rw [slotZone_eq hκ]
  exact open_entry ho hh

theorem Apart.place_block (ho : Open block r sl) (hb : ¬ InData sb b) :
    (place block r sl z).1 b = block b := by
  apply Minix.place_block
  intro t i hh hc
  have := ha.place_table hκ ho hh
  rw [slotZone_eq hκ, ← hc] at this
  exact hb this

theorem Apart.place_data (sl : Slot) (z : Nat) (hd : ¬ sl'.IsTable)
    (hin : InData sb (slotZone block F κ' sl')) :
    (place block r sl z).1 (slotZone block F κ' sl') = block (slotZone block F κ' sl') := by
  apply Minix.place_block
  intro t i hh hc
  have heq := ha.inj κ' sl' κ t hin (by rw [hc, slotZone_eq hκ])
  exact hd (heq.2 ▸ (Slot.home_entry hh).1)

end

theorem Apart.zmarked_place (hf : sb.Fits nblocks) (ha : Apart sb (slotZone block F))
    (hκ : F κ = some r) (ho : Open block r sl) (hw : InData sb w) :
    zmarked sb (place block r sl z).1 w = zmarked sb block w :=
  zmarked_congr (ha.place_block hκ ho fun hc => hf.zmapBlock_ne hw hc rfl)

theorem Super.Fits.zero_out (hf : sb.Fits nblocks) : ¬ InData sb 0 := fun hc => hf.ne_zero hc rfl

theorem Apart.set (ha : Apart sb M) (hz : z = 0 ∨ InData sb z) (hun : InData sb z → ∀ κ sl, M κ sl ≠ z)
    (hself : M' κ sl = z) (hother : ∀ κ' sl', ¬ (κ' = κ ∧ sl' = sl) → M' κ' sl' = M κ' sl') : Apart sb M' := by
  constructor
  · intro κ' sl' ht hne
    by_cases hc : κ' = κ ∧ sl' = sl
    · rw [hc.1, hc.2, hself] at hne ⊢
      exact hz.resolve_left hne
    · rw [hother κ' sl' hc] at hne ⊢
      exact ha.table κ' sl' ht hne
  intro κ1 sl1 κ2 sl2 hin heq
  by_cases h1 : κ1 = κ ∧ sl1 = sl
  · by_cases h2 : κ2 = κ ∧ sl2 = sl
    · exact ⟨h1.1.trans h2.1.symm, h1.2.trans h2.2.symm⟩
    · rw [h1.1, h1.2, hself] at hin heq
      rw [hother κ2 sl2 h2] at heq
      exact absurd heq.symm (hun hin κ2 sl2)
  · rw [hother κ1 sl1 h1] at hin heq
    by_cases h2 : κ2 = κ ∧ sl2 = sl
    · rw [h2.1, h2.2, hself] at heq
      exact absurd heq (hun (heq ▸ hin) κ1 sl1)
    · rw [hother κ2 sl2 h2] at heq
      exact ha.inj κ1 sl1 κ2 sl2 hin heq

-- What `minix_safe_free_zone` does to the volume.
def release (sb : Super) (block : Nat → Mem) (z : Nat) : Nat → Mem :=
  if InData sb z then unmark sb block z else block

theorem release_of_ne (hm : InData sb z → b ≠ zmapBlock sb z) : release sb block z b = block b := by
  unfold release
  split_ifs with hz
  · rw [unmark, update_of_ne (hm hz)]
  · rfl

theorem release_data (hf : sb.Fits nblocks) (hb : InData sb b) : release sb block z b = block b :=
  release_of_ne fun hz => hf.zmapBlock_ne hz hb

theorem zmarked_release (hw : InData sb w) :
    zmarked sb (release sb block z) w = (!decide (z = w) && zmarked sb block w) := by
  unfold release
  split_ifs with hz
  · exact zmarked_unmark hz hw
  · have hne : z ≠ w := fun hc => hz (hc ▸ hw)
    simp [hne]

theorem Apart.slotZone_release (hf : sb.Fits nblocks) (ha : Apart sb (slotZone block F)) :
    slotZone (release sb block z) F = slotZone block F := by
  apply slotZone_congr
  intro κ t ht hne
  exact release_data hf (ha.table κ t ht hne)

theorem Held.slotZone_write {m : Mem} (h : Held sb block F) (hd : ¬ sl.IsTable)
    (hz : InData sb (slotZone block F κ sl)) :
    slotZone (update block (slotZone block F κ sl) m) F = slotZone block F := by
  apply slotZone_congr
  intro κ' t ht hne
  apply update_of_ne
  intro hc
  have heq := h.apart.inj κ sl κ' t hz hc.symm
  exact hd (heq.2 ▸ ht)

theorem Held.write {m : Mem} (hf : sb.Fits nblocks) (h : Held sb block F) (hd : ¬ sl.IsTable)
    (hz : InData sb (slotZone block F κ sl)) : Held sb (update block (slotZone block F κ sl) m) F := by
  have hmap := h.slotZone_write (m := m) hd hz
  constructor
  · rw [hmap]
    exact h.apart
  intro κ' sl' hin
  rw [hmap] at hin ⊢
  rw [zmarked_congr (update_of_ne (hf.zmapBlock_ne hin hz).symm _ _)]
  exact h.marked κ' sl' hin

variable [DecidableEq ι]

-- How the volume looks after one slot of one file got the number `z`.
structure Placed (sb : Super) (block : Nat → Mem) (F : Files ι) (block' : Nat → Mem)
    (F' : Files ι) (κ : ι) (sl : Slot) (z : Nat) : Prop where
  held : Held sb block' F'
  self : slotZone block' F' κ sl = z
  other : ∀ κ' sl', ¬ (κ' = κ ∧ sl' = sl) → slotZone block' F' κ' sl' = slotZone block F κ' sl'

-- A slot gets no number, or that of a zone which is marked and zero and in no other slot.
theorem Apart.put (hf : sb.Fits nblocks) (ha : Apart sb (slotZone block F)) (hκ : F κ = some r)
    (ho : Open block r sl) (hbare : Bare block r sl)
    (hz : z ≠ 0 → InData sb z ∧ zmarked sb block z = true ∧ (block z = fun _ => 0) ∧
      ∀ κ sl, slotZone block F κ sl ≠ z)
    (hm : ∀ κ' sl', ¬ (κ' = κ ∧ sl' = sl) → InData sb (slotZone block F κ' sl') →
      zmarked sb block (slotZone block F κ' sl') = true) :
    Placed sb block F (place block r sl z).1 (update F κ (some (place block r sl z).2)) κ sl z ∧
      ∀ κ' x, byteAt sb (place block r sl z).1 (update F κ (some (place block r sl z).2)) κ' x =
        if κ' = κ ∧ Slot.data (x / blockSize) = sl then 0 else byteAt sb block F κ' x := by
  have hlt : z < 2 ^ 16 := by
    by_cases h0 : z = 0
    · omega
    · exact Nat.lt_trans (hz h0).1.2 hf.nzones_lt
  have hun : InData sb z → ∀ κ sl, slotZone block F κ sl ≠ z := fun hin => (hz (hf.ne_zero hin)).2.2.2
  have hmap := slotZone_place ha hκ hlt ho hbare (fun _ h0 i => by rw [(hz h0).2.2.1, entry_zero])
    (fun h0 t hc => (hz h0).2.2.2 κ t (by rw [slotZone_eq hκ, hc]))
  have hself := (hmap κ sl).trans (if_pos ⟨rfl, rfl⟩)
  have hother : ∀ κ' sl', ¬ (κ' = κ ∧ sl' = sl) → _ := fun κ' sl' hc => (hmap κ' sl').trans (if_neg hc)
  have hz' : z = 0 ∨ InData sb z := or_iff_not_imp_left.2 fun h0 => (hz h0).1
  refine ⟨⟨⟨ha.set hz' hun hself hother, fun κ' sl' hin => ?_⟩, hself, hother⟩, fun κ' x => ?_⟩
  · rw [ha.zmarked_place hf hκ ho hin]
    by_cases hc : κ' = κ ∧ sl' = sl
    · rw [hc.1, hc.2, hself] at hin ⊢
      exact (hz (hf.ne_zero hin)).2.1
    · rw [hother κ' sl' hc] at hin ⊢
      exact hm κ' sl' hc hin
  · split_ifs with hc
    · unfold byteAt
      rw [hc.1, hc.2, hself]
      split_ifs with hin
      · rw [Minix.place_block fun t i _ hcc => hun hin κ t (by rw [slotZone_eq hκ, hcc]),
          (hz (hf.ne_zero hin)).2.2.1]
      · rfl
    · apply byteAt_congr
      · exact hother κ' _ hc
      · exact ha.place_data hκ sl z (Slot.not_table _)

-- The blocks in front of the data area that belong to inodes.
def InodeArea (sb : Super) (b : Nat) : Prop :=
  b < 2 + sb.imapBlocks ∨ (inodesStart sb ≤ b ∧ b < sb.firstdatazone)

theorem InodeArea.not_data (hf : sb.Fits nblocks) (hb : InodeArea sb b) : ¬ InData sb b := by
  have := hf.first
  rcases hb with hb | hb
  · exact fun hc => absurd hc.1 (by omega)
  · exact fun hc => absurd hc.1 (by omega)

theorem InodeArea.ne_zmap (hf : sb.Fits nblocks) (hb : InodeArea sb b)
    (hz : InData sb z) : b ≠ zmapBlock sb z := by
  have h1 := hf.zmapBlock_lt hz
  have h2 : 2 + sb.imapBlocks ≤ zmapBlock sb z := Nat.le_add_right _ _
  rcases hb with hb | hb
  · omega
  · omega

-- A free zone put into an empty slot: the new block shows the zeroes of the hole.
structure Attached (sb : Super) (block : Nat → Mem) (F : Files ι) (block' : Nat → Mem)
    (F' : Files ι) (κ : ι) (sl : Slot) (z : Nat) : Prop extends
    Placed sb block F block' F' κ sl z where
  marks : ∀ w, InData sb w → zmarked sb block' w = (decide (z = w) || zmarked sb block w)
  bytes : ∀ κ' x, byteAt sb block' F' κ' x = byteAt sb block F κ' x
  zero : block' z = fun _ => 0
  below : ∀ b, InodeArea sb b → block' b = block b

theorem Held.fetch (hf : sb.Fits nblocks) (h : Held sb block F) (hκ : F κ = some r) (hz : InData sb z)
    (hm : zmarked sb block z = false) (ho : Open block r sl) (h0 : zoneOf block r sl = 0) :
    Attached sb block F (place (Minix.freshen sb block z) r sl z).1
      (update F κ (some (place (Minix.freshen sb block z) r sl z).2)) κ sl z := by
  have hmap := h.slotZone_freshen hf hz hm
  have hheld := h.freshen hf hz hm
  have hzone : ∀ t, zoneOf (Minix.freshen sb block z) r t = zoneOf block r t := fun t => by
    rw [← slotZone_eq hκ, hmap, slotZone_eq hκ]
  have hun : ∀ κ sl, slotZone (Minix.freshen sb block z) F κ sl ≠ z := by
    rw [hmap]
    exact h.unused hz hm
  have hopen := ho.congr hzone
  have hmz : zmarked sb (Minix.freshen sb block z) z = true := by
    rw [zmarked_freshen hf hz hz]
    simp
  obtain ⟨hp, hbytes⟩ := hheld.apart.put hf hκ hopen (bare_of_zero (by rw [hzone, h0]))
    (fun _ => ⟨hz, hmz, freshen_self, hun⟩) fun κ' sl' _ => hheld.marked κ' sl'
  refine ⟨⟨hp.held, hp.self, fun κ' sl' hc => ?_⟩, fun w hw => ?_, fun κ' x => ?_, ?_, fun b hb => ?_⟩
  · rw [hp.other κ' sl' hc, hmap]
  · rw [hheld.apart.zmarked_place hf hκ hopen hw, zmarked_freshen hf hz hw]
  · rw [hbytes, h.byteAt_freshen hf hz hm]
    split_ifs with hc
    · rw [byteAt, hc.1, hc.2, slotZone_eq hκ, h0, if_neg hf.zero_out]
    · rfl
  · rw [place_block fun t _ _ => by rw [← slotZone_eq hκ]; exact (hun κ t).symm, freshen_self]
  · have hbz : b ≠ z := fun hc => hb.not_data hf (hc ▸ hz)
    rw [hheld.apart.place_block hκ hopen (hb.not_data hf), freshen_of_ne hbz (hb.ne_zmap hf hz)]

-- A slot that lost its number, and the zone with it.
structure Detached (sb : Super) (block : Nat → Mem) (F : Files ι) (block' : Nat → Mem)
    (F' : Files ι) (κ : ι) (sl : Slot) : Prop extends
    Placed sb block F block' F' κ sl 0 where
  marks : ∀ w, InData sb w →
    zmarked sb block' w = (!decide (slotZone block F κ sl = w) && zmarked sb block w)
  bytes : ∀ κ' x, byteAt sb block' F' κ' x =
    if κ' = κ ∧ Slot.data (x / blockSize) = sl then 0 else byteAt sb block F κ' x
  below : ∀ b, InodeArea sb b → block' b = block b

theorem Held.drop (hf : sb.Fits nblocks) (h : Held sb block F) (hκ : F κ = some r)
    (ho : Open block r sl) (hbare : Bare block r sl) :
    Detached sb block F (place (release sb block (zoneOf block r sl)) r sl 0).1
      (update F κ (some (place (release sb block (zoneOf block r sl)) r sl 0).2)) κ sl := by
  have hsame := h.apart.slotZone_release (z := zoneOf block r sl) hf
  have ha : Apart sb (slotZone (release sb block (zoneOf block r sl)) F) := by
    rw [hsame]
    exact h.apart
  have hzone : ∀ t, zoneOf (release sb block (zoneOf block r sl)) r t = zoneOf block r t := fun t => by
    rw [← slotZone_eq hκ, hsame, slotZone_eq hκ]
  have hopen := ho.congr hzone
  obtain ⟨hp, hbytes⟩ := ha.put (z := 0) hf hκ hopen (hbare.congr hzone) (fun h0 => absurd rfl h0)
    fun κ' sl' hc hin => by
      rw [hsame] at hin ⊢
      have hne : zoneOf block r sl ≠ slotZone block F κ' sl' := by
        intro hcc
        rw [← slotZone_eq hκ] at hcc
        exact hc (h.apart.inj κ' sl' κ sl hin hcc.symm)
      rw [zmarked_release hin, h.marked κ' sl' hin]
      simp [hne]
  refine ⟨⟨hp.held, hp.self, fun κ' sl' hc => ?_⟩, fun w hw => ?_, fun κ' x => ?_, fun b hb => ?_⟩
  · rw [hp.other κ' sl' hc, hsame]
  · rw [ha.zmarked_place hf hκ hopen hw, zmarked_release hw, slotZone_eq hκ]
  · rw [hbytes]
    refine if_congr Iff.rfl rfl (byteAt_congr (by rw [hsame]) fun hin => release_data hf hin)
  · rw [ha.place_block hκ hopen (hb.not_data hf), release_of_ne fun hz => hb.ne_zmap hf hz]

end volume

end Jnu.Minix
