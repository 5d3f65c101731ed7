import Jnu.Minix.Shrink

namespace Jnu.Minix

open Lib.Bytes Lib.Effect
open Function

variable {ι : Type} [DecidableEq ι] {o i fuel offset len n : Nat} {κ : ι} {s s' s'' : Fs} {F : Files ι}
  {nd : Node} {c : Clock} {b z : Nat}

section read

variable {left curr : Nat}

theorem minixBmap_read {Q : Nat → Fs → Prop} (h : Good s F κ o)
    (hQ : ∀ c, Q (if InData s.sb (slotZone s.block F κ (.data b)) then
      slotZone s.block F κ (.data b) else 0) (s.at c)) :
    wp (minixBmap o b false) Q never s := by
  apply (minixBmap_spec h).post _
  intro z s' hm
  obtain ⟨c, rfl⟩ := hm.still rfl
  have hF : F.refresh κ (s.at c) o = F := h.refresh
  rw [hm.value, hF]
  exact hQ c

theorem chunk_pos (curr : Nat) (hl : left ≠ 0) : 0 < min (blockSize - curr % blockSize) left := by
  have : curr % blockSize < blockSize := Nat.mod_lt _ (by decide)
  omega

theorem chunk_block (h : i < min (blockSize - curr % blockSize) left) :
    (curr + i) / blockSize = curr / blockSize ∧ (curr + i) % blockSize = curr % blockSize + i := by
  unfold blockSize at *
  omega

omit [DecidableEq ι] in
theorem readBlock_spec {Q : List Byte → Fs → Prop} (h : Good s F κ o)
    (hQ : ∀ c, Q (slice (byteAt s.sb s.block F κ) curr (min (blockSize - curr % blockSize) left))
      (s.at c)) :
    wp (readBlock (if InData s.sb (slotZone s.block F κ (.data (curr / blockSize))) then
        slotZone s.block F κ (.data (curr / blockSize)) else 0) (curr % blockSize)
      (min (blockSize - curr % blockSize) left)) Q never s := by
  unfold readBlock
  by_cases hin : InData s.sb (slotZone s.block F κ (.data (curr / blockSize)))
  · rw [if_pos hin, if_neg (h.fits.ne_zero hin)]
    apply wp_get_then h.calm (Nat.lt_of_lt_of_le hin.2 h.fits.device)
    intro c
    apply wp_dataOf
    apply wp_pure
    have hbytes : slice (s.block (slotZone s.block F κ (.data (curr / blockSize))))
        (curr % blockSize) (min (blockSize - curr % blockSize) left) =
          slice (byteAt s.sb s.block F κ) curr (min (blockSize - curr % blockSize) left) := by
      apply slice_congr
      intro i hi
      obtain ⟨h1, h2⟩ := chunk_block hi
      rw [byteAt, h1, h2, if_pos hin]
    rw [at_block, hbytes]
    exact hQ c
  · rw [if_neg hin, if_pos rfl]
    apply wp_pure
    have hzero : List.replicate (min (blockSize - curr % blockSize) left) 0 =
        slice (byteAt s.sb s.block F κ) curr (min (blockSize - curr % blockSize) left) := by
      apply List.ext_getElem
      · simp
      intro i h1 _
      rw [List.length_replicate] at h1
      obtain ⟨h3, -⟩ := chunk_block h1
      simp [slice, byteAt, h3, hin]
    rw [hzero]
    exact hQ s.clock

theorem readLoop_spec (h : Good s F κ o) (hfuel : left ≤ fuel) (hend : curr + left ≤ 2 ^ 42) :
    wp (readLoop o fuel left curr) (fun bs s' => (∃ c, s' = s.at c) ∧
      bs = slice (byteAt s.sb s.block F κ) curr left) never s := by
  induction fuel generalizing left curr s with
  | zero =>
    obtain rfl : left = 0 := by omega
    exact wp_pure ⟨⟨s.clock, rfl⟩, rfl⟩
  | succ fuel ih =>
    rw [readLoop]
    by_cases hl : left = 0
    · rw [if_pos hl, hl]
      exact wp_pure ⟨⟨s.clock, rfl⟩, rfl⟩
    rw [if_neg hl]
    have hpos := chunk_pos curr hl
    have hblk : curr / blockSize % 2 ^ 32 = curr / blockSize := by
      unfold blockSize
      omega
    rw [hblk]
    apply wp_bind
    apply minixBmap_read h
    intro c
    apply wp_bind
    apply readBlock_spec (h.at c)
    intro c'
    apply (ih (h.at c') (by omega) (by omega)).next _
    intro rest s' ⟨⟨c'', hs'⟩, hr⟩
    refine wp_pure ⟨⟨c'', hs'⟩, ?_⟩
    have hsplit : left = min (blockSize - curr % blockSize) left +
        (left - min (blockSize - curr % blockSize) left) := by omega
    rw [hr]
    exact slice_add.symm.trans (by rw [← hsplit]; rfl)

theorem minixRead_spec (h : Good s F κ o) (hn : s.node o = some nd) (hsize : nd.size ≤ 2 ^ 42) :
    wp (minixRead o offset len) (fun bs s' => (∃ c, s' = s.at c) ∧
      bs = slice (byteAt s.sb s.block F κ) offset (min len (nd.size - offset)))
      never s := by
  apply wp_bind_nodeOf hn
  split_ifs with hoff
  · refine wp_pure ⟨⟨s.clock, rfl⟩, ?_⟩
    rw [show min len (nd.size - offset) = 0 by omega]
    rfl
  · exact readLoop_spec h (Nat.le_refl _) (by omega)

end read

section write

variable {lo curr : Nat} {bs bs' : List Byte}

-- The bytes `bs` stored from `lo` on in blocks the file has; the map and the marks are the same.
structure Stored (κ : ι) (lo : Nat) (bs : List Byte) (s : Fs) (F : Files ι) (s' : Fs) : Prop where
  state : ∃ c block, s' = (s.at c).withBlock block
  held : Held s.sb s'.block F
  map : slotZone s'.block F = slotZone s.block F
  marks : ∀ w, InData s.sb w → zmarked s.sb s'.block w = zmarked s.sb s.block w
  bytes : ∀ κ' x, byteAt s.sb s'.block F κ' x =
    if κ' = κ ∧ lo ≤ x ∧ x < lo + bs.length then bs.getD (x - lo) 0 else byteAt s.sb s.block F κ' x
  below : ∀ b, InodeArea s.sb b → s'.block b = s.block b

theorem Stored.at (h : Good s F κ o) (lo : Nat) (c : Clock) : Stored κ lo [] s F (s.at c) := by
  refine ⟨⟨c, s.block, rfl⟩, h.held, rfl, fun _ _ => rfl, fun κ' x => ?_, fun _ _ => rfl⟩
  rw [if_neg]
  · rfl
  · simp

theorem Stored.sb (h : Stored κ lo bs s F s') : s'.sb = s.sb := by
  obtain ⟨c, block, rfl⟩ := h.state
  rfl

theorem Good.stored (h : Good s F κ o) (hs : Stored κ lo bs s F s') : Good s' F κ o := by
  have hheld := hs.held
  obtain ⟨c, block, rfl⟩ := hs.state
  exact ⟨h.fits, h.calm, hheld, h.live⟩

theorem Stored.append (h : Stored κ lo bs s F s') (hn : bs.length = n)
    (h' : Stored κ (lo + n) bs' s' F s'') : Stored κ lo (bs ++ bs') s F s'' := by
  subst hn
  have hsb : s'.sb = s.sb := h.sb
  obtain ⟨hstate', hheld', hmap', hmarks', hbytes', hbelow'⟩ := h'
  rw [hsb] at hheld' hmarks' hbytes' hbelow'
  refine ⟨?_, hheld', hmap'.trans h.map, fun w hw => (hmarks' w hw).trans (h.marks w hw),
    fun κ' x => ?_, fun b hb => (hbelow' b hb).trans (h.below b hb)⟩
  · obtain ⟨c, block, rfl⟩ := h.state
    obtain ⟨c', block', rfl⟩ := hstate'
    exact ⟨c', block', rfl⟩
  rw [hbytes', h.bytes, List.length_append]
  by_cases hk : κ' = κ
  · by_cases h1 : lo ≤ x ∧ x < lo + bs.length
    · rw [if_neg (by omega), if_pos ⟨hk, h1⟩, if_pos ⟨hk, h1.1, by omega⟩,
        List.getD_append _ _ _ _ (by omega)]
    by_cases h2 : lo + bs.length ≤ x ∧ x < lo + bs.length + bs'.length
    · rw [if_pos ⟨hk, h2⟩, if_pos ⟨hk, by omega, by omega⟩,
        List.getD_append_right _ _ _ _ (by omega), Nat.sub_sub]
    · rw [if_neg fun hc => h2 hc.2, if_neg fun hc => h1 hc.2, if_neg]
      omega
  · rw [if_neg fun hc => hk hc.1, if_neg fun hc => hk hc.1, if_neg fun hc => hk hc.1]

theorem Good.storeBlock (h : Good s F κ o)
    (hin : InData s.sb (slotZone s.block F κ (.data (curr / blockSize))))
    (hlen : bs.length ≤ blockSize - curr % blockSize) :
    Stored κ curr bs s F ((s.at c).withBlock (update s.block
      (slotZone s.block F κ (.data (curr / blockSize)))
      (blit (s.block (slotZone s.block F κ (.data (curr / blockSize)))) (curr % blockSize) bs))) := by
  have hnt := Slot.not_table (curr / blockSize)
  refine ⟨⟨c, _, rfl⟩, h.held.write h.fits hnt hin, h.held.slotZone_write hnt hin, fun w hw => ?_,
    fun κ' x => ?_, fun b hb => ?_⟩
  · exact zmarked_congr (update_of_ne (h.fits.zmapBlock_ne hw hin).symm _ _)
  · have hmap := h.held.slotZone_write
      (m := blit (s.block (slotZone s.block F κ (.data (curr / blockSize)))) (curr % blockSize) bs)
      hnt hin
    unfold byteAt
    rw [withBlock_block, hmap]
    by_cases hsame : κ' = κ ∧ x / blockSize = curr / blockSize
    · rw [hsame.1, hsame.2, if_pos hin, if_pos hin, update_self]
      have hx := Nat.div_add_mod x blockSize
      have hc := Nat.div_add_mod curr blockSize
      rw [hsame.2] at hx
      by_cases hr : curr ≤ x ∧ x < curr + bs.length
      · rw [if_pos ⟨rfl, hr⟩]
        have : x % blockSize = curr % blockSize + (x - curr) := by omega
        rw [this]
        exact blit_of_inside (by omega)
      · rw [if_neg fun hcc => hr hcc.2]
        exact blit_of_outside (by omega)
    · have hr : ¬ (κ' = κ ∧ curr ≤ x ∧ x < curr + bs.length) := by
        rintro ⟨hk, h1, h2⟩
        have hi : x - curr < min (blockSize - curr % blockSize) bs.length := by omega
        have := (chunk_block hi).1
        rw [Nat.add_sub_cancel' h1] at this
        exact hsame ⟨hk, this⟩
      split_ifs with hin'
      · rw [update_of_ne]
        intro hc
        have heq := h.held.apart.inj κ' _ κ _ hin' hc
        exact hsame ⟨heq.1, Slot.data.inj heq.2⟩
      · rfl
  · apply update_of_ne
    intro hc
    rw [← hc] at hin
    exact hb.not_data h.fits hin

theorem writeLoop_spec (h : Good s F κ o) (hfuel : bs.length ≤ fuel)
    (hmapped : ∀ x, curr ≤ x → x < curr + bs.length →
      InData s.sb (slotZone s.block F κ (.data (x / blockSize)))) :
    wp (writeLoop o fuel bs curr) (fun left s' => left = 0 ∧ Stored κ curr bs s F s')
      never s := by
  induction fuel generalizing bs curr s with
  | zero =>
    have hbs : bs = [] := List.eq_nil_of_length_eq_zero (by omega)
    rw [hbs]
    exact wp_pure ⟨rfl, .at h curr s.clock⟩
  | succ fuel ih =>
    rw [writeLoop]
    by_cases hbs : bs = []
    · rw [if_pos hbs, hbs]
      exact wp_pure ⟨rfl, .at h curr s.clock⟩
    rw [if_neg hbs]
    have hlen : bs.length ≠ 0 := fun hc => hbs (List.eq_nil_of_length_eq_zero hc)
    have hpos := chunk_pos curr hlen
    have hin := hmapped curr (Nat.le_refl _) (by omega)
    apply wp_bind
    apply minixBmap_read h
    intro c
    rw [if_pos hin, if_neg (h.fits.ne_zero hin)]
    apply wp_get_then (h.at c).calm (Nat.lt_of_lt_of_le hin.2 h.fits.device)
    intro c'
    apply wp_dataOf
    apply wp_bind
    apply wp_setData
    have htake : (bs.take (min (blockSize - curr % blockSize) bs.length)).length =
        min (blockSize - curr % blockSize) bs.length := by
      rw [List.length_take]
      omega
    have hfit : (bs.take (min (blockSize - curr % blockSize) bs.length)).length ≤
        blockSize - curr % blockSize := by omega
    have hst := h.storeBlock (c := c') hin hfit
    have hmapped' : ∀ x, curr + min (blockSize - curr % blockSize) bs.length ≤ x →
        x < curr + min (blockSize - curr % blockSize) bs.length +
          (bs.drop (min (blockSize - curr % blockSize) bs.length)).length →
        InData s.sb (slotZone s.block F κ (.data (x / blockSize))) := by
      intro x h1 h2
      rw [List.length_drop] at h2
      exact hmapped x (by omega) (by omega)
    rw [← hst.map, ← hst.sb] at hmapped'
    have hrest := ih (h.stored hst) (by rw [List.length_drop]; omega) hmapped'
    apply hrest.post _
    intro left s' ⟨hl, hs'⟩
    refine ⟨hl, ?_⟩
    have := hst.append htake hs'
    rwa [List.take_append_drop] at this

end write

end Jnu.Minix
