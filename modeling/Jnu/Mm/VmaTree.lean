import Jnu.Lib.Intervals
import Jnu.Mm.VmaDefs
import Jnu.Rbtree.Theorems

namespace Jnu.Mm

open Lib.Intervals Lib.RedBlack Pmm Rbtree
open Function

variable {L A B : List Nat} {a r b top : Nat} {t' : VmaTree} {T : RbTree Nat}

section set

variable (t : VmaTree) (id : Nat) (v : Vma)

@[simp] theorem set_rb : (t.set id v).rb = t.rb := rfl

@[simp] theorem set_vma : (t.set id v).vma = update t.vma id v := rfl

@[simp] theorem setStop_rb (b : Nat) : (t.setStop id b).rb = t.rb := rfl

@[simp] theorem setStop_vma (b : Nat) :
    (t.setStop id b).vma = update t.vma id { t.vma id with stop := b } := rfl

@[simp] theorem setFlags_vma (f : VmaFlags) :
    (t.setFlags id f).vma = update t.vma id { t.vma id with flags := f } := rfl

end set

def VmaTree.spans (t : VmaTree) : Family Nat Nat :=
  ⟨fun i => (t.vma i).start, fun i => (t.vma i).stop⟩

-- The tree holds the VMAs `L`, nonempty, disjoint and in increasing order.
structure VmaTree.Holds (t : VmaTree) (L : List Nat) : Prop where
  tree : ∃ T, RedBlack t.rb T ∧ T.toList = L
  ordered : t.spans.Ordered L

namespace VmaTree.Holds

variable {t : VmaTree} {x : Nat}

theorem empty : VmaTree.empty.Holds [] :=
  ⟨⟨.nil, ⟨⟨trivial, trivial, rfl, List.nodup_nil⟩, ⟨0, rfl⟩, rfl⟩, rfl⟩, .nil _⟩

theorem enumerates (h : t.Holds L) : Enumerates t.rb L := by
  obtain ⟨T, hT, rfl⟩ := h.tree
  exact hT.1.enumerates

theorem vmaFirst_eq (h : t.Holds L) : vmaFirst t = some L.head? := h.enumerates.1

theorem vmaNext_eq (h : t.Holds (A ++ x :: B)) : vmaNext t x = some B.head? :=
  h.enumerates.2 A x B rfl

theorem congr (h : t.Holds L) (hrb : t'.rb = t.rb) (hvma : ∀ i ∈ L, t'.vma i = t.vma i) : t'.Holds L where
  tree := hrb ▸ h.tree
  ordered := by
    apply h.ordered.congr
    · intro i hi
      simp only [VmaTree.spans, hvma i hi]
    · intro i hi
      simp only [VmaTree.spans, hvma i hi]

theorem congr_flags (h : t.Holds L) (hrb : t'.rb = t.rb)
    (hstart : ∀ i ∈ L, (t'.vma i).start = (t.vma i).start)
    (hstop : ∀ i ∈ L, (t'.vma i).stop = (t.vma i).stop) : t'.Holds L :=
  ⟨hrb ▸ h.tree, h.ordered.congr hstart hstop⟩

end VmaTree.Holds

section find

variable {t : VmaTree}

theorem findFrom_spec {p : Option Nat} (hT : Spells t.rb.node p T) (hord : t.spans.Ordered T.toList) :
    findFrom t a T.root? = some (t.spans.locate T.toList a) := by
  induction T generalizing p with
  | nil =>
    rw [findFrom.eq_def]
    rfl
  | node c l x r ihl ihr =>
    obtain ⟨hx, hl, hr⟩ := hT
    obtain ⟨hol, hoxr, hlr⟩ := Family.Ordered.append_iff.1 hord
    obtain ⟨hne, hor, hxr⟩ := Family.Ordered.cons_iff.1 hoxr
    have hne : (t.vma x).start < (t.vma x).stop := hne
    rw [findFrom.eq_def]
    simp only [show (RbTree.node c l x r).root? = some x from rfl, hx, RbTree.toList]
    by_cases hlt : a < (t.vma x).start
    · rw [if_pos hlt, ihl hl hol]
      -- nothing from the node on starts at or below the address
      have hnone : t.spans.locate (x :: r.toList) a = none := by
        rw [Family.locate_eq_none]
        intro i hi hc
        have hlo : (t.vma i).start ≤ a := hc.1
        rcases List.mem_cons.1 hi with rfl | hi
        · omega
        · have hxi : (t.vma x).stop ≤ (t.vma i).start := hxr i hi
          omega
      unfold Family.locate at hnone ⊢
      rw [List.find?_append, hnone, Option.or_none]
    · rw [if_neg hlt]
      have hnone : t.spans.locate l.toList a = none := by
        rw [Family.locate_eq_none]
        intro i hi hc
        have hhi : a < (t.vma i).stop := hc.2
        have hix : (t.vma i).stop ≤ (t.vma x).start := hlr i hi x (by simp)
        omega
      unfold Family.locate at hnone ⊢
      rw [List.find?_append, hnone, Option.none_or, List.find?_cons]
      by_cases hge : a ≥ (t.vma x).stop
      · have hno : ¬ t.spans.Has a x := fun hc => absurd hc.2 (not_lt.2 hge)
        rw [if_pos hge, ihr hr hor]
        simp only [hno, decide_false]
        rfl
      · have hyes : t.spans.Has a x := ⟨not_lt.1 hlt, not_le.1 hge⟩
        rw [if_neg hge]
        simp only [hyes, decide_true]

theorem vmaFind_eq {L : List Nat} (h : t.Holds L) : vmaFind t a = some (t.spans.locate L a) := by
  obtain ⟨T, hT, rfl⟩ := h.tree
  unfold vmaFind
  rw [show t.rb.root = T.root? from Zip.root hT.1]
  exact findFrom_spec (Zip.tree hT.1) h.ordered

end find

section insert

variable {t : VmaTree} {v : Vma} {id : Nat}

-- The range of `v` is between the nodes before the hole and those after it.
structure Around (t : VmaTree) (v : Vma) (K : Ctx Nat) : Prop where
  before : ∀ i ∈ K.before, (t.vma i).stop ≤ v.start
  after : ∀ i ∈ K.after, v.stop ≤ (t.vma i).start

theorem insertSlot_spec {K : Ctx Nat} (hz : Zip t.rb K T)
    (hord : t.spans.Ordered T.toList) (hK : Around t v K) :
    (insertSlot t v K.parent? (slotOf K) = some (.error .eexist) ∧
      ∃ i ∈ T.toList, v.start < (t.vma i).stop ∧ (t.vma i).start < v.stop) ∨
    ∃ K', insertSlot t v K.parent? (slotOf K) = some (.ok (K'.parent?, slotOf K')) ∧
      Zip t.rb K' .nil ∧ K'.plug .nil = K.plug T ∧ Around t v K' := by
  induction T generalizing K with
  | nil =>
    right
    refine ⟨K, ?_, hz, rfl, hK⟩
    rw [insertSlot.eq_def, hz.read_slotOf]
    rfl
  | node c l x r ihl ihr =>
    obtain ⟨hol, hoxr, hlr⟩ := Family.Ordered.append_iff.1 hord
    obtain ⟨hne, hor, hxr⟩ := Family.Ordered.cons_iff.1 hoxr
    have hne : (t.vma x).start < (t.vma x).stop := hne
    rw [insertSlot.eq_def, hz.read_slotOf]
    simp only [RbTree.root?]
    by_cases hlt : v.stop ≤ (t.vma x).start
    · rw [if_pos hlt]
      have hK' : Around t v (.frame .left c x r K) := by
        refine ⟨hK.before, fun i hi => ?_⟩
        simp only [Ctx.after, List.cons_append, List.mem_cons, List.mem_append] at hi
        rcases hi with rfl | hi | hi
        · exact hlt
        · have hxi : (t.vma x).stop ≤ (t.vma i).start := hxr i hi
          omega
        · exact hK.after i hi
      rcases ihl (K := .frame .left c x r K) (zip_frame.mpr hz) hol hK' with
        ⟨he, i, hi, hov⟩ | ⟨K', he, hz', hp, ha⟩
      · exact .inl ⟨he, i, by simp [RbTree.toList, hi], hov⟩
      · exact .inr ⟨K', he, hz', hp, ha⟩
    · rw [if_neg hlt]
      by_cases hge : v.start ≥ (t.vma x).stop
      · rw [if_pos hge]
        have hK' : Around t v (.frame .right c x l K) := by
          refine ⟨fun i hi => ?_, hK.after⟩
          simp only [Ctx.before, List.mem_append, List.mem_singleton] at hi
          rcases hi with (hi | hi) | rfl
          · exact hK.before i hi
          · have hix : (t.vma i).stop ≤ (t.vma x).start := hlr i hi x (by simp)
            omega
          · exact hge
        rcases ihr (K := .frame .right c x l K) (zip_frame.mpr hz) hor hK' with
          ⟨he, i, hi, hov⟩ | ⟨K', he, hz', hp, ha⟩
        · exact .inl ⟨he, i, by simp [RbTree.toList, hi], hov⟩
        · exact .inr ⟨K', he, hz', hp, ha⟩
      · rw [if_neg hge]
        exact .inl ⟨rfl, x, by simp [RbTree.toList], by omega, by omega⟩

theorem vmaInsert_spec (h : t.Holds L) (hid : id ∉ L) (hne : (t.vma id).start < (t.vma id).stop) :
    (vmaInsert t id = some (.error .eexist) ∧ ∃ i ∈ L, t.spans.Meets id i) ∨
    ∃ t' A B, vmaInsert t id = some (.ok t') ∧ t'.vma = t.vma ∧ L = A ++ B ∧
      t'.Holds (A ++ id :: B) := by
  obtain ⟨T, ⟨hrep, ⟨m, hbal⟩, hcol⟩, rfl⟩ := h.tree
  have htop : Around t (t.vma id) .top := ⟨by simp [Ctx.before], by simp [Ctx.after]⟩
  rcases insertSlot_spec hrep h.ordered htop with ⟨he, hov⟩ | ⟨K, he, hz, hp, ha⟩
  · left
    refine ⟨?_, hov⟩
    unfold vmaInsert
    rw [show insertSlot t (t.vma id) none .root = _ from he]
    rfl
  right
  have hp : K.plug .nil = T := hp
  have hlist : T.toList = K.before ++ K.after := by
    rw [← hp, Ctx.toList_plug]
    simp [RbTree.toList]
  have hval : id ∉ K.values := by
    rw [← K.perm_values.mem_iff, ← hlist]
    exact hid
  obtain ⟨rb, T', hrb, hrep', hbal', hcol', hlist'⟩ :=
    rbInsertColor_spec hz (hp ▸ hbal) (hp ▸ hcol) hval
  refine ⟨{ t with rb }, K.before, K.after, ?_, rfl, hlist, ⟨T', ⟨hrep', hbal', hcol'⟩, hlist'⟩, ?_⟩
  · unfold vmaInsert
    rw [show insertSlot t (t.vma id) none .root = _ from he]
    simp [hrb]
  · have hord := h.ordered
    rw [hlist] at hord
    exact hord.insert hne ha.before ha.after

theorem vmaInsert_between {A B : List Nat} (h : t.Holds (A ++ B)) (hid : id ∉ A ++ B)
    (hne : (t.vma id).start < (t.vma id).stop) (hA : ∀ i ∈ A, (t.vma i).stop ≤ (t.vma id).start)
    (hB : ∀ i ∈ B, (t.vma id).stop ≤ (t.vma i).start) :
    ∃ t', vmaInsert t id = some (.ok t') ∧ t'.vma = t.vma ∧ t'.Holds (A ++ id :: B) := by
  have hord := h.ordered.insert hne hA hB
  rcases vmaInsert_spec h hid hne with ⟨-, i, hi, hm⟩ | ⟨t', A', B', he, hvma, hAB, h'⟩
  · have hm1 : (t.vma id).start < (t.vma i).stop := hm.1
    have hm2 : (t.vma i).start < (t.vma id).stop := hm.2
    rcases List.mem_append.1 hi with hi | hi
    · have := hA i hi
      omega
    · have := hB i hi
      omega
  · refine ⟨t', he, hvma, ?_⟩
    have hord' : t.spans.Ordered (A' ++ id :: B') := by
      have := h'.ordered
      unfold VmaTree.spans at this ⊢
      rwa [hvma] at this
    have hperm : (A' ++ id :: B').Perm (A ++ id :: B) := by
      apply List.perm_middle.trans
      rw [← hAB]
      exact List.perm_middle.symm
    rwa [← hord'.eq_of_perm hord hperm]

theorem vmaRemove_spec (h : t.Holds L) (hid : id ∈ L) :
    ∃ t', vmaRemove t id = some t' ∧ t'.vma = t.vma ∧ t'.Holds (L.erase id) := by
  obtain ⟨T, hT, rfl⟩ := h.tree
  obtain ⟨rb, T', he, hT', hlist⟩ := hT.erase hid
  refine ⟨{ t with rb }, ?_, rfl, ⟨T', hT', hlist⟩, h.ordered.sublist List.erase_sublist⟩
  unfold vmaRemove
  rw [he]
  rfl

end insert

section walk

variable {t : VmaTree}

theorem skipBelow_spec (h : t.Holds (A ++ B)) (start : Nat) :
    skipBelow t start B.head? = some (B.dropWhile fun i => (t.vma i).stop ≤ start).head? := by
  induction B generalizing A with
  | nil =>
    rw [skipBelow.eq_def]
    rfl
  | cons x B ih =>
    rw [skipBelow.eq_def]
    simp only [List.head?_cons]
    by_cases hle : (t.vma x).stop ≤ start
    · have h' : t.Holds ((A ++ [x]) ++ B) := by simpa using h
      rw [if_pos hle, h.vmaNext_eq]
      simp only [List.dropWhile_cons, hle, decide_true, if_true]
      exact ih h'
    · simp [hle]

theorem vmaAtOrAbove_eq (h : t.Holds L) (start : Nat) :
    vmaAtOrAbove t start = some (L.dropWhile fun i => (t.vma i).stop ≤ start).head? := by
  unfold vmaAtOrAbove
  rw [vmaFind_eq h]
  cases hloc : t.spans.locate L start with
  | none =>
    simp only [bind, Option.bind, h.vmaFirst_eq]
    exact skipBelow_spec (A := []) h start
  | some x =>
    obtain ⟨hx, hlo, hhi⟩ := h.ordered.locate_eq_some.1 hloc
    obtain ⟨A, B, rfl⟩ := List.append_of_mem hx
    obtain ⟨-, -, hAx⟩ := Family.Ordered.append_iff.1 h.ordered
    have hlo : (t.vma x).start ≤ start := hlo
    have hhi : start < (t.vma x).stop := hhi
    have hA : ∀ i ∈ A, decide ((t.vma i).stop ≤ start) = true := by
      intro i hi
      have hix : (t.vma i).stop ≤ (t.vma x).start := hAx i hi x (by simp)
      exact decide_eq_true (by omega)
    rw [List.dropWhile_append_of_pos hA, List.dropWhile_cons, if_neg (by simpa using hhi)]
    rfl

end walk

section order

variable {t : VmaTree} {L' : List Nat}

theorem VmaTree.Holds.eq_of_holds (h : t.Holds L) (h' : t.Holds L') : L = L' :=
  h.enumerates.eq h'.enumerates

end order

section gap

variable {t : VmaTree} {size ceiling : Nat}

-- A range of `size` bytes below the ceiling that meets no VMA.
structure Fits (t : VmaTree) (L : List Nat) (size ceiling r : Nat) : Prop where
  floor : pageSize ≤ r
  below : r + size ≤ ceiling
  free : ∀ i ∈ L, (t.vma i).stop ≤ r ∨ r + size ≤ (t.vma i).start
  place : r + size = ceiling ∨ ∃ i ∈ L, r + size = (t.vma i).start

theorem Fits.aligned {L : List Nat} (h : Fits t L size ceiling r) (hal : size % pageSize = 0)
    (hceil : ceiling % pageSize = 0) (hL : ∀ i ∈ L, (t.vma i).start % pageSize = 0) : r % pageSize = 0 := by
  have hplace : (r + size) % pageSize = 0 := by
    rcases h.place with hp | ⟨i, hi, hp⟩
    · rw [hp, hceil]
    · rw [hp, hL i hi]
  simp only [pageSize] at hplace hal ⊢
  omega

theorem sub64_eq {a : Nat} (ha : a < 2 ^ 64) (hb : b ≤ a) : sub64 a b = a - b := by
  unfold sub64 wrap64
  omega

theorem le_gapBest (best candidate : Nat) :
    best ≤ gapBest best candidate ∧ candidate ≤ gapBest best candidate := by
  unfold gapBest
  split <;> omega

theorem gapBest_cases (best candidate : Nat) :
    gapBest best candidate = best ∨ gapBest best candidate = candidate := by
  unfold gapBest
  by_cases h : best = 0 ∨ candidate > best
  · exact .inr (if_pos h)
  · exact .inl (if_neg h)

-- A range of `size` bytes above the floor that meets no VMA of the list.
def Room (t : VmaTree) (L : List Nat) (size y : Nat) : Prop :=
  pageSize ≤ y ∧ ∀ i ∈ L, (t.vma i).stop ≤ y ∨ y + size ≤ (t.vma i).start

-- What the walk knows at `prevEnd`, behind the VMAs in `A`: no place below it is higher than the best so far.
structure Swept (t : VmaTree) (A L : List Nat) (size ceiling prevEnd best : Nat) : Prop where
  floor : pageSize ≤ prevEnd
  edge : prevEnd = pageSize ∨ ∃ i ∈ A, (t.vma i).stop = prevEnd
  fits : best = 0 ∨ Fits t L size ceiling best
  greatest : ∀ y, Room t A size y → y + size ≤ prevEnd → y ≤ best

section sweep

variable {prevEnd best : Nat}

-- The gap between `prevEnd` and `top` has been looked at.
theorem Swept.gap {c : Prop} [Decidable c] (h : Swept t A L size ceiling prevEnd best)
    (hA : ∀ i ∈ A, (t.vma i).start < (t.vma i).stop) (htop : top < 2 ^ 64) (hceil : top ≤ ceiling)
    (hplace : top = ceiling ∨ ∃ i ∈ L, top = (t.vma i).start)
    (hL : ∀ i ∈ L, (t.vma i).stop ≤ prevEnd ∨ top ≤ (t.vma i).start)
    (hc : c → top > prevEnd ∧ sub64 top prevEnd ≥ size)
    (hc' : top > prevEnd ∧ sub64 top prevEnd ≥ size ∧ sub64 top size ≥ prevEnd ∧ sub64 top size ≥ pageSize → c)
    (hb : b = if c then gapBest best (sub64 top size) else best) :
    (b = 0 ∨ Fits t L size ceiling b) ∧ ∀ y, Room t A size y → y + size ≤ top → y ≤ b := by
  have hfloor := h.floor
  have hroom : c ↔ prevEnd < top ∧ size ≤ top - prevEnd := by
    refine ⟨fun h => ?_, fun ⟨hlt, hge⟩ => hc' ?_⟩
    · obtain ⟨hlt, hge⟩ := hc h
      exact ⟨hlt, sub64_eq htop (Nat.le_of_lt hlt) ▸ hge⟩
    · rw [sub64_eq htop (Nat.le_of_lt hlt), sub64_eq htop (by omega)]
      omega
  -- a place that is not below `prevEnd` is above it
  have habove : ∀ y, Room t A size y → prevEnd < y + size → prevEnd ≤ y := by
    intro y hy hlt
    rcases h.edge with hedge | ⟨i, hi, hedge⟩
    · exact hedge ▸ hy.1
    · have hne := hA i hi
      have hmeet := hy.2 i hi
      omega
  by_cases hcond : c
  · rw [if_pos hcond] at hb
    obtain ⟨hlt, hge⟩ := hroom.1 hcond
    rw [sub64_eq htop (by omega)] at hb
    obtain ⟨hbest, hcand⟩ := le_gapBest best (top - size)
    refine ⟨?_, fun y hy hyt => ?_⟩
    · rcases gapBest_cases best (top - size) with hg | hg
      · rw [hb, hg]
        exact h.fits
      · rw [hb, hg]
        refine .inr ⟨by omega, by omega, fun i hi => ?_, ?_⟩
        · have := hL i hi
          omega
        · rwa [show top - size + size = top by omega]
    · by_cases hyp : y + size ≤ prevEnd
      · omega
      · omega
  · rw [if_neg hcond] at hb
    refine ⟨hb ▸ h.fits, fun y hy hyt => ?_⟩
    by_cases hyp : y + size ≤ prevEnd
    · exact hb ▸ h.greatest y hy hyp
    · have := habove y hy (by omega)
      exact absurd (hroom.2 ⟨by omega, by omega⟩) hcond

theorem gapWalk_spec (h : t.Holds (A ++ B))
    (hstart : ∀ i ∈ A ++ B, pageSize ≤ (t.vma i).start ∧ (t.vma i).start < 2 ^ 64) (hpos : 0 < size)
    (hprev : ∀ i ∈ A, (t.vma i).stop ≤ prevEnd) (hnext : ∀ i ∈ B, prevEnd ≤ (t.vma i).start)
    (hsw : Swept t A (A ++ B) size ceiling prevEnd best) :
    ∃ p b, gapWalk t size ceiling B.head? prevEnd best = some (p, b) ∧
      Swept t (A ++ B) (A ++ B) size ceiling p b ∧
      ∀ i ∈ A ++ B, (t.vma i).stop ≤ p ∨ ceiling ≤ (t.vma i).start := by
  have hnonempty := h.ordered.nonempty
  induction B generalizing A prevEnd best with
  | nil =>
    refine ⟨prevEnd, best, ?_, ?_, fun i hi => .inl (hprev i (by simpa using hi))⟩
    · rw [gapWalk.eq_def]
      rfl
    · rwa [List.append_nil] at hsw ⊢
  | cons x B ih =>
    obtain ⟨hoA, hoxB, hAx⟩ := Family.Ordered.append_iff.1 h.ordered
    obtain ⟨hne, -, hxB⟩ := Family.Ordered.cons_iff.1 hoxB
    have hne : (t.vma x).start < (t.vma x).stop := hne
    obtain ⟨hxf, hx64⟩ := hstart x (by simp)
    -- the VMAs that are left start where `x` does, or above
    have hlist : ∀ i ∈ A ++ x :: B, (t.vma i).stop ≤ prevEnd ∨ (t.vma x).start ≤ (t.vma i).start := by
      intro i hi
      rcases List.mem_append.1 hi with hi | hi
      · exact .inl (hprev i hi)
      right
      rcases List.mem_cons.1 hi with rfl | hi
      · exact le_refl _
      · have : (t.vma x).stop ≤ (t.vma i).start := hxB i hi
        omega
    rw [gapWalk.eq_def]
    simp only [List.head?_cons]
    by_cases hce : (t.vma x).start ≥ ceiling
    · rw [if_pos hce]
      refine ⟨prevEnd, best, rfl, ⟨hsw.floor, ?_, hsw.fits, ?_⟩, fun i hi => (hlist i hi).imp_right hce.trans⟩
      · exact hsw.edge.imp_right fun ⟨i, hi, he⟩ => ⟨i, List.mem_append_left _ hi, he⟩
      · exact fun y hy => hsw.greatest y ⟨hy.1, fun i hi => hy.2 i (List.mem_append_left _ hi)⟩
    rw [if_neg hce, h.vmaNext_eq]
    have hcons : A ++ x :: B = (A ++ [x]) ++ B := by simp
    obtain ⟨hfits, hgreatest⟩ := hsw.gap (fun i hi => hnonempty i (List.mem_append_left _ hi)) hx64 (by omega)
      (.inr ⟨x, by simp, rfl⟩) hlist (fun hc => ⟨hc.1, hc.2.1⟩) id rfl
    rw [hcons] at hfits ⊢
    refine ih (hcons ▸ h) (fun i hi => hstart i (hcons ▸ hi)) (fun i hi => ?_) hxB
      ⟨hxf.trans hne.le, .inr ⟨x, by simp, rfl⟩, hfits, fun y hy hyx => ?_⟩ (hcons ▸ hnonempty)
    · rcases List.mem_append.1 hi with hi | hi
      · have : (t.vma i).stop ≤ (t.vma x).start := hAx i hi x (by simp)
        omega
      · rw [List.mem_singleton.1 hi]
    · -- a place below the end of the VMA is below its start
      have hyx' := hy.2 x (by simp)
      exact hgreatest y ⟨hy.1, fun i hi => hy.2 i (List.mem_append_left _ hi)⟩ (by omega)

end sweep

-- Unless the tree is empty and the size close to 2^64, the search finds the highest place.
theorem vmaFindGapTopDown_spec (h : t.Holds L)
    (hstart : ∀ i ∈ L, pageSize ≤ (t.vma i).start ∧ (t.vma i).start < 2 ^ 64)
    (hceil : ceiling < 2 ^ 64) (hsize : size < 2 ^ 64) (hal : size % pageSize = 0) (hpos : 0 < size)
    (hok : L ≠ [] ∨ size + pageSize < 2 ^ 64) :
    ∃ r, vmaFindGapTopDown t size ceiling = some r ∧ (r = 0 ∨ Fits t L size ceiling r) ∧
      ∀ y, Room t L size y → y + size ≤ ceiling → y ≤ r := by
  unfold vmaFindGapTopDown
  rw [if_neg (by omega), h.vmaFirst_eq]
  cases L with
  | nil =>
    have hs := hok.resolve_left (by simp)
    have hw : wrap64 (pageSize + size) = pageSize + size := by
      unfold wrap64
      omega
    split_ifs with hc
    · rw [sub64_eq hceil (by omega)]
      exact ⟨_, rfl, .inr ⟨by omega, by omega, by simp, .inl (by omega)⟩, fun y _ hy => by omega⟩
    · exact ⟨0, rfl, .inl rfl, fun y hy hyc => absurd hy.1 (by omega)⟩
  | cons x B =>
    have hinit : Swept t [] (x :: B) size ceiling pageSize 0 :=
      ⟨le_refl _, .inl rfl, .inl rfl, fun y hy hyp => absurd hy.1 (by omega)⟩
    obtain ⟨p, b, hw, hsw, hall⟩ :=
      gapWalk_spec (A := []) h hstart hpos (by simp) (fun i hi => (hstart i hi).1) hinit
    simp only [List.head?_cons, List.nil_append] at hw hsw hall
    simp only [List.head?_cons, bind, Option.bind]
    rw [hw]
    exact ⟨_, (apply_ite some ..).symm, hsw.gap h.ordered.nonempty hceil (le_refl _) (.inl rfl) hall
      (fun hc => ⟨hc.1, hc.2.1⟩) (fun hc => ⟨hc.1, hc.2.1, hc.2.2.1⟩) rfl⟩

-- Every range of `size` bytes below `top` meets a VMA.
def Full (t : VmaTree) (L : List Nat) (size top : Nat) : Prop :=
  ∀ y, pageSize ≤ y → y + size ≤ top → ∃ i ∈ L, y < (t.vma i).stop ∧ (t.vma i).start < y + size

theorem full_of_none (h : ∀ y, Room t L size y → y + size ≤ ceiling → y ≤ 0) :
    Full t L size ceiling := by
  intro y hy hyc
  by_contra hc
  push Not at hc
  have hz := h y ⟨hy, fun i hi => ?_⟩ hyc
  · simp only [pageSize] at hy
    omega
  · have := hc i hi
    omega

end gap

end Jnu.Mm
