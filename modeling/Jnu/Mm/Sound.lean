import Jnu.Mm.Pages
import Jnu.Mm.Space

namespace Jnu.Mm

open Lib.Dyadic Paging Pmm

variable {k k' : Kern} {sp id n m x : Nat} {a : AddrSpace} {L A B : List Nat} {F F' : Nat → Option VmaFlags}
  {E E' : Nat → Prop}

def Kern.flags (k : Kern) (sp x : Nat) : Option VmaFlags := do
  let a ← k.space sp
  let found ← vmaFind a.vmas x
  let id ← found
  return (a.vmas.vma id).flags

theorem flags_eq (ha : k.space sp = some a) (h : a.vmas.Holds L) (x : Nat) :
    k.flags sp x = addrMap a.vmas L x := by
  unfold Kern.flags addrMap
  simp only [ha, bind, Option.bind, vmaFind_eq h]
  cases a.vmas.spans.locate L x <;> rfl

theorem flags_none (ha : k.space sp = none) (x : Nat) : k.flags sp x = none := by
  unfold Kern.flags
  rw [ha]
  rfl

theorem flags_congr (h : k'.space sp = k.space sp) (x : Nat) : k'.flags sp x = k.flags sp x := by
  unfold Kern.flags
  rw [h]

theorem addrMap_insert {t : VmaTree} (h : t.spans.Ordered (A ++ id :: B)) (x : Nat) :
    addrMap t (A ++ id :: B) x =
      if (t.vma id).start ≤ x ∧ x < (t.vma id).stop then some (t.vma id).flags
      else addrMap t (A ++ B) x := by
  have hsub : (A ++ B).Sublist (A ++ id :: B) :=
    (List.Sublist.refl A).append (List.sublist_cons_self id B)
  by_cases hx : (t.vma id).start ≤ x ∧ x < (t.vma id).stop
  · rw [if_pos hx, addrMap_eq_some h]
    exact ⟨id, by simp, hx.1, hx.2, rfl⟩
  rw [if_neg hx]
  apply Option.ext
  intro f
  rw [addrMap_eq_some h, addrMap_eq_some (h.sublist hsub)]
  constructor
  · rintro ⟨i, hi, hs, he, hf⟩
    refine ⟨i, ?_, hs, he, hf⟩
    simp only [List.mem_append, List.mem_cons] at hi ⊢
    rcases hi with hi | rfl | hi
    · exact .inl hi
    · exact absurd ⟨hs, he⟩ hx
    · exact .inr hi
  · rintro ⟨i, hi, hc⟩
    exact ⟨i, hsub.subset hi, hc⟩

structure GoodVma (v : Vma) : Prop where
  floor : pageSize ≤ v.start
  top : v.stop ≤ userTop
  startAligned : v.start % pageSize = 0
  stopAligned : v.stop % pageSize = 0
  user : v.flags.user = true

theorem GoodVma.cuttable : Cuttable GoodVma where
  lower _ _ h _ hb hal := ⟨h.floor, hb.le.trans h.top, h.startAligned, hal, h.user⟩
  upper _ _ h hb _ hal := ⟨h.floor.trans hb.le, h.top, hal, h.stopAligned, h.user⟩

theorem GoodVma.aligned (v : Vma) (h : GoodVma v) : v.start % pageSize = 0 ∧ v.stop % pageSize = 0 :=
  ⟨h.startAligned, h.stopAligned⟩

structure GoodSpace (a : AddrSpace) (n : Nat) (L : List Nat) : Prop where
  tree : TreeInv GoodVma a.vmas n L
  ceiling : a.mmapBase % pageSize = 0 ∧ a.mmapBase ≤ mmapBaseTop

theorem GoodSpace.mono {a : AddrSpace} {L : List Nat} (h : GoodSpace a n L)
    (hn : n ≤ m) : GoodSpace a m L := ⟨h.tree.mono hn, h.ceiling⟩

-- Memory is in order, and so are the address spaces and the sharing of pages between them.
structure Sound (k : Kern) (R : Set Nat) (K : Set Block) : Prop where
  base : Base k R K
  spaces : ∀ sp a, k.space sp = some a → ∃ L, GoodSpace a k.heap.next L
  owned : Owned k.pte (zeroFrame k.phys)

-- A step that takes away the pages `D` of one space and gives it the map `F`.
structure Remap (k k' : Kern) (sp : Nat) (F : Nat → Option VmaFlags) (D : Nat → Prop) : Prop where
  sheds : Sheds (fun t v => t = sp ∧ D v) k k'
  other : ∀ t, t ≠ sp → k'.space t = k.space t
  live : k'.space sp ≠ none
  flags : ∀ x, k'.flags sp x = F x

section moves

variable {k'' : Kern} {R : Set Nat} {K : Set Block} {D : Nat → Nat → Prop}

theorem Sound.flags_page (h : Sound k R K) (x : Nat) :
    k.flags sp x = k.flags sp (x / pageSize * pageSize) := by
  cases ha : k.space sp with
  | none => rw [flags_none ha, flags_none ha]
  | some a =>
    obtain ⟨L, hg⟩ := h.spaces sp a ha
    rw [flags_eq ha hg.tree.holds, flags_eq ha hg.tree.holds]
    apply Option.ext
    intro f
    rw [addrMap_eq_some hg.tree.holds.ordered, addrMap_eq_some hg.tree.holds.ordered]
    constructor
    · rintro ⟨i, hi, hs, he, hf⟩
      have h1 := (hg.tree.good i hi).startAligned
      have h2 := (hg.tree.good i hi).stopAligned
      simp only [pageSize] at h1 h2 ⊢
      exact ⟨i, hi, by omega, by omega, hf⟩
    · rintro ⟨i, hi, hs, he, hf⟩
      have h1 := (hg.tree.good i hi).startAligned
      have h2 := (hg.tree.good i hi).stopAligned
      simp only [pageSize] at h1 h2 hs he ⊢
      exact ⟨i, hi, by omega, by omega, hf⟩

theorem Sound.flags_user (h : Sound k R K) {f : VmaFlags} (hf : k.flags sp x = some f) :
    pageSize ≤ x ∧ x < userTop ∧ f.user = true := by
  cases ha : k.space sp with
  | none =>
    rw [flags_none ha] at hf
    cases hf
  | some a =>
    obtain ⟨L, hg⟩ := h.spaces sp a ha
    rw [flags_eq ha hg.tree.holds, addrMap_eq_some hg.tree.holds.ordered] at hf
    obtain ⟨i, hi, hs, he, rfl⟩ := hf
    have hgood := hg.tree.good i hi
    exact ⟨hgood.floor.trans hs, he.trans_le hgood.top, hgood.user⟩

-- Pages are only taken away, and spaces keep or change their maps in good order.
theorem Sound.of_sheds (h : Sound k R K) (hb : Base k' R K) (hsh : Sheds D k k')
    (hspaces : ∀ t a, k'.space t = some a → k.space t = some a ∨ ∃ L, GoodSpace a k'.heap.next L) :
    Sound k' R K := by
  refine ⟨hb, fun t a ha => ?_, ?_⟩
  · rcases hspaces t a ha with ha | hg
    · obtain ⟨L, hg⟩ := h.spaces t a ha
      exact ⟨L, hg.mono hsh.next⟩
    · exact hg
  have hz := zeroFrame_eq hsh.zeroPage
  rw [hz]
  apply h.owned.subset
  intro t v e he
  by_cases hd : D t v
  · rw [hsh.gone t v hd] at he
    cases he
  · rwa [hsh.pte t v hd] at he

theorem Sound.of_idle (h : Sound k R K) (hb : Base k' R K) (hi : Idle k k')
    (hspace : k'.space = k.space) : Sound k' R K :=
  h.of_sheds hb hi.sheds fun _ _ ha => .inl (hspace ▸ ha)

theorem Sound.of_self (h : Sound k R K) (hb : Base k' R K) (hsh : Sheds D k k')
    (hother : ∀ t, t ≠ sp → k'.space t = k.space t) (hself : k'.space sp = some a)
    (hg : GoodSpace a k'.heap.next L) : Sound k' R K := by
  apply h.of_sheds hb hsh
  intro t b hb
  by_cases ht : t = sp
  · subst ht
    rw [hself] at hb
    cases hb
    exact .inr ⟨L, hg⟩
  · exact .inl (hother t ht ▸ hb)

theorem Remap.of_idle (hi : Idle k k') (hspace : k'.space = k.space) (hlive : k.space sp ≠ none) :
    Remap k k' sp (k.flags sp) fun _ => False where
  sheds := hi.sheds.congr fun t v => by simp
  other t _ := by rw [hspace]
  live := by rwa [hspace]
  flags x := flags_congr (by rw [hspace]) x

theorem Remap.refl (ha : k.space sp = some a) : Remap k k sp (k.flags sp) fun _ => False :=
  .of_idle (Idle.refl k) rfl (by simp [ha])

theorem Remap.trans (h : Remap k k' sp F E)
    (h' : Remap k' k'' sp F' E') : Remap k k'' sp F' fun v => E v ∨ E' v where
  sheds := (h.sheds.trans h'.sheds).congr fun t v => by tauto
  other t ht := (h'.other t ht).trans (h.other t ht)
  live := h'.live
  flags := h'.flags

theorem Remap.congr (h : Remap k k' sp F E)
    (hF : ∀ x, F' x = F x) (hE : ∀ v, E' v ↔ E v) : Remap k k' sp F' E' where
  sheds := h.sheds.congr fun t v => by rw [hE]
  other := h.other
  live := h.live
  flags x := by rw [h.flags, hF]

end moves

end Jnu.Mm
