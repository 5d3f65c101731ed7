import Jnu.Mm.Roomy

namespace Jnu.Mm

open Rbtree Lib.RedBlack
open Function

def VmaTree.Draws (t : VmaTree) (root : Option Nat) (l : List (Nat × RbNode Nat × Vma)) : Prop :=
  t.rb.root = root ∧ ∀ e ∈ l, t.rb.node e.1 = e.2.1 ∧ t.vma e.1 = e.2.2

section shapes

variable (t : VmaTree) (a b c d : Nat) (va vb vc vd : Vma)

abbrev VmaTree.One : Prop := t.Draws (some a) [(a, ⟨none, none, none, .black⟩, va)]

abbrev VmaTree.Pair : Prop := t.Draws (some a)
  [(a, ⟨none, some b, none, .black⟩, va), (b, ⟨some a, none, none, .red⟩, vb)]

abbrev VmaTree.PairRight : Prop := t.Draws (some a)
  [(a, ⟨none, none, some b, .black⟩, va), (b, ⟨some a, none, none, .red⟩, vb)]

abbrev VmaTree.Three : Prop := t.Draws (some a) [(a, ⟨none, some c, some b, .black⟩, va),
  (b, ⟨some a, none, none, .red⟩, vb), (c, ⟨some a, none, none, .red⟩, vc)]

-- The last node is below the left child.
abbrev VmaTree.Four : Prop := t.Draws (some a) [(a, ⟨none, some c, some b, .black⟩, va),
  (b, ⟨some a, none, none, .black⟩, vb), (c, ⟨some a, none, some d, .black⟩, vc),
  (d, ⟨some c, none, none, .red⟩, vd)]

end shapes

section insertion

attribute [local simp] VmaTree.Draws VmaTree.set Slot.read Slot.write RbNode.child RbNode.setChild
  RbState.setChild RbState.modify RbState.setColor RbState.setColor? RbState.setParent
  RbState.setParent? RbState.isBlack rbLinkNode rbGrandparent Side.flip rotate rotateOutward relink insertRotate

variable {t : VmaTree} {id a b c : Nat} {v va vb vc : Vma}

theorem vmaInsert_linked {parent : Option Nat} {slot : Slot Nat} {P : VmaTree → Prop}
    (hslot : insertSlot (t.set id v) v none .root = some (.ok (parent, slot)))
    (hloop : ∃ s, insertLoop (rbLinkNode t.rb id parent slot) id = some s ∧
      P ⟨s.setColor? s.root .black, (t.set id v).vma⟩) :
    ∃ t', vmaInsert (t.set id v) id = some (.ok t') ∧ P t' := by
  obtain ⟨s, hs, hP⟩ := hloop
  have hself : (t.set id v).vma id = v := update_self ..
  have hrb : (t.set id v).rb = t.rb := rfl
  refine ⟨_, ?_, hP⟩
  unfold vmaInsert rbInsertColor
  rw [hself, hslot, hrb]
  simp only [Option.bind_eq_bind, Option.bind_some, hs]
  rfl

theorem insert_first (id : Nat) (v : Vma) (h : t = .empty) : ∃ t', vmaInsert (t.set id v) id = some (.ok t') ∧
    t'.One id v := by
  have hslot : insertSlot (t.set id v) v none .root = some (.ok (none, .root)) := by
    rw [insertSlot.eq_def]
    rw [h]
    rfl
  apply vmaInsert_linked hslot
  rw [insertLoop.eq_def]
  simp

theorem insert_left (id : Nat) (v : Vma) (h : t.One a va) (hne : a ≠ id)
    (hv : v.stop ≤ va.start) : ∃ t', vmaInsert (t.set id v) id = some (.ok t') ∧
      t'.Pair a id va v := by
  obtain ⟨hr, hn⟩ := h
  simp only [List.forall_mem_cons] at hn
  have hslot : insertSlot (t.set id v) v none .root = some (.ok (some a, .child .left a)) := by
    rw [insertSlot.eq_def]
    simp only [VmaTree.set, Slot.read, hr, update_of_ne hne, hn, if_pos hv]
    rw [insertSlot.eq_def]
    simp [hn]
  apply vmaInsert_linked hslot
  rw [insertLoop.eq_def]
  simp [hn, hne, hne.symm, hr]

theorem insert_right (id : Nat) (v : Vma) (h : t.One a va) (hne : a ≠ id)
    (hv : ¬ v.stop ≤ va.start) (hv' : v.start ≥ va.stop) :
    ∃ t', vmaInsert (t.set id v) id = some (.ok t') ∧
      t'.PairRight a id va v := by
  obtain ⟨hr, hn⟩ := h
  simp only [List.forall_mem_cons] at hn
  have hslot : insertSlot (t.set id v) v none .root = some (.ok (some a, .child .right a)) := by
    rw [insertSlot.eq_def]
    simp only [VmaTree.set, Slot.read, hr, update_of_ne hne, hn, if_neg hv, if_pos hv']
    rw [insertSlot.eq_def]
    simp [hn]
  apply vmaInsert_linked hslot
  rw [insertLoop.eq_def]
  simp [hn, hne, hne.symm, hr]

-- A third node below the left child, on the left: the child becomes the root.
theorem insert_outer (id : Nat) (v : Vma) (h : t.Pair a b va vb) (hab : a ≠ b) (ha : a ≠ id) (hb : b ≠ id)
    (hva : v.stop ≤ va.start) (hvb : v.stop ≤ vb.start) :
    ∃ t', vmaInsert (t.set id v) id = some (.ok t') ∧
      t'.Three b a id vb va v := by
  obtain ⟨hr, hn⟩ := h
  simp only [List.forall_mem_cons] at hn
  have hslot : insertSlot (t.set id v) v none .root = some (.ok (some b, .child .left b)) := by
    rw [insertSlot.eq_def]
    simp only [VmaTree.set, Slot.read, hr, update_of_ne ha, hn, if_pos hva]
    rw [insertSlot.eq_def]
    simp only [Slot.read, RbNode.child, hn, update_of_ne hb, if_pos hvb]
    rw [insertSlot.eq_def]
    simp [hn]
  apply vmaInsert_linked hslot
  rw [insertLoop.eq_def]
  simp [hn, hab, ha, hb, hab.symm, hb.symm]
  rw [insertLoop.eq_def]
  simp [hab, hab.symm, ha.symm, hb.symm]

-- A third node below the right child, on the left: it becomes the root itself.
theorem insert_inner (id : Nat) (v : Vma) (h : t.PairRight a b va vb) (hab : a ≠ b) (ha : a ≠ id) (hb : b ≠ id)
    (hva : ¬ v.stop ≤ va.start) (hva' : v.start ≥ va.stop) (hvb : v.stop ≤ vb.start) :
    ∃ t', vmaInsert (t.set id v) id = some (.ok t') ∧
      t'.Three id b a v vb va := by
  obtain ⟨hr, hn⟩ := h
  simp only [List.forall_mem_cons] at hn
  have hslot : insertSlot (t.set id v) v none .root = some (.ok (some b, .child .left b)) := by
    rw [insertSlot.eq_def]
    simp only [VmaTree.set, Slot.read, hr, update_of_ne ha, hn, if_neg hva, if_pos hva']
    rw [insertSlot.eq_def]
    simp only [Slot.read, RbNode.child, hn, update_of_ne hb, if_pos hvb]
    rw [insertSlot.eq_def]
    simp [hn]
  apply vmaInsert_linked hslot
  rw [insertLoop.eq_def]
  simp [hn, hab, ha, hb, hab.symm, ha.symm, hb.symm]
  rw [insertLoop.eq_def]
  simp [ha, hb, hab.symm, ha.symm]

theorem insert_fourth (id : Nat) (v : Vma) (h : t.Three a b c va vb vc)
    (hab : a ≠ b) (hac : a ≠ c) (hbc : b ≠ c) (ha : a ≠ id) (hb : b ≠ id) (hc : c ≠ id)
    (hva : v.stop ≤ va.start) (hvc : ¬ v.stop ≤ vc.start) (hvc' : v.start ≥ vc.stop) :
    ∃ t', vmaInsert (t.set id v) id = some (.ok t') ∧
      t'.Four a b c id va vb vc v := by
  obtain ⟨hr, hn⟩ := h
  simp only [List.forall_mem_cons] at hn
  have hslot : insertSlot (t.set id v) v none .root = some (.ok (some c, .child .right c)) := by
    rw [insertSlot.eq_def]
    simp only [VmaTree.set, Slot.read, hr, update_of_ne ha, hn, if_pos hva]
    rw [insertSlot.eq_def]
    simp only [Slot.read, RbNode.child, hn, update_of_ne hc, if_neg hvc, if_pos hvc']
    rw [insertSlot.eq_def]
    simp [hn]
  apply vmaInsert_linked hslot
  rw [insertLoop.eq_def]
  simp [hn, hab, hac, hbc, ha, hb, hc, hc.symm]
  rw [insertLoop.eq_def]
  simp [hab.symm, hac.symm, hbc.symm, ha.symm, hb.symm, hc.symm, hr]

end insertion

section traversal

variable {t : VmaTree} {i j a b c d : Nat} {va vb vc vd : Vma}

theorem vmaNext_below (hi : (t.rb.node i).right = some j) (hj : (t.rb.node j).left = none) :
    vmaNext t i = some (some j) := by
  unfold vmaNext rbNext
  rw [hi]
  dsimp only
  rw [rbMin.eq_def, hj]
  rfl

theorem vmaNext_above (hi : (t.rb.node i).right = none) (hp : (t.rb.node i).parent = some j)
    (hj : (t.rb.node j).right ≠ some i) : vmaNext t i = some (some j) := by
  unfold vmaNext rbNext
  rw [hi]
  rw [nextLoop.eq_def, hp]
  dsimp only
  rw [if_neg hj]

theorem vmaFirst_left (hr : t.rb.root = some i) (hi : (t.rb.node i).left = some j)
    (hj : (t.rb.node j).left = none) : vmaFirst t = some (some j) := by
  unfold vmaFirst rbFirst
  rw [hr]
  dsimp only
  rw [rbMin.eq_def, hi]
  dsimp only
  rw [rbMin.eq_def, hj]
  rfl

theorem vmaNext_root (hi : (t.rb.node i).right = none) (hp : (t.rb.node i).parent = none) :
    vmaNext t i = some none := by
  unfold vmaNext rbNext
  rw [hi]
  rw [nextLoop.eq_def, hp]

theorem vmaNext_last (hi : (t.rb.node i).right = none) (hp : (t.rb.node i).parent = some j)
    (hj : (t.rb.node j).right = some i) (hr : (t.rb.node j).parent = none) : vmaNext t i = some none := by
  unfold vmaNext rbNext
  rw [hi]
  rw [nextLoop.eq_def, hp]
  dsimp only
  rw [if_pos hj, nextLoop.eq_def, hr]

theorem one_order (h : t.One a va) : vmaFirst t = some (some a) ∧ vmaNext t a = some none := by
  obtain ⟨hr, hn⟩ := h
  simp only [List.forall_mem_singleton] at hn
  refine ⟨?_, vmaNext_root (by rw [hn.1]) (by rw [hn.1])⟩
  unfold vmaFirst rbFirst
  rw [hr]
  dsimp only
  rw [rbMin.eq_def, hn.1]
  rfl

theorem pair_order (h : t.Pair a b va vb) :
    vmaFirst t = some (some b) ∧ vmaNext t b = some (some a) ∧ vmaNext t a = some none := by
  obtain ⟨hr, hn⟩ := h
  simp only [List.forall_mem_cons] at hn
  refine ⟨vmaFirst_left hr (j := b) ?_ ?_, vmaNext_above (j := a) ?_ ?_ ?_, vmaNext_root ?_ ?_⟩ <;>
    simp [hn]

theorem three_order (h : t.Three a b c va vb vc) (hbc : b ≠ c) :
    vmaFirst t = some (some c) ∧ vmaNext t c = some (some a) := by
  obtain ⟨hr, hn⟩ := h
  simp only [List.forall_mem_cons] at hn
  refine ⟨vmaFirst_left hr (j := c) ?_ ?_, vmaNext_above (j := a) ?_ ?_ ?_⟩ <;> simp [hn, hbc]

theorem four_order (h : t.Four a b c d va vb vc vd) (hbc : b ≠ c) :
    vmaFirst t = some (some c) ∧ vmaNext t c = some (some d) ∧ vmaNext t d = some (some a) ∧
      vmaNext t a = some (some b) ∧ vmaNext t b = some none := by
  obtain ⟨hr, hn⟩ := h
  simp only [List.forall_mem_cons] at hn
  -- from the last node of the left subtree the way leads up twice
  have hup : vmaNext t d = some (some a) := by
    unfold vmaNext rbNext
    rw [nextLoop.eq_def]
    simp only [hn, if_true]
    rw [nextLoop.eq_def]
    simp [hn, hbc]
  refine ⟨vmaFirst_left hr (j := c) ?_ ?_, vmaNext_below ?_ ?_, hup, vmaNext_below ?_ ?_,
    vmaNext_last (j := a) ?_ ?_ ?_ ?_⟩ <;> simp [hn]

end traversal

section search

variable {t : VmaTree} {i x : Nat} {o : Option Nat}

theorem findFrom_none : findFrom t x none = some none := by rw [findFrom.eq_def]

theorem findFrom_left (h : x < (t.vma i).start) :
    findFrom t x (some i) = findFrom t x (t.rb.node i).left := by
  rw [findFrom.eq_def]
  dsimp only
  rw [if_pos h]

theorem findFrom_right (h : ¬ x < (t.vma i).start) (h' : x ≥ (t.vma i).stop) :
    findFrom t x (some i) = findFrom t x (t.rb.node i).right := by
  rw [findFrom.eq_def]
  dsimp only
  rw [if_neg h, if_pos h']

theorem findFrom_here (h : ¬ x < (t.vma i).start) (h' : ¬ x ≥ (t.vma i).stop) :
    findFrom t x (some i) = some (some i) := by
  rw [findFrom.eq_def]
  dsimp only
  rw [if_neg h, if_neg h']

theorem skipBelow_none : skipBelow t x none = some none := by rw [skipBelow.eq_def]

theorem skipBelow_next (h : (t.vma i).stop ≤ x) (hn : vmaNext t i = some o) :
    skipBelow t x (some i) = skipBelow t x o := by
  rw [skipBelow.eq_def]
  dsimp only
  rw [if_pos h, hn]
  rfl

theorem skipBelow_here (h : ¬ (t.vma i).stop ≤ x) : skipBelow t x (some i) = some (some i) := by
  rw [skipBelow.eq_def]
  dsimp only
  rw [if_neg h]

theorem vmaAtOrAbove_skip (hf : vmaFind t x = some none) (h : vmaFirst t = some o) :
    vmaAtOrAbove t x = skipBelow t x o := by
  unfold vmaAtOrAbove
  rw [hf, h]
  rfl

end search

end Jnu.Mm
