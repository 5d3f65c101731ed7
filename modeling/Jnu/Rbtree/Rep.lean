import Jnu.Rbtree.Defs

namespace Jnu.Rbtree

open Lib.RedBlack

variable {ι : Type} {child p' : Option ι}
variable {node node' : ι → RbNode ι} {p : Option ι} {side d : Side} {c : RbColor} {t other : RbTree ι}
  {x : ι} {K up : Ctx ι} {s : RbState ι}

def mkNode (side : Side) (parent child other : Option ι) (c : RbColor) : RbNode ι :=
  match side with
  | .left => ⟨parent, child, other, c⟩
  | .right => ⟨parent, other, child, c⟩

section mkNode

variable (side : Side) (p a b v : Option ι) (c : RbColor)

@[simp] theorem mkNode_parent : (mkNode side p a b c).parent = p := by cases side <;> rfl

@[simp] theorem mkNode_color : (mkNode side p a b c).color = c := by cases side <;> rfl

@[simp] theorem mkNode_child : (mkNode side p a b c).child side = a := by cases side <;> rfl

@[simp] theorem mkNode_child_flip : (mkNode side p a b c).child side.flip = b := by
  cases side <;> rfl

@[simp] theorem mkNode_setChild : (mkNode side p a b c).setChild side v = mkNode side p v b c := by
  cases side <;> rfl

@[simp] theorem mkNode_setChild_flip :
    (mkNode side p a b c).setChild side.flip v = mkNode side p a v c := by
  cases side <;> rfl

end mkNode

-- The links below the nodes of `t`, and the link from its root to the parent.
def Spells (node : ι → RbNode ι) : Option ι → RbTree ι → Prop
  | _, .nil => True
  | p, .node c l x r =>
    node x = ⟨p, l.root?, r.root?, c⟩ ∧ Spells node (some x) l ∧ Spells node (some x) r

def CtxSpells (node : ι → RbNode ι) : Ctx ι → Option ι → Prop
  | .top, _ => True
  | .frame side c x other up, child =>
    node x = mkNode side up.parent? child other.root? c ∧ Spells node (some x) other ∧
      CtxSpells node up (some x)

-- The state holds the tree `K.plug t`, with the attention on the subtree `t`.
structure Zip (s : RbState ι) (K : Ctx ι) (t : RbTree ι) : Prop where
  tree : Spells s.node K.parent? t
  ctx : CtxSpells s.node K t.root?
  root : s.root = K.rootWith t.root?
  nodup : (t.toList ++ K.values).Nodup

-- The pointers of the state spell the tree `t`, parent links included.
def Represents (s : RbState ι) (t : RbTree ι) : Prop := Zip s .top t

theorem spells_join : Spells node p (t.join side c x other) ↔
      node x = mkNode side p t.root? other.root? c ∧ Spells node (some x) t ∧
        Spells node (some x) other := by
  cases side with
  | left => rfl
  | right => exact ⟨fun h => ⟨h.1, h.2.2, h.2.1⟩, fun h => ⟨h.1, h.2.2, h.2.1⟩⟩

theorem Spells.congr
    (h : Spells node p t) (heq : ∀ i ∈ t.toList, node' i = node i) : Spells node' p t := by
  induction t generalizing p with
  | nil => trivial
  | node c l x r ihl ihr =>
    obtain ⟨hx, hl, hr⟩ := h
    refine ⟨?_, ihl hl ?_, ihr hr ?_⟩
    · rw [heq x (by simp [RbTree.toList]), hx]
    · exact fun i hi => heq i (by simp [RbTree.toList, hi])
    · exact fun i hi => heq i (by simp [RbTree.toList, hi])

theorem CtxSpells.congr (h : CtxSpells node K child) (heq : ∀ i ∈ K.values, node' i = node i) :
    CtxSpells node' K child := by
  induction K generalizing child with
  | top => trivial
  | frame side c x other up ih =>
    obtain ⟨hx, ho, hup⟩ := h
    refine ⟨?_, ho.congr ?_, ih hup ?_⟩
    · rw [heq x (by simp [Ctx.values]), hx]
    · exact fun i hi => heq i (by simp [Ctx.values, hi])
    · exact fun i hi => heq i (by simp [Ctx.values, hi])

-- Only the parent link of the root changes when the subtree moves.
theorem Spells.reparent (h : Spells node p t) (hnd : t.toList.Nodup)
    (hroot : ∀ i, t.root? = some i → node' i = { node i with parent := p' })
    (heq : ∀ i ∈ t.toList, t.root? ≠ some i → node' i = node i) : Spells node' p' t := by
  cases t with
  | nil => trivial
  | node c l x r =>
    obtain ⟨hx, hl, hr⟩ := h
    simp only [RbTree.toList, List.nodup_append, List.nodup_cons, List.mem_cons] at hnd
    have hne : ∀ i, i ∈ l.toList ∨ i ∈ r.toList → x ≠ i := by
      rintro i (hi | hi) rfl
      · exact hnd.2.2 x hi x (Or.inl rfl) rfl
      · exact hnd.2.1.1 hi
    refine ⟨by rw [hroot x rfl, hx], hl.congr ?_, hr.congr ?_⟩
    · exact fun i hi => heq i (by simp [RbTree.toList, hi])
        (by simpa [RbTree.root?] using hne i (Or.inl hi))
    · exact fun i hi => heq i (by simp [RbTree.toList, hi])
        (by simpa [RbTree.root?] using hne i (Or.inr hi))

theorem join_perm (side : Side) (c : RbColor) (t other : RbTree ι) (x : ι) :
    (t.join side c x other).toList.Perm (x :: (t.toList ++ other.toList)) := by
  cases side with
  | left => exact List.perm_middle
  | right => exact List.perm_middle.trans (List.perm_append_comm.cons x)

theorem zip_frame :
    Zip s (.frame side c x other up) t ↔ Zip s up (t.join side c x other) := by
  have hperm : (t.toList ++ Ctx.values (.frame side c x other up)).Perm
      ((t.join side c x other).toList ++ up.values) := by
    refine List.perm_middle.trans ?_
    rw [← List.append_assoc, ← List.cons_append]
    exact (join_perm side c t other x).symm.append_right _
  constructor
  · rintro ⟨ht, ⟨hx, ho, hup⟩, hr, hnd⟩
    exact ⟨spells_join.mpr ⟨hx, ht, ho⟩, by simpa using hup,
      by simpa [Ctx.rootWith] using hr, hperm.nodup_iff.mp hnd⟩
  · rintro ⟨ht, hup, hr, hnd⟩
    obtain ⟨hx, ht, ho⟩ := spells_join.mp ht
    exact ⟨ht, ⟨hx, ho, by simpa using hup⟩, by simpa [Ctx.rootWith] using hr,
      hperm.nodup_iff.mpr hnd⟩

theorem represents_plug : Represents s (K.plug t) ↔ Zip s K t := by
  induction K generalizing t with
  | top => rfl
  | frame side c x other up ih => rw [zip_frame, ← ih]; rfl

theorem Zip.node_eq (h : Zip s K (t.join side c x other)) :
    s.node x = mkNode side K.parent? t.root? other.root? c :=
  (spells_join.mp h.tree).1

theorem Zip.notMem (h : Zip s K (t.join d c x other)) :
    x ∉ t.toList ∧ x ∉ other.toList ∧ x ∉ K.values := by
  have hnd := ((join_perm d c t other x).append_right K.values).nodup_iff.mp h.nodup
  rw [List.cons_append, List.nodup_cons] at hnd
  simpa only [List.mem_append, not_or, and_assoc] using hnd.1

variable [DecidableEq ι]

namespace RbState

variable (s : RbState ι) (i j : ι) (side : Side) (p q : Option ι) (c : RbColor)

@[simp] theorem modify_self (f : RbNode ι → RbNode ι) : (s.modify i f).node i = f (s.node i) := by
  simp [modify]

theorem modify_of_ne (f : RbNode ι → RbNode ι) (h : j ≠ i) : (s.modify i f).node j = s.node j := by
  simp [modify, h]

@[simp] theorem setParent_root : (s.setParent i p).root = s.root := rfl

@[simp] theorem setChild_root : (s.setChild side i p).root = s.root := rfl

@[simp] theorem setColor_root : (s.setColor i c).root = s.root := rfl

@[simp] theorem setParent?_root : (s.setParent? p q).root = s.root := by cases p <;> rfl

@[simp] theorem setParent_self : (s.setParent i p).node i = { s.node i with parent := p } := by
  simp [setParent]

@[simp] theorem setChild_self : (s.setChild side i p).node i = (s.node i).setChild side p := by
  simp [setChild]

@[simp] theorem setColor_self : (s.setColor i c).node i = { s.node i with color := c } := by
  simp [setColor]

theorem setParent_of_ne (h : j ≠ i) : (s.setParent i p).node j = s.node j :=
  s.modify_of_ne i j _ h

theorem setChild_of_ne (h : j ≠ i) : (s.setChild side i p).node j = s.node j :=
  s.modify_of_ne i j _ h

theorem setColor_of_ne (h : j ≠ i) : (s.setColor i c).node j = s.node j :=
  s.modify_of_ne i j _ h

theorem setParent?_of_ne (h : p ≠ some j) : (s.setParent? p q).node j = s.node j := by
  cases p with
  | none => rfl
  | some k => exact s.setParent_of_ne k j q (fun he => h (by rw [he]))

theorem setParent?_self : (s.setParent? (some i) p).node i = { s.node i with parent := p } := by
  simp [setParent?]

end RbState

theorem Zip.setColor (h : Zip s K (t.join d c x other)) (k : RbColor) :
    Zip (s.setColor x k) K (t.join d k x other) := by
  have hx := h.node_eq
  obtain ⟨-, ht, ho⟩ := spells_join.mp h.tree
  have hnd := h.notMem
  have hne : ∀ {l : List ι}, x ∉ l → ∀ i ∈ l, (s.setColor x k).node i = s.node i :=
    fun hx i hi => s.setColor_of_ne x i k (fun he => hx (he ▸ hi))
  refine ⟨spells_join.mpr ⟨?_, ht.congr (hne hnd.1), ho.congr (hne hnd.2.1)⟩,
    ?_, by simpa using h.root, ?_⟩
  · rw [RbState.setColor_self, hx]
    cases d <;> rfl
  · simpa using h.ctx.congr (hne hnd.2.2)
  · have := h.nodup
    cases d <;> exact this

end Jnu.Rbtree
