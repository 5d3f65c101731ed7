import Jnu.Rbtree.Rep

namespace Jnu.Rbtree

open Lib.RedBlack

variable {ι : Type} [DecidableEq ι] {s : RbState ι} {K : Ctx ι} {c c' : RbColor} {a b d : RbTree ι}

theorem relink_ctx {u : ι} (side : Side) (v : Option ι) (hctx : CtxSpells s.node K (some u))
    (hroot : s.root = K.rootWith (some u)) (hu : u ∉ K.values) (hnd : K.values.Nodup) :
    CtxSpells (relink side s K.parent? u v).node K v ∧ (relink side s K.parent? u v).root = K.rootWith v ∧
      ∀ i, K.parent? ≠ some i → (relink side s K.parent? u v).node i = s.node i := by
  cases K with
  | top => exact ⟨trivial, rfl, fun _ _ => rfl⟩
  | frame hole c x other up =>
    obtain ⟨hx, ho, hup⟩ := hctx
    simp only [Ctx.values, List.mem_cons, List.mem_append, not_or] at hu
    simp only [Ctx.values, List.nodup_cons, List.mem_append, not_or] at hnd
    -- the test on `side` succeeds exactly when the hole is on that side
    have hs : relink side s (some x) u v = s.setChild hole x v := by
      simp only [relink, hx]
      by_cases hh : hole = side
      · subst hh
        simp
      obtain rfl : side = hole.flip := by
        cases side <;> cases hole <;> simp_all [Side.flip]
      have hne : other.root? ≠ some u := fun he => hu.2.1 (RbTree.mem_of_root? he)
      simp [hne]
    have heq : ∀ i, x ≠ i → (relink side s (some x) u v).node i = s.node i := by
      intro i hi
      rw [hs]
      exact s.setChild_of_ne x i hole v (Ne.symm hi)
    refine ⟨⟨?_, ho.congr ?_, hup.congr ?_⟩, ?_, ?_⟩
    · rw [Ctx.parent?, hs, RbState.setChild_self, hx]
      simp
    · exact fun i hi => heq i (fun he => hnd.1.1 (he ▸ hi))
    · exact fun i hi => heq i (fun he => hnd.1.2 (he ▸ hi))
    · rw [Ctx.parent?, hs]
      simpa [Ctx.rootWith] using hroot
    · exact fun i hi => heq i (fun he => hi (by rw [he, Ctx.parent?]))

omit [DecidableEq ι] in
theorem parent?_mem {i : ι} (h : K.parent? = some i) : i ∈ K.values := by
  cases K with
  | top => simp [Ctx.parent?] at h
  | frame side c x other up =>
    simp only [Ctx.parent?, Option.some.injEq] at h
    simp [Ctx.values, h]

theorem Zip.rotate {side : Side} {x y : ι} (h : Zip s K (a.join side c x (b.join side c' y d))) :
    ∃ s', rotate side s x = some s' ∧ Zip s' K ((a.join side c x b).join side c' y d) := by
  have hx := h.node_eq
  obtain ⟨-, ha, hY⟩ := spells_join.mp h.tree
  obtain ⟨hy, hb, hd⟩ := spells_join.mp hY
  have hperm : ((a.join side c x (b.join side c' y d)).toList ++ K.values).Perm
      (x :: y :: (a.toList ++ b.toList ++ d.toList ++ K.values)) := by
    refine ((join_perm side c a _ x).append_right _).trans (List.Perm.cons x ?_)
    refine (((join_perm side c' b d y).append_left a.toList).append_right _).trans ?_
    simpa only [List.append_assoc, List.cons_append] using List.perm_middle
  have hperm' : (((a.join side c x b).join side c' y d).toList ++ K.values).Perm
      (x :: y :: (a.toList ++ b.toList ++ d.toList ++ K.values)) := by
    refine ((join_perm side c' _ d y).append_right _).trans ?_
    refine (List.Perm.cons y (((join_perm side c a b x).append_right _).append_right _)).trans ?_
    simpa only [List.append_assoc, List.cons_append] using List.Perm.swap x y _
  have hnd := hperm.nodup_iff.mp h.nodup
  have hnd' := hperm'.nodup_iff.mpr hnd
  simp only [List.nodup_cons, List.mem_cons, List.mem_append, not_or, List.nodup_append] at hnd
  obtain ⟨⟨hxy, ⟨⟨hxa, hxb⟩, hxd⟩, hxK⟩, ⟨⟨⟨hya, hyb⟩, hyd⟩, hyK⟩,
    ⟨⟨-, hbnd, hab⟩, -, hd'⟩, hKnd, hK⟩ := hnd
  have hbx : b.root? ≠ some x := fun he => hxb (RbTree.mem_of_root? he)
  have hby : b.root? ≠ some y := fun he => hyb (RbTree.mem_of_root? he)
  have hPx : K.parent? ≠ some x := fun he => hxK (parent?_mem he)
  have hPy : K.parent? ≠ some y := fun he => hyK (parent?_mem he)
  -- the links below the parent, before the parent is redirected
  set s2 := (s.setChild side.flip x b.root?).setParent? b.root? (some x) with hs2
  set s3 := s2.setParent y K.parent? with hs3
  have hx2 : s2.node x = mkNode side K.parent? a.root? b.root? c := by
    rw [hs2, RbState.setParent?_of_ne _ _ _ _ hbx, RbState.setChild_self, hx]
    simp
  have hx3 : s3.node x = mkNode side K.parent? a.root? b.root? c := by
    rw [hs3, RbState.setParent_of_ne _ _ _ _ hxy, hx2]
  have hy3 : s3.node y = mkNode side K.parent? b.root? d.root? c' := by
    rw [hs3, RbState.setParent_self, hs2, RbState.setParent?_of_ne _ _ _ _ hby,
      RbState.setChild_of_ne _ _ _ _ _ (Ne.symm hxy), hy]
    cases side <;> rfl
  have heq3 : ∀ i, i ≠ x → i ≠ y → b.root? ≠ some i → s3.node i = s.node i := by
    intro i hix hiy hib
    rw [hs3, RbState.setParent_of_ne _ _ _ _ hiy, hs2, RbState.setParent?_of_ne _ _ _ _ hib,
      RbState.setChild_of_ne _ _ _ _ _ hix]
  have hb3 : ∀ i, b.root? = some i → s3.node i = { s.node i with parent := some x } := by
    intro i hi
    have hib := RbTree.mem_of_root? hi
    have hix : i ≠ x := fun he => hxb (he ▸ hib)
    have hiy : i ≠ y := fun he => hyb (he ▸ hib)
    rw [hs3, RbState.setParent_of_ne _ _ _ _ hiy, hs2, hi, RbState.setParent?_self,
      RbState.setChild_of_ne _ _ _ _ _ hix]
  have hctx3 : CtxSpells s3.node K (some x) := by
    refine CtxSpells.congr (by simpa using h.ctx) fun i hi => heq3 i ?_ ?_ ?_
    · exact fun he => hxK (he ▸ hi)
    · exact fun he => hyK (he ▸ hi)
    · exact fun he => hK i (Or.inl (Or.inr (RbTree.mem_of_root? he))) i hi rfl
  have hroot3 : s3.root = K.rootWith (some x) := by simpa [hs3, hs2] using h.root
  obtain ⟨hctx4, hroot4, heq4⟩ := relink_ctx side (some y) hctx3 hroot3 hxK hKnd
  set s4 := relink side s3 K.parent? x (some y) with hs4
  set s6 := (s4.setChild side y (some x)).setParent x (some y) with hs6
  have hx6 : s6.node x = mkNode side (some y) a.root? b.root? c := by
    rw [hs6, RbState.setParent_self, RbState.setChild_of_ne _ _ _ _ _ hxy, heq4 x hPx, hx3]
    cases side <;> rfl
  have hy6 : s6.node y = mkNode side K.parent? (some x) d.root? c' := by
    rw [hs6, RbState.setParent_of_ne _ _ _ _ (Ne.symm hxy), RbState.setChild_self, heq4 y hPy, hy3]
    simp
  have heq6 : ∀ i, i ≠ x → i ≠ y → s6.node i = s4.node i := by
    intro i hix hiy
    rw [hs6, RbState.setParent_of_ne _ _ _ _ hix, RbState.setChild_of_ne _ _ _ _ _ hiy]
  refine ⟨s6, ?_, ⟨?_, ?_, ?_, hnd'⟩⟩
  · simp only [Rbtree.rotate, hx, mkNode_child_flip, RbTree.root?_join, Option.bind_eq_bind,
      Option.bind_some, hy, mkNode_child]
    rw [← hs2, hx2, mkNode_parent, ← hs3, hx3, mkNode_parent, ← hs4, ← hs6]
    rfl
  · have hin : ∀ i, i ∈ a.toList ∨ i ∈ b.toList ∨ i ∈ d.toList → s6.node i = s3.node i := by
      intro i hi
      have hix : i ≠ x := by rintro rfl; tauto
      have hiy : i ≠ y := by rintro rfl; tauto
      rw [heq6 i hix hiy]
      refine heq4 i fun he => ?_
      have := parent?_mem he
      rcases hi with hi | hi | hi
      · exact hK i (Or.inl (Or.inl hi)) i this rfl
      · exact hK i (Or.inl (Or.inr hi)) i this rfl
      · exact hK i (Or.inr hi) i this rfl
    have hsame : ∀ i, i ∈ a.toList ∨ i ∈ d.toList → s6.node i = s.node i := by
      intro i hi
      rw [hin i (by tauto)]
      refine heq3 i (by rintro rfl; tauto) (by rintro rfl; tauto) fun he => ?_
      have hib := RbTree.mem_of_root? he
      rcases hi with hi | hi
      · exact hab i hi i hib rfl
      · exact hd' i (Or.inr hib) i hi rfl
    refine spells_join.mpr ⟨by simpa using hy6, spells_join.mpr ⟨hx6, ?_, ?_⟩, ?_⟩
    · exact ha.congr fun i hi => hsame i (Or.inl hi)
    · refine hb.reparent hbnd ?_ ?_
      · intro i hi
        rw [hin i (Or.inr (Or.inl (RbTree.mem_of_root? hi))), hb3 i hi]
      · intro i hi hib
        rw [hin i (Or.inr (Or.inl hi))]
        exact heq3 i (by rintro rfl; tauto) (by rintro rfl; tauto) hib
    · exact hd.congr fun i hi => hsame i (Or.inr hi)
  · rw [RbTree.root?_join]
    refine hctx4.congr fun i hi => heq6 i ?_ ?_
    · exact fun he => hxK (he ▸ hi)
    · exact fun he => hyK (he ▸ hi)
  · simpa [hs6] using hroot4

end Jnu.Rbtree
