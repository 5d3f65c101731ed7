import Jnu.Rbtree.Insert

namespace Jnu.Rbtree

open Lib.RedBlack

variable {ι : Type} {p rz : Option ι} {t v r ry : RbTree ι} {s : RbState ι} {M K : Ctx ι}

theorem rbMin_spec {x : ι} (h : Spells s.node p t) (hx : t.root? = some x) :
    ∃ M : Ctx ι, ∃ c y, ∃ r : RbTree ι, rbMin s x = some y ∧ t = M.plug (.node c .nil y r) ∧
      M.before = [] := by
  induction t generalizing p x with
  | nil => simp [RbTree.root?] at hx
  | node c l v r ihl _ =>
    obtain rfl : v = x := by simpa [RbTree.root?] using hx
    obtain ⟨hv, hl, -⟩ := h
    rw [rbMin, hv]
    cases hroot : l.root? with
    | none =>
      have hnil : l = .nil := by
        cases l with
        | nil => rfl
        | node => simp [RbTree.root?] at hroot
      subst hnil
      exact ⟨.top, c, v, r, rfl, rfl, rfl⟩
    | some w =>
      obtain ⟨M, c', y, r', he, hp, hb⟩ := ihl hl hroot
      refine ⟨M.comp (.frame .left c v r .top), c', y, r', he, ?_, ?_⟩
      · rw [Ctx.plug_comp, ← hp]
        rfl
      have hcomp : ∀ M : Ctx ι, M.before = [] →
          (M.comp (.frame .left c v r .top)).before = [] := by
        intro M hM
        induction M with
        | top => rfl
        | frame side d z o up ih =>
          cases side with
          | left => exact ih hM
          | right => simp [Ctx.before] at hM
      exact hcomp M hb

theorem zip_comp : Zip s (M.comp K) t ↔ Zip s K (M.plug t) := by
  rw [← represents_plug, Ctx.plug_comp, represents_plug]

theorem parent?_comp (M K : Ctx ι) : (M.comp K).parent? = M.parent?.or K.parent? := by
  cases M <;> rfl

variable [DecidableEq ι] {z y u : ι} {l : RbTree ι} {c cy : RbColor}

theorem transplant_spec (hctx : CtxSpells s.node K (some u)) (hroot : s.root = K.rootWith (some u))
    (hpar : (s.node u).parent = K.parent?) (hu : u ∉ K.values) (hv : Spells s.node p v)
    (hnd : (v.toList ++ K.values).Nodup) :
    Zip (transplant s u v.root?) K v ∧
    ∀ i, K.parent? ≠ some i → v.root? ≠ some i →
      (transplant s u v.root?).node i = s.node i := by
  have hnd' := hnd
  simp only [List.nodup_append] at hnd
  obtain ⟨hvnd, hKnd, hvK⟩ := hnd
  obtain ⟨hctx', hroot', heq⟩ := relink_ctx .left v.root? hctx hroot hu hKnd
  set s1 := relink .left s K.parent? u v.root? with hs1
  have hu1 : (s1.node u).parent = K.parent? := by
    rw [heq u (fun he => hu (parent?_mem he)), hpar]
  have hs : transplant s u v.root? = s1.setParent? v.root? K.parent? := by
    simp only [transplant, hpar, ← hs1, hu1]
  have hKv : ∀ i ∈ v.toList, K.parent? ≠ some i :=
    fun i hi he => hvK i hi i (parent?_mem he) rfl
  have heq' : ∀ i, v.root? ≠ some i → (transplant s u v.root?).node i = s1.node i := by
    intro i hi
    rw [hs, RbState.setParent?_of_ne _ _ _ _ hi]
  refine ⟨⟨?_, ?_, ?_, hnd'⟩, ?_⟩
  · refine hv.reparent hvnd ?_ ?_
    · intro i hi
      rw [hs, hi, RbState.setParent?_self, heq i (hKv i (RbTree.mem_of_root? hi))]
    · intro i hi hne
      rw [heq' i hne, heq i (hKv i hi)]
  · exact hctx'.congr fun i hi => heq' i fun he => hvK i (RbTree.mem_of_root? he) i hi rfl
  · rw [hs, RbState.setParent?_root, hroot']
  · intro i hK hi
    rw [heq' i hi, heq i hK]

theorem replaceNode_spec (hctx : CtxSpells s.node K (some z)) (hroot : s.root = K.rootWith (some z))
    (hz : s.node z = ⟨K.parent?, l.root?, rz, c⟩) (hl : Spells s.node (some z) l) (hlne : l ≠ .nil)
    (hr : Spells s.node (some y) r) (hy : (s.node y).right = r.root?)
    (hnd : (z :: y :: (l.toList ++ r.toList ++ K.values)).Nodup) :
    ∃ s', replaceNode s z y = some s' ∧ Zip s' K (.node c l y r) := by
  obtain ⟨lv, hlv⟩ : ∃ lv, l.root? = some lv := by
    cases l with
    | nil => exact absurd rfl hlne
    | node _ _ lv _ => exact ⟨lv, rfl⟩
  have hlvl := RbTree.mem_of_root? hlv
  simp only [List.nodup_cons, List.mem_cons, List.mem_append, not_or, List.nodup_append] at hnd
  obtain ⟨⟨hzy, ⟨hzl, hzr⟩, hzK⟩, ⟨⟨hyl, hyr⟩, hyK⟩, ⟨hlnd, hrnd, hlr⟩, hKnd, hK⟩ := hnd
  have hPz : K.parent? ≠ some z := fun he => hzK (parent?_mem he)
  have hPy : K.parent? ≠ some y := fun he => hyK (parent?_mem he)
  have hlvy : lv ≠ y := fun he => hyl (he ▸ hlvl)
  have hlvz : lv ≠ z := fun he => hzl (he ▸ hlvl)
  obtain ⟨hctx1, hroot1, heq1⟩ := relink_ctx .left (some y) hctx hroot hzK hKnd
  set s1 := relink .left s K.parent? z (some y) with hs1
  have hz1 : s1.node z = ⟨K.parent?, l.root?, rz, c⟩ := by rw [heq1 z hPz, hz]
  set s2 := s1.setParent y K.parent? with hs2
  have hz2 : s2.node z = ⟨K.parent?, l.root?, rz, c⟩ := by
    rw [hs2, RbState.setParent_of_ne _ _ _ _ hzy, hz1]
  set s3 := s2.setChild .left y l.root? with hs3
  set s4 := s3.setParent lv (some y) with hs4
  set s5 := s4.setColor y c with hs5
  have hz4 : (s4.node z).color = c := by
    rw [hs4, RbState.setParent_of_ne _ _ _ _ (Ne.symm hlvz), hs3,
      RbState.setChild_of_ne _ _ _ _ _ hzy, hz2]
  have hy5 : s5.node y = ⟨K.parent?, l.root?, r.root?, c⟩ := by
    rw [hs5, RbState.setColor_self, hs4, RbState.setParent_of_ne _ _ _ _ (Ne.symm hlvy), hs3,
      RbState.setChild_self, hs2, RbState.setParent_self, heq1 y hPy, ← hy]
    rfl
  have hlv5 : s5.node lv = { s1.node lv with parent := some y } := by
    rw [hs5, RbState.setColor_of_ne _ _ _ _ hlvy, hs4, RbState.setParent_self, hs3,
      RbState.setChild_of_ne _ _ _ _ _ hlvy, hs2, RbState.setParent_of_ne _ _ _ _ hlvy]
  have heq5 : ∀ i, i ≠ y → i ≠ lv → s5.node i = s1.node i := by
    intro i hiy hil
    rw [hs5, RbState.setColor_of_ne _ _ _ _ hiy, hs4, RbState.setParent_of_ne _ _ _ _ hil, hs3,
      RbState.setChild_of_ne _ _ _ _ _ hiy, hs2, RbState.setParent_of_ne _ _ _ _ hiy]
  refine ⟨s5, ?_, ⟨⟨hy5, ?_, ?_⟩, ?_, ?_, ?_⟩⟩
  · have hs : transplant s z (some y) = s2 := by
      simp only [transplant, hz, ← hs1, hz1]
      rfl
    have hyl : (s3.node y).left = some lv := by
      rw [hs3, RbState.setChild_self]
      exact hlv
    simp only [replaceNode, hs, hz2, ← hs3, hyl, Option.bind_eq_bind, Option.bind_some, ← hs4,
      hz4, ← hs5]
  · refine hl.reparent hlnd ?_ ?_
    · intro i hi
      obtain rfl : lv = i := by simpa [hlv] using hi
      rw [hlv5, heq1 lv fun he => hK lv (Or.inl hlvl) lv (parent?_mem he) rfl]
    · intro i hi hne
      rw [heq5 i (fun he => hyl (he ▸ hi)) (fun he => hne (he ▸ hlv)),
        heq1 i fun he => hK i (Or.inl hi) i (parent?_mem he) rfl]
  · refine hr.congr fun i hi => ?_
    rw [heq5 i (fun he => hyr (he ▸ hi)) (fun he => hlr lv hlvl i hi he.symm),
      heq1 i fun he => hK i (Or.inr hi) i (parent?_mem he) rfl]
  · refine hctx1.congr fun i hi => heq5 i (fun he => hyK (he ▸ hi)) ?_
    exact fun he => hK lv (Or.inl hlvl) i hi he.symm
  · simpa [hs5, hs4, hs3, hs2, RbTree.root?] using hroot1
  · simp only [RbTree.toList, List.nodup_append, List.nodup_cons, List.mem_append, List.mem_cons]
    grind

theorem detachSuccessor_spec (h : Zip s K (.node c l z (M.plug (.node cy .nil y ry)))) :
    ∃ s', detachSuccessor s z y = some (s', M.parent?.or (some y)) ∧
      CtxSpells s'.node K (some z) ∧ s'.root = K.rootWith (some z) ∧
      (∃ rz, s'.node z = ⟨K.parent?, l.root?, rz, c⟩) ∧ Spells s'.node (some z) l ∧
      Spells s'.node (some y) (M.plug ry) ∧ (s'.node y).right = (M.plug ry).root? := by
  have hzip : Zip s (M.comp (.frame .right c z l K)) (.node cy .nil y ry) :=
    zip_comp.mpr (zip_frame.mpr h)
  have hy := hzip.tree.1
  rw [parent?_comp] at hy
  have hyf := hzip.notMem (d := .left)
  cases hM : M.parent? with
  | none =>
    obtain rfl : M = .top := by
      cases M with
      | top => rfl
      | frame => simp [Ctx.parent?] at hM
    refine ⟨s, ?_, h.ctx, h.root, ⟨_, h.tree.1⟩, h.tree.2.1, h.tree.2.2.2.2, ?_⟩
    · simp [detachSuccessor, hy, Ctx.parent?]
    · simp [hy, Ctx.plug]
  | some m =>
    have hmM : m ∈ M.values := parent?_mem hM
    have hpar : (s.node y).parent = (M.comp (.frame .right c z l K)).parent? := by
      rw [hy, parent?_comp]
    have hnd : (ry.toList ++ (M.comp (.frame .right c z l K)).values).Nodup := by
      simpa [RbTree.toList] using (List.nodup_cons.mp (by simpa [RbTree.toList] using hzip.nodup)).2
    obtain ⟨hz1, heq1⟩ := transplant_spec (p := some y) hzip.ctx hzip.root hpar hyf.2.2
      hzip.tree.2.2 hnd
    set s1 := transplant s y ry.root? with hs1
    have h1 : Zip s1 K (.node c l z (M.plug ry)) := zip_frame.mp (zip_comp.mp hz1)
    have hy1 := heq1 y (fun he => hyf.2.2 (parent?_mem he)) (fun he => hyf.2.1 (RbTree.mem_of_root? he))
    obtain ⟨w, hw⟩ : ∃ w, (M.plug ry).root? = some w := by
      cases hp : M.plug ry with
      | nil =>
        have hl := congrArg List.length (congrArg RbTree.toList hp)
        have hm := (Ctx.perm_values M).mem_iff.mpr hmM
        rw [Ctx.toList_plug] at hl
        simp only [RbTree.toList, List.length_append, List.length_nil] at hl
        have := List.length_pos_of_mem hm
        simp only [List.length_append] at this
        omega
      | node _ _ w _ => exact ⟨w, rfl⟩
    have hwm := RbTree.mem_of_root? hw
    have hyz : y ≠ z ∧ y ∉ l.toList ∧ y ∉ (M.plug ry).toList ∧ y ∉ K.values := by
      have := h.nodup
      simp only [RbTree.toList, Ctx.toList_plug, List.nodup_append, List.nodup_cons,
        List.mem_append, List.mem_cons, List.nil_append] at this ⊢
      grind
    have hnd1 := h1.nodup
    simp only [RbTree.toList, List.nodup_append, List.nodup_cons, List.mem_append,
      List.mem_cons] at hnd1
    obtain ⟨⟨hlnd, ⟨hzr, hrnd⟩, hlr⟩, hKnd, hK⟩ := hnd1
    have hwy : w ≠ y := fun he => hyz.2.2.1 (he ▸ hwm)
    have hwz : w ≠ z := fun he => hzr (he ▸ hwm)
    set s2 := s1.setChild .right y (some w) with hs2
    set s3 := s2.setParent w (some y) with hs3
    have heq3 : ∀ i, i ≠ y → i ≠ w → s3.node i = s1.node i := by
      intro i hiy hiw
      rw [hs3, RbState.setParent_of_ne _ _ _ _ hiw, hs2, RbState.setChild_of_ne _ _ _ _ _ hiy]
    have hz3 := heq3 z (Ne.symm hyz.1) (Ne.symm hwz)
    have hy3 : s3.node y = ⟨some m, none, some w, cy⟩ := by
      rw [hs3, RbState.setParent_of_ne _ _ _ _ (Ne.symm hwy), hs2, RbState.setChild_self, hy1, hy,
        hM]
      rfl
    refine ⟨s3, ?_, ?_, ?_, ⟨_, hz3.trans h1.tree.1⟩, ?_, ?_, ?_⟩
    · have hmz : m ≠ z := by
        have := h.nodup
        have hm := (Ctx.perm_values M).mem_iff.mpr hmM
        simp only [RbTree.toList, Ctx.toList_plug, List.nodup_append, List.nodup_cons,
          List.mem_append, List.mem_cons, List.nil_append] at this hm
        grind
      have hyw : (s2.node y).right = some w := by
        rw [hs2, RbState.setChild_self]
        rfl
      have hne : (s.node y).parent ≠ some z := by
        rw [hy, hM]
        simpa using hmz
      have hyr : (s.node y).right = ry.root? := by rw [hy]
      have hzw : (s1.node z).right = some w := by rw [h1.tree.1, hw]
      rw [detachSuccessor, if_neg hne]
      simp only [hyr, ← hs1, hzw, ← hs2, hyw, Option.bind_eq_bind, Option.bind_some, ← hs3, hy3]
      rfl
    · refine h1.ctx.congr fun i hi => heq3 i (fun he => hyz.2.2.2 (he ▸ hi)) ?_
      exact fun he => hK w (Or.inr (Or.inr hwm)) i hi he.symm
    · simpa [hs3, hs2, RbTree.root?] using h1.root
    · refine h1.tree.2.1.congr fun i hi => heq3 i (fun he => hyz.2.1 (he ▸ hi)) ?_
      exact fun he => hlr i hi i (Or.inr (he ▸ hwm)) rfl
    · refine h1.tree.2.2.reparent hrnd ?_ ?_
      · intro i hi
        obtain rfl : w = i := by simpa [hw] using hi
        rw [hs3, RbState.setParent_self, hs2, RbState.setChild_of_ne _ _ _ _ _ hwy]
      · intro i hi hne
        exact heq3 i (fun he => hyz.2.2.1 (he ▸ hi)) (fun he => hne (he ▸ hw))
    · rw [hy3, hw]

-- Contexts that differ in a value only.
omit [DecidableEq ι] in
theorem balanced_comp_frame {side : Side} {n : Nat} (h : (M.comp (.frame side c z l K)).Balanced n) :
    (M.comp (.frame side c y l K)).Balanced n ∧
      (M.comp (.frame side c y l K)).color = (M.comp (.frame side c z l K)).color := by
  induction M generalizing n with
  | top => cases c <;> exact ⟨h, rfl⟩
  | frame side' c' x o up ih =>
    cases c' with
    | red =>
      obtain ⟨hu, ho, hob, hub⟩ := h
      have := ih hub
      exact ⟨⟨this.2.trans hu, ho, hob, this.1⟩, rfl⟩
    | black => exact ⟨⟨h.1, (ih h.2).1⟩, rfl⟩

-- `K'` is the rest of the tree, in which the successor may have replaced `z`.
theorem unlinkNode_spec {m : Nat} (h : Zip s K (.node c l z r))
    (hbal : (K.plug (.node c l z r)).Balanced m) (hc : (K.plug (.node c l z r)).color = .black) :
    ∃ s' cy v n, ∃ K' : Ctx ι, ∃ x : RbTree ι, ∃ side : Side,
      unlinkNode s z = some (s', cy, x.root?, K'.parent?) ∧ Zip s' K' x ∧
      (K'.plug x).toList = K.before ++ (l.toList ++ r.toList) ++ K.after ∧
      K'.Balanced n ∧ (x.join side cy v .nil).Balanced n ∧ (K'.color = .red → cy = .black) := by
  have hz := h.tree.1
  have hzf := h.notMem (d := .left)
  have hpar : (s.node z).parent = K.parent? := by rw [hz]
  cases hl : l with
  | nil =>
    subst hl
    have hnd := (List.nodup_cons.mp h.nodup).2
    obtain ⟨hzip, -⟩ := transplant_spec (p := some z) h.ctx h.root hpar hzf.2.2 h.tree.2.2 hnd
    obtain ⟨n, hK, hn, hcol⟩ := Ctx.Balanced.of_plug hbal hc
    refine ⟨_, c, z, n, K, r, .right, ?_, hzip, ?_, hK, hn, hcol⟩
    · simp [unlinkNode, hz, RbTree.root?]
    · simp [Ctx.toList_plug, RbTree.toList]
  | node cl ll lv lr =>
    cases hr : r with
    | nil =>
      rw [← hl]
      subst hr
      have hnd : (l.toList ++ K.values).Nodup := by
        have := h.nodup
        simp only [RbTree.toList, List.nodup_append, List.nodup_cons, List.mem_append,
          List.mem_cons] at this ⊢
        grind
      obtain ⟨hzip, -⟩ := transplant_spec (p := some z) h.ctx h.root hpar hzf.2.2 h.tree.2.1 hnd
      obtain ⟨n, hK, hn, hcol⟩ := Ctx.Balanced.of_plug hbal hc
      refine ⟨_, c, z, n, K, l, .left, ?_, hzip, ?_, hK, hn, hcol⟩
      · simp [unlinkNode, hz, RbTree.root?, hl]
      · simp [Ctx.toList_plug, RbTree.toList]
    | node cr rl rv rr =>
      obtain ⟨M, cy, y, ry, hmin, hr', hMb⟩ := rbMin_spec h.tree.2.2 (x := rv) (by simp [hr, RbTree.root?])
      rw [← hl, ← hr, hr']
      rw [hr'] at h hbal hc
      obtain ⟨s1, hdet, hctx, hroot, ⟨rz, hz1⟩, hl1, hr1, hy1⟩ := detachSuccessor_spec h
      have hnd : (z :: y :: (l.toList ++ (M.plug ry).toList ++ K.values)).Nodup := by
        have := h.nodup
        simp only [RbTree.toList, Ctx.toList_plug, List.nodup_append, List.nodup_cons,
          List.mem_append, List.mem_cons, List.nil_append] at this ⊢
        grind
      obtain ⟨s2, hrep, hz2⟩ := replaceNode_spec hctx hroot hz1 hl1 (by simp [hl]) hr1 hy1 hnd
      have hfull : K.plug (.node c l z (M.plug (.node cy .nil y ry))) =
          (M.comp (.frame .right c z l K)).plug (.node cy .nil y ry) := by
        rw [Ctx.plug_comp]
        rfl
      rw [hfull] at hbal hc
      obtain ⟨n, hK, hn, hcol⟩ := Ctx.Balanced.of_plug hbal hc
      obtain ⟨hK', hcol'⟩ := balanced_comp_frame (y := y) hK
      refine ⟨s2, cy, y, n, M.comp (.frame .right c y l K), ry, .right, ?_,
        zip_comp.mpr (zip_frame.mpr hz2), ?_, hK', hn, fun he => hcol (hcol' ▸ he)⟩
      · have hzy : Zip s (M.comp (.frame .right c z l K)) (.node cy .nil y ry) :=
          zip_comp.mpr (zip_frame.mpr h)
        have hy := hzy.tree.1
        have hlr : (s.node z).left = some lv ∧ (s.node z).right = some rv := by
          rw [h.tree.1, ← hr', hl, hr]
          exact ⟨rfl, rfl⟩
        simp only [unlinkNode, hlr, hmin, Option.bind_eq_bind, Option.bind_some, hdet, hrep, hy,
          parent?_comp]
        rfl
      · rw [Ctx.plug_comp]
        simp [Ctx.toList_plug, Ctx.plug, RbTree.join, RbTree.toList, hMb]

end Jnu.Rbtree
