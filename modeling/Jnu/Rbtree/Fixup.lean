import Jnu.Rbtree.Erase

namespace Jnu.Rbtree

open Lib.RedBlack

variable {ι : Type} {w z : ι} {A B : RbTree ι}
variable {s : RbState ι} {side : Side} {c : RbColor} {p : ι} {W t : RbTree ι} {up : Ctx ι}

theorem zip_sibling : Zip s (.frame side c p W up) t ↔ Zip s (.frame side.flip c p t up) W := by
  rw [zip_frame, zip_frame, RbTree.join_flip]

variable [DecidableEq ι] {K : Ctx ι} {cp : RbColor} {n m : Nat} {xp x : Option ι}

theorem Zip.setColor_root (h : Zip s K t) : Zip (s.setColor? t.root? c) K (t.setColor c) := by
  cases t with
  | nil => exact h
  | node d l x r => exact Zip.setColor (d := .left) h _

-- The sibling becomes black. If it was red then `p` becomes red.
theorem siblingBlack_spec (h : Zip s (.frame side cp p W up) t)
    (hK : (Ctx.frame side cp p W up).Balanced (n + 1)) :
    ∃ s' cp', ∃ W' : RbTree ι, ∃ up' : Ctx ι, siblingBlack side s p = some s' ∧
      Zip s' (.frame side cp' p W' up') t ∧ (Ctx.frame side cp' p W' up').Balanced (n + 1) ∧
      W'.color = .black ∧ (cp' = .black → up' = up) ∧
      ((Ctx.frame side cp' p W' up').plug t).toList =
        ((Ctx.frame side cp p W up).plug t).toList := by
  have hp := h.ctx.1
  have hW : W.Balanced (n + 1) := by cases cp <;> simp_all [Ctx.Balanced]
  obtain ⟨cw, A, w, B, rfl⟩ := hW.exists_of_succ side
  have hw := (zip_sibling.mp h).node_eq
  cases cw with
  | black =>
    refine ⟨s, cp, _, up, ?_, h, hK, by simp, fun _ => rfl, rfl⟩
    simp [siblingBlack, hp, hw]
  | red =>
    have hcp : cp = .black := by
      cases cp with
      | black => rfl
      | red => simpa using hK.2.1
    subst hcp
    have h1 := zip_frame.mp (zip_sibling.mpr ((zip_sibling.mp h).setColor .black))
    obtain ⟨s', hs', h2⟩ := (h1.setColor .red).rotate
    rw [RbTree.balanced_join_red] at hW
    refine ⟨s', .red, A, .frame side .black w B up, ?_, zip_frame.mpr (zip_frame.mpr h2),
      ⟨rfl, hW.1, hW.2.2.1, hW.2.2.2, hK.2⟩, hW.1, fun he => (nomatch he), ?_⟩
    · simp [siblingBlack, hp, hw, hs']
    · simp only [Ctx.plug, Ctx.toList_plug]
      cases side <;> simp [RbTree.join, RbTree.toList]

theorem redOutward_spec (h : Zip s (.frame side cp p (A.join side .black w B) up) t) (hA : A.Balanced n)
    (hB : B.Balanced n) (hred : ¬(A.color = .black ∧ B.color = .black)) :
    ∃ s' w', ∃ A' B' : RbTree ι, redOutward side s p w = some (s', some w') ∧
      Zip s' (.frame side cp p (A'.join side .black w' B') up) t ∧
      A'.Balanced n ∧ B'.Balanced n ∧ B'.color = .red ∧
      (A'.join side .black w' B').toList = (A.join side .black w B).toList := by
  have hz := zip_sibling.mp h
  have hw := hz.node_eq
  obtain ⟨-, hsA, hsB⟩ := spells_join.mp hz.tree
  cases hcB : B.color with
  | red =>
    refine ⟨s, w, A, B, ?_, h, hA, hB, hcB, rfl⟩
    simp [redOutward, hw, hsB.isBlack_root, hcB]
  | black =>
    have hcA : A.color = .red := by
      cases hA' : A.color with
      | red => rfl
      | black => exact absurd ⟨hA', hcB⟩ hred
    obtain ⟨A2, A1, a, rfl⟩ : ∃ A2 A1 a, A = RbTree.join side.flip .red A2 a A1 := by
      cases A with
      | nil => simp [RbTree.color] at hcA
      | node c l a r =>
        obtain rfl : c = .red := hcA
        obtain ⟨A2, A1, he⟩ := RbTree.node_eq_join side.flip .red l r a
        exact ⟨A2, A1, a, he⟩
    have h1 := ((zip_frame.mp ((zip_frame.mpr hz).setColor .black))).setColor .red
    rw [← RbTree.join_flip] at h1
    obtain ⟨s', hs', h2⟩ := h1.rotate
    rw [RbTree.join_flip] at h2
    rw [RbTree.balanced_join_red] at hA
    have hp := (zip_sibling.mpr h2).ctx.1
    refine ⟨s', a, A1, B.join side.flip .red w A2, ?_, zip_sibling.mpr h2, hA.2.2.2, ?_, by simp, ?_⟩
    · simp [redOutward, hw, hsB.isBlack_root, hcB, RbState.setColor?, hs', hp]
    · rw [RbTree.balanced_join_red]
      exact ⟨hcB, hA.1, hB, hA.2.2.1⟩
    · cases side <;> simp [RbTree.join, RbTree.toList, Side.flip]

theorem eraseRotate_spec
    (h : Zip s (.frame side cp p (A.join side .black w B) up) t)
    (hK : (Ctx.frame side cp p (A.join side .black w B) up).Balanced (n + 1)) (ht : t.Balanced n)
    (hred : ¬(A.color = .black ∧ B.color = .black)) :
    ∃ s', ∃ T : RbTree ι, eraseRotate side s p w = some s' ∧ Zip s' up T ∧
      (∃ m, (up.plug T).Balanced m) ∧ (up.plug T).color = .black ∧
      T.toList = (t.join side cp p (A.join side .black w B)).toList := by
  have hAB : A.Balanced n ∧ B.Balanced n := by cases cp <;> simp_all [Ctx.Balanced]
  obtain ⟨s1, w', A', B', he, h1, hA', hB', hcB', hlist⟩ :=
    redOutward_spec h hAB.1 hAB.2 hred
  have hp1 := h1.ctx.1
  -- colour the sibling, the parent and the outer nephew
  have h2 := (zip_sibling.mp h1).setColor cp
  have h3 := (zip_frame.mp (zip_sibling.mpr h2)).setColor .black
  set s3 := (s1.setColor w' cp).setColor p .black with hs3
  have hw3 := (zip_sibling.mp (zip_frame.mpr h3)).node_eq
  have h4 : Zip (s3.setColor? B'.root? .black) up
      (t.join side .black p (A'.join side cp w' (B'.setColor .black))) := by
    have hz := zip_sibling.mp (zip_frame.mpr h3)
    rw [← RbTree.join_flip] at hz
    have := zip_frame.mp ((zip_frame.mpr hz).setColor_root (c := .black))
    rw [RbTree.join_flip] at this
    exact zip_frame.mp (zip_sibling.mpr this)
  obtain ⟨s5, hrot, h5⟩ := h4.rotate
  have hB'' := hB'.setColor_black hcB'
  have hblack : (B'.setColor .black).color = .black := by cases B' <;> rfl
  have hplug : (∃ m, (up.plug ((t.join side .black p A').join side cp w'
      (B'.setColor .black))).Balanced m) ∧
      (up.plug ((t.join side .black p A').join side cp w' (B'.setColor .black))).color = .black := by
    cases cp with
    | red =>
      refine Ctx.Balanced.plug hK.2.2.2 ?_ (fun hc => by rw [hK.1] at hc; cases hc)
      simp [ht, hA', hB'', hblack]
    | black => exact Ctx.Balanced.plug hK.2 (by simp [ht, hA', hB'']) (by simp)
  refine ⟨s5, _, ?_, h5, hplug.1, hplug.2, ?_⟩
  · simp only [eraseRotate, he, Option.bind_eq_bind, Option.bind_some, hp1, mkNode_color,
      RbState.setColor?, ← hs3, hw3, mkNode_child_flip]
    exact hrot
  · cases side with
    | left => simpa [RbTree.join, RbTree.toList] using hlist
    | right => simpa [RbTree.join, RbTree.toList] using congrArg (· ++ p :: t.toList) hlist

theorem eraseFixup_stop (h : x = s.root ∨ s.isBlack x = false) :
    eraseFixup s x xp = some (s.setColor? x .black) := by
  rw [eraseFixup, eraseLoop.eq_def, if_pos h]
  rfl

theorem eraseFixup_red (h : Zip s K t) (hred : t.color = .red) (hK : K.Balanced n)
    (ht : (t.setColor .black).Balanced n) :
    ∃ s' t', eraseFixup s t.root? xp = some s' ∧ Represents s' t' ∧ (∃ m, t'.Balanced m) ∧
      t'.color = .black ∧ t'.toList = (K.plug t).toList := by
  have hb : (t.setColor .black).color = .black := by cases t <;> rfl
  obtain ⟨hm, hc⟩ := Ctx.Balanced.plug hK ht fun _ => hb
  refine ⟨_, _, eraseFixup_stop (Or.inr ?_), represents_plug.mpr h.setColor_root, hm, hc, ?_⟩
  · rw [h.tree.isBlack_root, hred]
    rfl
  · simp [Ctx.toList_plug]

omit [DecidableEq ι] in
theorem rootWith_frame_ne (h : Zip s (.frame side c p W up) t) : t.root? ≠ s.root := by
  have hmem : ∀ (K : Ctx ι) (x : ι), ∃ r, K.rootWith (some x) = some r ∧ (r = x ∨ r ∈ K.values) := by
    intro K
    induction K with
    | top => exact fun x => ⟨x, rfl, Or.inl rfl⟩
    | frame side' c' y o up ih =>
      intro x
      obtain ⟨r, hr, hor⟩ := ih y
      refine ⟨r, hr, Or.inr ?_⟩
      rcases hor with rfl | hor
      · simp [Ctx.values]
      · simp [Ctx.values, hor]
  obtain ⟨r, hr, hor⟩ := hmem up p
  have hroot : s.root = some r := h.root.trans hr
  rw [hroot]
  intro he
  have hrt := RbTree.mem_of_root? he
  have hnd := h.nodup
  simp only [Ctx.values, List.nodup_append, List.mem_cons, List.mem_append] at hnd
  rcases hor with rfl | hor
  · exact hnd.2.2 r hrt r (Or.inl rfl) rfl
  · exact hnd.2.2 r hrt r (Or.inr (Or.inr hor)) rfl

omit [DecidableEq ι] in
theorem sibling_root_ne (h : Zip s (.frame side c p W up) t)
    (hK : (Ctx.frame side c p W up).Balanced (n + 1)) : t.root? ≠ W.root? := by
  have hW : W.Balanced (n + 1) := by cases c <;> simp_all [Ctx.Balanced]
  obtain ⟨cw, A, w, B, rfl⟩ := hW.exists_of_succ side
  rw [RbTree.root?_join]
  intro he
  have hw := (zip_sibling.mp h).notMem.2.2
  simp [Ctx.values, RbTree.mem_of_root? he] at hw

-- The missing black level is found at a red node, made by a rotation, or missing everywhere at the root.
theorem eraseFixup_spec (h : Zip s K t) (hK : K.Balanced (n + 1)) (ht : t.Balanced n)
    (hxp : t = .nil → xp = K.parent?) :
    ∃ s' t', eraseFixup s t.root? xp = some s' ∧ Represents s' t' ∧ (∃ m, t'.Balanced m) ∧
      t'.color = .black ∧ t'.toList = (K.plug t).toList := by
  induction hd : K.depth using Nat.strongRecOn generalizing s K t n xp with
  | _ d ih =>
  cases hc : t.color with
  | red => exact eraseFixup_red h hc hK (ht.setColor_black hc)
  | black =>
  cases K with
  | top =>
    refine ⟨_, t, eraseFixup_stop (Or.inl h.root.symm), ?_, ⟨n, ht⟩, hc, rfl⟩
    have := h.setColor_root (c := .black)
    rwa [RbTree.setColor_of_color hc] at this
  | frame side cp p W up =>
    obtain ⟨s1, cp', W', up', hsib, h1, hK1, hcW, hup, hlist⟩ := siblingBlack_spec h hK
    have hW' : W'.Balanced (n + 1) := by cases cp' <;> simp_all [Ctx.Balanced]
    obtain ⟨cw, A, w, B, rfl⟩ := hW'.exists_of_succ side
    obtain rfl : cw = .black := by simpa using hcW
    have hround : eraseLoop s t.root? xp =
        if A.color = .black ∧ B.color = .black then
          eraseLoop (s1.setColor w .red) (some p) ((s1.setColor w .red).node p).parent
        else (eraseRotate side s1 p w).bind fun s => eraseLoop s s.root xp := by
      have hp := h.ctx.1
      have hpar : fixupParent s t.root? xp = some p := by
        cases t with
        | nil => simpa [fixupParent, RbTree.root?, Ctx.parent?] using hxp rfl
        | node c l x r => simp [fixupParent, RbTree.root?, h.tree.1, Ctx.parent?]
      have hside : (if t.root? = (s.node p).left then Side.left else Side.right) = side := by
        rw [hp]
        cases side with
        | left => simp [mkNode]
        | right => simp [mkNode, sibling_root_ne h hK]
      have hw := (zip_sibling.mp h1).node_eq
      obtain ⟨-, hsA, hsB⟩ := spells_join.mp (zip_sibling.mp h1).tree
      have hboth : (s1.isBlack (s1.node w).left = true ∧ s1.isBlack (s1.node w).right = true) ↔
          A.color = .black ∧ B.color = .black := by
        rw [hw]
        cases side <;> simp [mkNode, hsA.isBlack_root, hsB.isBlack_root, and_comm]
      rw [eraseLoop.eq_def, if_neg (by
        rw [h.tree.isBlack_root, hc]
        simpa using rootWith_frame_ne h)]
      simp only [hpar, hside, hsib, Option.bind_eq_bind, Option.bind_some, h1.ctx.1,
        mkNode_child_flip, RbTree.root?_join, hboth]
    have hlist' : (up'.plug (t.join side cp' p (A.join side .black w B))).toList =
        ((Ctx.frame side cp p W up).plug t).toList := hlist
    by_cases hAB : A.color = .black ∧ B.color = .black
    · rw [if_pos hAB] at hround
      have h2 := zip_frame.mp (zip_sibling.mpr ((zip_sibling.mp h1).setColor .red))
      have hlist2 : (up'.plug (t.join side cp' p (A.join side .red w B))).toList =
          ((Ctx.frame side cp p W up).plug t).toList := by
        rw [← hlist', Ctx.toList_plug, Ctx.toList_plug]
        cases side <;> simp [RbTree.join, RbTree.toList]
      have hfix : eraseFixup s t.root? xp = eraseFixup (s1.setColor w .red)
          (t.join side cp' p (A.join side .red w B)).root?
          ((s1.setColor w .red).node p).parent := by
        rw [eraseFixup, eraseFixup, hround, RbTree.root?_join]
      rw [hfix, ← hlist2]
      have hbal : (t.join side .black p (A.join side .red w B)).Balanced (n + 1) := by
        rw [RbTree.balanced_join_black] at hW'
        simp [ht, hAB, hW']
      cases cp' with
      | red =>
        refine eraseFixup_red h2 (by simp) hK1.2.2.2 ?_
        cases side <;> exact hbal
      | black =>
        obtain rfl := hup rfl
        exact ih up'.depth (by simp only [Ctx.depth] at hd; omega) h2 hK1.2 hbal
          (by cases side <;> simp [RbTree.join]) rfl
    · rw [if_neg hAB] at hround
      obtain ⟨s2, T, hrot, h2, hm, hcT, hlistT⟩ := eraseRotate_spec h1 hK1 ht hAB
      have hrep : Represents s2 (up'.plug T) := represents_plug.mpr h2
      refine ⟨s2.setColor? s2.root .black, up'.plug T, ?_, ?_, hm, hcT, ?_⟩
      · rw [eraseFixup, hround, hrot]
        exact eraseFixup_stop (Or.inl rfl)
      · have := hrep.setColor_root
        rwa [RbTree.setColor_of_color hcT] at this
      · rw [← hlist', Ctx.toList_plug, Ctx.toList_plug, hlistT]

theorem rbErase_spec (h : Represents s t)
    (hbal : t.Balanced m) (hc : t.color = .black) (hz : z ∈ t.toList) :
    ∃ s' t' A B, rbErase s z = some s' ∧ Represents s' t' ∧ (∃ m', t'.Balanced m') ∧
      t'.color = .black ∧ t.toList = A ++ z :: B ∧ t'.toList = A ++ B := by
  obtain ⟨K, c, l, r, rfl⟩ := Ctx.exists_plug_of_mem hz
  obtain ⟨s1, cy, v, n, K', x, side, hun, hzip, hlist, hK', hx, hcol⟩ :=
    unlinkNode_spec (represents_plug.mp h) hbal hc
  have hsplit : (K.plug (.node c l z r)).toList =
      (K.before ++ l.toList) ++ z :: (r.toList ++ K.after) := by
    simp [Ctx.toList_plug, RbTree.toList]
  have hlist' : (K'.plug x).toList = (K.before ++ l.toList) ++ (r.toList ++ K.after) := by
    simp [hlist]
  cases cy with
  | red =>
    rw [RbTree.balanced_join_red] at hx
    obtain ⟨hm, hc'⟩ := Ctx.Balanced.plug hK' hx.2.2.1 fun _ => hx.1
    refine ⟨s1, K'.plug x, _, _, ?_, represents_plug.mpr hzip, hm, hc', hsplit, hlist'⟩
    simp [rbErase, hun]
  | black =>
    obtain ⟨k, rfl⟩ := hx.join_black_height
    rw [RbTree.balanced_join_black] at hx
    obtain ⟨s2, t', hfix, hrep, hm, hc', hl⟩ := eraseFixup_spec hzip hK' hx.1
      (show x = .nil → K'.parent? = K'.parent? from fun _ => rfl)
    refine ⟨s2, t', _, _, ?_, hrep, hm, hc', hsplit, hl.trans hlist'⟩
    simp [rbErase, hun, hfix]

end Jnu.Rbtree
