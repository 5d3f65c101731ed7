import Jnu.Rbtree.Rotate

namespace Jnu.Rbtree

open Lib.RedBlack

variable {ι : Type} {A B : List ι} {up : Ctx ι} {u ul ur : RbTree ι} {g v : ι}
variable {s : RbState ι} {t : RbTree ι} {side d : Side} {x : ι} {c : RbColor} {K : Ctx ι}
  {goLeft : ι → Bool}

theorem Spells.isBlack_root {p : Option ι}
    (h : Spells s.node p t) : s.isBlack t.root? = decide (t.color = .black) := by
  cases t with
  | nil => simp [RbTree.root?, RbState.isBlack, RbTree.color]
  | node c l x r =>
    simp only [RbTree.root?, RbState.isBlack, RbTree.color, h.1]
    rfl

theorem side_of_child [DecidableEq ι] {parent other : Option ι} (h : other ≠ some x) :
    (if (mkNode side parent (some x) other c).left = some x then Side.left else Side.right) =
      side := by
  cases side with
  | left => simp [mkNode]
  | right => simp [mkNode, h]

-- The slot that a context's hole hangs from.
def slotOf : Ctx ι → Slot ι
  | .top => .root
  | .frame side _ x _ _ => .child side x

theorem Zip.read_slotOf (h : Zip s K t) : (slotOf K).read s = t.root? := by
  cases K with
  | top => simpa [slotOf, Slot.read, Ctx.rootWith] using h.root
  | frame side c x other up => simp [slotOf, Slot.read, h.ctx.1]

-- The decisions of a search lead to the hole of the context.
def Searched (goLeft : ι → Bool) : Ctx ι → Prop
  | .top => True
  | .frame .left _ x _ up => goLeft x = true ∧ Searched goLeft up
  | .frame .right _ x _ up => goLeft x = false ∧ Searched goLeft up

theorem findSlot_spec (goLeft : ι → Bool) (h : Zip s K t) (hK : Searched goLeft K) :
    ∃ K', findSlot goLeft s K.parent? (slotOf K) = some (K'.parent?, slotOf K') ∧
      Zip s K' .nil ∧ Searched goLeft K' ∧ K'.plug .nil = K.plug t := by
  induction t generalizing K with
  | nil =>
    refine ⟨K, ?_, h, hK, rfl⟩
    rw [findSlot, h.read_slotOf]
    rfl
  | node c l x r ihl ihr =>
    rw [findSlot, h.read_slotOf]
    simp only [RbTree.root?]
    cases hg : goLeft x with
    | true =>
      obtain ⟨K', he, hz, hs, hp⟩ := ihl (K := .frame .left c x r K)
        (zip_frame.mpr h) ⟨hg, hK⟩
      exact ⟨K', he, hz, hs, hp⟩
    | false =>
      obtain ⟨K', he, hz, hs, hp⟩ := ihr (K := .frame .right c x l K)
        (zip_frame.mpr h) ⟨hg, hK⟩
      exact ⟨K', he, hz, hs, hp⟩

theorem Searched.before_last (h : Searched goLeft K) (hx : K.before.getLast? = some x) : goLeft x = false := by
  induction K with
  | top => simp [Ctx.before] at hx
  | frame side c y other up ih =>
    cases side with
    | left => exact ih h.2 hx
    | right =>
      simp only [Ctx.before, List.getLast?_append, List.getLast?_singleton,
        Option.some_or, Option.some.injEq] at hx
      exact hx ▸ h.1

theorem Searched.after_head (h : Searched goLeft K) (hx : K.after.head? = some x) : goLeft x = true := by
  induction K with
  | top => simp [Ctx.after] at hx
  | frame side c y other up ih =>
    cases side with
    | left =>
      simp only [Ctx.after, List.cons_append, List.head?_cons, Option.some.injEq] at hx
      exact hx ▸ h.1
    | right => exact ih h.2 hx

-- Where the comparison separates the nodes, the search ends between its two sides.
theorem Searched.position (h : Searched goLeft K) (heq : K.before ++ K.after = A ++ B)
    (hA : ∀ i ∈ A, goLeft i = false) (hB : ∀ i ∈ B, goLeft i = true) : K.before = A ∧ K.after = B := by
  rcases List.append_eq_append_iff.mp heq with ⟨M, hM, hafter⟩ | ⟨M, hM, hafter⟩
  · cases M with
    | nil => simp_all
    | cons x M =>
      have hx := hA x (by simp [hM])
      rw [h.after_head (x := x) (by simp [hafter])] at hx
      cases hx
  · rcases List.eq_nil_or_concat M with rfl | ⟨M, x, rfl⟩
    · simp_all
    · have hx := hB x (by simp [hafter])
      rw [h.before_last (x := x) (by simp [hM])] at hx
      cases hx

variable [DecidableEq ι] {p z : ι} {other a b : RbTree ι} {hole : Side} {n m : Nat}

theorem Zip.linkNode (h : Zip s K .nil) (hx : x ∉ K.values) :
    Zip (rbLinkNode s x K.parent? (slotOf K)) K (.node .red .nil x .nil) := by
  have hnd : K.values.Nodup := by simpa [RbTree.toList] using h.nodup
  set s1 := s.modify x fun _ => ⟨K.parent?, none, none, .red⟩ with hs1
  have heq : ∀ i, i ≠ x → s1.node i = s.node i := fun i hi => s.modify_of_ne x i _ hi
  have hctx : CtxSpells s1.node K none :=
    h.ctx.congr fun i hi => heq i (fun he => hx (he ▸ hi))
  have hx1 : s1.node x = ⟨K.parent?, none, none, .red⟩ := by simp [hs1]
  cases K with
  | top =>
    exact ⟨⟨hx1, trivial, trivial⟩, trivial, rfl, by simp [RbTree.toList, Ctx.values]⟩
  | frame side c y other up =>
    obtain ⟨hy, ho, hup⟩ := hctx
    simp only [Ctx.values, List.mem_cons, List.mem_append, not_or] at hx
    simp only [Ctx.values, List.nodup_cons, List.mem_append, not_or] at hnd
    have hne : ∀ i, i ≠ y → (s1.setChild side y (some x)).node i = s1.node i :=
      fun i hi => s1.setChild_of_ne y i side _ hi
    refine ⟨⟨?_, trivial, trivial⟩, ⟨?_, ho.congr ?_, hup.congr ?_⟩, ?_, ?_⟩
    · exact (hne x hx.1).trans hx1
    · show (s1.setChild side y (some x)).node y = _
      rw [RbState.setChild_self, hy]
      simp [RbTree.root?]
    · exact fun i hi => hne i (fun he => hnd.1.1 (he ▸ hi))
    · exact fun i hi => hne i (fun he => hnd.1.2 (he ▸ hi))
    · exact h.root
    · simpa [RbTree.toList, Ctx.values, hx, hnd.2] using hnd.1

-- The first half of the case with a black uncle: if `z` is an inner grandchild of `g`,
-- it changes places with its parent.
theorem rotateOutward_spec (h : Zip s (.frame hole .red p other K) (a.join side .red z b))
    (ho : other.Balanced n ∧ other.color = .black)
    (ha : a.Balanced n ∧ a.color = .black) (hb : b.Balanced n ∧ b.color = .black) :
    ∃ s' z' q, ∃ T1 T2 S : RbTree ι,
      rotateOutward side s z p = some (s', z') ∧
      Zip s' (.frame side .red q S K) (T1.join side .red z' T2) ∧
      (S.Balanced n ∧ S.color = .black) ∧ (T1.join side .red z' T2).Balanced n ∧
      ((T1.join side .red z' T2).join side .red q S).toList =
        ((a.join side .red z b).join hole .red p other).toList := by
  have hp := h.ctx.1
  by_cases hh : hole = side
  · subst hh
    have hne : other.root? ≠ some z := by
      intro he
      have := h.notMem.2.2
      simp [Ctx.values, RbTree.mem_of_root? he] at this
    refine ⟨s, z, p, a, b, other, ?_, h, ho, by simp [ha, hb], rfl⟩
    rw [rotateOutward, hp, mkNode_child_flip, if_neg hne]
  · obtain rfl : hole = side.flip := by cases side <;> cases hole <;> simp_all [Side.flip]
    have hz : Zip s K (other.join side .red p (a.join side .red z b)) := by
      rw [← RbTree.join_flip]
      exact zip_frame.mp h
    obtain ⟨s', he, hz'⟩ := hz.rotate
    refine ⟨s', p, z, other, a, b, ?_, zip_frame.mpr hz', hb, by simp [ho, ha], ?_⟩
    · rw [rotateOutward, hp, mkNode_child, RbTree.root?_join, if_pos rfl, he]
      rfl
    · rw [RbTree.join_flip]
      cases side <;> simp [RbTree.join, RbTree.toList]

-- Afterwards the loop looks at a node below a black parent.
theorem insertRotate_spec
    (h : Zip s (.frame hole .red p other (.frame side .black g u up)) (a.join side .red z b))
    (ho : other.Balanced n ∧ other.color = .black) (hu : u.Balanced n ∧ u.color = .black)
    (ha : a.Balanced n ∧ a.color = .black) (hb : b.Balanced n ∧ b.color = .black) :
    ∃ s' z' q, ∃ R T : RbTree ι, insertRotate side s z p = some (s', z') ∧
      Zip s' (.frame side .black q R up) T ∧ T.root? = some z' ∧
      (T.join side .black q R).Balanced (n + 1) ∧
      (T.join side .black q R).toList =
        (((a.join side .red z b).join hole .red p other).join side .black g u).toList := by
  obtain ⟨s1, z1, q, T1, T2, S, he, h1, hS, hT, hlist⟩ := rotateOutward_spec h ho ha hb
  set T := T1.join side .red z1 T2 with hTdef
  have hTroot : T.root? = some z1 := by simp [hTdef]
  have h2 := (zip_frame.mp h1).setColor .black
  set s2 := s1.setColor q .black with hs2
  have hq : (s1.node z1).parent = some q := by
    have := h1.node_eq
    simp [this, Ctx.parent?]
  have hz2 : (s2.node z1).parent = some q := by
    have := (zip_frame.mpr h2).node_eq
    simp [this, Ctx.parent?]
  have hq2 : (s2.node q).parent = some g := by simp [h2.node_eq, Ctx.parent?]
  have h3 := (zip_frame.mp h2).setColor .red
  rw [← RbTree.join_flip, ← RbTree.join_flip side .black] at h3
  obtain ⟨s4, he4, h4⟩ := h3.rotate
  refine ⟨s4, z1, q, u.join side.flip .red g S, T, ?_, ?_, hTroot, ?_, ?_⟩
  · simp only [insertRotate, he, Option.bind_eq_bind, Option.bind_some, hq, rbGrandparent]
    rw [← hs2, hz2]
    simp only [hq2, he4]
    rfl
  · rw [RbTree.join_flip] at h4
    exact zip_frame.mpr h4
  · simp [hT, hu, hS]
  · have hl := hlist
    cases side <;> simp [RbTree.join, RbTree.toList, Side.flip] at hl ⊢ <;> simp [← hl]

theorem insertLoop_stop (h : Zip s K (a.join d c z b)) (hK : K.parent? = none ∨ K.color = .black) :
    insertLoop s z = some s := by
  rw [insertLoop, h.node_eq, mkNode_parent]
  cases K with
  | top => rfl
  | frame hole d p other up =>
    obtain rfl : d = .black := hK.resolve_left (by simp [Ctx.parent?])
    simp [Ctx.parent?, h.ctx.1]

theorem Zip.recolor (h : Zip s (.frame hole .red p other (.frame side c g (.node .red ul v ur) up)) t) :
    Zip (((s.setColor p .black).setColor? (some v) .black).setColor g .red) up
      ((t.join hole .black p other).join side .red g (.node .black ul v ur)) := by
  have h1 := zip_frame.mp ((zip_frame.mp h).setColor .black)
  rw [← RbTree.join_flip] at h1
  have h2 := zip_frame.mp ((zip_frame.mpr h1).setColor (d := .left) .black)
  rw [RbTree.join_flip] at h2
  exact h2.setColor _

-- Each round moves the red node two levels up or ends below a black parent.
theorem insertLoop_spec (h : Zip s K (a.join side .red z b)) (hK : K.Balanced n)
    (hab : (a.join side .red z b).Balanced n) :
    ∃ s' t, insertLoop s z = some s' ∧ Represents s' t ∧
      (∃ m, (t.setColor .black).Balanced m) ∧
      t.toList = (K.plug (a.join side .red z b)).toList := by
  induction hd : K.depth using Nat.strongRecOn generalizing s K side a b z n with
  | _ d ih =>
  cases K with
  | top =>
    exact ⟨s, _, insertLoop_stop h (Or.inl rfl), h,
      ⟨n + 1, hab.setColor_black (by simp)⟩, rfl⟩
  | frame hole c p other up =>
    cases c with
    | black =>
      obtain ⟨⟨m, hm⟩, hc⟩ := Ctx.Balanced.plug hK hab (by simp [Ctx.color])
      refine ⟨s, _, insertLoop_stop h (Or.inr rfl), represents_plug.mpr h, ⟨m, ?_⟩, rfl⟩
      rw [RbTree.setColor_of_color hc]
      exact hm
    | red =>
      obtain ⟨hup, hoc, ho, hub⟩ := hK
      cases up with
      | top => simp [Ctx.color] at hup
      | frame side' c' g u up =>
        obtain rfl : c' = .black := hup
        obtain ⟨hu, hub⟩ := hub
        have hp := h.ctx.1
        have hg := h.ctx.2.2.1
        have hus := h.ctx.2.2.2.1
        have hpu : u.root? ≠ some p := by
          intro he
          have := (zip_frame.mp h).notMem.2.2
          simp [Ctx.values, RbTree.mem_of_root? he] at this
        -- one round of the loop, up to the test of the uncle's colour
        have hround : insertLoop s z =
            if u.color = .black then insertRotate side' s z p >>= fun x => insertLoop x.1 x.2
            else insertLoop (((s.setColor p .black).setColor? u.root? .black).setColor g .red)
              g := by
          rw [insertLoop, h.node_eq, mkNode_parent]
          simp only [Ctx.parent?, hp, mkNode_color, if_true, rbGrandparent, h.node_eq,
            mkNode_parent, hg, side_of_child hpu, mkNode_child_flip, hus.isBlack_root,
            decide_eq_true_eq]
        rw [hround]
        cases hcu : u.color with
        | black =>
          obtain ⟨a', b', he⟩ := RbTree.join_eq_join side side' .red a b z
          rw [he] at h hab ⊢
          simp only [RbTree.balanced_join_red] at hab
          obtain ⟨s', z', q, R, T, hrot, hz, hT, hbal, hlist⟩ :=
            insertRotate_spec h ⟨ho, hoc⟩ ⟨hu, hcu⟩ ⟨hab.2.2.1, hab.1⟩ ⟨hab.2.2.2, hab.2.1⟩
          obtain ⟨⟨m, hm⟩, hc⟩ := Ctx.Balanced.plug hub hbal (by simp)
          refine ⟨s', _, ?_, represents_plug.mpr (zip_frame.mp hz), ⟨m, ?_⟩, ?_⟩
          · have hstop : insertLoop s' z' = some s' := by
              cases T with
              | nil => simp [RbTree.root?] at hT
              | node cT l w r =>
                obtain rfl : w = z' := by simpa [RbTree.root?] using hT
                exact insertLoop_stop (d := .left) hz (Or.inr rfl)
            simp [hrot, hstop]
          · rw [RbTree.setColor_of_color hc]
            exact hm
          · simp only [Ctx.plug, Ctx.toList_plug, hlist]
        | red =>
          cases u with
          | nil => simp [RbTree.color] at hcu
          | node cu ul v ur =>
            obtain rfl : cu = .red := hcu
            obtain ⟨s', t, he, hrep, hbal, hlist⟩ := ih up.depth
              (by simp only [Ctx.depth] at hd; omega) h.recolor hub
              (by
                have hv := hu.setColor_black rfl
                rw [RbTree.balanced_join_red, RbTree.color_join,
                  RbTree.balanced_join_black]
                exact ⟨rfl, rfl, ⟨hab, ho⟩, hv⟩) rfl
            refine ⟨s', t, ?_, hrep, hbal, ?_⟩
            · simpa [RbTree.root?] using he
            · rw [hlist]
              simp only [Ctx.plug, Ctx.toList_plug]
              cases side' <;> cases hole <;> simp [RbTree.join, RbTree.toList]

theorem Represents.setColor_root (h : Represents s t) :
    Represents (s.setColor? s.root .black) (t.setColor .black) := by
  have hroot : s.root = t.root? := h.root
  cases t with
  | nil => rw [hroot]; exact h
  | node c l x r =>
    rw [hroot]
    exact Zip.setColor (d := .left) h _

theorem rbInsertColor_spec (h : Zip s K .nil) (hbal : (K.plug (.nil : RbTree ι)).Balanced m)
    (hc : (K.plug (.nil : RbTree ι)).color = .black) (hx : x ∉ K.values) :
    ∃ s' t, rbInsertColor (rbLinkNode s x K.parent? (slotOf K)) x = some s' ∧ Represents s' t ∧
      (∃ m', t.Balanced m') ∧ t.color = .black ∧ t.toList = K.before ++ x :: K.after := by
  obtain ⟨n, hK, hn, -⟩ := Ctx.Balanced.of_plug hbal hc
  have hlink : Zip (rbLinkNode s x K.parent? (slotOf K)) K
      ((.nil : RbTree ι).join .left .red x .nil) := h.linkNode hx
  obtain ⟨s', t, hloop, hrep, hm, hlist⟩ := insertLoop_spec hlink hK
    (by simpa [RbTree.color] using hn)
  refine ⟨_, t.setColor .black, ?_, hrep.setColor_root, hm, ?_, ?_⟩
  · simp [rbInsertColor, hloop]
  · cases t <;> rfl
  · simp [hlist, Ctx.toList_plug, RbTree.join, RbTree.toList]

theorem rbInsert_spec (h : Represents s t)
    (hbal : t.Balanced m) (hc : t.color = .black) (goLeft : ι → Bool) (hx : x ∉ t.toList) :
    ∃ s' t' A B, rbInsert goLeft s x = some s' ∧ Represents s' t' ∧
      (∃ m', t'.Balanced m') ∧ t'.color = .black ∧
      t.toList = A ++ B ∧ t'.toList = A ++ x :: B ∧
      (∀ A' B', t.toList = A' ++ B' → (∀ i ∈ A', goLeft i = false) →
        (∀ i ∈ B', goLeft i = true) → A = A' ∧ B = B') := by
  obtain ⟨K, hfind, hzip, hsearch, hplug⟩ := findSlot_spec goLeft (K := .top) h trivial
  have hfind : findSlot goLeft s none .root = some (K.parent?, slotOf K) := hfind
  subst hplug
  have hlist : (K.plug (.nil : RbTree ι)).toList = K.before ++ K.after := by
    simp [Ctx.toList_plug, RbTree.toList]
  have hxK : x ∉ K.values := by
    rw [hlist] at hx
    exact fun he => hx ((Ctx.perm_values K).mem_iff.mpr he)
  obtain ⟨s', t', he, hrep, hm, hc', hlist'⟩ := rbInsertColor_spec hzip hbal hc hxK
  refine ⟨s', t', K.before, K.after, ?_, hrep, hm, hc', hlist, hlist', ?_⟩
  · simp [rbInsert, hfind, he]
  · intro A' B' heq hA hB
    exact hsearch.position (by rw [← hlist, heq]) hA hB

end Jnu.Rbtree
