import Jnu.Rbtree.Fixup

namespace Jnu.Rbtree

open Lib.RedBlack

variable {ι : Type} {s : RbState ι} {t : RbTree ι} {x : ι}

-- `rb_first` and `rb_next` walk through the sequence and stop at its end.
def Enumerates (s : RbState ι) [DecidableEq ι] (L : List ι) : Prop :=
  rbFirst s = some L.head? ∧ ∀ A x B, L = A ++ x :: B → rbNext s x = some B.head?

theorem rbMin_head {p : Option ι} (h : Spells s.node p t)
    (hx : t.root? = some x) : (rbMin s x).map some = some t.toList.head? := by
  obtain ⟨M, c, y, r, he, rfl, hM⟩ := rbMin_spec h hx
  simp [he, Ctx.toList_plug, hM, RbTree.toList]

variable [DecidableEq ι]

-- Without a right subtree the successor is the node above the first left turn.
theorem nextLoop_spec {K : Ctx ι} (h : Zip s K t)
    (hx : t.root? = some x) : nextLoop s x = some K.after.head? := by
  induction K generalizing t x with
  | top =>
    cases t with
    | nil => simp [RbTree.root?] at hx
    | node c l y r =>
      obtain rfl : y = x := by simpa [RbTree.root?] using hx
      rw [nextLoop, h.tree.1]
      rfl
  | frame side c p other up ih =>
    have hp := h.ctx.1
    have hpar : (s.node x).parent = some p := by
      cases t with
      | nil => simp [RbTree.root?] at hx
      | node c l y r =>
        obtain rfl : y = x := by simpa [RbTree.root?] using hx
        rw [h.tree.1]
        rfl
    rw [nextLoop, hpar]
    simp only [hp]
    cases side with
    | right =>
      simpa [mkNode, hx, Ctx.after] using ih (zip_frame.mp h) (RbTree.root?_join ..)
    | left =>
      have hne : other.root? ≠ some x := by
        intro he
        have hnd := h.nodup
        simp only [Ctx.values, List.nodup_append, List.mem_cons, List.mem_append] at hnd
        exact hnd.2.2 x (RbTree.mem_of_root? hx) x (Or.inr (Or.inl (RbTree.mem_of_root? he))) rfl
      simp [mkNode, hne, Ctx.after]

theorem Represents.enumerates (h : Represents s t) : Enumerates s t.toList := by
  constructor
  · have hroot : s.root = t.root? := h.root
    cases hr : t.root? with
    | none =>
      have hnil : t = .nil := by
        cases t with
        | nil => rfl
        | node => simp [RbTree.root?] at hr
      subst hnil
      rw [rbFirst, hroot]
      rfl
    | some r => simpa [rbFirst, hroot, hr] using rbMin_head h.tree hr
  intro A x B hL
  obtain ⟨K, c, l, r, rfl⟩ := Ctx.exists_plug_of_mem (t := t) (x := x) (by simp [hL])
  have hz := represents_plug.mp h
  have hx := hz.tree.1
  -- the node occurs once, so the rest of the sequence is determined
  have hB : B = r.toList ++ K.after := by
    have hnd : (K.plug (.node c l x r)).toList.Nodup :=
      (Ctx.perm_toList_plug K _).nodup_iff.mpr hz.nodup
    have heq : A ++ x :: B = (K.before ++ l.toList) ++ x :: (r.toList ++ K.after) := by
      rw [← hL, Ctx.toList_plug]
      simp [RbTree.toList]
    rw [hL] at hnd
    have hxA : x ∉ A := fun hm => (List.nodup_append.mp hnd).2.2 x hm x (by simp) rfl
    have hxB : x ∉ B := (List.nodup_cons.mp (List.nodup_append.mp hnd).2.1).1
    exact ((List.append_cons_inj_of_notMem hxA hxB).mp heq).2.2
  cases hr : r.root? with
  | some v =>
    have hmin := rbMin_head hz.tree.2.2 hr
    have hne : r.toList ≠ [] := List.ne_nil_of_mem (RbTree.mem_of_root? hr)
    rw [rbNext, hx]
    simp only [hr, hmin, hB]
    rw [List.head?_append_of_ne_nil _ hne]
  | none =>
    have hnil : r = .nil := by
      cases r with
      | nil => rfl
      | node => simp [RbTree.root?] at hr
    rw [rbNext, hx, hB, hnil]
    exact nextLoop_spec hz rfl

-- The walk determines the sequence.
theorem Enumerates.eq {L L' : List ι} (h : Enumerates s L) (h' : Enumerates s L') : L = L' := by
  have hrest : ∀ B A A' B', L = A ++ B → L' = A' ++ B' → B.head? = B'.head? → B = B' := by
    intro B
    induction B with
    | nil =>
      intro A A' B' _ _ hhead
      exact (List.head?_eq_none_iff.1 hhead.symm).symm
    | cons x B ih =>
      intro A A' B' hL hL' hhead
      cases B' with
      | nil => cases hhead
      | cons y B' =>
        obtain rfl : x = y := Option.some.inj hhead
        have hnext := (h.2 A x B hL).symm.trans (h'.2 A' x B' hL')
        rw [ih (A ++ [x]) (A' ++ [x]) B' (by simp [hL]) (by simp [hL']) (Option.some.inj hnext)]
  exact hrest L [] [] L' rfl rfl (Option.some.inj (h.1.symm.trans h'.1))

-- The trees that the interface can build. `S` is the set of nodes in the tree.
inductive Built : RbState ι → Set ι → Prop where
  | empty (node : ι → RbNode ι) : Built (rbInit ⟨node, none⟩) ∅
  | insert {s s' : RbState ι} {S : Set ι} (goLeft : ι → Bool) (x : ι) (hx : x ∉ S) :
      Built s S → rbInsert goLeft s x = some s' → Built s' (insert x S)
  | erase {s s' : RbState ι} {S : Set ι} (x : ι) (hx : x ∈ S) :
      Built s S → rbErase s x = some s' → Built s' (S \ {x})

def RedBlack (s : RbState ι) (t : RbTree ι) : Prop :=
  Represents s t ∧ (∃ m, t.Balanced m) ∧ t.color = .black

omit [DecidableEq ι] in
theorem Represents.nodup (h : Represents s t) : t.toList.Nodup := by
  simpa [Ctx.values] using Zip.nodup h

theorem RedBlack.insert (h : RedBlack s t) (goLeft : ι → Bool) (hx : x ∉ t.toList) :
    ∃ s' t' A B, rbInsert goLeft s x = some s' ∧ RedBlack s' t' ∧ t.toList = A ++ B ∧
      t'.toList = A ++ x :: B ∧
      ∀ A' B', t.toList = A' ++ B' → (∀ i ∈ A', goLeft i = false) →
        (∀ i ∈ B', goLeft i = true) → A = A' ∧ B = B' := by
  obtain ⟨hr, ⟨m, hm⟩, hc⟩ := h
  obtain ⟨s', t', A, B, he, hr', hm', hc', hA, hB, hpos⟩ := rbInsert_spec hr hm hc goLeft hx
  exact ⟨s', t', A, B, he, ⟨hr', hm', hc'⟩, hA, hB, hpos⟩

theorem RedBlack.erase (h : RedBlack s t) (hx : x ∈ t.toList) :
    ∃ s' t', rbErase s x = some s' ∧ RedBlack s' t' ∧ t'.toList = t.toList.erase x := by
  obtain ⟨hr, ⟨m, hm⟩, hc⟩ := h
  obtain ⟨s', t', A, B, he, hr', hm', hc', hA, hB⟩ := rbErase_spec hr hm hc hx
  refine ⟨s', t', he, ⟨hr', hm', hc'⟩, ?_⟩
  have hnd := hr.nodup
  rw [hA] at hnd ⊢
  have hxA : x ∉ A := fun hm => (List.nodup_append.mp hnd).2.2 x hm x (by simp) rfl
  rw [hB, List.erase_append_right _ hxA, List.erase_cons_head]

theorem Built.redBlack {S : Set ι} (h : Built s S) :
    ∃ t, RedBlack s t ∧ ∀ i, i ∈ t.toList ↔ i ∈ S := by
  induction h with
  | empty node =>
    refine ⟨.nil, ⟨⟨trivial, trivial, rfl, List.nodup_nil⟩, ⟨0, rfl⟩, rfl⟩, ?_⟩
    simp [RbTree.toList]
  | insert goLeft x hx _ he ih =>
    obtain ⟨t, ht, hS⟩ := ih
    obtain ⟨s', t', A, B, he', hr, hA, hB, -⟩ := ht.insert goLeft (mt (hS x).mp hx)
    obtain rfl : s' = _ := Option.some.inj (he'.symm.trans he)
    refine ⟨t', hr, fun i => ?_⟩
    have hi := hS i
    rw [hA] at hi
    simp only [hB, List.mem_append, List.mem_cons, Set.mem_insert_iff, ← hi]
    tauto
  | erase x hx _ he ih =>
    obtain ⟨t, ht, hS⟩ := ih
    obtain ⟨s', t', he', hr, hl⟩ := ht.erase ((hS x).mpr hx)
    obtain rfl : s' = _ := Option.some.inj (he'.symm.trans he)
    refine ⟨t', hr, fun i => ?_⟩
    rw [hl, ht.1.nodup.mem_erase_iff, hS i]
    simp [and_comm]

-- Every tree that can be built is red-black with consistent parent links, and no further call follows a null
-- pointer.
theorem rbtree_correct {s : RbState ι} {S : Set ι} (h : Built s S) :
    ∃ t : RbTree ι, Represents s t ∧ (∀ i, i ∈ t.toList ↔ i ∈ S) ∧
      t.color = .black ∧ t.NoRedRed ∧ (∃ n, ∀ p ∈ t.paths, p.count .black = n) ∧
      (∀ i ∈ S, ∀ side c, (s.node i).child side = some c → c ∈ S ∧ (s.node c).parent = some i) ∧
      (∀ r, s.root = some r → (s.node r).parent = none) ∧
      Enumerates s t.toList ∧
      (∀ goLeft x, x ∉ S → ∃ s' t' A B, rbInsert goLeft s x = some s' ∧ Represents s' t' ∧
        t.toList = A ++ B ∧ t'.toList = A ++ x :: B ∧
        ∀ A' B', t.toList = A' ++ B' → (∀ i ∈ A', goLeft i = false) →
          (∀ i ∈ B', goLeft i = true) → A = A' ∧ B = B') ∧
      (∀ x ∈ S, ∃ s' t', rbErase s x = some s' ∧ Represents s' t' ∧
        t'.toList = t.toList.erase x) := by
  obtain ⟨t, ht, hS⟩ := h.redBlack
  obtain ⟨hr, ⟨m, hm⟩, hc⟩ := id ht
  refine ⟨t, hr, hS, hc, hm.noRedRed, ⟨m, fun p => hm.count_black⟩, ?_, ?_, hr.enumerates, ?_, ?_⟩
  · intro i hi side c hchild
    obtain ⟨K, d, l, r, rfl⟩ := Ctx.exists_plug_of_mem ((hS i).mpr hi)
    have hz := represents_plug.mp hr
    obtain ⟨a, b, he⟩ := RbTree.node_eq_join side d l r i
    rw [he] at hz
    rw [hz.node_eq, mkNode_child] at hchild
    refine ⟨(hS c).mp ?_, ?_⟩
    · rw [he, Ctx.toList_plug]
      simp [RbTree.mem_join, RbTree.mem_of_root? hchild]
    cases a with
    | nil => simp [RbTree.root?] at hchild
    | node e al v ar =>
      obtain rfl : v = c := by simpa [RbTree.root?] using hchild
      rw [(spells_join.mp hz.tree).2.1.1]
  · intro r hroot
    have htr : s.root = t.root? := Zip.root hr
    cases t with
    | nil => simp [htr, RbTree.root?] at hroot
    | node d l v rt =>
      obtain rfl : v = r := by simpa [htr, RbTree.root?] using hroot
      have hv : s.node v = ⟨none, l.root?, rt.root?, d⟩ := (Zip.tree hr).1
      rw [hv]
  · intro goLeft x hx
    obtain ⟨s', t', A, B, he, hr', hA, hB, hpos⟩ := ht.insert goLeft (mt (hS x).mp hx)
    exact ⟨s', t', A, B, he, hr'.1, hA, hB, hpos⟩
  · intro x hx
    obtain ⟨s', t', he, hr', hl⟩ := ht.erase ((hS x).mpr hx)
    exact ⟨s', t', he, hr'.1, hl⟩

-- A node behind all others.
theorem Built.append {S : Set ι} {L : List ι} (h : Built s S) (hL : Enumerates s L) (hx : x ∉ S) :
    ∃ s', Built s' (Insert.insert x S) ∧ Enumerates s' (L ++ [x]) := by
  obtain ⟨t, ht, hS⟩ := h.redBlack
  obtain ⟨s', t', A, B, he, hr, -, hB, hpos⟩ := ht.insert (fun _ => false) (mt (hS x).mp hx)
  obtain ⟨rfl, rfl⟩ := hpos L [] (by simpa using ht.1.enumerates.eq hL) (fun _ _ => rfl) nofun
  exact ⟨s', .insert _ x hx h he, hB ▸ hr.1.enumerates⟩

-- Four nodes are inserted in order, so that the root changes, and the second one is erased.
theorem rbtree_correct_erased : ∃ (s : RbState Nat) (t : RbTree Nat),
    Built s ({1, 3, 4} : Set Nat) ∧ Represents s t ∧ t.toList = [1, 3, 4] ∧ Enumerates s t.toList := by
  have hempty : Built (rbInit ⟨fun _ => ⟨none, none, none, .red⟩, none⟩) (∅ : Set Nat) := .empty _
  obtain ⟨s1, h1, he1⟩ := hempty.append (L := []) (x := 1) ⟨rfl, by simp⟩ (by simp)
  obtain ⟨s2, h2, he2⟩ := h1.append (x := 2) he1 (by simp)
  obtain ⟨s3, h3, he3⟩ := h2.append (x := 3) he2 (by simp)
  obtain ⟨s4, h4, he4⟩ := h3.append (x := 4) he3 (by simp)
  obtain ⟨t, -, -, -, -, -, -, -, hen, -, her⟩ := rbtree_correct h4
  obtain ⟨s', t', he, hr', hl⟩ := her 2 (by simp)
  have hset : (insert 4 (insert 3 (insert 2 (insert 1 ∅))) : Set Nat) \ {2} = {1, 3, 4} := by
    ext i
    simp
    omega
  have hbuilt : Built s' {1, 3, 4} := hset ▸ h4.erase 2 (by simp) he
  obtain ⟨u, hu, -, -, -, -, -, -, hen', -, -⟩ := rbtree_correct hbuilt
  refine ⟨s', u, hbuilt, hu, ?_, hen'⟩
  rw [hen'.eq hr'.enumerates, hl, hen.eq he4]
  rfl

end Jnu.Rbtree
