import Mathlib

namespace Jnu.Lib.RedBlack

inductive Side where
  | left
  | right
deriving DecidableEq, Repr

def Side.flip : Side → Side
  | .left => .right
  | .right => .left

@[simp] theorem Side.flip_flip (side : Side) : side.flip.flip = side := by
  cases side <;> rfl

inductive Color where
  | red
  | black
deriving DecidableEq, Repr

inductive RbTree (α : Type) where
  | nil
  | node (color : Color) (left : RbTree α) (value : α) (right : RbTree α)
deriving DecidableEq, Repr

variable {α : Type}

namespace RbTree

variable {t : RbTree α} {x : α} {n : Nat}

def toList : RbTree α → List α
  | nil => []
  | node _ l x r => l.toList ++ x :: r.toList

def root? : RbTree α → Option α
  | nil => none
  | node _ _ x _ => some x

-- An empty tree counts as black.
def color : RbTree α → Color
  | nil => .black
  | node c _ _ _ => c

def setColor (c : Color) : RbTree α → RbTree α
  | nil => nil
  | node _ l x r => node c l x r

-- The node with `t` on the given side of `x` and `other` on the opposite one.
def join (side : Side) (c : Color) (t : RbTree α) (x : α) (other : RbTree α) : RbTree α :=
  match side with
  | .left => node c t x other
  | .right => node c other x t

theorem join_flip (side : Side) (c : Color) (t other : RbTree α) (x : α) :
    join side.flip c t x other = join side c other x t := by
  cases side <;> rfl

theorem node_eq_join (side : Side) (c : Color) (l r : RbTree α) (x : α) :
    ∃ a b, node c l x r = join side c a x b := by
  cases side with
  | left => exact ⟨l, r, rfl⟩
  | right => exact ⟨r, l, rfl⟩

theorem join_eq_join (side side' : Side) (c : Color) (t other : RbTree α) (x : α) :
    ∃ a b, join side c t x other = join side' c a x b := by
  cases side with
  | left => exact node_eq_join side' c t other x
  | right => exact node_eq_join side' c other t x

@[simp] theorem root?_join (side : Side) (c : Color) (t other : RbTree α) (x : α) :
    (join side c t x other).root? = some x := by
  cases side <;> rfl

@[simp] theorem color_join (side : Side) (c : Color) (t other : RbTree α) (x : α) :
    (join side c t x other).color = c := by
  cases side <;> rfl

theorem mem_of_root? (h : t.root? = some x) : x ∈ t.toList := by
  cases t with
  | nil => simp [root?] at h
  | node c l y r =>
    simp only [root?, Option.some.injEq] at h
    simp [toList, h]

@[simp] theorem toList_setColor (c : Color) (t : RbTree α) : (t.setColor c).toList = t.toList := by
  cases t <;> rfl

theorem setColor_of_color {c : Color} (h : t.color = c) : t.setColor c = t := by
  subst h
  cases t <;> rfl

theorem mem_join {side : Side} {c : Color} {other : RbTree α} {y : α} :
    y ∈ (join side c t x other).toList ↔ y = x ∨ y ∈ t.toList ∨ y ∈ other.toList := by
  cases side <;> simp [join, toList] <;> tauto

-- Nodes of a red-black tree of black height `n`, except for the colour of the root.
def Balanced : RbTree α → Nat → Prop
  | nil, n => n = 0
  | node .red l _ r, n => l.color = .black ∧ r.color = .black ∧ l.Balanced n ∧ r.Balanced n
  | node .black l _ r, n => ∃ m, n = m + 1 ∧ l.Balanced m ∧ r.Balanced m

@[simp] theorem balanced_nil (n : Nat) : (nil : RbTree α).Balanced n ↔ n = 0 := Iff.rfl

@[simp] theorem balanced_join_red (side : Side) (t other : RbTree α) (x : α) (n : Nat) :
    (join side .red t x other).Balanced n ↔
      t.color = .black ∧ other.color = .black ∧ t.Balanced n ∧ other.Balanced n := by
  cases side with
  | left => rfl
  | right => simp only [join, Balanced]; tauto

@[simp] theorem balanced_join_black (side : Side) (t other : RbTree α) (x : α) (n : Nat) :
    (join side .black t x other).Balanced (n + 1) ↔ t.Balanced n ∧ other.Balanced n := by
  cases side <;> simp [join, Balanced, and_comm]

theorem Balanced.join_black_height {side : Side} {other : RbTree α}
    (h : (join side .black t x other).Balanced n) : ∃ m, n = m + 1 := by
  cases side <;> obtain ⟨m, hm, -⟩ := h <;> exact ⟨m, hm⟩

theorem Balanced.setColor_black (h : t.Balanced n) (hred : t.color = .red) :
    (t.setColor .black).Balanced (n + 1) := by
  cases t with
  | nil => simp [color] at hred
  | node c l x r =>
    obtain rfl : c = .red := hred
    exact ⟨n, rfl, h.2.2.1, h.2.2.2⟩

theorem Balanced.exists_of_succ (h : t.Balanced (n + 1)) (side : Side) :
    ∃ c a x b, t = join side c a x b := by
  cases t with
  | nil => simp at h
  | node c l x r =>
    obtain ⟨a, b, he⟩ := node_eq_join side c l r x
    exact ⟨c, a, x, b, he⟩

-- The two clauses of the definition in terms of paths from the root to an empty tree.
def paths : RbTree α → List (List Color)
  | nil => [[]]
  | node c l _ r => (l.paths ++ r.paths).map (c :: ·)

def NoRedRed : RbTree α → Prop
  | nil => True
  | node c l _ r =>
    (c = .red → l.color = .black ∧ r.color = .black) ∧ l.NoRedRed ∧ r.NoRedRed

theorem Balanced.noRedRed (h : t.Balanced n) : t.NoRedRed := by
  induction t generalizing n with
  | nil => trivial
  | node c l x r ihl ihr =>
    cases c with
    | red => exact ⟨fun _ => ⟨h.1, h.2.1⟩, ihl h.2.2.1, ihr h.2.2.2⟩
    | black =>
      obtain ⟨m, -, hl, hr⟩ := h
      exact ⟨fun hc => (nomatch hc), ihl hl, ihr hr⟩

theorem Balanced.count_black (h : t.Balanced n) {p : List Color}
    (hp : p ∈ t.paths) : p.count .black = n := by
  induction t generalizing n p with
  | nil =>
    simp only [paths, List.mem_singleton] at hp
    simp only [balanced_nil] at h
    simp [hp, h]
  | node c l x r ihl ihr =>
    simp only [paths, List.mem_map, List.mem_append] at hp
    obtain ⟨q, hq, rfl⟩ := hp
    cases c with
    | red =>
      have hn : q.count .black = n := hq.elim (ihl h.2.2.1) (ihr h.2.2.2)
      simpa using hn
    | black =>
      obtain ⟨m, rfl, hl, hr⟩ := h
      have hn : q.count .black = m := hq.elim (ihl hl) (ihr hr)
      simp [hn]

end RbTree

-- A tree with a hole. `frame side c x other up` is the hole on the given side of
-- `x`, whose other subtree is `other`.
inductive Ctx (α : Type) where
  | top
  | frame (side : Side) (color : Color) (value : α) (other : RbTree α) (up : Ctx α)

namespace Ctx

variable {t : RbTree α}

def plug : Ctx α → RbTree α → RbTree α
  | top, t => t
  | frame side c x other up, t => up.plug (t.join side c x other)

def parent? : Ctx α → Option α
  | top => none
  | frame _ _ x _ _ => some x

-- The colour of the hole's parent; the hole of the empty context must be black, as below a red parent.
def color : Ctx α → Color
  | top => .red
  | frame _ c _ _ _ => c

def rootWith : Ctx α → Option α → Option α
  | top, r => r
  | frame _ _ x _ up, _ => up.rootWith (some x)

def values : Ctx α → List α
  | top => []
  | frame _ _ x other up => x :: (other.toList ++ up.values)

def before : Ctx α → List α
  | top => []
  | frame .left _ _ _ up => up.before
  | frame .right _ x other up => up.before ++ other.toList ++ [x]

def after : Ctx α → List α
  | top => []
  | frame .left _ x other up => x :: other.toList ++ up.after
  | frame .right _ _ _ up => up.after

def depth : Ctx α → Nat
  | top => 0
  | frame _ _ _ _ up => up.depth + 1

def comp : Ctx α → Ctx α → Ctx α
  | top, outer => outer
  | frame side c x other up, outer => frame side c x other (up.comp outer)

theorem plug_comp (K outer : Ctx α) (t : RbTree α) : (K.comp outer).plug t = outer.plug (K.plug t) := by
  induction K generalizing t with
  | top => rfl
  | frame side c x other up ih => exact ih _

theorem toList_plug (K : Ctx α) (t : RbTree α) : (K.plug t).toList = K.before ++ t.toList ++ K.after := by
  induction K generalizing t with
  | top => simp [plug, before, after]
  | frame side c x other up ih =>
    cases side <;> simp [plug, before, after, ih, RbTree.join, RbTree.toList]

theorem perm_values (K : Ctx α) : (K.before ++ K.after).Perm K.values := by
  induction K with
  | top => rfl
  | frame side c x other up ih =>
    have hup : (x :: (other.toList ++ (up.before ++ up.after))).Perm
        (x :: (other.toList ++ up.values)) := (ih.append_left _).cons x
    refine List.Perm.trans ?_ hup
    cases side with
    | left =>
      simp only [before, after, List.cons_append]
      refine (List.perm_middle).trans (List.Perm.cons x ?_)
      rw [← List.append_assoc, ← List.append_assoc]
      exact (List.perm_append_comm).append_right _
    | right =>
      simp only [before, after, List.append_assoc, List.cons_append, List.nil_append]
      rw [← List.append_assoc, ← List.append_assoc]
      refine (List.perm_middle).trans (List.Perm.cons x ?_)
      exact (List.perm_append_comm).append_right _

theorem perm_toList_plug (K : Ctx α) (t : RbTree α) :
    (K.plug t).toList.Perm (t.toList ++ K.values) := by
  rw [toList_plug]
  calc K.before ++ t.toList ++ K.after
      = K.before ++ (t.toList ++ K.after) := List.append_assoc ..
    _ |>.Perm (t.toList ++ (K.before ++ K.after)) := by
        rw [← List.append_assoc, ← List.append_assoc]
        exact (List.perm_append_comm).append_right _
    _ |>.Perm (t.toList ++ K.values) := (perm_values K).append_left _

theorem exists_plug_of_mem {x : α} (h : x ∈ t.toList) :
    ∃ K : Ctx α, ∃ c l r, t = K.plug (.node c l x r) := by
  induction t with
  | nil => simp [RbTree.toList] at h
  | node c l y r ihl ihr =>
    simp only [RbTree.toList, List.mem_append, List.mem_cons] at h
    rcases h with h | rfl | h
    · obtain ⟨K, c', l', r', rfl⟩ := ihl h
      exact ⟨K.comp (.frame .left c y r .top), c', l', r', by rw [plug_comp]; rfl⟩
    · exact ⟨.top, c, l, r, rfl⟩
    · obtain ⟨K, c', l', r', rfl⟩ := ihr h
      exact ⟨K.comp (.frame .right c y l .top), c', l', r', by rw [plug_comp]; rfl⟩

-- A balanced tree with a hole for a tree of black height `n`.
def Balanced : Ctx α → Nat → Prop
  | top, _ => True
  | frame _ .red _ other up, n =>
    up.color = .black ∧ other.color = .black ∧ other.Balanced n ∧ up.Balanced n
  | frame _ .black _ other up, n => other.Balanced n ∧ up.Balanced (n + 1)

theorem Balanced.plug {K : Ctx α} {n : Nat} (hK : K.Balanced n) (ht : t.Balanced n)
    (hc : K.color = .red → t.color = .black) :
    (∃ m, (K.plug t).Balanced m) ∧ (K.plug t).color = .black := by
  induction K generalizing t n with
  | top => exact ⟨⟨n, ht⟩, hc rfl⟩
  | frame side c x other up ih =>
    cases c with
    | red =>
      obtain ⟨hup, ho, hob, hub⟩ := hK
      exact ih hub (by simp [ht, hob, ho, hc rfl]) (fun h => by rw [hup] at h; cases h)
    | black => exact ih hK.2 (by simp [ht, hK.1]) (fun _ => by simp)

theorem Balanced.of_plug {K : Ctx α} {m : Nat} (h : (K.plug t).Balanced m)
    (hc : (K.plug t).color = .black) :
    ∃ n, K.Balanced n ∧ t.Balanced n ∧ (K.color = .red → t.color = .black) := by
  induction K generalizing t with
  | top => exact ⟨m, trivial, h, fun _ => hc⟩
  | frame side c x other up ih =>
    obtain ⟨n, hK, ht, hcol⟩ := ih h hc
    cases c with
    | red =>
      simp only [RbTree.balanced_join_red] at ht
      have hup : up.color = .black := by
        cases hu : up.color with
        | black => rfl
        | red => simpa using hcol hu
      exact ⟨n, ⟨hup, ht.2.1, ht.2.2.2, hK⟩, ht.2.2.1, fun _ => ht.1⟩
    | black =>
      obtain ⟨k, rfl⟩ := ht.join_black_height
      simp only [RbTree.balanced_join_black] at ht
      exact ⟨k, ⟨ht.2, hK⟩, ht.1, fun h => by simp [color] at h⟩

end Ctx

end Jnu.Lib.RedBlack
