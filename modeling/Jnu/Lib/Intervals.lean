import Mathlib

namespace Jnu.Lib.Intervals

variable {ι α : Type} [LinearOrder α]

structure Family (ι α : Type) where
  lo : ι → α
  hi : ι → α

namespace Family

def Has (F : Family ι α) (x : α) (i : ι) : Prop := F.lo i ≤ x ∧ x < F.hi i

instance (F : Family ι α) (x : α) : DecidablePred (F.Has x) :=
  fun i => inferInstanceAs (Decidable (F.lo i ≤ x ∧ x < F.hi i))

def Meets (F : Family ι α) (i j : ι) : Prop := F.lo i < F.hi j ∧ F.lo j < F.hi i

structure Ordered (F : Family ι α) (L : List ι) : Prop where
  nonempty : ∀ i ∈ L, F.lo i < F.hi i
  apart : L.Pairwise fun i j => F.hi i ≤ F.lo j

def locate (F : Family ι α) (L : List ι) (x : α) : Option ι := L.find? fun i => F.Has x i

namespace Ordered

variable {F F' : Family ι α} {L A B L' : List ι} {i j : ι} {x : α}

theorem nil (F : Family ι α) : F.Ordered [] :=
  ⟨fun _ hi => absurd hi List.not_mem_nil, List.Pairwise.nil⟩

theorem sublist (h : F.Ordered L) (hA : A.Sublist L) : F.Ordered A :=
  ⟨fun i hi => h.nonempty i (hA.subset hi), h.apart.sublist hA⟩

theorem congr (h : F.Ordered L) (hlo : ∀ i ∈ L, F'.lo i = F.lo i)
    (hhi : ∀ i ∈ L, F'.hi i = F.hi i) : F'.Ordered L := by
  constructor
  · intro i hi
    rw [hlo i hi, hhi i hi]
    exact h.nonempty i hi
  · apply h.apart.imp_of_mem
    intro i j hi hj hij
    rw [hhi i hi, hlo j hj]
    exact hij

theorem nodup (h : F.Ordered L) : L.Nodup := by
  apply h.apart.imp_of_mem
  rintro i j hi _ hij rfl
  exact absurd (h.nonempty i hi) (not_lt.2 hij)

theorem append_iff : F.Ordered (A ++ B) ↔
    F.Ordered A ∧ F.Ordered B ∧ ∀ i ∈ A, ∀ j ∈ B, F.hi i ≤ F.lo j := by
  constructor
  · intro h
    obtain ⟨hA, hB, hAB⟩ := List.pairwise_append.1 h.apart
    obtain ⟨hnA, hnB⟩ := List.forall_mem_append.1 h.nonempty
    exact ⟨⟨hnA, hA⟩, ⟨hnB, hB⟩, hAB⟩
  · rintro ⟨hA, hB, hAB⟩
    exact ⟨List.forall_mem_append.2 ⟨hA.nonempty, hB.nonempty⟩,
      List.pairwise_append.2 ⟨hA.apart, hB.apart, hAB⟩⟩

theorem cons_iff : F.Ordered (i :: L) ↔
    F.lo i < F.hi i ∧ F.Ordered L ∧ ∀ j ∈ L, F.hi i ≤ F.lo j := by
  constructor
  · intro h
    obtain ⟨hi, hL⟩ := List.pairwise_cons.1 h.apart
    obtain ⟨hni, hnL⟩ := List.forall_mem_cons.1 h.nonempty
    exact ⟨hni, ⟨hnL, hL⟩, hi⟩
  · rintro ⟨hi, hL, hap⟩
    exact ⟨List.forall_mem_cons.2 ⟨hi, hL.nonempty⟩, List.pairwise_cons.2 ⟨hap, hL.apart⟩⟩

theorem insert (h : F.Ordered (A ++ B)) (hi : F.lo i < F.hi i) (hA : ∀ j ∈ A, F.hi j ≤ F.lo i)
    (hB : ∀ j ∈ B, F.hi i ≤ F.lo j) : F.Ordered (A ++ i :: B) := by
  obtain ⟨hA', hB', hAB⟩ := append_iff.1 h
  exact append_iff.2 ⟨hA', cons_iff.2 ⟨hi, hB', hB⟩,
    fun j hj => List.forall_mem_cons.2 ⟨hA j hj, hAB j hj⟩⟩

-- The members determine the sequence.
theorem eq_of_perm (h : F.Ordered L) (h' : F.Ordered L') (hp : L.Perm L') :
    L = L' := by
  apply hp.eq_of_pairwise _ h.apart h'.apart
  intro i j hi hj hij hji
  have hi' := h.nonempty i hi
  have hj' := h'.nonempty j hj
  exact absurd (lt_of_lt_of_le (lt_of_lt_of_le hi' hij) (le_of_lt hj')) (not_lt.2 hji)

theorem unique (h : F.Ordered L) (hi : i ∈ L) (hj : j ∈ L) (hxi : F.Has x i) (hxj : F.Has x j) :
    i = j := by
  by_contra hne
  have hpair : L.Pairwise fun a b => F.hi a ≤ F.lo b ∨ F.hi b ≤ F.lo a :=
    h.apart.imp fun hab => .inl hab
  have hsymm : Std.Symm fun a b => F.hi a ≤ F.lo b ∨ F.hi b ≤ F.lo a := ⟨fun _ _ hab => hab.symm⟩
  rcases hpair.forall hi hj hne with hij | hij
  · exact absurd (lt_of_lt_of_le hxi.2 hij) (not_lt.2 hxj.1)
  · exact absurd (lt_of_lt_of_le hxj.2 hij) (not_lt.2 hxi.1)

-- What holds of an interval and goes over to those before it is dropped at the front.
theorem mem_dropWhile {P : ι → Prop} [DecidablePred P] (h : F.Ordered L)
    (hP : ∀ y i, F.lo y < F.hi y → F.hi y ≤ F.lo i → F.lo i < F.hi i → P i → P y) :
    i ∈ L.dropWhile (fun j => decide (P j)) ↔ i ∈ L ∧ ¬ P i := by
  induction L with
  | nil => simp
  | cons y L ih =>
    obtain ⟨hne, hL, hyL⟩ := cons_iff.1 h
    rw [List.dropWhile_cons]
    by_cases hy : P y
    · rw [if_pos (decide_eq_true hy), ih hL, List.mem_cons]
      constructor
      · exact fun hi => ⟨.inr hi.1, hi.2⟩
      · rintro ⟨rfl | hi, hx⟩
        · exact absurd hy hx
        · exact ⟨hi, hx⟩
    · rw [if_neg (by simpa using hy)]
      refine ⟨fun hi => ⟨hi, ?_⟩, fun hi => hi.1⟩
      rcases List.mem_cons.1 hi with rfl | hi
      · exact hy
      · exact fun hc => hy (hP y i hne (hyL i hi) (hL.nonempty i hi) hc)

theorem mem_dropWhile_hi (h : F.Ordered L) :
    i ∈ L.dropWhile (fun j => decide (F.hi j ≤ x)) ↔ i ∈ L ∧ x < F.hi i := by
  rw [h.mem_dropWhile fun y i _ h1 h2 hi => h1.trans (h2.le.trans hi), not_le]

theorem mem_dropWhile_lo (h : F.Ordered L) :
    i ∈ L.dropWhile (fun j => decide (F.lo j < x)) ↔ i ∈ L ∧ x ≤ F.lo i := by
  rw [h.mem_dropWhile fun y i h1 h2 _ hi => h1.trans_le (h2.trans hi.le), not_lt]

theorem locate_eq_some (h : F.Ordered L) : F.locate L x = some i ↔ i ∈ L ∧ F.Has x i := by
  unfold locate
  constructor
  · intro he
    exact ⟨List.mem_of_find?_eq_some he, by simpa using List.find?_some he⟩
  rintro ⟨hi, hx⟩
  cases he : L.find? fun i => F.Has x i with
  | none =>
    have hno := List.find?_eq_none.1 he i hi
    exact absurd hx (by simpa using hno)
  | some j =>
    have hj : F.Has x j := by simpa using List.find?_some he
    rw [h.unique hi (List.mem_of_find?_eq_some he) hx hj]

end Ordered

theorem locate_eq_none {F : Family ι α} {L : List ι} {x : α} :
    F.locate L x = none ↔ ∀ i ∈ L, ¬ F.Has x i := by
  unfold locate
  simp [List.find?_eq_none]

end Family

end Jnu.Lib.Intervals
