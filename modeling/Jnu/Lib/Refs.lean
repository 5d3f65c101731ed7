import Mathlib

namespace Jnu.Lib.Refs

open Function

variable {κ ν ι : Type} {j k' : κ} {c d : ν → Nat}

noncomputable def count (m : κ → Option ν) (v : ν) : Nat := {k | m k = some v}.ncard

def FiniteRefs (m : κ → Option ν) : Prop := {k | m k ≠ none}.Finite

variable {m : κ → Option ν} {k : κ} {o : Option ν} {v w : ν}

theorem of_update [DecidableEq κ] (h : update m k (some v) j = some w) :
    (j = k ∧ w = v) ∨ (j ≠ k ∧ m j = some w) := by
  by_cases hj : j = k
  · subst hj
    exact .inl ⟨rfl, (Option.some.inj ((update_self j _ m).symm.trans h)).symm⟩
  · exact .inr ⟨hj, (update_of_ne hj _ m).symm.trans h⟩

theorem of_erase [DecidableEq κ] (h : update m k none j = some w) : j ≠ k ∧ m j = some w := by
  have hj : j ≠ k := by
    rintro rfl
    cases (update_self j _ m).symm.trans h
  exact ⟨hj, (update_of_ne hj _ m).symm.trans h⟩

theorem FiniteRefs.fiber (h : FiniteRefs m) (v : ν) : {k | m k = some v}.Finite := by
  apply h.subset
  intro k hk
  simp only [Set.mem_ofPred_eq] at hk ⊢
  rw [hk]
  exact Option.some_ne_none v

theorem count_pos (h : FiniteRefs m) (hk : m k = some v) : 0 < count m v :=
  (Set.ncard_pos (h.fiber v)).2 ⟨k, hk⟩

theorem exists_of_count_pos (h : 0 < count m v) : ∃ k, m k = some v := by
  by_contra hne
  have : {k | m k = some v} = ∅ := Set.eq_empty_iff_forall_notMem.2 fun k hk => hne ⟨k, hk⟩
  simp only [count, this, Set.ncard_empty, Nat.lt_irrefl] at h

theorem eq_of_count_eq_one (h : count m v = 1) (hk : m k = some v) (hk' : m k' = some v) : k = k' := by
  obtain ⟨a, ha⟩ := Set.ncard_eq_one.1 h
  have h1 : k ∈ ({a} : Set κ) := ha ▸ hk
  have h2 : k' ∈ ({a} : Set κ) := ha ▸ hk'
  exact (Set.mem_singleton_iff.1 h1).trans (Set.mem_singleton_iff.1 h2).symm

theorem FiniteRefs.row {m : κ × ι → Option ν} (h : FiniteRefs m) (a : κ) :
    FiniteRefs fun j => m (a, j) := by
  apply Set.Finite.preimage (Prod.mk_right_injective a).injOn h

structure Counted (m : κ → Option ν) (c : ν → Nat) : Prop where
  finite : FiniteRefs m
  eq : ∀ v, c v = count m v

theorem counted_empty : Counted (fun _ => none : κ → Option ν) fun _ => 0 where
  finite := by simp [FiniteRefs]
  eq v := by simp [count]

theorem Counted.pos (h : Counted m c) (hk : m k = some v) : 0 < c v :=
  h.eq v ▸ count_pos h.finite hk

variable [DecidableEq κ]

theorem FiniteRefs.update (h : FiniteRefs m) : FiniteRefs (update m k o) := by
  apply (h.insert k).subset
  intro j hj
  by_cases hjk : j = k
  · exact .inl hjk
  · simp only [Set.mem_ofPred_eq, update_of_ne hjk] at hj
    exact .inr hj

-- Redirecting one key moves one reference.
theorem count_update [DecidableEq ν] (h : FiniteRefs m) :
    count (update m k o) v + (if m k = some v then 1 else 0) =
      count m v + (if o = some v then 1 else 0) := by
  have hrest : ({j | m j = some v} \ {k}).ncard + (if m k = some v then 1 else 0) =
      count m v := by
    by_cases hk : m k = some v
    · rw [if_pos hk]
      exact Set.ncard_sdiff_singleton_add_one (s := {j | m j = some v}) hk (h.fiber v)
    · rw [if_neg hk, Set.sdiff_singleton_eq_self (by simpa using hk)]
      rfl
  by_cases ho : o = some v
  · have hins : {j | update m k o j = some v} =
        insert k ({j | m j = some v} \ {k}) := by
      ext j
      by_cases hj : j = k
      · simp [hj, ho]
      · simp [hj]
    have hcard : count (update m k o) v = ({j | m j = some v} \ {k}).ncard + 1 := by
      unfold count
      rw [hins, Set.ncard_insert_of_notMem (by simp) (h.fiber v).sdiff]
    rw [if_pos ho]
    omega
  · have hsame : {j | update m k o j = some v} = {j | m j = some v} \ {k} := by
      ext j
      by_cases hj : j = k
      · simp [hj, ho]
      · simp [hj]
    have hcard : count (update m k o) v = ({j | m j = some v} \ {k}).ncard := by
      unfold count
      rw [hsame]
    rw [if_neg ho]
    omega

theorem Counted.set [DecidableEq ν] (h : Counted m c)
    (hc : ∀ v, d v + (if m k = some v then 1 else 0) = c v + (if o = some v then 1 else 0)) :
    Counted (Function.update m k o) d := by
  refine ⟨h.finite.update, fun v => ?_⟩
  have h1 := hc v
  have h2 := count_update (k := k) (o := o) (v := v) h.finite
  rw [h.eq v] at h1
  omega

-- One key hands its reference to another.
theorem Counted.move [DecidableEq ν] (h : Counted m c) (hk : m k = some v)
    (hj : m j = none) : Counted (Function.update (Function.update m k none) j (some v)) c := by
  have hpos := h.pos hk
  refine (h.set (d := fun w => c w - if v = w then 1 else 0) fun w => ?_).set fun w => ?_
  · grind
  · grind

-- The references of one row and those of the others.
theorem count_row {m : κ × ι → Option ν} (h : FiniteRefs m) (a : κ) (v : ν) :
    count (fun key => if key.1 = a then none else m key) v + count (fun j => m (a, j)) v =
      count m v := by
  have hsplit : {key | m key = some v} =
      {key | (if key.1 = a then none else m key) = some v} ∪
        Prod.mk a '' {j | m (a, j) = some v} := by
    ext ⟨b, j⟩
    by_cases hb : b = a
    · simp [hb]
    · simp [hb, Ne.symm hb]
  have hdisj : Disjoint {key | (if key.1 = a then none else m key) = some v}
      (Prod.mk a '' {j | m (a, j) = some v}) := by
    rw [Set.disjoint_left]
    rintro key hkey ⟨j, -, rfl⟩
    simp at hkey
  have hfin := h.fiber v
  rw [hsplit] at hfin
  unfold count
  rw [hsplit, Set.ncard_union_eq hdisj (hfin.subset Set.subset_union_left)
    (hfin.subset Set.subset_union_right),
    Set.ncard_image_of_injective _ (Prod.mk_right_injective a)]

-- A tally of which one entry changes.
theorem sum_shift [DecidableEq ι] {s : Finset ι} {f g : ι → Nat} {a : ι} (ha : a ∈ s)
    (h : ∀ j ∈ s, j ≠ a → g j = f j) : ∑ j ∈ s, g j + f a = ∑ j ∈ s, f j + g a := by
  have hrest : ∑ j ∈ s.erase a, g j = ∑ j ∈ s.erase a, f j :=
    Finset.sum_congr rfl fun j hj => h j (Finset.mem_of_mem_erase hj) (Finset.ne_of_mem_erase hj)
  have hg := Finset.add_sum_erase s g ha
  have hf := Finset.add_sum_erase s f ha
  omega

-- A tally that one entry makes up has no other.
theorem eq_zero_of_sum_eq [Fintype ι] [DecidableEq ι] {f : ι → Nat} {a j : ι} (h : ∑ j, f j = f a)
    (hj : j ≠ a) : f j = 0 := by
  have hrest : ∑ k ∈ Finset.univ.erase a, f k = 0 := by
    have hf := Finset.add_sum_erase Finset.univ f (Finset.mem_univ a)
    omega
  exact Finset.sum_eq_zero_iff.1 hrest j (Finset.mem_erase.2 ⟨hj, Finset.mem_univ j⟩)

end Jnu.Lib.Refs
