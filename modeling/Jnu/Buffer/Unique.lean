import Jnu.Buffer.Steps

namespace Jnu.Buffer

open Lib.Refs
open Function

variable {τ δ β : Type} [Fintype τ] {y : Slot δ β} {N : δ → Nat → Prop}

-- What holds of one slot and of the parts all tasks have in it.
structure SlotGood (x : Slot δ β) (p : τ → Part δ) : Prop where
  refs : x.refcount = ∑ t, (p t).cost
  apart : x.valid = true → x.loading = false
  keyed : x.Live → ∃ d, x.bdev = some d
  alone : x.loading = true → x.refcount = 1
  loads : ∀ t, (p t).loads = true → x.loading = true
  held : ∀ t, 0 < (p t).held → x.valid = true
  writes : ∀ t d b sent, (p t).writes = some (d, b, sent) → x.valid = true ∧ x.Keyed d b
  marks : ∀ t, (p t).marks = true → 0 < (p t).held
  dirty : x.dirty = true → x.valid = true

section Slots

variable {x : Slot δ β} {p : τ → Part δ} {q r : Part δ} {t : τ} {a : Act δ β} {v v' : View δ β}

-- A task that has nothing to do with the slot.
def Part.Idle (p : Part δ) : Prop :=
  p.held = 0 ∧ p.loads = false ∧ p.writes = none ∧ p.marks = false

theorem Part.Idle.cost {p : Part δ} (h : p.Idle) : p.cost = 0 := by
  simp only [Part.cost, h.1, h.2.1, h.2.2.1, Option.isSome_none, Bool.toNat_false]

theorem SlotGood.idle (h : SlotGood x p) (h0 : (p t).cost = 0) : (p t).Idle := by
  unfold Part.cost at h0
  refine ⟨by omega, ?_, ?_, ?_⟩
  · cases hl : (p t).loads with
    | false => rfl
    | true => simp [hl] at h0
  · cases hw : (p t).writes with
    | none => rfl
    | some w => simp [hw] at h0
  · cases hm : (p t).marks with
    | false => rfl
    | true => exact absurd (h.marks t hm) (by omega)

theorem SlotGood.cost_le (h : SlotGood x p) (t : τ) : (p t).cost ≤ x.refcount := by
  rw [h.refs]
  exact Finset.single_le_sum (f := fun u => (p u).cost) (fun _ _ => Nat.zero_le _)
    (Finset.mem_univ t)

section Of

variable {n b : Nat} {l m sent : Bool} {w : Option (δ × Nat × Bool)} (h : SlotGood x p)
  (hp : p t = ⟨n, l, w, m⟩)
include h hp

theorem SlotGood.held_of (hn : 0 < n) : x.valid = true := h.held t (hp ▸ hn)

theorem SlotGood.marks_of (hm : m = true) : 0 < n := by simpa only [hp] using h.marks t (hp ▸ hm)

theorem SlotGood.writes_of {d : δ} (hw : w = some (d, b, sent)) : x.valid = true ∧ x.Keyed d b :=
  h.writes t d b sent (hp ▸ hw)

theorem SlotGood.cost_of : (⟨n, l, w, m⟩ : Part δ).cost ≤ x.refcount := hp ▸ h.cost_le t

end Of

theorem SlotGood.unused (h : SlotGood x p) (h0 : x.refcount = 0) (u : τ) : (p u).Idle := by
  have hsum := h.refs.symm.trans h0
  exact h.idle (Finset.sum_eq_zero_iff.1 hsum u (Finset.mem_univ u))

variable [DecidableEq τ]

theorem SlotGood.sole {n : Nat} (h : SlotGood x p) (ht : p t = ⟨n, true, none, false⟩) :
    n = 0 ∧ x.refcount = 1 ∧ x.valid = false ∧ ∀ u, u ≠ t → (p u).Idle := by
  have hload : x.loading = true := h.loads t (by rw [ht])
  have hone := h.alone hload
  have hvalid : x.valid = false := by
    cases hv : x.valid with
    | false => rfl
    | true => cases (h.apart hv).symm.trans hload
  have hn : n = 0 := by
    by_contra hn
    have hv := h.held t (by rw [ht]; exact Nat.pos_of_ne_zero hn)
    cases hvalid.symm.trans hv
  have hcost : (p t).cost = 1 := by rw [ht, hn]; rfl
  refine ⟨hn, hone, hvalid, fun u hu => h.idle ?_⟩
  have hsum : ∑ u, (p u).cost = (p t).cost := by rw [← h.refs, hone, hcost]
  exact eq_zero_of_sum_eq (f := fun u => (p u).cost) hsum hu

theorem sum_cost_update : ∑ u, (update p t q u).cost + (p t).cost = ∑ u, (p u).cost + q.cost := by
  have h := sum_shift (f := fun u => (p u).cost) (g := fun u => (update p t q u).cost)
    (Finset.mem_univ t) fun u _ hu => by simp only [update_of_ne hu]
  simpa only [update_self] using h

theorem SlotGood.of_valid (h : SlotGood x p) (ht : p t = r) (hx : x.valid = true)
    (hy : y.valid = true) (hload : y.loading = false) (hkey : y.bdev = x.bdev) (hblock : y.blockNo = x.blockNo)
    (hrefs : y.refcount + r.cost = x.refcount + q.cost) (hloads : q.loads = false)
    (hwrites : ∀ d b sent, q.writes = some (d, b, sent) → x.Keyed d b)
    (hmarks : q.marks = true → 0 < q.held) : SlotGood y (update p t q) where
  refs := by
    have hsum := sum_cost_update (p := p) (t := t) (q := q)
    have hr := h.refs
    rw [ht] at hsum
    omega
  apart := fun _ => hload
  keyed := fun _ => hkey ▸ h.keyed (.inl hx)
  alone := fun hl => absurd (hload.symm.trans hl) Bool.false_ne_true
  loads := by
    rw [forall_update_iff p (p := fun _ r => r.loads = true → y.loading = true)]
    refine ⟨fun hl => absurd (hloads.symm.trans hl) Bool.false_ne_true, fun u _ hl => ?_⟩
    cases (h.apart hx).symm.trans (h.loads u hl)
  held := fun _ _ => hy
  writes := by
    rw [forall_update_iff p
      (p := fun _ r => ∀ d b sent, r.writes = some (d, b, sent) → y.valid = true ∧ y.Keyed d b)]
    refine ⟨fun d b sent hw => ⟨hy, ?_⟩, fun u _ d b sent hw => ⟨hy, ?_⟩⟩
    · exact ⟨hkey.trans (hwrites d b sent hw).1, hblock.trans (hwrites d b sent hw).2⟩
    · have hk := (h.writes u d b sent hw).2
      exact ⟨hkey.trans hk.1, hblock.trans hk.2⟩
  marks := by
    rw [forall_update_iff p (p := fun _ r => r.marks = true → 0 < r.held)]
    exact ⟨hmarks, fun u _ => h.marks u⟩
  dirty := fun _ => hy

theorem SlotGood.of_sole (hu : ∀ u, u ≠ t → (p u).Idle) (hrefs : y.refcount = q.cost)
    (hapart : y.valid = true → y.loading = false) (hkeyed : y.Live → ∃ d, y.bdev = some d)
    (halone : y.loading = true → y.refcount = 1) (hloads : q.loads = true → y.loading = true)
    (hheld : 0 < q.held → y.valid = true) (hwrites : q.writes = none) (hmarks : q.marks = false)
    (hdirty : y.dirty = true → y.valid = true) : SlotGood y (update p t q) := by
  refine ⟨?_, hapart, hkeyed, halone, ?_, ?_, ?_, ?_, hdirty⟩
  · rw [hrefs, Finset.sum_eq_single t, update_self]
    · intro u _ hne
      rw [update_of_ne hne]
      exact (hu u hne).cost
    · exact fun h => absurd (Finset.mem_univ t) h
  · rw [forall_update_iff p (p := fun _ r => r.loads = true → y.loading = true)]
    refine ⟨hloads, fun u hne hl => ?_⟩
    cases (hu u hne).2.1.symm.trans hl
  · rw [forall_update_iff p (p := fun _ r => 0 < r.held → y.valid = true)]
    refine ⟨hheld, fun u hne h0 => ?_⟩
    exact absurd (hu u hne).1 (by omega)
  · rw [forall_update_iff p
      (p := fun _ r => ∀ d b sent, r.writes = some (d, b, sent) → y.valid = true ∧ y.Keyed d b)]
    constructor
    · intro d b sent hw
      cases hwrites.symm.trans hw
    · intro u hne d b sent hw
      cases (hu u hne).2.2.1.symm.trans hw
  · rw [forall_update_iff p (p := fun _ r => r.marks = true → 0 < r.held)]
    refine ⟨fun hm => absurd (hmarks.symm.trans hm) Bool.false_ne_true, fun u hne hm => ?_⟩
    cases (hu u hne).2.2.2.symm.trans hm

variable [DecidableEq δ]

theorem SlotGood.change (h : SlotGood v.slot p) (ht : p t = v.part) (hc : Change N a v v') :
    SlotGood v'.slot (update p t v'.part) := by
  cases hc with
  | same =>
    rw [← ht, update_eq_self]
    exact h
  | @hit _ n _ hp hv hl =>
    rw [hp] at ht
    refine h.of_valid ht hv hv hl rfl rfl ?_ rfl nofun nofun
    change _ + 1 + n = _ + (n + 1)
    omega
  | @claim _ n d b m hp hs hf =>
    rw [hp] at ht
    have hn : n = 0 := by
      have hn := (h.unused hs.2.1 t).1
      rwa [ht] at hn
    subst hn
    exact .of_sole (fun u _ => h.unused hs.2.1 u) rfl nofun (fun _ => ⟨d, rfl⟩) (fun _ => rfl)
      (fun _ => rfl) (fun h0 => absurd h0 (Nat.lt_irrefl 0)) rfl rfl nofun
  | @fill _ n d hp hb =>
    rw [hp] at ht
    obtain ⟨hn, hone, -, hu⟩ := h.sole ht
    subst hn
    exact .of_sole hu hone (fun _ => rfl) (fun _ => ⟨d, hb⟩) (fun _ => hone) nofun (fun _ => rfl) rfl rfl
      (fun _ => rfl)
  | @fail _ n ok hp hb =>
    rw [hp] at ht
    obtain ⟨hn, -, hxv, hu⟩ := h.sole ht
    subst hn
    refine .of_sole hu rfl (fun _ => rfl) ?_ nofun nofun (fun h0 => absurd h0 (Nat.lt_irrefl 0)) rfl rfl ?_
    · rintro (hl | hl) <;> cases hl
    · intro hd
      cases hxv.symm.trans (h.dirty hd)
  | @modify _ n i x hp hn =>
    rw [hp] at ht
    have hv := h.held_of ht hn
    exact h.of_valid ht hv hv (h.apart hv) rfl rfl rfl rfl nofun (fun _ => hn)
  | @mark _ _ n hp =>
    rw [hp] at ht
    have hv := h.held_of ht (h.marks_of ht rfl)
    exact h.of_valid ht hv hv (h.apart hv) rfl rfl rfl rfl nofun nofun
  | @begin _ n d m hp hv hd hb =>
    rw [hp] at ht
    refine h.of_valid ht hv hv (h.apart hv) rfl rfl ?_ rfl ?_ (h.marks_of ht)
    · change _ + 1 + n = _ + (n + 1)
      omega
    · rintro d' b' sent ⟨⟩
      exact ⟨hb, rfl⟩
  | @sent _ n d b m hp =>
    rw [hp] at ht
    obtain ⟨hv, hk⟩ := h.writes_of ht rfl
    refine h.of_valid ht hv hv (h.apart hv) rfl rfl rfl rfl ?_ (h.marks_of ht)
    rintro d' b' sent ⟨⟩
    exact hk
  | @wrote _ n d b sent m ok hp hok =>
    rw [hp] at ht
    obtain ⟨hv, hk⟩ := h.writes_of ht rfl
    refine h.of_valid ht hv hv (h.apart hv) rfl rfl ?_ rfl nofun (h.marks_of ht)
    have hle : n + 1 ≤ v.slot.refcount := h.cost_of ht
    change _ - 1 + (n + 1) = _ + n
    omega
  | @put _ n i hp hn =>
    rw [hp] at ht
    have hv := h.held_of ht hn
    have hle : n ≤ v.slot.refcount := h.cost_of ht
    rw [if_neg (by omega : v.slot.refcount ≠ 0)]
    refine h.of_valid ht hv hv (h.apart hv) rfl rfl ?_ rfl nofun nofun
    change _ - 1 + n = _ + (n - 1)
    omega

theorem Change.live (hc : Change N a v v')
    (hload : v.part.loads = true → v.slot.loading = true) (hl : v'.slot.Live) :
    (v.slot.Live ∧ v'.slot.bdev = v.slot.bdev ∧ v'.slot.blockNo = v.slot.blockNo) ∨
      ∃ d b, N d b ∧ v'.slot.Keyed d b := by
  cases hc with
  | @claim _ n d b m hp hs hf => exact .inr ⟨d, b, hf, rfl, rfl⟩
  | fill hp hb => exact .inl ⟨.inr (hload (by rw [hp])), rfl, rfl⟩
  | fail hp hb => rcases hl with hl | hl <;> cases hl
  | put hp hn =>
    split_ifs at hl ⊢
    · exact .inl ⟨hl, rfl, rfl⟩
    · exact .inl ⟨hl, rfl, rfl⟩
  | _ => exact .inl ⟨hl, rfl, rfl⟩

theorem Change.key (hc : Change N a v v') (hpin : v.slot.loading = true ∨ 0 < v.slot.refcount) :
    v'.slot.bdev = v.slot.bdev ∧ v'.slot.blockNo = v.slot.blockNo := by
  cases hc with
  | claim hp hs hf =>
    rcases hpin with hl | hr
    · cases hs.1.symm.trans hl
    · exact absurd hs.2.1 (by omega)
  | put hp hn =>
    split_ifs
    · exact ⟨rfl, rfl⟩
    · exact ⟨rfl, rfl⟩
  | _ => exact ⟨rfl, rfl⟩

end Slots

structure Good (s : State τ δ β) : Prop where
  slots : ∀ i, SlotGood (s.slot i) fun t => s.part t i
  unique : ∀ i j, (s.slot i).Live → (s.slot j).Live → (s.slot i).bdev = (s.slot j).bdev →
    (s.slot i).blockNo = (s.slot j).blockNo → i = j

section Steps

variable {s s' : State τ δ β} {t : τ} {a : Act δ β} {i j : Ix} {x : Slot δ β}

theorem good_initial (device : δ → Nat → β) (data : β) :
    Good (initial device data : State τ δ β) where
  slots := fun i =>
    { refs := (Finset.sum_eq_zero fun _ _ => rfl).symm
      apart := fun _ => rfl
      keyed := by rintro (h | h) <;> cases h
      alone := fun h => by cases h
      loads := fun _ h => by cases h
      held := fun _ h => absurd h (Nat.lt_irrefl 0)
      writes := fun _ _ _ _ h => by cases h
      marks := fun _ h => by cases h
      dirty := fun h => by cases h }
  unique := by rintro i j (h | h) <;> cases h

theorem Good.not_keyed (hg : Good s) (hj : j ≠ i) {d : δ} {b : Nat} (hlj : (s.slot j).Live)
    (hkj : (s.slot j).Keyed d b) (hl : (s.slot i).Live) : ¬ (s.slot i).Keyed d b := by
  intro hki
  exact hj (hg.unique j i hlj hl (hkj.1.trans hki.1.symm) (hkj.2.trans hki.2.symm))

theorem Good.not_valid_of_loads (hg : Good s) (hload : (s.part t i).loads = true) :
    (s.slot i).valid = false := by
  cases hval : (s.slot i).valid with
  | false => rfl
  | true =>
    have hl := (hg.slots i).loads t hload
    cases ((hg.slots i).apart hval).symm.trans hl

theorem SlotGood.flushed {p : τ → Part δ} (h : SlotGood x p) :
    SlotGood (Cache.flushed x) p := by
  unfold Cache.flushed
  split_ifs with hs
  · exact h
  simp only [Bool.or_eq_true, bne_iff_ne, ne_eq, not_or, not_not, Bool.not_eq_true] at hs
  have hu := h.unused hs.1
  refine ⟨h.refs, fun _ => hs.2, ?_, ?_, ?_, ?_, ?_, h.marks, fun hd => by cases hd⟩
  · rintro (hl | hl)
    · cases hl
    · cases hs.2.symm.trans hl
  · exact fun hl => absurd (hs.2.symm.trans hl) Bool.false_ne_true
  · exact fun u hl => absurd ((hu u).2.1.symm.trans hl) Bool.false_ne_true
  · exact fun u hh => absurd (hu u).1 (by omega)
  · intro u d b sent hw
    cases (hu u).2.2.1.symm.trans hw

theorem Slot.flushed_of_live (h : (Cache.flushed x).Live) : Cache.flushed x = x := by
  unfold Cache.flushed at h ⊢
  split_ifs at h ⊢ with hs
  · rfl
  simp only [Bool.or_eq_true, not_or, Bool.not_eq_true] at hs
  rcases h with h | h
  · cases h
  · cases hs.2.symm.trans h

variable [DecidableEq τ]

omit [Fintype τ] in
theorem State.invalidate_part (hp : s.pc t = .flushing) (u : τ) (j : Ix) :
    (s.invalidate t).part u j = s.part u j := by
  by_cases hu : u = t
  · subst hu
    rw [State.part_of_pc hp]
    simp only [State.part, State.invalidate, State.goto, State.meet, update_self]
    rfl
  · simp only [State.part, State.invalidate, State.goto, State.meet, update_of_ne hu]

omit [Fintype τ] in
theorem State.invalidate_slot (j : Ix) : (s.invalidate t).slot j = Cache.flushed (s.slot j) := by
  simp only [State.slot, State.invalidate, State.goto, State.meet, Cache.invalidate_slots]

theorem Good.invalidate (h : Good s) (hp : s.pc t = .flushing) : Good (s.invalidate t) := by
  have hlive : ∀ j, ((s.invalidate t).slot j).Live → (s.invalidate t).slot j = s.slot j := by
    intro j hj
    rw [State.invalidate_slot] at hj ⊢
    exact Slot.flushed_of_live hj
  refine ⟨fun j => ?_, fun j k hj hk hb hn => ?_⟩
  · have hparts : (fun u => (s.invalidate t).part u j) = fun u => s.part u j :=
      funext fun u => State.invalidate_part hp u j
    rw [hparts, State.invalidate_slot]
    exact (h.slots j).flushed
  · have hej := hlive j hj
    have hek := hlive k hk
    rw [hej] at hj
    rw [hek] at hk
    rw [hej, hek] at hb hn
    exact h.unique j k hj hk hb hn

variable [DecidableEq δ]

omit [Fintype τ] in
theorem Local.part_update (hl : Local s t a i s') :
    (fun u => s'.part u i) = update (fun u => s.part u i) t (s'.part t i) :=
  eq_update_iff.2 ⟨rfl, fun u hu => hl.parts u i (.inl hu)⟩

theorem Good.local (h : Good s) (hl : Local s t a i s') : Good s' := by
  refine ⟨fun j => ?_, ?_⟩
  · by_cases hj : j = i
    · subst hj
      rw [hl.part_update]
      exact (h.slots j).change (v := s.view t j) rfl hl.change
    · rw [hl.slots j hj]
      have hparts : (fun u => s'.part u j) = fun u => s.part u j :=
        funext fun u => hl.parts u j (.inr hj)
      rw [hparts]
      exact h.slots j
  -- The slot of the step against another one.
  have hone : ∀ j, j ≠ i → (s'.slot i).Live → (s.slot j).Live →
      (s'.slot i).bdev = (s.slot j).bdev → (s'.slot i).blockNo ≠ (s.slot j).blockNo := by
    intro j hj hi hjl hb hn
    rcases hl.change.live ((h.slots i).loads t) hi with ⟨hli, hbi, hni⟩ | ⟨d, b, habs, hk⟩
    · exact hj (h.unique j i hjl hli (hb.symm.trans hbi) (hn.symm.trans hni))
    · exact Cache.find_none habs.2 j ⟨⟨hb.symm.trans hk.1, hn.symm.trans hk.2⟩, hjl⟩
  intro j k hj hk hb hn
  by_cases hji : j = i
  · by_cases hki : k = i
    · rw [hji, hki]
    · subst hji
      rw [hl.slots k hki] at hk hb hn
      exact absurd hn (hone k hki hj hk hb)
  · rw [hl.slots j hji] at hj hb hn
    by_cases hki : k = i
    · subst hki
      exact absurd hn.symm (hone j hji hk hj hb.symm)
    · rw [hl.slots k hki] at hk hb hn
      exact h.unique j k hj hk hb hn

theorem Good.step (h : Good s) (hm : Moved s t a s') : Good s' := by
  rcases hm.local with ⟨i, hl⟩ | ⟨-, hp, rfl⟩
  · exact h.local hl
  · exact h.invalidate hp

omit [Fintype τ] in
theorem Moved.key (hm : Moved s t a s') (hpin : (s.slot i).loading = true ∨ 0 < (s.slot i).refcount) :
    (s'.slot i).bdev = (s.slot i).bdev ∧ (s'.slot i).blockNo = (s.slot i).blockNo := by
  rcases hm.local with ⟨j, hl⟩ | ⟨-, -, rfl⟩
  · by_cases hij : i = j
    · subst hij
      exact hl.change.key hpin
    · rw [hl.slots i hij]
      exact ⟨rfl, rfl⟩
  · rw [State.invalidate_slot, Cache.flushed, if_pos]
    · exact ⟨rfl, rfl⟩
    · rcases hpin with hl | hr
      · simp only [hl, Bool.or_true]
      · simp only [bne_iff_ne.2 (Nat.pos_iff_ne_zero.1 hr), Bool.true_or]

end Steps

end Jnu.Buffer
