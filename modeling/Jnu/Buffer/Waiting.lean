import Jnu.Buffer.Unique

namespace Jnu.Buffer

open Lib.Trace
open Function

variable {τ δ β : Type} {s s' : State τ δ β} {t : τ} {a : Act δ β} {i : Ix} {p q : Pc δ} {d : δ}

-- The load goes on in the slot, or is done and the slot has kept the block, or was lost.
def Fate.Means (f : Fate) (x : Slot δ β) (d : δ) (b : Nat) : Prop :=
  (f = .pending → x.loading = true ∧ x.Keyed d b) ∧ (f = .filled → x.valid = true ∧ x.Keyed d b)

-- A get that waits is still searching.
def Awaits (s : State τ δ β) : Prop :=
  ∀ t i f, s.waits t = some (i, f) → ∃ d b, s.pc t = .getting d b ∧ f.Means (s.slot i) d b

theorem awaits_initial (device : δ → Nat → β) (data : β) :
    Awaits (initial device data : State τ δ β) := fun _ _ _ h => by cases h

-- A slot that is as much in use as before, for the same block.
def Slot.SameUse (x y : Slot δ β) : Prop :=
  y.valid = x.valid ∧ y.loading = x.loading ∧ y.bdev = x.bdev ∧ y.blockNo = x.blockNo

theorem sameUse_refl (j : Ix) : (s.slot j).SameUse (s.slot j) := ⟨rfl, rfl, rfl, rfl⟩

theorem Cache.sameUse_set {c : Cache δ β} {y : Slot δ β} (h : (c.slots i).SameUse y) (j : Ix) :
    (c.slots j).SameUse ((c.set i y).slots j) := by
  by_cases hj : j = i
  · subst hj
    rw [c.set_self]
    exact h
  · rw [c.set_of_ne _ hj]
    exact ⟨rfl, rfl, rfl, rfl⟩

theorem Awaits.eq_none (h : Awaits s) (hp : ∀ d b, s.pc t ≠ .getting d b) : s.waits t = none := by
  cases hw : s.waits t with
  | none => rfl
  | some w =>
    obtain ⟨d, b, hpc, -⟩ := h t w.1 w.2 hw
    exact absurd hpc (hp d b)

variable [DecidableEq τ]

section

variable (h : Awaits s)
include h

theorem Awaits.of_sameUse (huse : ∀ j, (s.slot j).SameUse (s'.slot j)) (hpc : s'.pc = update s.pc t p)
    (hother : ∀ u, u ≠ t → s'.waits u = s.waits u) (hself : s'.waits t = none) : Awaits s' := by
  intro u i f hu
  by_cases hut : u = t
  · rw [hut, hself] at hu
    cases hu
  rw [hother u hut] at hu
  obtain ⟨d, b, hd, hpend, hfill⟩ := h u i f hu
  obtain ⟨hv, hl, hb, hn⟩ := huse i
  refine ⟨d, b, ?_, fun hf => ?_, fun hf => ?_⟩
  · rw [hpc, update_of_ne hut, hd]
  · obtain ⟨h1, h2, h3⟩ := hpend hf
    exact ⟨hl.trans h1, hb.trans h2, hn.trans h3⟩
  · obtain ⟨h1, h2, h3⟩ := hfill hf
    exact ⟨hv.trans h1, hb.trans h2, hn.trans h3⟩

theorem Awaits.of_busy (hp : s.pc t = p) (hnot : ∀ d b, p ≠ .getting d b)
    (huse : ∀ j, (s.slot j).SameUse (s'.slot j)) (hpc : s'.pc = update s.pc t q)
    (hwaits : s'.waits = s.waits) : Awaits s' :=
  h.of_sameUse huse hpc (fun _ _ => by rw [hwaits])
    (by rw [hwaits]; exact h.eq_none fun d b => hp ▸ hnot d b)

theorem Awaits.of_meet {p : Ix → Bool} {g : Fate → Fate} (hpc : ∀ u, u ≠ t → s'.pc u = s.pc u)
    (hwaits : ∀ u, u ≠ t → s'.waits u = (s.waits u).map fun w => if p w.1 then (w.1, g w.2) else w)
    (hself : s'.waits t = none) (hslots : ∀ j, p j = false → s'.slot j = s.slot j)
    (hmet : ∀ j f d b, p j = true → f.Means (s.slot j) d b → (g f).Means (s'.slot j) d b) :
    Awaits s' := by
  intro u i f hu
  by_cases hut : u = t
  · rw [hut, hself] at hu
    cases hu
  rw [hwaits u hut] at hu
  obtain ⟨⟨j, f0⟩, hw, he⟩ := Option.map_eq_some_iff.1 hu
  obtain ⟨d, b, hd, hpend, hfill⟩ := h u j f0 hw
  refine ⟨d, b, (hpc u hut).trans hd, ?_⟩
  cases hpj : p j with
  | true =>
    rw [hpj, if_pos rfl] at he
    cases he
    exact hmet _ f0 d b hpj ⟨hpend, hfill⟩
  | false =>
    rw [hpj, if_neg Bool.false_ne_true] at he
    cases he
    rw [hslots _ hpj]
    exact ⟨hpend, hfill⟩

theorem Awaits.claim {b : Nat} (hv : s.cache.pickVictim = some i) : Awaits (s.claim t i d b) := by
  have hs : Cache.Spare (s.slot i) := Cache.pickVictim_some hv
  refine h.of_meet (t := t) (p := (· == i)) (g := Fate.onEvict)
    (fun u hu => update_of_ne hu ..) (fun u hu => ?_) ?_ (fun j hj => ?_) ?_
  · simp only [State.claim, State.goto, State.await, State.meet, update_of_ne hu]
  · simp only [State.claim, State.goto, State.await, update_self]
  · exact s.cache.set_of_ne _ (by simpa using hj)
  rintro j f d' b' hj ⟨hpend, hfill⟩
  have hji : j = i := by simpa using hj
  subst hji
  cases f with
  | pending => cases hs.1.symm.trans (hpend rfl).1
  | _ => simp [Fate.Means, Fate.onEvict]

theorem Awaits.fill (hp : s.pc t = .loading i) : Awaits (s.fill t i d) := by
  have hself := h.eq_none (t := t) fun d b => by rw [hp]; exact nofun
  refine h.of_meet (t := t) (p := (· == i)) (g := Fate.onFill)
    (fun u hu => update_of_ne hu ..) (fun _ _ => rfl) ?_ (fun j hj => ?_) ?_
  · simp only [State.fill, State.goto, State.take, State.meet, hself, Option.map_none]
  · exact s.cache.set_of_ne _ (by simpa using hj)
  rintro j f d' b' hj ⟨hpend, hfill⟩
  have hji : j = i := by simpa using hj
  subst hji
  have hslot : (s.fill t j d).slot j =
      { s.slot j with data := s.device d (s.slot j).blockNo, valid := true, loading := false } :=
    s.cache.set_self ..
  rw [hslot]
  cases f with
  | pending => exact ⟨by simp [Fate.onFill], fun _ => ⟨rfl, (hpend rfl).2⟩⟩
  | filled => exact ⟨by simp [Fate.onFill], fun _ => ⟨rfl, (hfill rfl).2⟩⟩
  | _ => simp [Fate.Means, Fate.onFill]

theorem Awaits.fail (hp : s.pc t = .loading i) (hv : (s.slot i).valid = false) : Awaits (s.fail t i) := by
  have hself := h.eq_none (t := t) fun d b => by rw [hp]; exact nofun
  refine h.of_meet (t := t) (p := (· == i)) (g := Fate.onFail)
    (fun u hu => update_of_ne hu ..) (fun _ _ => rfl) ?_ (fun j hj => ?_) ?_
  · simp only [State.fail, State.goto, State.meet, hself, Option.map_none]
  · exact s.cache.set_of_ne _ (by simpa using hj)
  rintro j f d' b' hj ⟨hpend, hfill⟩
  have hji : j = i := by simpa using hj
  subst hji
  cases f with
  | filled => cases hv.symm.trans (hfill rfl).1
  | _ => simp [Fate.Means, Fate.onFail]

theorem Awaits.invalidate (hp : s.pc t = .flushing) : Awaits (s.invalidate t) := by
  have hself := h.eq_none (t := t) fun d b => by rw [hp]; exact nofun
  refine h.of_meet (t := t) (p := fun i => (s.slot i).refcount == 0 && !(s.slot i).loading)
    (g := Fate.onEvict) (fun u hu => update_of_ne hu ..) (fun _ _ => rfl) ?_
    (fun j hj => ?_) ?_
  · simp only [State.invalidate, State.goto, State.meet, hself, Option.map_none]
  · rw [State.invalidate_slot, Cache.flushed, if_pos]
    cases hl : (s.slot j).loading with
    | true => rw [Bool.or_true]
    | false => simpa [hl] using hj
  · rintro j f d b hj ⟨hpend, hfill⟩
    simp only [Bool.and_eq_true, Bool.not_eq_true'] at hj
    cases f with
    | pending => cases hj.2.symm.trans (hpend rfl).1
    | _ => simp [Fate.Means, Fate.onEvict]

theorem Awaits.put (hp : s.pc t = .idle) : Awaits (s.put t i) := by
  have hpc : s.pc = update s.pc t .idle := by rw [← hp, update_eq_self]
  refine h.of_busy hp (fun _ _ => nofun) (fun j => ?_) hpc rfl
  change (s.slot j).SameUse ((s.cache.put i).slots j)
  unfold Cache.put
  split_ifs
  · exact sameUse_refl j
  · refine Cache.sameUse_set (c := s.cache) ?_ j
    exact ⟨rfl, rfl, rfl, rfl⟩

end

variable [DecidableEq δ]

theorem Awaits.search_wait {b : Nat} (h : Awaits s) (hp : s.pc t = .getting d b)
    (hf : s.cache.find d b = some i) (hl : (s.slot i).loading = true) :
    Awaits (s.await t (some (i, .pending))) := by
  intro u j f hu
  by_cases hut : u = t
  · subst hut
    simp only [State.await, update_self] at hu
    cases hu
    exact ⟨d, b, hp, fun _ => ⟨hl, (Cache.find_some hf).1⟩, by simp⟩
  · simp only [State.await, update_of_ne hut] at hu
    exact h u j f hu

theorem Awaits.step [Fintype τ] (h : Awaits s) (hg : Good s) (hm : Moved s t a s') : Awaits s' := by
  cases hm with
  | get hp => exact h.of_busy hp (by simp) sameUse_refl rfl rfl
  | waited hp hf hl => exact h.search_wait hp hf hl
  | hit hp hf hl =>
    refine h.of_sameUse (Cache.sameUse_set ⟨rfl, rfl, rfl, rfl⟩) rfl (fun u hu => ?_) ?_
    · exact update_of_ne hu ..
    · exact update_self ..
  | full hp hf hv =>
    refine h.of_sameUse sameUse_refl rfl (fun u hu => ?_) ?_
    · exact update_of_ne hu ..
    · exact update_self ..
  | claim hp hf hv => exact h.claim hv
  | fill hp hb => exact h.fill hp
  | @fail i ok hp hb =>
    have hpart : s.part t i = ⟨s.held t i, true, none, false⟩ := by
      rw [State.part_of_pc hp, Pc.part, beq_self_eq_true]
    exact h.fail hp ((hg.slots i).sole hpart).2.2.1
  | modify hp hh =>
    exact h.of_busy hp (by simp)
      (Cache.sameUse_set ⟨rfl, rfl, rfl, rfl⟩) rfl rfl
  | limit hp => exact h.of_busy hp (by simp) sameUse_refl rfl rfl
  | mark hp =>
    exact h.of_busy hp (by simp)
      (Cache.sameUse_set ⟨rfl, rfl, rfl, rfl⟩) rfl rfl
  | remark hp =>
    exact h.of_busy hp (by simp)
      (Cache.sameUse_set ⟨rfl, rfl, rfl, rfl⟩) rfl rfl
  | sync hp => exact h.of_busy hp (by simp) sameUse_refl rfl rfl
  | skip hp => exact h.of_busy hp (by simp) sameUse_refl rfl rfl
  | begin hp hw hb =>
    exact h.of_busy hp (by simp)
      (Cache.sameUse_set ⟨rfl, rfl, rfl, rfl⟩) rfl rfl
  | finish hp => exact h.of_busy hp (by simp) sameUse_refl rfl rfl
  | transfer hp => exact h.of_busy hp (by simp) sameUse_refl rfl rfl
  | wrote hp hok =>
    exact h.of_busy hp (by simp)
      (Cache.sameUse_set ⟨rfl, rfl, rfl, rfl⟩) rfl rfl
  | flush hp => exact h.of_busy hp (by simp) sameUse_refl rfl rfl
  | invalidate hp => exact h.invalidate hp
  | put hp hh => exact h.put hp

theorem Awaits.search [Fintype τ] (h : Awaits s) (hg : Good s) {f : Fate}
    (hw : s.waits t = some (i, f)) (hm : Moved s t .search s') :
    (f = .pending ∧ s' = s.await t (some (i, .pending))) ∨ (f = .filled ∧ s' = s.hit t i) ∨
      f = .failed ∨ f = .evicted := by
  obtain ⟨d, b, hp, hpend, hfill⟩ := h t i f hw
  -- There is one slot for the block.
  have hfind : (s.slot i).Live → (s.slot i).Keyed d b → s.cache.find d b = some i := by
    intro hl hk
    cases hf : s.cache.find d b with
    | none => exact absurd ⟨hk, hl⟩ (Cache.find_none hf i)
    | some j =>
      obtain ⟨hkj, hlj⟩ := Cache.find_some hf
      rw [hg.unique j i hlj hl (hkj.1.trans hk.1.symm) (hkj.2.trans hk.2.symm)]
  cases f with
  | pending =>
    obtain ⟨hl, hk⟩ := hpend rfl
    have hf := hfind (.inr hl) hk
    refine .inl ⟨rfl, ?_⟩
    rcases hm with _ | ⟨hp', hf', hl'⟩ | ⟨hp', hf', hl'⟩ | ⟨hp', hf', hv'⟩ | ⟨hp', hf', hv'⟩ <;>
      cases hp.symm.trans hp' <;> cases hf.symm.trans hf'
    · rfl
    · cases hl'.symm.trans hl
  | filled =>
    obtain ⟨hv, hk⟩ := hfill rfl
    have hf := hfind (.inl hv) hk
    have hl := (hg.slots i).apart hv
    refine .inr (.inl ⟨rfl, ?_⟩)
    rcases hm with _ | ⟨hp', hf', hl'⟩ | ⟨hp', hf', hl'⟩ | ⟨hp', hf', hv'⟩ | ⟨hp', hf', hv'⟩ <;>
      cases hp.symm.trans hp' <;> cases hf.symm.trans hf'
    · cases hl.symm.trans hl'
    · rfl
  | failed => exact .inr (.inr (.inl rfl))
  | evicted => exact .inr (.inr (.inr rfl))

theorem cache_coherent [Fintype τ] (device : δ → Nat → β) (data : β)
    {l : List (τ × Act δ β)} {s : State τ δ β} (h : Run FitStep (initial device data) l s) :
    (∀ i j d b, (s.slot i).Live → (s.slot j).Live → (s.slot i).Keyed d b →
      (s.slot j).Keyed d b → i = j) ∧
    (∀ i, (s.slot i).refcount = ∑ t, (s.part t i).cost) ∧
    (∀ t a s' i, FitStep s (t, a) s' →
      (s.slot i).loading = true ∨ 0 < (s.slot i).refcount →
      (s'.slot i).bdev = (s.slot i).bdev ∧ (s'.slot i).blockNo = (s.slot i).blockNo) ∧
    ∀ t i f s', s.waits t = some (i, f) → FitStep s (t, .search) s' →
      (f = .pending ∧ s' = s.await t (some (i, .pending))) ∨ (f = .filled ∧ s' = s.hit t i) ∨
        f = .failed ∨ f = .evicted := by
  have hinv : Good s ∧ Awaits s := by
    refine h.invariant (I := fun s => Good s ∧ Awaits s)
      ⟨good_initial device data, awaits_initial device data⟩ ?_
    rintro s ⟨t, a⟩ s' ⟨hg, hw⟩ hs
    exact ⟨hg.step hs.moved, hw.step hg hs.moved⟩
  obtain ⟨hg, hw⟩ := hinv
  refine ⟨fun i j d b hi hj hki hkj => ?_, fun i => (hg.slots i).refs,
    fun t a s' i hs hpin => hs.moved.key hpin, fun t i f s' hwt hs => hw.search hg hwt hs.moved⟩
  exact hg.unique i j hi hj (hki.1.trans hkj.1.symm) (hki.2.trans hkj.2.symm)

-- Task 0 loads block 0 into slot 0 while task 1 waits for it.
def sharedEvents : List (Fin 3 × Act Unit Nat) :=
  [(0, .get () 0), (0, .search), (1, .get () 0), (1, .search), (0, .read true)]

theorem cache_coherent_shared :
    ∃ s : State (Fin 3) Unit Nat, Run FitStep (initial (fun _ _ => 0) 0) sharedEvents s ∧
      (s.slot 0).refcount = ∑ t, (s.part t 0).cost ∧ s.waits 1 = some (0, .filled) ∧
      ∀ s', FitStep s (1, .search) s' → s' = s.hit 1 0 := by
  obtain ⟨s, hs, hw⟩ : ∃ s, sharedEvents.foldlM (fun s e => State.fit s e.1 e.2)
      (initial (fun _ _ => 0) 0) = some s ∧ s.waits 1 = some (0, .filled) := ⟨_, rfl, rfl⟩
  have hrun : Run FitStep (initial (fun _ _ => 0) 0) sharedEvents s := Run.of_foldlM hs
  obtain ⟨-, hrefs, -, hwait⟩ := cache_coherent _ _ hrun
  refine ⟨s, hrun, hrefs 0, hw, fun s' hs' => ?_⟩
  rcases hwait 1 0 .filled s' hw hs' with ⟨hf, -⟩ | ⟨-, he⟩ | hf | hf
  · cases hf
  · exact he
  · cases hf
  · cases hf

-- Task 0 then gives the block up and flushes the cache, and task 2 takes slot 0
-- for block 1.
def evictedEvents : List (Fin 3 × Act Unit Nat) :=
  sharedEvents ++ [(0, .put 0), (0, .flush)] ++ List.replicate 65 (0, .next) ++
    [(0, .invalidate), (2, .get () 1), (2, .search)]

-- What task 1 waits for, and where its next search leaves it.
def waitOutcome (s : State (Fin 3) Unit Nat) : Option (Ix × Fate) × Option (Pc Unit) :=
  (s.waits 1, (s.exec 1 .search).map fun s => s.pc 1)

-- No load fails, and still the get of task 1 does not return slot 0 that the
-- load it waited for has filled: it finds no slot and loads the block again.
theorem waiting_get_reloads :
    ∃ s s' : State (Fin 3) Unit Nat, Run Step (initial (fun _ _ => 0) 0) evictedEvents s ∧
      (1, .search) ∈ evictedEvents ∧ (0, .read true) ∈ evictedEvents ∧
      (∀ t, (t, .read false) ∉ evictedEvents) ∧ s.waits 1 = some (0, .evicted) ∧
      Step s (1, .search) s' ∧ s'.pc 1 = .loading 1 := by
  have hout : ((evictedEvents.foldlM (fun s e => State.exec s e.1 e.2)
      (initial (fun _ _ => 0) 0)).map waitOutcome) = some (some (0, .evicted), some (.loading 1)) := by
    decide +kernel
  obtain ⟨s, hs, hw⟩ := Option.map_eq_some_iff.1 hout
  obtain ⟨hwaits, hnext⟩ := Prod.mk.inj hw
  obtain ⟨s', hs', hpc⟩ := Option.map_eq_some_iff.1 hnext
  exact ⟨s, s', Run.of_foldlM hs, by decide, by decide, by decide, hwaits, hs', hpc⟩

end Jnu.Buffer
