import Jnu.Buffer.Unique

namespace Jnu.Buffer

open Lib.Trace
open Function

variable {τ δ β : Type} {n b : Nat} {d : δ} {N : δ → Nat → Prop}

-- A clean slot that nobody has changed has what the device has, and so has one whose bytes have gone to the
-- device.
structure SlotClean (f : δ → Nat → β) (x : Slot δ β) (p : τ → Part δ) : Prop where
  clean : x.valid = true → x.dirty = false → (∀ t, (p t).marks = false) →
    ∀ d b, x.Keyed d b → x.data = f d b
  sent : ∀ t d b, (p t).writes = some (d, b, true) → x.data = f d b

section Slots

variable [DecidableEq τ] {f : δ → Nat → β} {x y : Slot δ β} {p : τ → Part δ} {q : Part δ} {t : τ}
  {a : Act δ β} {v v' : View δ β}

theorem SlotClean.sent_update (h : SlotClean f x p) (hdata : y.data = x.data)
    (hq : ∀ d b, q.writes ≠ some (d, b, true)) :
    ∀ u d b, (update p t q u).writes = some (d, b, true) → y.data = f d b := by
  rw [forall_update_iff p
    (p := fun _ r => ∀ d b, r.writes = some (d, b, true) → y.data = f d b)]
  exact ⟨fun d b hw => absurd hw (hq d b), fun u _ d b hw => hdata.trans (h.sent u d b hw)⟩

theorem marks_of_update (hq : q.marks = (p t).marks)
    (h : ∀ u, (update p t q u).marks = false) (u : τ) : (p u).marks = false := by
  have hu := h u
  by_cases hut : u = t
  · rwa [hut, update_self, hq, ← hut] at hu
  · rwa [update_of_ne hut] at hu

theorem SlotClean.keep (h : SlotClean f x p) (hdata : y.data = x.data)
    (hvalid : y.valid = x.valid) (hdirty : y.dirty = x.dirty) (hbdev : y.bdev = x.bdev)
    (hblock : y.blockNo = x.blockNo) (hmarks : q.marks = (p t).marks)
    (hq : ∀ d b, q.writes ≠ some (d, b, true)) : SlotClean f y (update p t q) where
  clean := by
    intro hv hd hm d b hk
    rw [hdata]
    exact h.clean (hvalid.symm.trans hv) (hdirty.symm.trans hd) (marks_of_update hmarks hm) d b
      ⟨hbdev.symm.trans hk.1, hblock.symm.trans hk.2⟩
  sent := h.sent_update hdata hq

theorem SlotClean.of_sole (hu : ∀ u, u ≠ t → (p u).Idle) (hq : q.writes = none)
    (hclean : y.valid = true → ∀ d b, y.Keyed d b → y.data = f d b) : SlotClean f y (update p t q) where
  clean := fun hv _ _ => hclean hv
  sent := by
    rw [forall_update_iff p
      (p := fun _ r => ∀ d b, r.writes = some (d, b, true) → y.data = f d b)]
    constructor
    · intro d b hw
      cases hq.symm.trans hw
    · intro u hne d b hw
      cases (hu u hne).2.2.1.symm.trans hw

variable [DecidableEq δ]

theorem SlotClean.transfer {m : Bool} [Fintype τ] (hg : SlotGood x p)
    (ht : p t = ⟨n, false, some (d, b, false), m⟩) :
    SlotClean (write f d b x.data) x
      (update p t ⟨n, false, some (d, b, true), m⟩) := by
  obtain ⟨-, hk⟩ := hg.writes t d b false (by rw [ht])
  have hself : ∀ d' b', x.Keyed d' b' → x.data = write f d b x.data d' b' := by
    intro d' b' hk'
    cases Option.some.inj (hk.1.symm.trans hk'.1)
    cases hk.2.symm.trans hk'.2
    exact (write_self f d b x.data).symm
  refine ⟨fun _ _ _ => hself, ?_⟩
  rw [forall_update_iff p
    (p := fun _ r => ∀ d' b', r.writes = some (d', b', true) → x.data = write f d b x.data d' b')]
  constructor
  · rintro d' b' ⟨⟩
    exact hself d b hk
  · intro u _ d' b' hw
    exact hself d' b' (hg.writes u d' b' true hw).2

theorem SlotClean.change [Fintype τ] (hg : SlotGood v.slot p) (h : SlotClean v.device v.slot p)
    (ht : v.part = p t) (hc : Change N a v v') (hcalm : ∀ i x, a = .modify i x → ∀ u, (p u).writes = none) :
    SlotClean v'.device v'.slot (update p t v'.part) := by
  cases hc with
  | same =>
    rw [ht, update_eq_self]
    exact h
  | hit hp hv hl => exact h.keep rfl rfl rfl rfl rfl (by rw [← ht, hp]; rfl) nofun
  | claim hp hs hf => exact .of_sole (fun u _ => hg.unused hs.2.1 u) rfl nofun
  | @fill _ n d hp hb =>
    refine .of_sole (hg.sole (ht.symm.trans hp)).2.2.2 rfl ?_
    rintro - d' b' ⟨hd', rfl⟩
    cases Option.some.inj (hb.symm.trans hd')
    rfl
  | fail hp hb => exact .of_sole (hg.sole (ht.symm.trans hp)).2.2.2 rfl nofun
  | @modify _ n i x hp hn =>
    constructor
    · intro _ _ hm
      have := hm t
      rw [update_self] at this
      cases this
    · rw [forall_update_iff p
        (p := fun _ r => ∀ d b, r.writes = some (d, b, true) → x = v.device d b)]
      refine ⟨nofun, fun u _ d b hw => ?_⟩
      cases (hcalm i x rfl u).symm.trans hw
  | mark hp => exact ⟨fun _ => nofun, h.sent_update rfl nofun⟩
  | begin hp hv hd hb => exact h.keep rfl rfl rfl rfl rfl (by rw [← ht, hp]) nofun
  | sent hp => exact .transfer hg (ht.symm.trans hp)
  | @wrote _ n d b sent m ok hp hok =>
    cases ok with
    | false => exact h.keep rfl rfl rfl rfl rfl (by rw [← ht, hp]) nofun
    | true =>
      have hpt := ht.symm.trans hp
      cases hok rfl
      have hdata := h.sent t d b (by rw [hpt])
      obtain ⟨-, hk⟩ := hg.writes t d b true (by rw [hpt])
      refine ⟨fun _ _ _ d' b' hk' => ?_, h.sent_update rfl nofun⟩
      cases Option.some.inj (hk.1.symm.trans hk'.1)
      cases hk.2.symm.trans hk'.2
      exact hdata
  | @put _ n i hp hn =>
    have hmarks : (Part.free (n - 1) : Part δ).marks = (p t).marks := by rw [← ht, hp]; rfl
    split_ifs
    · exact h.keep rfl rfl rfl rfl rfl hmarks nofun
    · exact h.keep rfl rfl rfl rfl rfl hmarks nofun

end Slots

variable {s s' : State τ δ β} {t : τ} {a : Act δ β} {i : Ix} {v v' : View δ β}

def Clean (s : State τ δ β) : Prop := ∀ i, SlotClean s.device (s.slot i) fun t => s.part t i

theorem clean_initial (device : δ → Nat → β) (data : β) : Clean (initial device data : State τ δ β) :=
  fun _ => ⟨nofun, nofun⟩

-- A bufcache_sync is writing slot `i`: it has decided to, and block_write has
-- not come back.
def State.Writing (s : State τ δ β) (i : Ix) : Prop := ∃ t, (s.part t i).writes ≠ none

-- A buffer is not modified while its slot is being written.
def Calm (s : State τ δ β) (a : Act δ β) : Prop := ∀ i x, a = .modify i x → ¬ s.Writing i

variable [DecidableEq δ]

theorem Change.device (hc : Change N a v v') :
    v'.device = v.device ∨
      ∃ d b, v.part.writes = some (d, b, false) ∧ v'.device = write v.device d b v.slot.data := by
  cases hc with
  | sent hp => exact .inr ⟨_, _, by rw [hp], rfl⟩
  | _ => exact .inl rfl

theorem Local.device_of_not_keyed [Fintype τ] (hg : Good s) (hl : Local s t a i s')
    (hk : (s.slot i).valid = true → ¬ (s.slot i).Keyed d b) :
    s'.device d b = s.device d b := by
  rcases hl.change.device with he | ⟨d', b', hw, he⟩
  · exact congrFun (congrFun he d) b
  obtain ⟨hv, hki⟩ := (hg.slots i).writes t d' b' false hw
  refine (congrFun (congrFun he d) b).trans (write_of_ne _ _ ?_)
  rintro ⟨rfl, rfl⟩
  exact hk hv hki

variable [DecidableEq τ] [Fintype τ]

theorem Clean.local (h : Clean s) (hg : Good s) (hl : Local s t a i s')
    (hcalm : ∀ i x, a = .modify i x → ∀ u, (s.part u i).writes = none) : Clean s' := by
  intro j
  by_cases hj : j = i
  · subst hj
    rw [hl.part_update]
    refine (h j).change (v := s.view t j) (hg.slots j) rfl hl.change ?_
    intro k x ha u
    rw [← hl.target k x ha]
    exact hcalm k x ha u
  rw [hl.slots j hj]
  have hparts : (fun u => s'.part u j) = fun u => s.part u j :=
    funext fun u => hl.parts u j (.inr hj)
  rw [hparts]
  constructor
  · intro hv hd hm d b hk
    rw [hl.device_of_not_keyed hg fun hvi => hg.not_keyed hj (.inl hv) hk (.inl hvi)]
    exact (h j).clean hv hd hm d b hk
  · intro u d b hw
    obtain ⟨hv, hk⟩ := (hg.slots j).writes u d b true hw
    rw [hl.device_of_not_keyed hg fun hvi => hg.not_keyed hj (.inl hv) hk (.inl hvi)]
    exact (h j).sent u d b hw

omit [DecidableEq δ] [Fintype τ] in
theorem Clean.invalidate (h : Clean s) (hp : s.pc t = .flushing) : Clean (s.invalidate t) := by
  intro j
  have hparts : (fun u => (s.invalidate t).part u j) = fun u => s.part u j :=
    funext fun u => State.invalidate_part hp u j
  rw [hparts, State.invalidate_slot]
  have hdata : (Cache.flushed (s.slot j)).data = (s.slot j).data := by
    unfold Cache.flushed
    split_ifs <;> rfl
  refine ⟨?_, fun u d b hw => hdata.trans ((h j).sent u d b hw)⟩
  unfold Cache.flushed
  split_ifs
  · exact (h j).clean
  · exact nofun

theorem Clean.step (h : Clean s) (hg : Good s) (hm : Moved s t a s') (hcalm : Calm s a) : Clean s' := by
  rcases hm.local with ⟨i, hl⟩ | ⟨-, hp, rfl⟩
  · refine h.local hg hl fun k x ha u => ?_
    by_contra hw
    exact hcalm k x ha ⟨u, hw⟩
  · exact h.invalidate hp

theorem Change.evicted (hc : Change N a v v') (hload : v.part.loads = true → v.slot.valid = false)
    (hv : v.slot.valid = true) (hk : v.slot.Keyed d b)
    (hlost : ¬ (v'.slot.valid = true ∧ v'.slot.Keyed d b)) :
    v.slot.refcount = 0 ∧ v.slot.dirty = false := by
  cases hc with
  | claim hp hs hf => exact ⟨hs.2.1, hs.2.2 hv⟩
  | fill hp hb => cases (hload (by rw [hp])).symm.trans hv
  | fail hp hb => cases (hload (by rw [hp])).symm.trans hv
  | put hp hn =>
    refine absurd ⟨?_, ?_⟩ hlost
    · split_ifs <;> exact hv
    · split_ifs <;> exact hk
  | _ => exact absurd ⟨hv, hk⟩ hlost

-- No buffer is modified while a sync writes it, no task drops the cache, and no
-- count of references wraps.
def CalmStep (s : State τ δ β) (e : τ × Act δ β) (s' : State τ δ β) : Prop :=
  e.2 ≠ .invalidate ∧ Calm s e.2 ∧ FitStep s e s'

theorem writeback_kept (device : δ → Nat → β) (data : β) {l : List (τ × Act δ β)}
    {s : State τ δ β} (h : Run CalmStep (initial device data) l s) :
    (∀ i d b, (s.slot i).valid = true → (s.slot i).dirty = false →
      (∀ t, (s.part t i).marks = false) → (s.slot i).Keyed d b →
      (s.slot i).data = s.device d b) ∧
    ∀ e s' i d b, CalmStep s e s' → (s.slot i).valid = true → (s.slot i).Keyed d b →
      ¬ ((s'.slot i).valid = true ∧ (s'.slot i).Keyed d b) →
      (s.slot i).data = s.device d b := by
  have hinv : Good s ∧ Clean s := by
    refine h.invariant (I := fun s => Good s ∧ Clean s)
      ⟨good_initial device data, clean_initial device data⟩ ?_
    rintro s ⟨t, a⟩ s' ⟨hg, hc⟩ ⟨-, hcalm, hs⟩
    exact ⟨hg.step hs.moved, hc.step hg hs.moved hcalm⟩
  obtain ⟨hg, hc⟩ := hinv
  refine ⟨fun i d b hv hd hm hk => (hc i).clean hv hd hm d b hk, ?_⟩
  rintro ⟨t, a⟩ s' i d b ⟨hinval, -, hs⟩ hv hk hlost
  rcases hs.moved.local with ⟨j, hl⟩ | ⟨ha, -, -⟩
  · by_cases hij : i = j
    · subst hij
      obtain ⟨hr, hd⟩ := hl.change.evicted hg.not_valid_of_loads hv hk hlost
      exact (hc i).clean hv hd (fun u => ((hg.slots i).unused hr u).2.2.2) d b hk
    · rw [hl.slots i hij] at hlost
      exact absurd ⟨hv, hk⟩ hlost
  · exact absurd ha hinval

-- The steps that are calm whatever the others do.
def Act.spares : Act δ β → Bool
  | .modify _ _ => false
  | .invalidate => false
  | _ => true

omit [Fintype τ] in
theorem calmStep_of {e : τ × Act δ β} (he : e.2.spares = true) (hs : FitStep s e s') :
    CalmStep s e s' := by
  refine ⟨fun h => ?_, fun i x h => ?_, hs⟩
  · rw [h] at he
    cases he
  · rw [h] at he
    cases he

-- Task 0 gets block 0, modifies it and marks it, and task 1 syncs it.
def loadEvents : List (Fin 2 × Act Unit Nat) := [(0, .get () 0), (0, .search), (0, .read true)]

def syncEvents : List (Fin 2 × Act Unit Nat) :=
  [(0, .mark), (1, .sync (some ())), (1, .next), (1, .transfer)]

def writtenEvents : List (Fin 2 × Act Unit Nat) := syncEvents ++ [(1, .wrote true)]

theorem writeback_kept_synced :
    ∃ s : State (Fin 2) Unit Nat, Run CalmStep (initial (fun _ _ => 0) 0)
        (loadEvents ++ (0, .modify 0 1) :: writtenEvents) s ∧
      (s.slot 0).valid = true ∧ (s.slot 0).dirty = false ∧ (s.slot 0).data = s.device () 0 := by
  obtain ⟨s1, s2, s, h1, hcalm, h2, h3, hv, hd, hm, hk⟩ : ∃ s1 s2 s : State (Fin 2) Unit Nat,
      loadEvents.foldlM (fun s e => State.fit s e.1 e.2) (initial (fun _ _ => 0) 0) = some s1 ∧
      (∀ u, (s1.part u 0).writes = none) ∧ State.fit s1 0 (.modify 0 1) = some s2 ∧
      writtenEvents.foldlM (fun s e => State.fit s e.1 e.2) s2 = some s ∧
      (s.slot 0).valid = true ∧ (s.slot 0).dirty = false ∧ (∀ t, (s.part t 0).marks = false) ∧
      (s.slot 0).Keyed () 0 :=
    ⟨_, _, _, rfl, by decide, rfl, rfl, rfl, rfl, by decide, ⟨rfl, rfl⟩⟩
  have hload : Run CalmStep (initial (fun _ _ => 0) 0) loadEvents s1 := by
    have hspares : ∀ e ∈ loadEvents, e.2.spares = true := by decide
    exact (Run.of_foldlM h1).mono fun s e s' he hs => calmStep_of (hspares e he) hs
  have hmod : CalmStep s1 (0, .modify 0 1) s2 := by
    refine ⟨nofun, ?_, h2⟩
    rintro i x ⟨⟩ ⟨u, hu⟩
    exact hu (hcalm u)
  have hsync : Run CalmStep s2 writtenEvents s := by
    have hspares : ∀ e ∈ writtenEvents, e.2.spares = true := by decide
    exact (Run.of_foldlM h3).mono fun s e s' he hs => calmStep_of (hspares e he) hs
  have hrun := hload.append (.cons hmod hsync)
  exact ⟨s, hrun, hv, hd, (writeback_kept _ _ hrun).1 0 () 0 hv hd hm hk⟩

-- Task 0 modifies the buffer while the write is on its way back. The slot is dirty still, and the sync then
-- clears the flag.
def lostEvents : List (Fin 2 × Act Unit Nat) :=
  loadEvents ++ (0, .modify 0 1) :: syncEvents ++
    [(0, .modify 0 2), (0, .mark), (1, .wrote true)]

theorem writeback_lost :
    ∃ s : State (Fin 2) Unit Nat, Run Step (initial (fun _ _ => 0) 0) lostEvents s ∧
      (s.slot 0).valid = true ∧ (s.slot 0).dirty = false ∧
      (∀ t, (s.part t 0).marks = false) ∧ (s.slot 0).Keyed () 0 ∧
      (s.slot 0).data = 2 ∧ s.device () 0 = 1 := by
  have hs : lostEvents.foldlM (fun s e => State.exec s e.1 e.2) (initial (fun _ _ => 0) 0) = some _ := rfl
  exact ⟨_, Run.of_foldlM hs, rfl, rfl, by decide, ⟨rfl, rfl⟩, rfl, rfl⟩

end Jnu.Buffer
