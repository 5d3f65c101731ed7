import Jnu.Buffer.Defs

namespace Jnu.Buffer

open Function

variable {τ δ β : Type} {sent ok : Bool}

-- One task and one slot: its references, whether it loads it, the write it has under way, and whether it
-- changed the data without marking it.
structure Part (δ : Type) where
  held : Nat
  loads : Bool
  writes : Option (δ × Nat × Bool)
  marks : Bool

def Part.free (n : Nat) : Part δ := ⟨n, false, none, false⟩

-- The references of `bufcache` that the task stands for.
def Part.cost (p : Part δ) : Nat := p.held + p.loads.toNat + p.writes.isSome.toNat

def After.marks : After → Ix → Bool
  | .mark i, j => i == j
  | _, _ => false

def Pc.part (n : Nat) : Pc δ → Ix → Part δ
  | .loading i, j => ⟨n, i == j, none, false⟩
  | .marking i, j => ⟨n, false, none, i == j⟩
  | .remarking i, j => ⟨n, false, none, i == j⟩
  | .syncing _ _ after, j => ⟨n, false, none, after.marks j⟩
  | .writing _ i d b sent after, j =>
    ⟨n, false, if i = j then some (d, b, sent) else none, after.marks j⟩
  | _, _ => .free n

theorem After.part_pc (after : After) (n : Nat) (j : Ix) :
    (after.pc : Pc δ).part n j = ⟨n, false, none, after.marks j⟩ := by
  cases after <;> rfl

def State.part (s : State τ δ β) (t : τ) (j : Ix) : Part δ := (s.pc t).part (s.held t j) j

section Parts

variable {s : State τ δ β} {t u : τ} {i : Ix} {dev : Option δ} {n b : Nat} {j : Ix}

theorem State.part_of_pc {p : Pc δ} (hp : s.pc t = p) (j : Ix) : s.part t j = p.part (s.held t j) j := by
  unfold State.part
  rw [hp]

theorem Pc.part_loading_of_ne (h : j ≠ i) : (Pc.loading i : Pc δ).part n j = .free n := by
  simp only [Pc.part, Part.free, beq_eq_false_iff_ne.2 h.symm]

theorem Pc.part_marking_of_ne (h : j ≠ i) : (Pc.marking i : Pc δ).part n j = .free n := by
  simp only [Pc.part, Part.free, beq_eq_false_iff_ne.2 h.symm]

theorem Pc.part_remarking_of_ne (h : j ≠ i) : (Pc.remarking i : Pc δ).part n j = .free n := by
  simp only [Pc.part, Part.free, beq_eq_false_iff_ne.2 h.symm]

theorem Pc.part_writing_of_ne {d : δ} {after : After} (h : j ≠ i) :
    (Pc.writing dev i d b sent after).part n j = ⟨n, false, none, after.marks j⟩ := by
  simp only [Pc.part, if_neg h.symm]

theorem Pc.part_writing_self {d : δ} {after : After} :
    (Pc.writing dev i d b sent after).part n i =
      ⟨n, false, some (d, b, sent), after.marks i⟩ := by
  simp only [Pc.part, if_true]

theorem held_take [DecidableEq τ] (h : u ≠ t ∨ j ≠ i) :
    update s.held t (update (s.held t) i n) u j = s.held u j := by
  by_cases hu : u = t
  · subst hu
    rw [update_self, update_of_ne (h.resolve_left fun h => h rfl)]
  · rw [update_of_ne hu]

end Parts

-- A slot as one task sees it, with what all slots share.
structure View (δ β : Type) where
  device : δ → Nat → β
  content : δ → Nat → β
  dirtyCount : Nat
  slot : Slot δ β
  part : Part δ

def State.view (s : State τ δ β) (t : τ) (i : Ix) : View δ β :=
  ⟨s.device, s.content, s.cache.dirtyCount, s.slot i, s.part t i⟩

variable [DecidableEq δ]

-- What a step can do to the slot it works on. `Missed` are the blocks that the task looks for in vain.
inductive Change (Missed : δ → Nat → Prop) : Act δ β → View δ β → View δ β → Prop
  | same {a v} : Change Missed a v v
  | hit {v n m} (hp : v.part = .free n) (hv : v.slot.valid = true)
      (hl : v.slot.loading = false) :
      Change Missed .search v
        { v with
          slot := { v.slot with refcount := v.slot.refcount + 1, lru := m }
          part := .free (n + 1) }
  | claim {v n d b m} (hp : v.part = .free n) (hs : Cache.Spare v.slot)
      (hf : Missed d b) :
      Change Missed .search v
        { v with
          slot :=
            { v.slot with
              valid := false
              loading := true
              bdev := some d
              blockNo := b
              refcount := 1
              dirty := false
              lru := m }
          part := ⟨n, true, none, false⟩ }
  | fill {v n d} (hp : v.part = ⟨n, true, none, false⟩) (hb : v.slot.bdev = some d) :
      Change Missed (.read true) v
        { v with
          slot :=
            { v.slot with
              data := v.device d v.slot.blockNo
              valid := true
              loading := false }
          part := .free (n + 1) }
  | fail {v n ok} (hp : v.part = ⟨n, true, none, false⟩)
      (hb : ok = true → v.slot.bdev = none) :
      Change Missed (.read ok) v
        { v with
          slot := { v.slot with valid := false, loading := false, refcount := 0 }
          part := .free n }
  | modify {v n i x} (hp : v.part = .free n) (hn : 0 < n) :
      Change Missed (.modify i x) v
        { v with
          slot := { v.slot with data := x }
          content := v.slot.record v.content x
          part := ⟨n, false, none, true⟩ }
  | mark {a v n} (hp : v.part = ⟨n, false, none, true⟩) :
      Change Missed a v
        { v with
          slot := { v.slot with dirty := true }
          dirtyCount := if v.slot.dirty then v.dirtyCount else v.dirtyCount + 1
          part := .free n }
  | begin {v n d m} (hp : v.part = ⟨n, false, none, m⟩) (hv : v.slot.valid = true)
      (hd : v.slot.dirty = true) (hb : v.slot.bdev = some d) :
      Change Missed .next v
        { v with
          slot := { v.slot with refcount := v.slot.refcount + 1 }
          part := ⟨n, false, some (d, v.slot.blockNo, false), m⟩ }
  | sent {v n d b m} (hp : v.part = ⟨n, false, some (d, b, false), m⟩) :
      Change Missed .transfer v
        { v with
          device := write v.device d b v.slot.data
          part := ⟨n, false, some (d, b, true), m⟩ }
  | wrote {v n d b sent m ok} (hp : v.part = ⟨n, false, some (d, b, sent), m⟩)
      (hok : ok = true → sent = true) :
      Change Missed (.wrote ok) v
        { v with
          slot :=
            { v.slot with
              dirty := !ok && v.slot.dirty
              refcount := v.slot.refcount - 1 }
          dirtyCount := if ok && v.slot.dirty then v.dirtyCount - 1 else v.dirtyCount
          part := ⟨n, false, none, m⟩ }
  | put {v n i} (hp : v.part = .free n) (hn : 0 < n) :
      Change Missed (.put i) v
        { v with
          slot :=
            if v.slot.refcount = 0 then v.slot
            else { v.slot with refcount := v.slot.refcount - 1 }
          part := .free (n - 1) }

-- Task `t` is looking for a block that no slot holds or loads.
def State.Missed (s : State τ δ β) (t : τ) (d : δ) (b : Nat) : Prop :=
  s.pc t = .getting d b ∧ s.cache.find d b = none

-- A step of task `t` that works on slot `i` and on nothing else.
structure Local (s : State τ δ β) (t : τ) (a : Act δ β) (i : Ix) (s' : State τ δ β) : Prop where
  slots : ∀ j, j ≠ i → s'.slot j = s.slot j
  parts : ∀ u j, u ≠ t ∨ j ≠ i → s'.part u j = s.part u j
  change : Change (s.Missed t) a (s.view t i) (s'.view t i)
  target : ∀ j x, a = .modify j x → j = i

variable [DecidableEq τ] {s s' : State τ δ β} {t : τ} {a : Act δ β} {i : Ix}
variable {p : Pc δ} {d : δ} {b : Nat} {dev : Option δ} {after : After}

theorem Local.of_same (i : Ix) (ha : ∀ j x, a ≠ .modify j x) (hcache : s'.cache = s.cache)
    (hdevice : s'.device = s.device) (hcontent : s'.content = s.content) (hpc : s'.pc = update s.pc t p)
    (hheld : s'.held = s.held) (hp : ∀ j, p.part (s.held t j) j = s.part t j) : Local s t a i s' := by
  have hpart : ∀ u j, s'.part u j = s.part u j := by
    intro u j
    unfold State.part
    rw [hheld, hpc]
    by_cases hu : u = t
    · rw [hu, update_self]
      exact hp j
    · rw [update_of_ne hu]
  have hslot : ∀ j, s'.slot j = s.slot j := fun j => by unfold State.slot; rw [hcache]
  have hview : s'.view t i = s.view t i := by
    unfold State.view
    rw [hcache, hdevice, hcontent, hslot, hpart]
  exact ⟨fun j _ => hslot j, fun u j _ => hpart u j, hview ▸ .same, fun j x h => absurd h (ha j x)⟩

theorem Local.of_change {v : View δ β} (hc : Change (s.Missed t) a (s.view t i) v)
    (ha : ∀ j x, a = .modify j x → j = i) (hslots : ∀ j, j ≠ i → s'.cache.slots j = s.cache.slots j)
    (hpc : s'.pc = update s.pc t p) (hheld : ∀ u j, u ≠ t ∨ j ≠ i → s'.held u j = s.held u j)
    (hp : ∀ j, j ≠ i → p.part (s.held t j) j = s.part t j) (hv : s'.view t i = v) : Local s t a i s' := by
  refine ⟨hslots, fun u j huj => ?_, hv ▸ hc, ha⟩
  unfold State.part
  rw [hheld u j huj, hpc]
  by_cases hu : u = t
  · subst hu
    rw [update_self]
    exact hp j (huj.resolve_left fun h => h rfl)
  · rw [update_of_ne hu]

theorem Local.hit (hp : s.pc t = .getting d b) (hf : s.cache.find d b = some i)
    (hl : (s.slot i).loading = false) (hr : (s.slot i).refcount + 1 < refLimit) :
    Local s t .search i (s.hit t i) := by
  have hpart := State.part_of_pc hp i
  have hv := (Cache.find_some hf).2.resolve_right fun h => Bool.false_ne_true (hl.symm.trans h)
  refine .of_change (.hit (m := s.cache.clock + 1) hpart hv hl) nofun (fun j hj => s.cache.set_of_ne _ hj) rfl
    (fun u j h => held_take h) (fun j _ => (State.part_of_pc hp j).symm) ?_
  simp only [State.view, State.part, State.slot, State.hit, State.goto, State.await, State.take,
    Cache.hit, Cache.set, update_self]
  rw [Nat.mod_eq_of_lt (show (s.cache.slots i).refcount + 1 < refLimit from hr)]
  rfl

theorem Local.claim (hp : s.pc t = .getting d b) (hf : s.cache.find d b = none)
    (hv : s.cache.pickVictim = some i) : Local s t .search i (s.claim t i d b) := by
  have hpart := State.part_of_pc hp i
  have hs := Cache.pickVictim_some hv
  -- A victim is clean, so that the dirty count stays.
  have hcount : ((s.slot i).valid && (s.slot i).dirty) = false := by
    cases hval : (s.slot i).valid with
    | false => rfl
    | true => exact hs.2.2 hval
  refine .of_change (.claim (d := d) (b := b) (m := s.cache.clock + 1) hpart hs ⟨hp, hf⟩) nofun
    (fun j hj => s.cache.set_of_ne _ hj) rfl (fun _ _ _ => rfl) (fun j hj => ?_) ?_
  · rw [Pc.part_loading_of_ne hj, State.part_of_pc hp j]
    rfl
  unfold State.slot at hcount
  simp only [State.view, State.part, State.slot, State.claim, State.goto, State.await,
    State.meet, Cache.claim, Cache.set, update_self, hcount, Pc.part, beq_self_eq_true]
  rfl

theorem Local.fill (hp : s.pc t = .loading i) (hb : (s.slot i).bdev = some d) :
    Local s t (.read true) i (s.fill t i d) := by
  have hpart : s.part t i = ⟨s.held t i, true, none, false⟩ := by
    rw [State.part_of_pc hp, Pc.part, beq_self_eq_true]
  refine .of_change (.fill hpart hb) nofun (fun j hj => s.cache.set_of_ne _ hj) rfl
    (fun u j h => held_take h) (fun j hj => ?_) ?_
  · rw [State.part_of_pc hp, Pc.part_loading_of_ne hj]
    rfl
  · simp only [State.view, State.part, State.slot, State.fill, State.goto, State.take,
      State.meet, Cache.loaded, Cache.set, update_self]
    rfl

theorem Local.fail (hp : s.pc t = .loading i)
    (hb : ok = true → (s.slot i).bdev = none) : Local s t (.read ok) i (s.fail t i) := by
  have hpart : s.part t i = ⟨s.held t i, true, none, false⟩ := by
    rw [State.part_of_pc hp, Pc.part, beq_self_eq_true]
  refine .of_change (.fail hpart hb) nofun (fun j hj => s.cache.set_of_ne _ hj) rfl
    (fun _ _ _ => rfl) (fun j hj => ?_) ?_
  · rw [State.part_of_pc hp, Pc.part_loading_of_ne hj]
    rfl
  · simp only [State.view, State.part, State.slot, State.fail, State.goto, State.meet,
      Cache.loadFailed, Cache.set, update_self]
    rfl

theorem Local.modify {x : β} (hp : s.pc t = .idle) (hh : 0 < s.held t i) :
    Local s t (.modify i x) i (s.modify t i x) := by
  have hpart := State.part_of_pc hp i
  refine .of_change (.modify hpart hh) (by rintro j x ⟨⟩; rfl) (fun j hj => s.cache.set_of_ne _ hj) rfl
    (fun _ _ _ => rfl) (fun j hj => ?_) ?_
  · rw [Pc.part_marking_of_ne hj, State.part_of_pc hp]
    rfl
  · simp only [State.view, State.part, State.slot, State.modify, State.goto, Cache.set,
      update_self, Pc.part, beq_self_eq_true]

theorem Local.mark (ha : ∀ j x, a ≠ .modify j x) (hp : s.pc t = p) (hm : p = .marking i ∨ p = .remarking i) :
    Local s t a i (s.remark t i) := by
  have hself : p.part (s.held t i) i = ⟨s.held t i, false, none, true⟩ := by
    rcases hm with rfl | rfl <;> simp only [Pc.part, beq_self_eq_true]
  have hother : ∀ j, j ≠ i → p.part (s.held t j) j = .free (s.held t j) := by
    intro j hj
    rcases hm with rfl | rfl
    · exact Pc.part_marking_of_ne hj
    · exact Pc.part_remarking_of_ne hj
  have hpart : s.part t i = ⟨s.held t i, false, none, true⟩ := by
    rw [State.part_of_pc hp, hself]
  refine .of_change (.mark hpart) (fun j x h => absurd h (ha j x)) (fun j hj => s.cache.set_of_ne _ hj) rfl
    (fun _ _ _ => rfl) (fun j hj => ?_) ?_
  · rw [State.part_of_pc hp, hother j hj]
    rfl
  · simp only [State.view, State.part, State.slot, State.remark, State.goto, Cache.mark,
      Cache.set, update_self]
    rfl

theorem Local.begin (hp : s.pc t = .syncing dev (Fin.val i) after)
    (hw : s.cache.doWrite dev i = true) (hb : (s.slot i).bdev = some d)
    (hr : (s.slot i).refcount + 1 < refLimit) : Local s t .next i (s.begin t dev i d after) := by
  have hpart := State.part_of_pc hp i
  simp only [Cache.doWrite, Bool.and_eq_true] at hw
  refine .of_change (.begin hpart hw.1.1 hw.1.2 hb) nofun (fun j hj => s.cache.set_of_ne _ hj) rfl
    (fun _ _ _ => rfl) (fun j hj => ?_) ?_
  · rw [State.part_of_pc hp, Pc.part_writing_of_ne hj]
    rfl
  · simp only [State.view, State.part, State.slot, State.begin, State.goto, Cache.beginWrite,
      Cache.set, update_self, Pc.part_writing_self]
    rw [Nat.mod_eq_of_lt (show (s.cache.slots i).refcount + 1 < refLimit from hr)]

theorem Local.transfer (hp : s.pc t = .writing dev i d b false after) :
    Local s t .transfer i (s.transfer t dev i d b after) := by
  have hpart := (State.part_of_pc hp i).trans Pc.part_writing_self
  refine .of_change (.sent hpart) nofun (fun _ _ => rfl) rfl (fun _ _ _ => rfl) (fun j hj => ?_) ?_
  · rw [State.part_of_pc hp, Pc.part_writing_of_ne hj, Pc.part_writing_of_ne hj]
  · simp only [State.view, State.part, State.slot, State.transfer, State.goto,
      update_self, Pc.part_writing_self]

theorem Local.wrote (hp : s.pc t = .writing dev i d b sent after) (hok : ok = true → sent = true) :
    Local s t (.wrote ok) i (s.wrote t dev i after ok) := by
  have hpart := (State.part_of_pc hp i).trans Pc.part_writing_self
  have hnext : ∀ j, (if ok then .syncing dev (i + 1) after else after.pc : Pc δ).part
      (s.held t j) j = ⟨s.held t j, false, none, after.marks j⟩ := by
    intro j
    cases ok with
    | true => rfl
    | false => exact after.part_pc _ _
  refine .of_change (.wrote hpart hok) nofun (fun j hj => s.cache.set_of_ne _ hj) rfl
    (fun _ _ _ => rfl) (fun j hj => ?_) ?_
  · rw [State.part_of_pc hp, Pc.part_writing_of_ne hj]
    exact hnext j
  · simp only [State.view, State.part, State.slot, State.wrote, State.goto, Cache.endWrite,
      Cache.set, update_self, hnext]
    rfl

theorem Local.put (hp : s.pc t = .idle) (hh : 0 < s.held t i) :
    Local s t (.put i) i (s.put t i) := by
  have hpart := State.part_of_pc hp i
  have hslots : ∀ j, j ≠ i → (s.cache.put i).slots j = s.cache.slots j := by
    intro j hj
    unfold Cache.put
    split_ifs
    · rfl
    · exact s.cache.set_of_ne _ hj
  have hpc : s.pc = update s.pc t .idle := by rw [← hp, update_eq_self]
  refine .of_change (.put hpart hh) nofun hslots hpc (fun u j h => held_take h)
    (fun j _ => (State.part_of_pc hp j).symm) ?_
  simp only [State.view, State.part, State.slot, State.put, State.drop, update_self, hp]
  unfold Cache.put
  split_ifs with hr
  · simp only [Pc.part]
  · simp only [Cache.set, update_self, Pc.part]

theorem Moved.local (h : Moved s t a s') :
    (∃ i, Local s t a i s') ∨ (a = .invalidate ∧ s.pc t = .flushing ∧ s' = s.invalidate t) := by
  cases h with
  | get hp => exact .inl ⟨0, .of_same 0 nofun rfl rfl rfl rfl rfl fun j => (State.part_of_pc hp j).symm⟩
  | @waited d b i hp =>
    have hpc : s.pc = update s.pc t (.getting d b) := by
      rw [← hp, update_eq_self]
    exact .inl ⟨0, .of_same 0 nofun rfl rfl rfl hpc rfl fun j => (State.part_of_pc hp j).symm⟩
  | hit hp hf hl hr => exact .inl ⟨_, .hit hp hf hl hr⟩
  | full hp => exact .inl ⟨0, .of_same 0 nofun rfl rfl rfl rfl rfl fun j => (State.part_of_pc hp j).symm⟩
  | claim hp hf hv => exact .inl ⟨_, .claim hp hf hv⟩
  | fill hp hb => exact .inl ⟨_, .fill hp hb⟩
  | fail hp hb => exact .inl ⟨_, .fail hp hb⟩
  | modify hp hh => exact .inl ⟨_, .modify hp hh⟩
  | limit hp => exact .inl ⟨0, .of_same 0 nofun rfl rfl rfl rfl rfl fun j => (State.part_of_pc hp j).symm⟩
  | mark hp => exact .inl ⟨_, .mark nofun hp (.inl rfl)⟩
  | remark hp => exact .inl ⟨_, .mark nofun hp (.inr rfl)⟩
  | sync hp => exact .inl ⟨0, .of_same 0 nofun rfl rfl rfl rfl rfl fun j => (State.part_of_pc hp j).symm⟩
  | skip hp => exact .inl ⟨0, .of_same 0 nofun rfl rfl rfl rfl rfl fun j => (State.part_of_pc hp j).symm⟩
  | begin hp hw hb hr => exact .inl ⟨_, .begin hp hw hb hr⟩
  | @finish dev k after hp =>
    refine .inl ⟨0, .of_same 0 nofun rfl rfl rfl rfl rfl fun j => ?_⟩
    rw [State.part_of_pc hp, after.part_pc]
    rfl
  | transfer hp => exact .inl ⟨_, .transfer hp⟩
  | wrote hp hok => exact .inl ⟨_, .wrote hp hok⟩
  | flush hp => exact .inl ⟨0, .of_same 0 nofun rfl rfl rfl rfl rfl fun j => (State.part_of_pc hp j).symm⟩
  | invalidate hp => exact .inr ⟨rfl, hp, rfl⟩
  | put hp hh => exact .inl ⟨_, .put hp hh⟩

end Jnu.Buffer
