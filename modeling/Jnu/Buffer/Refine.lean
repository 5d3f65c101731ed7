import Jnu.Buffer.Disk

namespace Jnu.Buffer

open Lib.Trace Lib.Refs
open Function

variable {δ β : Type} {s s' : State Unit δ β} {a : Act δ β} {i j : Ix} {d d' : δ} {n b k : Nat}

theorem held_take_of_ne (hj : j ≠ i) : update s.held () (update (s.held ()) i n) () j = s.held () j := by
  rw [update_self, update_of_ne hj]

theorem Disk.card_dirty (h : Disk s) :
    s.cache.dirtyCount = (Finset.univ.filter fun i => (s.slot i).dirty = true).card := by
  rw [h.count, Finset.card_filter]
  refine Finset.sum_congr rfl fun i _ => ?_
  cases (s.slot i).dirty <;> rfl

structure OneDevice (d : δ) (s : State Unit δ β) : Prop where
  slots : ∀ i, (s.slot i).Live → (s.slot i).bdev = some d
  getting : ∀ d' b, s.pc () = .getting d' b → d' = d
  limit : s.cache.dirtyCount ≤ dirtyLimit

theorem oneDevice_initial (d : δ) (device : δ → Nat → β) (data : β) :
    OneDevice d (initial device data : State Unit δ β) where
  slots := by rintro i (hl | hl) <;> cases hl
  getting := nofun
  limit := Nat.zero_le _

-- After the sync that bufcache_mark_dirty makes over the limit no slot is dirty.
theorem OneDevice.count_zero (h : OneDevice d s) (hs : Solo s)
    (hp : s.pc () = .remarking i) : s.cache.dirtyCount = 0 := by
  have hv : (s.slot i).valid = true := by
    have hm : (s.part () i).marks = true := by rw [State.part_of_pc hp, Pc.part, beq_self_eq_true]
    exact (hs.good.slots i).held () ((hs.good.slots i).marks () hm)
  rw [hs.disk.count]
  refine Finset.sum_eq_zero fun j _ => ?_
  cases hd : (s.slot j).dirty with
  | false => rfl
  | true =>
    have hb := h.slots j (.inl ((hs.good.slots j).dirty hd))
    have hclean := hs.progress.of_pc hp j j.isLt (.inr (hb.trans (h.slots i (.inl hv)).symm))
    cases hclean.symm.trans hd

theorem OneDevice.pickVictim (h : OneDevice d s) (hs : Solo s)
    (href : (Finset.univ.filter fun i => 0 < (s.slot i).refcount).card < 16) :
    s.cache.pickVictim ≠ none := by
  intro hnone
  have hcover : (Finset.univ : Finset Ix) ⊆
      (Finset.univ.filter fun i => 0 < (s.slot i).refcount) ∪
        Finset.univ.filter fun i => (s.slot i).dirty = true := by
    intro j _
    rw [Finset.mem_union, Finset.mem_filter, Finset.mem_filter]
    rcases Cache.pickVictim_none hnone j with hl | hr | hd
    · exact .inl ⟨Finset.mem_univ j, by rw [(hs.good.slots j).alone hl]; decide⟩
    · exact .inl ⟨Finset.mem_univ j, Nat.pos_of_ne_zero hr⟩
    · exact .inr ⟨Finset.mem_univ j, hd⟩
  have hcard := (Finset.card_le_card hcover).trans (Finset.card_union_le _ _)
  rw [Finset.card_univ, Fintype.card_fin, ← hs.disk.card_dirty] at hcard
  have hlimit := h.limit
  unfold dirtyLimit at hlimit
  unfold slotCount at hcard
  omega

variable [DecidableEq δ]

def State.cached (s : State Unit δ β) (d : δ) (b : Nat) : β :=
  match s.cache.find d b with
  | some i => if (s.slot i).valid then (s.slot i).data else s.device d b
  | none => s.device d b

-- The step by which bufcache_get of block `b` of `d` returns slot `i`.
def Returns (s s' : State Unit δ β) (d : δ) (b : Nat) (i : Ix) : Prop :=
  s'.pc () = .idle ∧ s'.held () i = s.held () i + 1 ∧
    (s.pc () = .getting d b ∨ s.pc () = .loading i ∧ (s.slot i).Keyed d b)

theorem Solo.returns (h : Solo s) (h' : Solo s') (hm : Moved s () a s') (hr : Returns s s' d b i) :
    (s'.slot i).valid = true ∧ (s'.slot i).Keyed d b ∧ (s'.slot i).data = s'.content d b := by
  obtain ⟨hidle, hheld, hfrom⟩ := hr
  have hv : (s'.slot i).valid = true := by
    refine (h'.good.slots i).held () ?_
    rw [State.part_of_pc hidle]
    change 0 < s'.held () i
    omega
  refine ⟨hv, ?_⟩
  have hk : (s'.slot i).Keyed d b := by
    rcases hfrom with hp | ⟨hp, hk⟩
    · cases hm with
      | @hit d' b' j hp' hf hl =>
        cases hp.symm.trans hp'
        have hij : i = j := by
          by_contra hij
          have : (s.hit () j).held () i = s.held () i := held_take_of_ne hij
          omega
        subst hij
        change ((s.cache.set i _).slots i).Keyed d b
        rw [s.cache.set_self]
        exact (Cache.find_some hf).1
      | waited hp' hf hl =>
        exact absurd (hidle.symm.trans hp) nofun
      | full hp' hf hv' =>
        change s.held () i = s.held () i + 1 at hheld
        omega
      | claim hp' hf hv' =>
        change s.held () i = s.held () i + 1 at hheld
        omega
      | _ => simp_all
    · have hload : (s.slot i).loading = true := by
        refine (h.good.slots i).loads () ?_
        rw [State.part_of_pc hp, Pc.part, beq_self_eq_true]
      obtain ⟨hb, hn⟩ := hm.key (.inl hload)
      exact ⟨hb.trans hk.1, hn.trans hk.2⟩
  exact ⟨hk, h'.disk.slot i d b hv hk⟩

def Slot.Pinned (x : Slot δ β) : Prop := 0 < x.refcount ∨ x.dirty = true

theorem Solo.key (h : Solo s) (hm : Moved s () a s') (hpin : (s.slot i).Pinned) :
    (s'.slot i).bdev = (s.slot i).bdev ∧ (s'.slot i).blockNo = (s.slot i).blockNo ∧
      ((s.slot i).valid = true → (s'.slot i).valid = true) := by
  by_cases hv : (s.slot i).valid = true
  · obtain ⟨d, hd⟩ := (h.good.slots i).keyed (.inl hv)
    have hk : (s.slot i).Keyed d (s.slot i).blockNo := ⟨hd, rfl⟩
    suffices hkept : (s'.slot i).valid = true ∧ (s'.slot i).Keyed d (s.slot i).blockNo by
      exact ⟨hkept.2.1.trans hd.symm, hkept.2.2, fun _ => hkept.1⟩
    by_contra hlost
    rcases hm.local with ⟨j, hl⟩ | ⟨-, hp, rfl⟩
    · by_cases hij : i = j
      · subst hij
        obtain ⟨hr, hc⟩ := hl.change.evicted h.good.not_valid_of_loads hv hk hlost
        rcases hpin with hpin | hpin
        · exact absurd hr (Nat.pos_iff_ne_zero.1 hpin)
        · cases hc.symm.trans hpin
      · rw [hl.slots i hij] at hlost
        exact hlost ⟨hv, hk⟩
    · rcases hpin with hpin | hpin
      · rw [State.invalidate_slot, Cache.flushed, if_pos] at hlost
        · exact hlost ⟨hv, hk⟩
        · simp only [bne_iff_ne.2 (Nat.pos_iff_ne_zero.1 hpin), Bool.true_or]
      · cases (h.progress.all_clean hp i).symm.trans hpin
  · have hr : 0 < (s.slot i).refcount :=
      hpin.resolve_right fun hd => hv ((h.good.slots i).dirty hd)
    obtain ⟨hb, hn⟩ := hm.key (i := i) (.inr hr)
    exact ⟨hb, hn, fun hv' => absurd hv' hv⟩

theorem Solo.synced (h : Solo s) {dev : Option δ} (hp : s.pc () = .syncing dev k .ret)
    (hk : slotCount ≤ k) (hd : dev = none ∨ dev = some d) (b : Nat) : s.device d b = s.cached d b := by
  unfold State.cached
  cases hf : s.cache.find d b with
  | none => rfl
  | some i =>
    obtain ⟨hkey, -⟩ := Cache.find_some hf
    dsimp only
    split_ifs with hv
    · have hclean : (s.slot i).dirty = false := by
        refine (h.progress.of_pc hp).1 i (i.isLt.trans_le hk) ?_
        rcases hd with hd | hd
        · exact .inl hd
        · exact .inr (hkey.1.trans hd.symm)
      have hmarks : ∀ u, (s.part u i).marks = false := by
        rintro ⟨⟩
        rw [State.part_of_pc hp]
        rfl
      exact ((h.clean i).clean hv hclean hmarks d b hkey).symm
    · rfl

theorem OneDevice.slots_step (h : OneDevice d s) (hs : Solo s) (hm : Moved s () a s')
    (hl : (s'.slot i).Live) : (s'.slot i).bdev = some d := by
  rcases hm.local with ⟨j, hloc⟩ | ⟨-, -, rfl⟩
  · by_cases hij : i = j
    · subst hij
      rcases hloc.change.live ((hs.good.slots i).loads ()) hl with ⟨hl0, hb, -⟩ | ⟨d', b, hmiss, hk⟩
      · exact hb.trans (h.slots i hl0)
      · rw [← h.getting d' b hmiss.1]
        exact hk.1
    · rw [hloc.slots i hij] at hl ⊢
      exact h.slots i hl
  · rw [State.invalidate_slot] at hl ⊢
    have hsame := Slot.flushed_of_live hl
    rw [hsame] at hl ⊢
    exact h.slots i hl

theorem OneDevice.limit_step (h : OneDevice d s) (hs : Solo s) (hm : Moved s () a s') :
    s'.cache.dirtyCount ≤ dirtyLimit := by
  have hlimit := h.limit
  cases hm with
  | claim hp hf hv =>
    change (if _ then _ else _) ≤ dirtyLimit
    split_ifs
    · exact (Nat.sub_le _ 1).trans hlimit
    · exact hlimit
  | @mark i hp ho =>
    change (if (s.slot i).dirty = true then s.cache.dirtyCount else s.cache.dirtyCount + 1) ≤ _
    split_ifs with hd
    · exact hlimit
    have hlt : ¬ dirtyLimit ≤ s.cache.dirtyCount := by
      intro hle
      have hd' : (s.cache.slots i).dirty = false := Bool.eq_false_of_not_eq_true hd
      simp only [Cache.overLimit, hd', decide_eq_true hle] at ho
      cases ho
    omega
  | @remark i hp =>
    change (if (s.slot i).dirty = true then s.cache.dirtyCount else s.cache.dirtyCount + 1) ≤ _
    rw [h.count_zero hs hp]
    split_ifs <;> decide
  | wrote hp hok =>
    change (if _ then _ else _) ≤ dirtyLimit
    split_ifs
    · exact (Nat.sub_le _ 1).trans hlimit
    · exact hlimit
  | invalidate hp =>
    refine le_trans (Eq.le ?_) hlimit
    exact Cache.foldl_invalidateSlot_clean _ s.cache (hs.progress.all_clean hp)
  | @put i hp hh =>
    change (s.cache.put i).dirtyCount ≤ dirtyLimit
    unfold Cache.put
    split_ifs
    · exact hlimit
    · exact hlimit
  | _ => exact hlimit

theorem OneDevice.getting_step (h : OneDevice d s) (hm : Moved s () a s')
    (ha : ∀ d' b, a = .get d' b → d' = d) (hp' : s'.pc () = .getting d' b) : d' = d := by
  cases hm with
  | @get e c hp =>
    change Pc.getting e c = .getting d' b at hp'
    obtain ⟨rfl, rfl⟩ := Pc.getting.inj hp'
    exact ha _ _ rfl
  | waited hp hf hl => exact h.getting d' b hp'
  | @finish dev k after hp hk =>
    change (after.pc : Pc δ) = .getting d' b at hp'
    cases after <;> cases hp'
  | @wrote dev i e c sent after ok hp hok =>
    change (if ok = true then _ else (after.pc : Pc δ)) = .getting d' b at hp'
    cases ok <;> cases after <;> cases hp'
  | put hp hh => cases hp.symm.trans hp'
  | _ => cases hp'

theorem OneDevice.step (h : OneDevice d s) (hs : Solo s) (hm : Moved s () a s')
    (ha : ∀ d' b, a = .get d' b → d' = d) : OneDevice d s' :=
  ⟨fun _ hl => h.slots_step hs hm hl, fun _ _ hp => h.getting_step hm ha hp, h.limit_step hs hm⟩

theorem OneDevice.run {device : δ → Nat → β} {data : β} {l : List (Act δ β)}
    (h : Run SoloStep (initial device data) l s) (hl : ∀ d' b, .get d' b ∈ l → d' = d) :
    OneDevice d s := by
  have hrun : Run (fun s a s' => SoloStep s a s' ∧ ∀ d' b, a = .get d' b → d' = d)
      (initial device data) l s :=
    h.mono fun s a s' hmem hs => ⟨hs, fun d' b he => hl d' b (he ▸ hmem)⟩
  refine (hrun.invariant (I := fun s => Solo s ∧ OneDevice d s)
    ⟨solo_initial device data, oneDevice_initial d device data⟩ ?_).2
  rintro s a s' ⟨hsolo, hone⟩ ⟨hs, ha⟩
  exact ⟨hsolo.step hs, hone.step hsolo hs.2.2.moved ha⟩

-- The buffer cache of one task whose transfers succeed is a disk.
theorem cache_refines_disk (device : δ → Nat → β) (data : β) {l : List (Act δ β)}
    {s : State Unit δ β} (h : Run SoloStep (initial device data) l s) :
    (∀ a s' d b i, SoloStep s a s' → Returns s s' d b i →
      (s'.slot i).valid = true ∧ (s'.slot i).Keyed d b ∧
        (s'.slot i).data = s'.content d b) ∧
    (∀ a s' i, SoloStep s a s' → (s.slot i).Pinned →
      (s'.slot i).bdev = (s.slot i).bdev ∧ (s'.slot i).blockNo = (s.slot i).blockNo ∧
        ((s.slot i).valid = true → (s'.slot i).valid = true)) ∧
    s.cache.dirtyCount = (Finset.univ.filter fun i => (s.slot i).dirty = true).card ∧
    (∀ dev k s' d b, s.pc () = .syncing dev k .ret → SoloStep s .next s' → s'.pc () = .idle →
      dev = none ∨ dev = some d → s'.device d b = s'.cached d b) ∧
    ∀ d, (∀ d' b, .get d' b ∈ l → d' = d) →
      (Finset.univ.filter fun i => (s.slot i).dirty = true).card ≤ 48 ∧
      ((Finset.univ.filter fun i => 0 < (s.slot i).refcount).card < 16 →
        s.cache.pickVictim ≠ none) := by
  have hs := Solo.run h
  refine ⟨fun a s' d b i hst hr => hs.returns (hs.step hst) hst.2.2.moved hr,
    fun a s' i hst hpin => hs.key hst.2.2.moved hpin, hs.disk.card_dirty, ?_, fun d hl => ?_⟩
  · intro dev k s' d b hp hst hidle hd
    cases hst.2.2.moved with
    | skip => cases hidle
    | begin => cases hidle
    | finish hp' hk =>
      cases hp.symm.trans hp'
      exact hs.synced hp hk hd b
  · have hone := OneDevice.run h hl
    refine ⟨?_, hone.pickVictim hs⟩
    rw [← hs.disk.card_dirty]
    exact hone.limit

-- The task writes block 0, drops it and gets it again.
def rereadActs : List (Act Unit Nat) :=
  [.get () 0, .search, .read true, .modify 0 1, .mark, .put 0, .get () 0]

theorem cache_refines_disk_reread :
    ∃ s s' : State Unit Unit Nat, Run SoloStep (initial (fun _ _ => 0) 0) rereadActs s ∧
      SoloStep s .search s' ∧ Returns s s' () 0 0 ∧ s.device () 0 = 0 ∧
      (s'.slot 0).data = 1 := by
  obtain ⟨s, s', hs, hs', hr, hdev, hcont⟩ : ∃ s s' : State Unit Unit Nat,
      rereadActs.foldlM (fun s a => State.fit s () a) (initial (fun _ _ => 0) 0) = some s ∧
      s.fit () .search = some s' ∧ Returns s s' () 0 0 ∧ s.device () 0 = 0 ∧
      s'.content () 0 = 1 :=
    ⟨_, _, rfl, rfl, ⟨rfl, rfl, .inl rfl⟩, rfl, rfl⟩
  have hrun : Run SoloStep (initial (fun _ _ => 0) 0) rereadActs s := by
    have hok : ∀ a ∈ rereadActs, a ≠ .read false ∧ a ≠ .wrote false := by decide
    exact (Run.of_foldlM hs).mono fun s a s' hmem h => ⟨(hok a hmem).1, (hok a hmem).2, h⟩
  have hst : SoloStep s .search s' := ⟨nofun, nofun, hs'⟩
  refine ⟨s, s', hrun, hst, hr, hdev, ?_⟩
  rw [((cache_refines_disk _ _ hrun).1 .search s' () 0 0 hst hr).2.2, hcont]

-- The task has got block 0 `n` times.
def gotten (n : Nat) : State Unit Unit Nat :=
  let s := initial (fun _ _ => 0) 0
  { s with
    cache :=
      { s.cache.set 0
          { s.slot 0 with
            bdev := some (), refcount := n % refLimit, valid := true, lru := n } with
        clock := n }
    held := fun _ => update (fun _ => 0) 0 n }

theorem gotten_get (n : Nat) :
    ∃ s, (gotten n).exec () (.get () 0) = some s ∧ s.exec () .search = some (gotten (n + 1)) := by
  refine ⟨_, rfl, congrArg some ?_⟩
  change (_ : State Unit Unit Nat).hit () 0 = _
  have hn : ((n % refLimit) + 1) % refLimit = (n + 1) % refLimit := Nat.mod_add_mod n _ 1
  simp only [gotten, State.hit, State.goto, State.await, State.take, Cache.hit, Cache.set, update_self,
    update_idem, State.slot, hn]
  rfl

-- The transfers of the task succeed.
def LuckyStep (s : State Unit δ β) (a : Act δ β) (s' : State Unit δ β) : Prop :=
  a ≠ .read false ∧ a ≠ .wrote false ∧ Step s ((), a) s'

theorem luckyRun_of {s s' : State Unit Unit Nat} {l : List (Act Unit Nat)}
    (hl : ∀ a ∈ l, a ≠ .read false ∧ a ≠ .wrote false)
    (h : l.foldlM (fun s a => State.exec s () a) s = some s') : Run LuckyStep s l s' :=
  (Run.of_foldlM h).mono fun _ a _ ha hs => ⟨(hl a ha).1, (hl a ha).2, hs⟩

theorem gotten_run (n k : Nat) :
    Run LuckyStep (gotten k) (List.replicate n [.get () 0, .search]).flatten (gotten (k + n)) := by
  induction n generalizing k with
  | zero => exact .nil
  | succ n ih =>
    obtain ⟨s, hget, hsearch⟩ := gotten_get k
    have hrest := ih (k + 1)
    rw [Nat.add_right_comm] at hrest
    rw [List.replicate_succ, List.flatten_cons]
    exact (luckyRun_of (by decide) (by simp [hget, hsearch])).append hrest

-- The task gets block 0 so often that the count is 0 again, and then drops the cache and gets block 1.
def wrapActs : List (Act Unit Nat) :=
  [.get () 0, .search, .read true] ++ (List.replicate (2 ^ 32 - 1) [.get () 0, .search]).flatten ++
    .flush :: List.replicate 65 .next

-- A slot's key, its count and the references to it.
def State.use (s : State Unit Unit Nat) (i : Ix) : Option Unit × Nat × Nat × Nat :=
  ((s.slot i).bdev, (s.slot i).blockNo, (s.slot i).refcount, s.held () i)

theorem held_slot_reassigned : ∃ s s' : State Unit Unit Nat,
    Run LuckyStep (initial (fun _ _ => 0) 0) wrapActs s ∧
      Run LuckyStep s [.invalidate, .get () 1, .search] s' ∧
      s.use 0 = (some (), 0, 0, 2 ^ 32) ∧ s'.use 0 = (some (), 1, 1, 2 ^ 32) := by
  have hload : Run LuckyStep (initial (fun _ _ => 0) 0) [.get () 0, .search, .read true] (gotten 1) := by
    refine luckyRun_of (by decide) (congrArg some ?_)
    change (State.claim _ () 0 () 0).fill () 0 () = _
    simp only [gotten, State.fill, State.claim, State.goto, State.await, State.meet, State.take,
      Cache.claim, Cache.loaded, Cache.set, update_self, update_idem, State.slot]
    rfl
  have hend : (((.flush :: List.replicate 65 .next).foldlM (fun s a => State.exec s () a)
      (gotten (2 ^ 32))).bind fun s => ([.invalidate, .get () 1, .search].foldlM
        (fun s a => State.exec s () a) s).map fun s' => (s.use 0, s'.use 0)) =
      some ((some (), 0, 0, 2 ^ 32), (some (), 1, 1, 2 ^ 32)) := by
    decide +kernel
  obtain ⟨s, hs, hrest⟩ := Option.bind_eq_some_iff.1 hend
  obtain ⟨s', hs', huse⟩ := Option.map_eq_some_iff.1 hrest
  obtain ⟨huse, huse'⟩ := Prod.mk.inj huse
  refine ⟨s, s', (hload.append ?_).append (luckyRun_of (by decide) hs), luckyRun_of (by decide) hs', huse,
    huse'⟩
  exact gotten_run (2 ^ 32 - 1) 1

end Jnu.Buffer
