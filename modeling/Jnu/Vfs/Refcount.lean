import Jnu.Lib.Refs
import Jnu.Vfs.Owned

namespace Jnu.Vfs.Inodes

open Lib.Trace Lib.Refs Minix
open Function

variable {τ : Type} {hash : Nat → Nat → Nat} {s s' s1 : State τ} {t : τ} {n a : Nat}
  {covered : Option (Nat × Nat)} {R T : Multiset Nat} {w : Option Nat}
variable {o c i : Nat} {p k : Prog}

theorem State.setRefcount_bucket (p n o : Nat) : (s.setRefcount p n).bucket hash o = s.bucket hash o := by
  unfold State.bucket State.setRefcount
  grind

theorem State.setRefcount_sameKey (p n o q : Nat) : (s.setRefcount p n).SameKey o q ↔ s.SameKey o q := by
  unfold State.SameKey State.setRefcount
  grind

theorem State.setRefcount_inode (p n o : Nat) :
    ((s.setRefcount p n).inode o).refcount = if o = p then n else (s.inode o).refcount := by
  unfold State.setRefcount
  grind

theorem State.freeSlot_spec {covered : Nat × Nat} (h : s.freeSlot covered = some i) :
    i < vfsMountMax ∧ (s.mounts i).used = false := by
  unfold State.freeSlot at h
  split_ifs at h
  have hmem := List.mem_of_find?_eq_some h
  have hp := List.find?_some h
  simp only [decide_eq_true_eq] at hp
  exact ⟨List.mem_range.1 hmem, hp.2⟩

def Mountpoint.pins (m : Mountpoint) (o : Nat) : Nat := if m.used ∧ m.root = some o then 1 else 0

def State.pins (s : State τ) (o : Nat) : Nat :=
  ∑ i ∈ Finset.range vfsMountMax, (s.mounts i).pins o

theorem State.pins_setMount {m : Mountpoint} (hi : i < vfsMountMax) (hu : (s.mounts i).used = false)
    (o : Nat) : (s.setMount i m).pins o = s.pins o + m.pins o := by
  have hmem := Finset.mem_range.2 hi
  have hzero : (s.mounts i).pins o = 0 := by
    unfold Mountpoint.pins
    rw [if_neg]
    rintro ⟨h, -⟩
    cases hu.symm.trans h
  have h := sum_shift (f := fun j => (s.mounts j).pins o) (g := fun j => ((s.setMount i m).mounts j).pins o)
    hmem fun j _ hj => by simp only [State.setMount, update_of_ne hj]
  have hself : ((s.setMount i m).mounts i).pins o = m.pins o := by
    simp only [State.setMount, update_self]
  unfold State.pins
  omega

variable [Fintype τ]

-- How many of the tasks' references or inodes in hand are to inode `o`.
def total (f : τ → Multiset Nat) (o : Nat) : Nat := ∑ t, (f t).count o

-- The counts, the place of every inode, and one cached inode for each key, in its bucket.
structure Core (hash : Nat → Nat → Nat) (s : State τ) : Prop where
  refs : ∀ o, (s.inode o).refcount = total s.refs o + s.handles.count o + s.pins o
  place : ∀ o, (s.icache (s.bucket hash o)).count o + total s.temps o + s.closes o =
    if o < s.next then 1 else 0
  live : ∀ o, 0 < (s.inode o).refcount ↔ o ∈ s.icache (s.bucket hash o)
  home : ∀ h o, o ∈ s.icache h → s.bucket hash o = h
  unique : ∀ o p, 0 < (s.inode o).refcount → 0 < (s.inode p).refcount → s.SameKey o p → o = p

theorem core_initial : Core hash (initial : State τ) where
  refs := fun o => by
    simp [initial, total, State.pins, Mountpoint.pins]
  place := fun o => by simp [initial, total]
  live := fun o => by simp [initial]
  home := fun h o ho => by simp [initial] at ho
  unique := fun o p ho => by simp [initial] at ho

theorem Core.of_temp (h : Core hash s) (ho : 0 < total s.temps o) :
    o < s.next ∧ total s.temps o = 1 ∧ s.closes o = 0 ∧ (s.inode o).refcount = 0 := by
  have hp := h.place o
  have hlt : o < s.next := by
    by_contra hlt
    rw [if_neg hlt] at hp
    omega
  rw [if_pos hlt] at hp
  have hr : ¬ 0 < (s.inode o).refcount := by
    rw [h.live, ← List.count_pos_iff]
    omega
  exact ⟨hlt, by omega, by omega, by omega⟩

theorem Core.of_next (h : Core hash s) (ho : s.next ≤ o) :
    (∀ b, o ∉ s.icache b) ∧ total s.temps o = 0 ∧ s.closes o = 0 ∧ (s.inode o).refcount = 0 := by
  have hp := h.place o
  rw [if_neg (by omega)] at hp
  have hout : o ∉ s.icache (s.bucket hash o) := by
    rw [← List.count_pos_iff]
    omega
  refine ⟨fun b hb => ?_, by omega, by omega, ?_⟩
  · rw [← h.home b o hb] at hb
    exact hout hb
  · have := (h.live o).not.2 hout
    omega

theorem Core.of_cached (h : Core hash s) (ho : 0 < (s.inode o).refcount) :
    (s.icache (s.bucket hash o)).count o = 1 ∧ total s.temps o = 0 ∧ s.closes o = 0 ∧ o < s.next := by
  have hc := List.count_pos_iff.2 ((h.live o).1 ho)
  have hp := h.place o
  have hlt : o < s.next := by
    by_contra hlt
    rw [if_neg hlt] at hp
    omega
  rw [if_pos hlt] at hp
  exact ⟨by omega, by omega, by omega, hlt⟩

-- A step that is about one inode.
theorem Core.of_change (h : Core hash s) (c : Nat) (hinode : ∀ o, o ≠ c → s'.inode o = s.inode o)
    (hcache : ∀ b o, o ≠ c → (s'.icache b).count o = (s.icache b).count o)
    (hnext : ∀ o, o ≠ c → (o < s'.next ↔ o < s.next))
    (hrefs : ∀ o, o ≠ c → total s'.refs o + s'.handles.count o + s'.pins o =
      total s.refs o + s.handles.count o + s.pins o)
    (htemps : ∀ o, o ≠ c → total s'.temps o + s'.closes o = total s.temps o + s.closes o)
    (hcount : (s'.inode c).refcount = total s'.refs c + s'.handles.count c + s'.pins c)
    (hplace : (s'.icache (s'.bucket hash c)).count c + total s'.temps c + s'.closes c =
      if c < s'.next then 1 else 0)
    (hlive : 0 < (s'.inode c).refcount ↔ c ∈ s'.icache (s'.bucket hash c))
    (hhome : ∀ b, c ∈ s'.icache b → s'.bucket hash c = b)
    (hunique : 0 < (s'.inode c).refcount → ∀ o, o ≠ c → 0 < (s.inode o).refcount → ¬ s'.SameKey c o) :
    Core hash s' := by
  have hbucket : ∀ o, o ≠ c → s'.bucket hash o = s.bucket hash o := by
    intro o ho
    unfold State.bucket
    rw [hinode o ho]
  have hmem : ∀ b o, o ≠ c → (o ∈ s'.icache b ↔ o ∈ s.icache b) := by
    intro b o ho
    rw [← List.count_pos_iff, hcache b o ho, List.count_pos_iff]
  obtain ⟨h1, h2, h3, h4, h5⟩ := h
  constructor
  all_goals simp only [State.SameKey] at *
  all_goals grind

theorem Core.of_count {p : Nat} (h : Core hash s) (hp : 0 < (s.inode p).refcount) (hn : 0 < n)
    (hinode : s'.inode = (s.setRefcount p n).inode) (hnext : s'.next = s.next)
    (hicache : s'.icache = s.icache) (htemps : s'.temps = s.temps) (hcloses : s'.closes = s.closes)
    (hrefs : ∀ o, total s'.refs o + s'.handles.count o + s'.pins o + (s.inode o).refcount =
      total s.refs o + s.handles.count o + s.pins o + if o = p then n else (s.inode o).refcount) :
    Core hash s' := by
  have hbucket : s'.bucket hash p = s.bucket hash p := by
    rw [← State.setRefcount_bucket (s := s) p n p]
    unfold State.bucket
    rw [hinode]
  have hself : (s'.inode p).refcount = n := by
    rw [hinode, State.setRefcount_inode, if_pos rfl]
  refine h.of_change p (fun o ho => ?_) (fun b o _ => by rw [hicache]) (fun o _ => by rw [hnext])
    (fun o ho => ?_)
    (fun o _ => by rw [htemps, hcloses]) ?_ ?_ ?_ (fun b hb => ?_) fun _ o ho hpos hsame => ?_
  · rw [hinode]
    exact update_of_ne ho ..
  · grind
  · have h2 := h.refs p
    grind
  · rw [hbucket, hicache, htemps, hcloses, hnext]
    exact h.place p
  · rw [hself, hbucket, hicache, ← h.live]
    exact ⟨fun _ => hp, fun _ => hn⟩
  · rw [hbucket]
    exact h.home b p (hicache ▸ hb)
  · have hkey : (s.setRefcount p n).SameKey p o := by
      unfold State.SameKey at hsame ⊢
      rwa [hinode] at hsame
    exact ho (h.unique p o hp hpos ((State.setRefcount_sameKey p n p o).1 hkey)).symm

theorem Core.not_found (h : Core hash s) {p : Nat} (hf : s.findCached hash c = none)
    (hp : 0 < (s.inode p).refcount) : ¬ s.SameKey c p := by
  intro hkey
  have hmem := (h.live p).1 hp
  have hb : s.bucket hash p = s.bucket hash c := by
    unfold State.bucket
    rw [hkey.1, hkey.2]
  rw [hb] at hmem
  have := List.find?_eq_none.1 hf p hmem
  simp only [decide_eq_true_eq] at this
  exact this hkey

theorem Core.found (h : Core hash s) {p : Nat} (hf : s.findCached hash c = some p) :
    0 < (s.inode p).refcount := by
  have hmem := List.mem_of_find?_eq_some hf
  rw [h.live, h.home _ p hmem]
  exact hmem

structure Good (hash : Nat → Nat → Nat) (s : State τ) : Prop where
  core : Core hash s
  idle : ∀ t, s.prog t = none → s.refs t = 0 ∧ s.temps t = 0
  safe : ∀ t p, s.prog t = some p → p.Safe (s.refs t) (s.temps t) (s.window t)
  window : ∀ t i w, s.window t = some (i, w) →
    i < vfsMountMax ∧ (s.mounts i).used = false ∧ ∀ o, w = some o → (s.mounts i).root = some o
  alone : ∀ t u, s.window t ≠ none → s.window u ≠ none → t = u

theorem good_initial : Good hash (initial : State τ) where
  core := core_initial
  idle := fun _ _ => ⟨rfl, rfl⟩
  safe := fun _ _ h => by cases h
  window := fun _ _ _ h => by cases h
  alone := fun _ _ h => absurd rfl h

theorem Good.others {x : Nat × Option Nat} (h : Good hash s) (hw : s.window t = some x) (u : τ) (hu : u ≠ t) :
    s.window u = none := by
  by_contra hwu
  exact hu (h.alone u t hwu (by simp [hw]))

variable [DecidableEq τ]

theorem total_update (f : τ → Multiset Nat) (m : Multiset Nat) (o : Nat) :
    total (update f t m) o + (f t).count o = total f o + m.count o := by
  have h := sum_shift (f := fun u => (f u).count o)
    (g := fun u => (update f t m u).count o) (Finset.mem_univ t)
    fun u _ hu => by simp only [update_of_ne hu]
  simp only [update_self] at h
  exact h

theorem total_cons (f : τ → Multiset Nat) (a o : Nat) :
    total (update f t (a ::ₘ f t)) o = total f o + if o = a then 1 else 0 := by
  have h := total_update (t := t) f (a ::ₘ f t) o
  rw [Multiset.count_cons] at h
  omega

theorem total_erase (f : τ → Multiset Nat) (ha : a ∈ f t) (o : Nat) :
    total (update f t ((f t).erase a)) o + (if o = a then 1 else 0) = total f o := by
  have h := total_update (t := t) f ((f t).erase a) o
  by_cases ho : o = a
  · subst ho
    have hpos := Multiset.count_pos.2 ha
    rw [Multiset.count_erase_self] at h
    rw [if_pos rfl]
    omega
  · rw [Multiset.count_erase_of_ne ho] at h
    rw [if_neg ho]
    omega

theorem total_pos (f : τ → Multiset Nat) (ha : a ∈ f t) : 0 < total f a := by
  have h := total_erase f ha a
  rw [if_pos rfl] at h
  omega

theorem Core.goto (h : Core hash s) (p : Prog) : Core hash (s.goto t p) :=
  ⟨h.refs, h.place, h.live, h.home, h.unique⟩

theorem Core.alloc (h : Core hash s) {nd : Inode} (hnd : nd.refcount = 0) :
    Core hash (s.alloc t nd) := by
  obtain ⟨hout, htemps, hcloses, hzero⟩ := h.of_next (Nat.le_refl s.next)
  have hout : ∀ b, s.next ∉ (s.alloc t nd).icache b := hout
  have hself : ((s.alloc t nd).inode s.next).refcount = 0 := by
    rw [← hnd]
    exact congrArg Inode.refcount (update_self ..)
  have hcons : ∀ o, total (s.alloc t nd).temps o = total s.temps o + if o = s.next then 1 else 0 :=
    total_cons s.temps s.next
  refine h.of_change s.next (fun o ho => update_of_ne ho ..) (fun _ _ _ => rfl) (fun o ho => ?_)
    (fun _ _ => rfl)
    (fun o ho => ?_) (hself.trans (hzero.symm.trans (h.refs s.next))) ?_ ?_ (fun b hb => absurd hb (hout b))
    fun hpos => absurd hpos (by omega)
  all_goals grind [State.alloc, List.count_eq_zero]

theorem Core.share (h : Core hash s) {p : Nat} (hp : 0 < (s.inode p).refcount)
    (hr : (s.inode p).refcount + 1 < refLimit) : Core hash (s.share t p) := by
  have hn := Nat.mod_eq_of_lt hr
  refine h.of_count (n := ((s.inode p).refcount + 1) % refLimit) hp (by omega) rfl rfl rfl rfl rfl fun o => ?_
  change total (update s.refs t (p ::ₘ s.refs t)) o + s.handles.count o + s.pins o + _ = _
  rw [total_cons]
  grind

theorem Core.release (h : Core hash s) (ho : o ∈ s.refs t)
    (hr : 1 < (s.inode o).refcount) : Core hash (s.release t o) := by
  refine h.of_count (p := o) (n := (s.inode o).refcount - 1) (by omega) (by omega) rfl rfl rfl rfl
    rfl fun q => ?_
  change total (update s.refs t ((s.refs t).erase o)) q + s.handles.count q + s.pins q +
    _ = _
  have he := total_erase s.refs ho q
  grind

theorem Core.insert (h : Core hash s) (hc : c ∈ s.temps t)
    (hf : s.findCached hash c = none) : Core hash (s.insert hash t c) := by
  obtain ⟨hlt, htemp, hclose, hzero⟩ := h.of_temp (total_pos s.temps hc)
  have hbucket : (s.insert hash t c).bucket hash c = s.bucket hash c := State.setRefcount_bucket c 1 c
  have hself : ((s.insert hash t c).inode c).refcount = 1 := (State.setRefcount_inode c 1 c).trans (if_pos rfl)
  have hrefs : ∀ o, total (s.insert hash t c).refs o = total s.refs o + if o = c then 1 else 0 :=
      total_cons s.refs c
  have htemps : ∀ o, total (s.insert hash t c).temps o + (if o = c then 1 else 0) = total s.temps o :=
    total_erase s.temps hc
  have hcache : ∀ b, (s.insert hash t c).icache b =
      if b = s.bucket hash c then c :: s.icache (s.bucket hash c) else s.icache b := update_apply _ _ _
  have hpins : ∀ o, (s.insert hash t c).pins o = s.pins o := fun _ => rfl
  have hhome := fun b => h.home b c
  have := h.refs c
  have := h.place c
  refine h.of_change c (fun o ho => update_of_ne ho ..) (fun b o ho => ?_) (fun _ _ => Iff.rfl) (fun o ho => ?_)
    (fun o ho => ?_) ?_ ?_ ?_ (fun b hb => ?_)
    fun _ o ho hpos hsame => h.not_found hf hpos ((State.setRefcount_sameKey c 1 c o).1 hsame)
  all_goals grind [State.insert, State.setRefcount]

theorem Core.unlink (h : Core hash s) (ho : o ∈ s.refs t)
    (hr : (s.inode o).refcount = 1) : Core hash (s.unlink hash t o) := by
  obtain ⟨hone, htemp, hclose, hlt⟩ := h.of_cached (o := o) (by omega)
  have hself : ((s.unlink hash t o).inode o).refcount = 0 := by
    refine ((State.setRefcount_inode (s := s) o _ o).trans (if_pos rfl)).trans ?_
    rw [hr]
  have hrefs : ∀ q, total (s.unlink hash t o).refs q + (if q = o then 1 else 0) = total s.refs q :=
    total_erase s.refs ho
  have htemps : ∀ q, total (s.unlink hash t o).temps q = total s.temps q + if q = o then 1 else 0 :=
    total_cons s.temps o
  have hpins : ∀ q, (s.unlink hash t o).pins q = s.pins q := fun _ => rfl
  have hcache : ∀ b, (s.unlink hash t o).icache b =
      if b = s.bucket hash o then (s.icache (s.bucket hash o)).erase o else s.icache b := update_apply _ _ _
  have hout : ∀ b, ((s.unlink hash t o).icache b).count o = 0 := by
    intro b
    have := h.home b o
    grind [List.count_eq_zero]
  have := h.refs o
  refine h.of_change o (fun q hq => update_of_ne hq ..) (fun b q hq => ?_) (fun _ _ => Iff.rfl) (fun q hq => ?_)
    (fun q hq => ?_) ?_ ?_ ?_ (fun b hb => ?_) fun hpos => absurd hpos (by omega)
  all_goals grind [State.unlink, State.release, State.setRefcount, List.count_pos_iff]

theorem Core.closed (h : Core hash s) (ho : o ∈ s.temps t) : Core hash (s.closed t o) := by
  refine ⟨h.refs, fun q => ?_, h.live, h.home, h.unique⟩
  change (s.icache (s.bucket hash q)).count q +
    total (update s.temps t ((s.temps t).erase o)) q +
    update s.closes o (s.closes o + 1) q = if q < s.next then 1 else 0
  have h1 := h.place q
  have h2 := total_erase s.temps ho q
  grind

theorem Core.setRoot (h : Core hash s) (hi : i < vfsMountMax)
    (hu : (s.mounts i).used = false) : Core hash (s.setRoot t i o) := by
  refine ⟨fun q => (h.refs q).trans ?_, h.place, h.live, h.home, h.unique⟩
  change _ = _ + _ + (s.setMount i { s.mounts i with root := some o }).pins q
  rw [State.pins_setMount hi hu]
  have hzero : ({ s.mounts i with root := some o } : Mountpoint).pins q = 0 := by
    unfold Mountpoint.pins
    rw [if_neg]
    rintro ⟨hused, -⟩
    cases hu.symm.trans hused
  rw [hzero]
  rfl

theorem Core.publish (h : Core hash s) (hi : i < vfsMountMax) (hu : (s.mounts i).used = false)
    (ho : o ∈ s.refs t) : Core hash (s.publish t i o covered) := by
  refine ⟨fun q => (h.refs q).trans ?_, h.place, h.live, h.home, h.unique⟩
  change _ = total (update s.refs t ((s.refs t).erase o)) q + s.handles.count q +
    (s.setMount i ⟨true, covered, some o⟩).pins q
  rw [State.pins_setMount hi hu]
  have hpin : (⟨true, covered, some o⟩ : Mountpoint).pins q = if q = o then 1 else 0 := by
    unfold Mountpoint.pins
    simp [eq_comm]
  have he := total_erase s.refs ho q
  omega

section

variable (h : Good hash s)
include h

theorem Good.of_node {q : Option Prog} (hcore : Core hash s') (hprog : s'.prog = update s.prog t q)
    (hother : ∀ u, u ≠ t → s'.refs u = s.refs u ∧ s'.temps u = s.temps u ∧ s'.window u = s.window u)
    (hidle : q = none → s'.refs t = 0 ∧ s'.temps t = 0)
    (hsafe : ∀ p, q = some p → p.Safe (s'.refs t) (s'.temps t) (s'.window t))
    (hwindow : ∀ u i w, s'.window u = some (i, w) → i < vfsMountMax ∧
      (s'.mounts i).used = false ∧ ∀ o, w = some o → (s'.mounts i).root = some o)
    (halone : ∀ u v, s'.window u ≠ none → s'.window v ≠ none → u = v) : Good hash s' := by
  have hpc : ∀ u, s'.prog u = if u = t then q else s.prog u := fun u => hprog ▸ update_apply ..
  refine ⟨hcore, fun u hu => ?_, fun u p hu => ?_, hwindow, halone⟩
  · have := h.idle u
    grind
  · have := h.safe u p
    grind

theorem Good.of_quiet (hcore : Core hash s')
    (hprog : s'.prog = update s.prog t (some p)) (hrefs : s'.refs = update s.refs t R)
    (htemps : s'.temps = update s.temps t T) (hwindow : s'.window = s.window)
    (hmounts : s'.mounts = s.mounts) (hsafe : p.Safe R T (s.window t)) : Good hash s' := by
  refine h.of_node hcore hprog (fun u hu => ?_) nofun ?_ ?_ ?_
  · rw [hrefs, htemps, hwindow, update_of_ne hu, update_of_ne hu]
    exact ⟨rfl, rfl, rfl⟩
  · rw [hrefs, htemps, hwindow, update_self, update_self]
    rintro _ ⟨⟩
    exact hsafe
  · rw [hwindow, hmounts]
    exact h.window
  · rw [hwindow]
    exact h.alone

theorem Good.goto (hsafe : p.Safe (s.refs t) (s.temps t) (s.window t)) : Good hash (s.goto t p) :=
  h.of_quiet (h.core.goto p) rfl (update_eq_self t _).symm (update_eq_self t _).symm rfl rfl hsafe

theorem Good.made {nd : Inode} (hnd : nd.refcount = 0)
    (hsafe : p.Safe (s.refs t) (s.next ::ₘ s.temps t) (s.window t)) : Good hash ((s.alloc t nd).goto t p) :=
  h.of_quiet ((h.core.alloc hnd).goto p) rfl (update_eq_self t _).symm rfl rfl rfl hsafe

theorem Good.fold {k : Option Nat → Prog} (hsafe : (Prog.fold c k).Safe (s.refs t) (s.temps t) (s.window t)) :
    (∀ p, s.findCached hash c = some p → (s.inode p).refcount + 1 < refLimit →
      Good hash ((s.share t p).goto t (k (some p)))) ∧
      (s.findCached hash c = none → Good hash ((s.insert hash t c).goto t (k none))) := by
  obtain ⟨hc, hnone, hsome⟩ := hsafe
  refine ⟨fun p hf hr => ?_, fun hf => ?_⟩
  · have hcore := h.core.share (t := t) (h.core.found hf) hr
    exact h.of_quiet (hcore.goto _) rfl rfl (update_eq_self t _).symm rfl rfl (hsome p)
  · exact h.of_quiet ((h.core.insert hc hf).goto _) rfl rfl rfl rfl rfl hnone

theorem Good.put {k : Put → Prog} (hsafe : (Prog.put o k).Safe (s.refs t) (s.temps t) (s.window t)) :
    (s.inode o).refcount ≠ 0 ∧
      ((s.inode o).refcount = 1 → Good hash ((s.unlink hash t o).goto t (k .victim))) ∧
      ((s.inode o).refcount ≠ 1 → Good hash ((s.release t o).goto t (k .kept))) := by
  obtain ⟨ho, hkept, hvictim⟩ := hsafe
  have hpos : (s.inode o).refcount ≠ 0 := by
    have h1 := h.core.refs o
    have h2 := total_pos s.refs ho
    omega
  refine ⟨hpos, fun hr => ?_, fun hr => ?_⟩
  · exact h.of_quiet ((h.core.unlink ho hr).goto _) rfl rfl rfl rfl rfl hvictim
  · have hcore := h.core.release (t := t) ho (by omega)
    exact h.of_quiet (hcore.goto _) rfl rfl (update_eq_self t _).symm rfl rfl hkept

theorem Good.close (hsafe : (Prog.close o k).Safe (s.refs t) (s.temps t) (s.window t)) :
    Good hash ((s.closed t o).goto t k) := by
  obtain ⟨ho, hk⟩ := hsafe
  exact h.of_quiet ((h.core.closed ho).goto _) rfl (update_eq_self t _).symm rfl rfl rfl hk

-- The task is in slot `i`, and no other task is in one.
theorem Good.of_window (hcore : Core hash s') (hprog : s'.prog = update s.prog t (some p))
    (hrest : ∀ u, u ≠ t → s'.refs u = s.refs u ∧ s'.temps u = s.temps u)
    (hwindow : s'.window = update s.window t (some (i, w))) (hnone : ∀ u, u ≠ t → s.window u = none)
    (hslot : i < vfsMountMax ∧ (s'.mounts i).used = false ∧ ∀ o, w = some o → (s'.mounts i).root = some o)
    (hsafe : p.Safe (s'.refs t) (s'.temps t) (some (i, w))) : Good hash s' := by
  have hother : ∀ u, u ≠ t → s'.window u = s.window u := fun u hu => by rw [hwindow, update_of_ne hu]
  have hall : ∀ u, s'.window u ≠ none → u = t := by
    intro u hw
    by_contra hut
    exact hw ((hother u hut).trans (hnone u hut))
  have hself : s'.window t = some (i, w) := by rw [hwindow, update_self]
  refine h.of_node hcore hprog (fun u hu => ⟨(hrest u hu).1, (hrest u hu).2, hother u hu⟩) nofun ?_
    (fun u j w' hw => ?_) (fun u v hu hv => ?_)
  · rw [hself]
    rintro _ ⟨⟩
    exact hsafe
  · rw [hall u (by simp [hw]), hself] at hw
    cases hw
    exact hslot
  · rw [hall u hu, hall v hv]

theorem Good.claim (hi : i < vfsMountMax) (hu : (s.mounts i).used = false)
    (hnone : ∀ u, u ≠ t → s.window u = none) (hsafe : p.Safe (s.refs t) (s.temps t) (some (i, none))) :
    Good hash ((s.claim t i).goto t p) :=
  h.of_window ⟨h.core.refs, h.core.place, h.core.live, h.core.home, h.core.unique⟩ rfl
    (fun _ _ => ⟨rfl, rfl⟩) rfl hnone ⟨hi, hu, nofun⟩ hsafe

theorem Good.setRoot (hcore : Core hash s1) (hprog : s1.prog = s.prog)
    (hwin : s1.window = s.window) (hmounts : s1.mounts = s.mounts)
    (hrest : ∀ u, u ≠ t → s1.refs u = s.refs u ∧ s1.temps u = s.temps u) (hw : s.window t = some (i, w))
    (hsafe : p.Safe (s1.refs t) (s1.temps t) (some (i, some o))) : Good hash ((s1.setRoot t i o).goto t p)
    := by
  obtain ⟨hi, hu, -⟩ := h.window t i w hw
  have hu1 : (s1.mounts i).used = false := by rw [hmounts, hu]
  have hm : ((s1.setRoot t i o).goto t p).mounts i = { s1.mounts i with root := some o } :=
    update_self ..
  exact h.of_window ((hcore.setRoot hi hu1).goto p) (hprog ▸ rfl) hrest (hwin ▸ rfl) (h.others hw)
    ⟨hi, by rw [hm]; exact hu1, fun q hq => by rw [hm]; exact hq⟩ hsafe

theorem Good.publish (hw : s.window t = some (i, some o)) (ho : o ∈ s.refs t)
    (hsafe : p.Safe ((s.refs t).erase o) (s.temps t) none) : Good hash
    ((s.publish t i o covered).goto t p) := by
  obtain ⟨hi, hu, -⟩ := h.window t i _ hw
  have hnone : ∀ u, ((s.publish t i o covered).goto t p).window u = none :=
    (forall_update_iff s.window fun _ w => w = none).2 ⟨rfl, h.others hw⟩
  refine h.of_node ((h.core.publish hi hu ho).goto p) rfl (fun u hu => ⟨?_, rfl, ?_⟩) nofun ?_
    (fun u j w' hw' => ?_) (fun u v hu hv => absurd (hnone u) hu)
  · exact update_of_ne hu ..
  · exact update_of_ne hu ..
  · rintro _ ⟨⟩
    rw [hnone t]
    change p.Safe (update s.refs t ((s.refs t).erase o) t) (s.temps t) none
    rw [update_self]
    exact hsafe
  · rw [hnone u] at hw'
    cases hw'

end

-- No vfs_mount chooses its slot, and no root mount begins, while another task has chosen one and not yet
-- entered it.
def Apart (s : State τ) : Move τ → Prop
  | .step t _ =>
    (∃ k, s.prog t = some (.claimRoot k)) ∨ (∃ c k, s.prog t = some (.claimSlot c k)) →
      ∀ u, u ≠ t → s.window u = none
  | _ => True

theorem Good.exec {out : Outcome} (h : Good hash s) (hp : s.prog t = some p)
    (hapart : Apart s (.step t out)) (hfit : s.Fits hash (.step t out))
    (he : s.exec hash t p out = some s') : Good hash s' := by
  have hsafe := h.safe t p hp
  simp only [State.Fits, State.takes, hp] at hfit
  cases p <;> cases out <;> simp only [State.exec, reduceCtorEq] at he
  case fold.ok c k =>
    obtain ⟨hshare, hinsert⟩ := h.fold hsafe
    split at he <;> cases he
    · exact hshare _ ‹_› (hfit _ ‹_›)
    · exact hinsert ‹_›
  case put.ok o k =>
    obtain ⟨hpos, hunlink, hrelease⟩ := h.put hsafe
    rw [if_neg hpos] at he
    split_ifs at he with hr <;> cases he
    · exact hunlink hr
    · exact hrelease hr
  case claimRoot.ok k =>
    split_ifs at he with hu <;> cases he
    · exact h.goto hsafe.1
    · exact h.claim (by decide) (by simpa using hu) (hapart (.inl ⟨k, hp⟩)) hsafe.2
  case claimSlot.ok c k =>
    split at he <;> cases he
    · exact h.goto hsafe.1
    · obtain ⟨hi, hu⟩ := State.freeSlot_spec ‹_›
      exact h.claim hi hu (hapart (.inr ⟨c, k, hp⟩)) (hsafe.2 _)
  case readRoot.ok i k =>
    obtain ⟨o, hw, hk⟩ := hsafe
    have hroot := (h.window t i _ hw).2.2 o rfl
    rw [hroot] at he
    cases he
    exact h.goto hk
  case publish.ok i covered k =>
    obtain ⟨o, hw, ho, hk⟩ := hsafe
    have hroot := (h.window t i _ hw).2.2 o rfl
    rw [hroot] at he
    cases he
    exact h.publish hw ho hk
  all_goals cases he
  case ready.ok | stat.ok | change.ok | change.fail | mountOn.ok => exact h.goto (hsafe _)
  case lookup.fail | lookupRoot.fail | create.fail => exact h.goto hsafe.1
  case lookup.made | lookupRoot.made | create.made => exact h.made rfl (hsafe.2 _)
  case close.ok o k => exact h.close hsafe
  case fsMount.fail i k => exact h.goto hsafe.2.1
  case fsMount.made i k _ _ _ =>
    obtain ⟨⟨w, hw⟩, -, hmade⟩ := hsafe
    refine h.setRoot (h.core.alloc rfl) rfl rfl rfl (fun u hu => ⟨rfl, update_of_ne hu ..⟩) hw ?_
    change (k true).Safe (s.refs t) (update s.temps t (s.next ::ₘ s.temps t) t) _
    rw [update_self]
    exact hmade s.next
  case writeRoot.ok i o k =>
    obtain ⟨⟨w, hw⟩, hk⟩ := hsafe
    exact h.setRoot h.core rfl rfl rfl (fun _ _ => ⟨rfl, rfl⟩) hw hk

theorem Good.begin_close (h : Good hash s) (hp : s.prog t = none) (ho : o ∈ s.handles) :
    Good hash ({ s with
      handles := s.handles.erase o
      refs := update s.refs t (o ::ₘ s.refs t) }.goto t (vfsClose o)) := by
  obtain ⟨hr, ht⟩ := h.idle t hp
  refine h.of_quiet ⟨fun q => (h.core.refs q).trans ?_, h.core.place, h.core.live, h.core.home,
    h.core.unique⟩ rfl rfl (update_eq_self t _).symm rfl rfl ?_
  · change _ = total (update s.refs t (o ::ₘ s.refs t)) q + (s.handles.erase o).count q +
      s.pins q
    rw [total_cons]
    by_cases hq : q = o
    · subst hq
      have hpos := Multiset.count_pos.2 ho
      rw [if_pos rfl, Multiset.count_erase_self]
      omega
    · rw [if_neg hq, Multiset.count_erase_of_ne hq]
      omega
  · change (vfsClose o).Safe (o ::ₘ s.refs t) (s.temps t) _
    rw [hr, ht]
    exact safe_vfsClose

theorem Good.begin {c : Call} (h : Good hash s) (hb : s.begin t c = some s') : Good hash s' := by
  unfold State.begin at hb
  split_ifs at hb with hp
  have hp' : s.prog t = none := not_not.1 hp
  obtain ⟨hr, ht⟩ := h.idle t hp'
  have hother : c.given = 0 → Good hash (s.goto t c.prog) := by
    intro hc
    have hsafe := c.safe (w := s.window t)
    rw [hc] at hsafe
    refine h.goto ?_
    rw [hr, ht]
    exact hsafe
  cases c with
  | close o =>
    dsimp only at hb
    split_ifs at hb with ho
    cases hb
    exact h.begin_close hp' ho
  | _ =>
    cases hb
    exact hother rfl

theorem Good.finish {r : Result} (h : Good hash s) (hp : s.prog t = some (.ret r)) :
    Good hash (s.finish t r) := by
  obtain ⟨hT, hR⟩ := h.safe t _ hp
  have hwin : ∀ u w, (s.finish t r).window u = some w → u ≠ t ∧ s.window u = some w := by
    intro u w hw
    change update s.window t none u = some w at hw
    by_cases hut : u = t
    · rw [hut, update_self] at hw
      cases hw
    · rw [update_of_ne hut] at hw
      exact ⟨hut, hw⟩
  obtain ⟨hrefs, hcount⟩ : (s.finish t r).refs = update s.refs t 0 ∧ ∀ q, total s.refs q + s.handles.count q =
      total (s.finish t r).refs q + (s.finish t r).handles.count q := by
    cases r with
    | inode o =>
      have hR' : s.refs t = {o} := hR
      refine ⟨?_, fun q => ?_⟩
      · change update s.refs t ((s.refs t).erase o) = _
        rw [hR', Multiset.erase_singleton]
      · change _ = total (update s.refs t ((s.refs t).erase o)) q + (o ::ₘ s.handles).count q
        have he := total_erase s.refs (t := t) (a := o) (by rw [hR']; exact Multiset.mem_singleton_self o) q
        rw [Multiset.count_cons]
        omega
    | _ =>
      have hR' : s.refs t = 0 := hR
      refine ⟨?_, fun _ => rfl⟩
      rw [← hR', update_eq_self]
      rfl
  refine h.of_node ⟨fun q => ?_, h.core.place, h.core.live, h.core.home, h.core.unique⟩ rfl
    (fun u hu => ⟨by rw [hrefs, update_of_ne hu], rfl, update_of_ne hu ..⟩)
    (fun _ => ⟨by rw [hrefs, update_self], hT⟩) nofun
    (fun u i w hw => h.window u i w (hwin u _ hw).2) fun u v hu hv => ?_
  · rw [← hcount q]
    exact h.core.refs q
  · obtain ⟨w, hw⟩ := Option.ne_none_iff_exists'.1 hu
    obtain ⟨w', hw'⟩ := Option.ne_none_iff_exists'.1 hv
    exact h.alone u v (by simp [(hwin u w hw).2]) (by simp [(hwin v w' hw').2])

theorem Good.step {e : Move τ} (h : Good hash s) (hapart : Apart s e) (hfit : s.Fits hash e)
    (hs : Step hash s e s') : Good hash s' := by
  unfold Step at hs
  cases e with
  | start t c => exact h.begin hs
  | step t out =>
    obtain ⟨p, hp, he⟩ := Option.bind_eq_some_iff.1 hs
    exact h.exec hp hapart hfit he
  | finish t =>
    unfold State.move at hs
    dsimp only at hs
    split at hs
    · next r hp =>
      cases hs
      exact h.finish hp
    · cases hs

def ApartStep (hash : Nat → Nat → Nat) (s : State τ) (e : Move τ) (s' : State τ) : Prop :=
  Apart s e ∧ s.Fits hash e ∧ Step hash s e s'

-- If mounts do not meet and no count wraps, the counts are those of the references, and no inode in use
-- is closed.
theorem inode_discipline {l : List (Move τ)} {s : State τ} (h : Run (ApartStep hash) initial l s) :
    (∀ o p b c, o ∈ s.icache b → p ∈ s.icache c → s.SameKey o p → o = p) ∧
    (∀ o b, o ∈ s.icache b →
      (s.inode o).refcount = total s.refs o + s.handles.count o + s.pins o) ∧
    (∀ t, s.prog t = some (.ret .error) ∨ s.prog t = some (.ret .done) → s.refs t = 0) ∧
    (∀ t o, s.prog t = some (.ret (.inode o)) → s.refs t = {o}) ∧
    (∀ o, o < s.next →
      (s.icache (s.bucket hash o)).count o + total s.temps o + s.closes o = 1) ∧
    ∀ t o k, s.prog t = some (.close o k) →
      (∀ b, o ∉ s.icache b) ∧ total s.refs o + s.handles.count o + s.pins o = 0 ∧
        s.closes o = 0 := by
  have hg : Good hash s := h.invariant good_initial fun s e s' hi hs => hi.step hs.1 hs.2.1 hs.2.2
  have hc := hg.core
  have hlive : ∀ o b, o ∈ s.icache b → 0 < (s.inode o).refcount := by
    intro o b ho
    rw [hc.live, hc.home b o ho]
    exact ho
  refine ⟨fun o p b c ho hp hk => hc.unique o p (hlive o b ho) (hlive p c hp) hk,
    fun o _ _ => hc.refs o, fun t ht => ?_, fun t o ht => (hg.safe t _ ht).2, fun o ho => ?_,
    fun t o k ht => ?_⟩
  · rcases ht with ht | ht
    · exact (hg.safe t _ ht).2
    · exact (hg.safe t _ ht).2
  · have hp := hc.place o
    rwa [if_pos ho] at hp
  · have hmem : o ∈ s.temps t := (hg.safe t _ ht).1
    obtain ⟨-, -, hclose, hzero⟩ := hc.of_temp (total_pos s.temps hmem)
    refine ⟨fun b hb => absurd (hlive o b hb) (by omega), ?_, hclose⟩
    rw [← hc.refs, hzero]

-- The root is mounted and opened once.
def openMoves : List (Move Unit) :=
  [.start () .mountRoot, .step () .ok, .step () (.made 1 true 0o755), .step () .ok, .step () .ok,
    .step () .ok, .finish (), .start () (.open 1 [slash]), .step () .ok,
    .step () (.made 1 true 0o755), .step () .ok, .step () .ok, .step () .ok]

theorem inode_discipline_open :
    ∃ s : State Unit, Run (ApartStep fun _ _ => 0) initial openMoves s ∧
      s.prog () = some (.ret (.inode 0)) ∧ s.refs () = {0} ∧
      (s.inode 0).refcount = total s.refs 0 + s.handles.count 0 + s.pins 0 := by
  obtain ⟨s, hs, hp, hmem⟩ : ∃ s : State Unit,
      openMoves.foldlM (fun s e => if s.Fits (fun _ _ => 0) e then s.move (fun _ _ => 0) e else none)
        initial = some s ∧ s.prog () = some (.ret (.inode 0)) ∧ 0 ∈ s.icache 0 :=
          ⟨_, rfl, rfl, List.mem_singleton_self 0⟩
  have hrun : Run (ApartStep fun _ _ => 0) initial openMoves s := by
    refine (Run.of_foldlM hs).mono fun s e s' _ he => ⟨?_, Option.ite_none_right_eq_some.1 he⟩
    cases e with
    | step t out => exact fun _ u hu => absurd rfl hu
    | _ => exact trivial
  obtain ⟨-, hrefs, -, hone, -⟩ := inode_discipline hrun
  exact ⟨s, hrun, hp, hone () 0 hp, hrefs 0 0 hmem⟩

-- Two tasks mount the root. The second one's root is folded into the first one's, whose count has one pin
-- too many.
def twiceMoves : List (Move (Fin 2)) :=
  [.start 0 .mountRoot, .start 1 .mountRoot, .step 0 .ok, .step 1 .ok,
    .step 0 (.made 1 true 0o755), .step 0 .ok, .step 0 .ok, .step 0 .ok, .finish 0,
    .step 1 (.made 1 true 0o755), .step 1 .ok, .step 1 .ok, .step 1 .ok, .step 1 .ok, .step 1 .ok,
    .finish 1]

theorem inode_overcounted :
    ∃ s : State (Fin 2), Run (Step fun _ _ => 0) initial twiceMoves s ∧
      (∀ t, s.prog t = none) ∧ 0 ∈ s.icache 0 ∧ (s.inode 0).refcount = 2 ∧
      total s.refs 0 + s.handles.count 0 + s.pins 0 = 1 := by
  have hs : twiceMoves.foldlM (fun s e => State.move (fun _ _ => 0) s e) initial = some _ := rfl
  refine ⟨_, Run.of_foldlM hs, fun t => ?_, List.mem_singleton_self 0, rfl, rfl⟩
  match t with
  | 0 => rfl
  | 1 => rfl

end Jnu.Vfs.Inodes
