import Jnu.System.Protection

namespace Jnu.System

open Lib.Dyadic Lib.Effect Lib.Trace Paging Pmm Mm
open Function

variable {k k' : Kern} {R : Set Nat} {K : Set Block} {sp i : Nat}

structure MapArgs where
  length : BitVec 64
  prot : BitVec 32
  flags : BitVec 32

def MapArgs.len (c : MapArgs) : Nat := pageAlignUp c.length.toNat

-- The arguments pass the checks of `vmm_map_anonymous`, and the address is the kernel's choice.
structure MapArgs.Valid (c : MapArgs) : Prop where
  length : c.length.toNat ≠ 0
  len : c.len ≠ 0
  known : hasBit c.flags (~~~(mapPrivate ||| mapAnonymous ||| mapFixed)) = false
  priv : hasBit c.flags mapPrivate = true
  anon : hasBit c.flags mapAnonymous = true
  wx : ¬ (hasBit c.prot protWrite ∧ hasBit c.prot protExec)
  free : hasBit c.flags mapFixed = false

-- The three parts of the call. The timer may interrupt it between two of them.
def searchGap (sp : Nat) (c : MapArgs) : KM Nat := do
  let a ← spaceOf sp
  let chosen ← Prog.known (vmaFindGapTopDown a.vmas c.len a.mmapBase)
  if chosen = 0 then Prog.error .enomem
  else return chosen

def allocVma : KM Nat := do
  match ← kzalloc with
  | none => Prog.error .enomem
  | some id => return id

def insertVma (sp : Nat) (c : MapArgs) (chosen id : Nat) : KM Nat := do
  let t ← vmasOf sp
  match ← Prog.known (vmaInsert (t.set id ⟨chosen, wrap64 (chosen + c.len), protToVma c.prot⟩) id) with
  | .error e =>
    kfree id
    Prog.error e
  | .ok t =>
    setVmas sp t
    return chosen

theorem vmmMapAnonymous_parts {c : MapArgs} (hc : c.Valid) (sp addr : Nat) :
    vmmMapAnonymous sp addr c.length.toNat c.prot c.flags = (do
      let chosen ← searchGap sp c
      let id ← allocVma
      insertVma sp c chosen id) := by
  have hinsert : ∀ chosen, insertAnonymous sp chosen c.len (protToVma c.prot) = (do
      let id ← allocVma
      insertVma sp c chosen id) := by
    intro chosen
    unfold insertAnonymous allocVma insertVma
    rw [bind_assoc]
    congr 1
    funext r
    cases r with
    | none => rfl
    | some id => rfl
  unfold vmmMapAnonymous searchGap
  rw [show pageAlignUp c.length.toNat = c.len from rfl]
  rw [if_neg hc.length, if_neg hc.len, if_neg (by simp [hc.known]), if_neg (by simp [hc.priv, hc.anon]),
    if_neg hc.wx, if_neg (by simp [hc.free]), bind_assoc]
  congr 1
  funext a
  rw [bind_assoc]
  congr 1
  funext chosen
  by_cases h0 : chosen = 0
  · rw [if_pos h0, if_pos h0]
    rfl
  · rw [if_neg h0, if_neg h0]
    exact hinsert chosen

inductive Stage
  | idle
  | searched (c : MapArgs) (chosen : Nat)
  | allocated (c : MapArgs) (chosen id : Nat)

structure Group where
  kern : Kern
  stage : Nat → Stage

inductive Move
  | search (c : MapArgs)
  | alloc
  | insert

inductive Outcome
  | mapped (start len : Nat)
  | failed (e : Errno)

-- What a thread does, and how its call ends if it ends with that.
structure Action where
  thread : Nat
  move : Move
  outcome : Option Outcome

def Group.next (g : Group) (k : Kern) (i : Nat) (s : Stage) : Group := ⟨k, update g.stage i s⟩

inductive GroupStep (sp : Nat) (g : Group) : Action → Group → Prop
  | found {i chosen : Nat} {c : MapArgs} {k : Kern} (hi : g.stage i = .idle) (hc : c.Valid)
      (hrun : (searchGap sp c).run g.kern = some (.ok (.ok chosen, k))) :
      GroupStep sp g ⟨i, .search c, none⟩ (g.next k i (.searched c chosen))
  | noGap {i : Nat} {c : MapArgs} {e : Errno} {k : Kern} (hi : g.stage i = .idle) (hc : c.Valid)
      (hrun : (searchGap sp c).run g.kern = some (.ok (.error e, k))) :
      GroupStep sp g ⟨i, .search c, some (.failed e)⟩ (g.next k i .idle)
  | given {i chosen id : Nat} {c : MapArgs} {k : Kern} (hi : g.stage i = .searched c chosen)
      (hrun : allocVma.run g.kern = some (.ok (.ok id, k))) :
      GroupStep sp g ⟨i, .alloc, none⟩ (g.next k i (.allocated c chosen id))
  | noMemory {i chosen : Nat} {c : MapArgs} {e : Errno} {k : Kern}
      (hi : g.stage i = .searched c chosen)
      (hrun : allocVma.run g.kern = some (.ok (.error e, k))) :
      GroupStep sp g ⟨i, .alloc, some (.failed e)⟩ (g.next k i .idle)
  | inserted {i chosen id r : Nat} {c : MapArgs} {k : Kern} (hi : g.stage i = .allocated c chosen id)
      (hrun : (insertVma sp c chosen id).run g.kern = some (.ok (.ok r, k))) :
      GroupStep sp g ⟨i, .insert, some (.mapped r c.len)⟩ (g.next k i .idle)
  | refused {i chosen id : Nat} {c : MapArgs} {e : Errno} {k : Kern}
      (hi : g.stage i = .allocated c chosen id)
      (hrun : (insertVma sp c chosen id).run g.kern = some (.ok (.error e, k))) :
      GroupStep sp g ⟨i, .insert, some (.failed e)⟩ (g.next k i .idle)

-- The gap search does not overflow, and no thread inserts its mapping while another one is between
-- its search and its insertion.
def Action.Calm (sp : Nat) (g : Group) (a : Action) : Prop :=
  match a.move with
  | .search c => ¬ GapOverflow g.kern sp c.length.toNat c.flags
  | .alloc => True
  | .insert => ∀ j, j ≠ a.thread → g.stage j = .idle

def CalmStep (sp : Nat) (g : Group) (a : Action) (g' : Group) : Prop :=
  a.Calm sp g ∧ GroupStep sp g a g'

def InRange (x : Nat) (r : Nat × Nat) : Prop := r.1 ≤ x ∧ x < r.1 + r.2

instance (x : Nat) (r : Nat × Nat) : Decidable (InRange x r) :=
  inferInstanceAs (Decidable (r.1 ≤ x ∧ x < r.1 + r.2))

def Action.range (a : Action) : Option (Nat × Nat) :=
  match a.outcome with
  | some (.mapped start len) => some (start, len)
  | _ => none

def ranges (l : List Action) : List (Nat × Nat) := l.filterMap Action.range

section calm

variable {chosen id : Nat} {c : MapArgs}

structure Chosen (k : Kern) (sp : Nat) (c : MapArgs) (chosen : Nat) : Prop where
  good : GoodVma ⟨chosen, chosen + c.len, protToVma c.prot⟩
  nonempty : 0 < c.len
  free : ∀ x, InRange x (chosen, c.len) → k.flags sp x = none

structure Unlinked (k : Kern) (sp id : Nat) : Prop where
  allocated : id < k.heap.next
  apart : ∀ a L, k.space sp = some a → a.vmas.Holds L → id ∉ L

theorem searchGap_spec (h : Sound k R K) (hlive : k.space sp ≠ none) (hc : c.Valid)
    (hok : ¬ GapOverflow k sp c.length.toNat c.flags) :
    wp (searchGap sp c) (fun r k' => k' = k ∧ Chosen k sp c r)
      (fun e k' => e = .enomem ∧ k' = k ∧ ∃ a, k.space sp = some a ∧
        ∀ y, pageSize ≤ y → y + c.len ≤ a.mmapBase → ∃ x, InRange x (y, c.len) ∧
          k.flags sp x ≠ none) k := by
  obtain ⟨a, ha⟩ := Option.ne_none_iff_exists'.1 hlive
  obtain ⟨L, hg⟩ := h.spaces sp a ha
  have hal : c.len % pageSize = 0 := pageAlignUp_mod _
  have hlt : c.len < 2 ^ 64 := pageAlignUp_lt _
  have hpos : 0 < c.len := Nat.pos_of_ne_zero hc.len
  have hno : ¬ (c.len = 2 ^ 64 - pageSize ∧ a.vmas.rb.root = none) :=
    fun hn => hok ⟨hc.free, hn.1, a, ha, hn.2⟩
  obtain ⟨r, hr, hfull, hres⟩ := findGap_spec hg hlt hal hpos hno
  unfold searchGap
  apply wp_spaceOf ha
  apply wp_known hr
  refine wp_ite (fun hz => ?_) fun hz => ?_
  · apply wp_error
    refine ⟨rfl, rfl, a, ha, fun y hy htop => ?_⟩
    obtain ⟨i, hi, h1, h2⟩ := hfull hz y hy htop
    -- an address that is in the VMA and in the range
    have hne := hg.tree.range hi
    refine ⟨max y (a.vmas.vma i).start, ⟨Nat.le_max_left _ _, ?_⟩, ?_⟩
    · omega
    · rw [flags_eq ha hg.tree.holds, (addrMap_eq_some hg.tree.holds.ordered).2
        ⟨i, hi, Nat.le_max_right _ _, by omega, rfl⟩]
      simp
  · apply wp_pure
    obtain ⟨hral, hfloor, hbelow, hfree⟩ := hres.resolve_left hz
    have htop := hbelow.trans hg.ceiling.2
    have hend : (r + c.len) % pageSize = 0 := by
      simp only [pageSize] at hral hal ⊢
      omega
    refine ⟨rfl, ⟨hfloor, htop.trans (by decide), hral, hend, rfl⟩, hpos, fun x hx => ?_⟩
    rw [flags_eq ha hg.tree.holds, addrMap_eq_none]
    intro i hi
    have := hfree i hi
    unfold InRange at hx
    omega

theorem kzalloc_full (h : Base k R K) :
    wp kzalloc (fun r _ => r = none → freeCount k.phys = 0) never k := by
  unfold kzalloc
  apply wp_bind_read
  cases k.heap.spot with
  | some pa =>
    apply wp_bind_write
    apply wp_pure
    simp
  | none =>
    apply wp_bind_zoom
    apply wp_of_ok (run_allocPages 0 k.phys)
    rcases ha : pmmAllocPages k.phys.pmm 0 with ⟨pa, p⟩
    refine wp_ite (fun hz => ?_) fun hz => ?_
    · subst hz
      apply wp_bind_write
      apply wp_pure
      exact fun _ => (h.pt.alloc_none ha).2
    · apply wp_bind_write
      apply wp_pure
      simp

theorem allocVma_spec (sp : Nat) (h : Sound k R K) :
    wp allocVma
      (fun id k' => Sound k' R K ∧ k'.space = k.space ∧ k.heap.next ≤ k'.heap.next ∧
        Unlinked k' sp id)
      (fun e k' => e = .enomem ∧ Sound k' R K ∧ k'.space = k.space ∧ k.heap.next ≤ k'.heap.next ∧
        freeCount k.phys = 0) k := by
  obtain ⟨r, k', hrun, hb, hi, hspace, hid⟩ := (kzalloc_spec h.base).exists_ok
  have hfull := (kzalloc_full h.base).of_ok hrun
  unfold allocVma
  apply wp_bind
  apply wp_of_ok hrun
  cases r with
  | none => exact wp_error ⟨rfl, h.of_idle hb hi hspace, hspace, hi.next, hfull rfl⟩
  | some id =>
    obtain ⟨rfl, hnext⟩ := hid id rfl
    apply wp_pure
    refine ⟨h.of_idle hb hi hspace, hspace, hi.next, by omega, fun a L ha hL hmem => ?_⟩
    rw [hspace] at ha
    obtain ⟨L', hg⟩ := h.spaces sp a ha
    rw [hL.eq_of_holds hg.tree.holds] at hmem
    exact absurd (hg.tree.alloc _ hmem) (lt_irrefl _)

theorem insertVma_spec (h : Sound k R K) (hlive : k.space sp ≠ none) (hc : Chosen k sp c chosen)
    (hu : Unlinked k sp id) :
    wp (insertVma sp c chosen id)
      (fun r k' => r = chosen ∧ Sound k' R K ∧ k'.space sp ≠ none ∧ ∀ x, k'.flags sp x =
        if InRange x (chosen, c.len) then some (protToVma c.prot) else k.flags sp x)
      never k := by
  obtain ⟨a, ha⟩ := Option.ne_none_iff_exists'.1 hlive
  obtain ⟨L, hg⟩ := h.spaces sp a ha
  have hw : wrap64 (chosen + c.len) = chosen + c.len := by
    have htop : chosen + c.len ≤ 0x0000800000000000 := hc.good.top
    unfold wrap64
    omega
  have hfree : ∀ i ∈ L, (a.vmas.vma i).stop ≤ chosen ∨ chosen + c.len ≤ (a.vmas.vma i).start := by
    intro i hi
    by_contra hn
    have hr := hg.tree.range hi
    -- an address that is in the VMA and in the range
    have hpos := hc.nonempty
    have hx := hc.free (max chosen (a.vmas.vma i).start) ⟨Nat.le_max_left _ _, by dsimp only; omega⟩
    rw [flags_eq ha hg.tree.holds, (addrMap_eq_some hg.tree.holds.ordered).2
      ⟨i, hi, Nat.le_max_right _ _, by omega, rfl⟩] at hx
    cases hx
  have hpos := hc.nonempty
  obtain ⟨t', L', hins, htree, -, -, hmap⟩ := hg.tree.insertAt (hu.apart a L ha hg.tree.holds)
    hu.allocated (Nat.le_refl _) hc.good (by dsimp only; omega) hfree
  unfold insertVma
  rw [hw]
  apply wp_vmasOf ha
  apply wp_known hins
  apply wp_bind_write
  apply wp_pure
  have hself : (k.setVmas sp t').space sp = some { a with vmas := t' } := setVmas_self ha
  refine ⟨rfl, h.of_self h.base.setVmas Idle.setVmas.sheds (fun t ht => setVmas_of_ne ht) hself
    ⟨htree, hg.ceiling⟩, by simp [hself], fun x => ?_⟩
  rw [flags_eq hself htree.holds, hmap, flags_eq ha hg.tree.holds]
  rfl

end calm

section runs

variable {k₀ : Kern} {g g' : Group} {a : Action} {l : List Action}

def Stage.Good (k : Kern) (sp : Nat) : Stage → Prop
  | .idle => True
  | .searched c chosen => Chosen k sp c chosen
  | .allocated c chosen id => Chosen k sp c chosen ∧ Unlinked k sp id

theorem Stage.Good.congr {k : Kern} {s : Stage} (h : s.Good k sp) (hspace : k'.space = k.space)
    (hnext : k.heap.next ≤ k'.heap.next) : s.Good k' sp := by
  have hflags := flags_congr (congrFun hspace sp)
  have hchosen : ∀ c chosen, Chosen k sp c chosen → Chosen k' sp c chosen := by
    intro c chosen hc
    exact ⟨hc.good, hc.nonempty, fun x hx => (hflags x).trans (hc.free x hx)⟩
  cases s with
  | idle => trivial
  | searched c chosen => exact hchosen c chosen h
  | allocated c chosen id =>
    refine ⟨hchosen c chosen h.1, h.2.allocated.trans_le hnext, fun a L ha => ?_⟩
    rw [hspace] at ha
    exact h.2.apart a L ha

-- The state of the group after the actions `l`, from the kernel `k₀` on.
structure Going (R : Set Nat) (K : Set Block) (k₀ : Kern) (sp : Nat) (l : List Action) (g : Group) :
    Prop where
  sound : Sound g.kern R K
  live : g.kern.space sp ≠ none
  mapped : ∀ x, g.kern.flags sp x ≠ none ↔ k₀.flags sp x ≠ none ∨ ∃ r ∈ ranges l, InRange x r
  apart : (ranges l).Pairwise fun r r' => ∀ x, InRange x r → ¬ InRange x r'
  fresh : ∀ r ∈ ranges l, ∀ x, InRange x r → k₀.flags sp x = none
  errors : ∀ a ∈ l, ∀ e, a.outcome = some (.failed e) → e = .enomem
  stages : ∀ i, (g.stage i).Good g.kern sp

section

variable (h : Going R K k₀ sp l g)
include h

theorem Going.stage (hi : g.stage i = s) : s.Good g.kern sp := by
  rw [← hi]
  exact h.stages i

theorem Going.quiet {k : Kern} (hs : Sound k R K) (hspace : k.space = g.kern.space)
    (hnext : g.kern.heap.next ≤ k.heap.next) (hgood : s.Good k sp) (hrange : a.range = none)
    (herr : ∀ e, a.outcome = some (.failed e) → e = .enomem) : Going R K
    k₀ sp (l ++ [a]) (g.next k i s) := by
  have hranges : ranges (l ++ [a]) = ranges l := by
    unfold ranges
    simp [hrange]
  refine ⟨hs, ?_, fun x => ?_, ?_, ?_, ?_, ?_⟩
  · show k.space sp ≠ none
    rw [hspace]
    exact h.live
  · show k.flags sp x ≠ none ↔ _
    rw [flags_congr (congrFun hspace sp), hranges]
    exact h.mapped x
  · rw [hranges]
    exact h.apart
  · rw [hranges]
    exact h.fresh
  · exact List.forall_mem_append.2 ⟨h.errors, List.forall_mem_singleton.2 herr⟩
  · exact (forall_update_iff g.stage fun _ => Stage.Good k sp).2
      ⟨hgood, fun j _ => (h.stages j).congr hspace hnext⟩

theorem Going.insert {k : Kern} {chosen : Nat} {c : MapArgs} (hs : Sound k R K)
    (hlive : k.space sp ≠ none) (hc : Chosen g.kern sp c chosen)
    (hflags : ∀ x, k.flags sp x = 
      if InRange x (chosen, c.len) then some (protToVma c.prot) else g.kern.flags sp x)
    (hidle : ∀ j, j ≠ i → g.stage j = .idle) :
    Going R K k₀ sp (l ++ [⟨i, .insert, some (.mapped chosen c.len)⟩]) (g.next k i .idle) := by
  have hranges : ranges (l ++ [⟨i, .insert, some (.mapped chosen c.len)⟩]) =
      ranges l ++ [(chosen, c.len)] := by
    unfold ranges
    rw [List.filterMap_append]
    rfl
  -- the range had no mapping, neither an old one nor one of this run
  have hnone : ∀ x, InRange x (chosen, c.len) →
      ¬ (k₀.flags sp x ≠ none ∨ ∃ r ∈ ranges l, InRange x r) := by
    intro x hx
    rw [← h.mapped x]
    simp [hc.free x hx]
  refine ⟨hs, hlive, fun x => ?_, ?_, ?_, ?_, ?_⟩
  · show k.flags sp x ≠ none ↔ _
    rw [hflags, hranges]
    by_cases hx : InRange x (chosen, c.len)
    · simp [hx]
    · rw [if_neg hx, h.mapped x]
      simp [hx, or_and_right, exists_or]
  · rw [hranges, List.pairwise_append]
    refine ⟨h.apart, List.pairwise_singleton _ _, fun r hr r' hr' x hx hx' => ?_⟩
    rw [List.mem_singleton.1 hr'] at hx'
    exact hnone x hx' (.inr ⟨r, hr, hx⟩)
  · rw [hranges]
    intro r hr x hx
    rcases List.mem_append.1 hr with hr | hr
    · exact h.fresh r hr x hx
    · rw [List.mem_singleton.1 hr] at hx
      by_contra hc
      exact hnone x hx (.inl hc)
  · exact List.forall_mem_append.2 ⟨h.errors, List.forall_mem_singleton.2 nofun⟩
  · refine (forall_update_iff g.stage fun _ => Stage.Good k sp).2 ⟨trivial, fun j hj => ?_⟩
    rw [hidle j hj]
    trivial

theorem Going.step (hs : CalmStep sp g a g') : Going R K k₀ sp (l ++ [a]) g' := by
  obtain ⟨hcalm, hstep⟩ := hs
  cases hstep with
  | found hi hc hrun =>
    obtain ⟨rfl, hch⟩ := (searchGap_spec h.sound h.live hc hcalm).of_ok hrun
    exact h.quiet h.sound rfl (Nat.le_refl _) hch rfl (by simp)
  | noGap hi hc hrun =>
    obtain ⟨rfl, rfl, -⟩ := (searchGap_spec h.sound h.live hc hcalm).of_error hrun
    exact h.quiet h.sound rfl (Nat.le_refl _) trivial rfl (by simp)
  | given hi hrun =>
    obtain ⟨hs', hspace, hnext, hu⟩ := (allocVma_spec sp h.sound).of_ok hrun
    have hgood := (h.stage hi).congr hspace hnext
    exact h.quiet hs' hspace hnext ⟨hgood, hu⟩ rfl (by simp)
  | noMemory hi hrun =>
    obtain ⟨rfl, hs', hspace, hnext, -⟩ := (allocVma_spec sp h.sound).of_error hrun
    exact h.quiet hs' hspace hnext trivial rfl (by simp)
  | inserted hi hrun =>
    have hgood := h.stage hi
    obtain ⟨rfl, hs', hlive, hflags⟩ := (insertVma_spec h.sound h.live hgood.1 hgood.2).of_ok hrun
    exact h.insert hs' hlive hgood.1 hflags hcalm
  | refused hi hrun =>
    have hgood := h.stage hi
    exact ((insertVma_spec h.sound h.live hgood.1 hgood.2).of_error hrun).elim

end

end runs

section race

variable {pa id : Nat} {a : AddrSpace}

end race

end Jnu.System
