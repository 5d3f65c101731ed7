import Jnu.Pmm.Theorems

open Jnu.Lib.Dyadic
open Function

namespace Jnu.Pmm

open PmmState

variable {τ : Type} {p : PmmState} {i order : Nat} {pa : Nat}

-- `pmm_free_pages` about to validate, to zero the block, or to push it.
inductive FreeStage
  | pending
  | detached
  | zeroed
  deriving DecidableEq, Repr

-- The allocator shared by tasks `τ`: who may use a block, and which frees are under way.
structure World (τ : Type) where
  phys : Phys
  refs : Block → List τ
  frees : Block → Option (τ × FreeStage)

-- The blocks not on a free list; nobody owns the zero page.
def World.held (w : World τ) : Set Block :=
  {b | w.refs b ≠ [] ∨ w.frees b ≠ none ∨ b = blockAt w.phys.pmm.mmZeroPage 0}

-- The machine is `phys` now, and block `b` is used and freed as given.
def World.set (w : World τ) (phys : Phys) (b : Block) (refs : List τ)
    (free : Option (τ × FreeStage)) : World τ :=
  ⟨phys, update w.refs b refs, update w.frees b free⟩

-- A task receives the block an allocator returned, if it returned one.
def World.receive (w : World τ) (t : τ) (order : Nat) (r : Nat × PmmState) : World τ :=
  if r.1 = 0 then { w with phys := { w.phys with pmm := r.2 } }
  else w.set { w.phys with pmm := r.2 } (blockAt r.1 order) [t] (w.frees (blockAt r.1 order))

-- One atomic step: what is done under `pmm_lock`, a store of an owner, or the clearing of a block.
inductive WorldStep [DecidableEq τ] : World τ → World τ → Prop
  | allocPages {w : World τ} (t : τ) (order : Nat) (ho : order < pmmMaxOrder) :
      WorldStep w (w.receive t order (pmmAllocPages w.phys.pmm order))
  | allocZeroedPages {w : World τ} (t : τ) (order : Nat) (ho : order < pmmMaxOrder) :
      WorldStep w (w.receive t order (pmmAllocZeroedPages w.phys.pmm order))
  | allocDma {w : World τ} (t : τ) (order : Nat) :
      WorldStep w (w.receive t order (pmmAllocDma w.phys.pmm order))
  | allocUserPage {w : World τ} (t : τ) :
      WorldStep w (w.receive t 0 (pmmAllocUserPage w.phys.pmm))
  | store {w : World τ} (t : τ) (b : Block) (i : Nat) (v : BitVec 64) (ht : t ∈ w.refs b)
      (hi : i / 512 ∈ b) :
      WorldStep w { w with phys := { w.phys with mem := update w.phys.mem i v } }
  | getUserPage {w : World τ} (t t' : τ) (pa : Nat) (p : PmmState)
      (ht : t ∈ w.refs (blockAt pa 0)) (e : pmmGetUserPage w.phys.pmm pa = .ok p) :
      WorldStep w (w.set { w.phys with pmm := p } (blockAt pa 0) (t' :: w.refs (blockAt pa 0))
        (w.frees (blockAt pa 0)))
  | putUserPage {w : World τ} (t : τ) (pa : Nat) (p : PmmState)
      (ht : t ∈ w.refs (blockAt pa 0)) (e : putUserPageLocked w.phys.pmm pa = .ok (false, p)) :
      WorldStep w (w.set { w.phys with pmm := p } (blockAt pa 0)
        ((w.refs (blockAt pa 0)).erase t) (w.frees (blockAt pa 0)))
  | putLastUserPage {w : World τ} (t : τ) (pa : Nat) (p : PmmState)
      (ht : t ∈ w.refs (blockAt pa 0)) (e : putUserPageLocked w.phys.pmm pa = .ok (true, p)) :
      WorldStep w (w.set { w.phys with pmm := p } (blockAt pa 0)
        ((w.refs (blockAt pa 0)).erase t) (some (t, .pending)))
  | startFree {w : World τ} (t : τ) (b : Block) (ht : w.refs b = [t]) :
      WorldStep w (w.set w.phys b [] (some (t, .pending)))
  | validate {w : World τ} (t : τ) (b : Block) (ht : w.frees b = some (t, .pending))
      (e : pmmFreeValidateLocked w.phys.pmm (pfnToPa b.start) b.order = .ok ()) :
      WorldStep w (w.set w.phys b (w.refs b) (some (t, .detached)))
  | clear {w : World τ} (t : τ) (b : Block) (ht : w.frees b = some (t, .detached)) :
      WorldStep w (w.set { w.phys with
        mem := memsetZero w.phys.mem (pfnToPa b.start) (pmmOrderSize b.order) } b (w.refs b)
        (some (t, .zeroed)))
  | push {w : World τ} (t : τ) (b : Block) (ht : w.frees b = some (t, .zeroed)) :
      WorldStep w (w.set { w.phys with
        pmm := pmmFreePagesLocked w.phys.pmm (pfnToPa b.start) b.order } b (w.refs b) none)

inductive WorldRun [DecidableEq τ] : World τ → World τ → Prop
  | refl {w : World τ} : WorldRun w w
  | step {w w' w'' : World τ} : WorldRun w w' → WorldStep w' w'' → WorldRun w w''

def World.boot (s : Phys) : World τ := ⟨s, fun _ => [], fun _ => none⟩

-- The count agrees with the users; one left on a page that is no longer a user page is at most one.
def Counted (users count : Nat) : Prop := (users ≤ 1 ∧ count ≤ 1) ∨ users = count

structure WorldInv (w : World τ) (R : Set Nat) : Prop where
  phys : PhysInv w.phys R w.held
  exclusive : ∀ b, w.refs b ≠ [] → w.frees b = none
  unowned : w.refs (blockAt w.phys.pmm.mmZeroPage 0) = [] ∧
    w.frees (blockAt w.phys.pmm.mmZeroPage 0) = none
  counted : ∀ b, w.refs b ≠ [] →
    Counted (w.refs b).length (w.phys.pmm.pfnTable b.start).refcount
  stale : ∀ i, (∀ b, w.refs b ≠ [] → b.start ≠ i) → (w.phys.pmm.pfnTable i).refcount ≤ 1
  cleared : ∀ b t, w.frees b = some (t, .zeroed) → ∀ n ∈ b, PageZero w.phys.mem n

namespace WorldInv

variable {w w' : World τ} {R : Set Nat} {s : Phys} {b : Block} {l : List τ} {f : Option (τ × FreeStage)}

theorem boot (hs : Booted s R) : WorldInv (World.boot s : World τ) R := by
  have hheld : (World.boot s : World τ).held = {blockAt s.pmm.mmZeroPage 0} := by
    ext b
    simp [World.held, World.boot]
  refine ⟨?_, ?_, ⟨rfl, rfl⟩, ?_, ?_, ?_⟩
  · rw [hheld]
    exact hs.phys
  · intro b hb
    exact absurd rfl hb
  · intro b hb
    exact absurd rfl hb
  · intro i _
    have := hs.refcount i
    show (s.pmm.pfnTable i).refcount ≤ 1
    omega
  · intro b t hb
    cases hb

theorem apart (h : WorldInv w R) (hb : b ∈ w.held) : ∀ c ∈ w.held, c ≠ b → ∀ n ∈ c, n ∉ b :=
  fun c hc hne n hnc hnb => hne (h.phys.inv.heldDisjoint c hc b hb n hnc hnb)

-- The blocks in hand after block `b`, which is not the zero page, changed its users.
theorem held_set (hzp : s.pmm.mmZeroPage = w.phys.pmm.mmZeroPage)
    (hb : b ≠ blockAt w.phys.pmm.mmZeroPage 0) :
    (w.set s b l f).held = {c | (c ≠ b ∧ c ∈ w.held) ∨ (c = b ∧ (l ≠ [] ∨ f ≠ none))} := by
  ext c
  by_cases hc : c = b
  · subst hc
    simp [World.held, World.set, hzp, hb]
  · simp [World.held, World.set, hzp, hc]

section

variable (h : WorldInv w R)
include h

section

variable (hzp : s.pmm.mmZeroPage = w.phys.pmm.mmZeroPage) (hb : b ≠ blockAt w.phys.pmm.mmZeroPage 0)
  (href : ∀ i, i ≠ b.start → (s.pmm.pfnTable i).refcount = (w.phys.pmm.pfnTable i).refcount)
  (hexcl : l ≠ [] → f = none) (hcount : Counted l.length (s.pmm.pfnTable b.start).refcount)
  (hmem : ∀ n, n ∉ b → PageZero w.phys.mem n → PageZero s.mem n)
  (hclear : ∀ t, f = some (t, .zeroed) → ∀ n ∈ b, PageZero s.mem n)
include hzp hb href hexcl hcount hmem hclear

theorem set (hphys : PhysInv s R (w.set s b l f).held) (hdis : ∀ c ∈ w.held, c ≠ b → ∀ n ∈ c, n ∉ b) :
    WorldInv (w.set s b l f) R := by
  have hstart : ∀ c, w.refs c ≠ [] → c ≠ b → c.start ≠ b.start := fun c hc hne he =>
    hdis c (.inl hc) hne c.start c.start_mem (he ▸ b.start_mem)
  refine ⟨hphys, ?_, ?_, ?_, ?_, ?_⟩
  · intro c hc
    by_cases hcb : c = b
    · subst hcb
      simp only [World.set, update_self] at hc ⊢
      exact hexcl hc
    · simp only [World.set, update_of_ne hcb] at hc ⊢
      exact h.exclusive c hc
  · show update w.refs b l (blockAt s.pmm.mmZeroPage 0) = [] ∧
      update w.frees b f (blockAt s.pmm.mmZeroPage 0) = none
    rw [hzp, update_of_ne hb.symm, update_of_ne hb.symm]
    exact h.unowned
  · intro c hc
    by_cases hcb : c = b
    · subst hcb
      simpa only [World.set, update_self] using hcount
    · simp only [World.set, update_of_ne hcb] at hc ⊢
      rw [href _ (hstart c hc hcb)]
      exact h.counted c hc
  · intro i hi
    show (s.pmm.pfnTable i).refcount ≤ 1
    by_cases hib : i = b.start
    · subst hib
      have hl : l = [] := by
        by_contra hl
        exact hi b (by simpa [World.set] using hl) rfl
      simp only [Counted, hl, List.length_nil] at hcount
      omega
    · rw [href i hib]
      refine h.stale i fun c hc => ?_
      by_cases hcb : c = b
      · exact hcb ▸ Ne.symm hib
      · exact hi c (by simpa [World.set, hcb] using hc)
  · intro c t hc n hn
    by_cases hcb : c = b
    · subst hcb
      simp only [World.set, update_self] at hc
      exact hclear t hc n hn
    · simp only [World.set, update_of_ne hcb] at hc
      have hheld : c ∈ w.held := .inr (.inl (by simp [hc]))
      exact hmem n (hdis c hheld hcb n hn) (h.cleared c t hc n hn)

theorem setKeep (hin : b ∈ w.held) (hkeep : l ≠ [] ∨ f ≠ none) (hphys : PhysInv s R w.held) :
    WorldInv (w.set s b l f) R := by
  have hheld : (w.set s b l f).held = w.held := by
    rw [held_set hzp hb]
    ext c
    by_cases hc : c = b
    · simpa [hc, hin] using hkeep
    · simp [hc]
  exact h.set hzp hb href hexcl hcount hmem hclear (hheld ▸ hphys) (h.apart hin)

end

theorem receive {t : τ} (hphys : PhysInv { w.phys with pmm := p } R (insert b w.held))
    (hfresh : b ∉ w.held) (hzp : p.mmZeroPage = w.phys.pmm.mmZeroPage)
    (href : ∀ i, i ≠ b.start → (p.pfnTable i).refcount = (w.phys.pmm.pfnTable i).refcount)
    (hhead : (p.pfnTable b.start).refcount ≤ 1) :
    WorldInv (w.set { w.phys with pmm := p } b [t] (w.frees b)) R := by
  have hbz : b ≠ blockAt w.phys.pmm.mmZeroPage 0 := fun he => hfresh (.inr (.inr he))
  have hbf : w.frees b = none := by
    by_contra hc
    exact hfresh (.inr (.inl hc))
  have hheld : (w.set { w.phys with pmm := p } b [t] (w.frees b)).held = insert b w.held := by
    rw [held_set hzp hbz]
    ext c
    by_cases hc : c = b
    · simp [hc]
    · simp [hc]
  have hdis : ∀ c ∈ w.held, c ≠ b → ∀ n ∈ c, n ∉ b := fun c hc hne n hnc hnb =>
    hne (hphys.inv.heldDisjoint c (.inr hc) b (.inl rfl) n hnc hnb)
  refine h.set hzp hbz href (fun _ => hbf) ?_ (fun _ _ hz => hz) ?_ (hheld ▸ hphys) hdis
  · exact .inl ⟨by simp, hhead⟩
  · intro t' ht'
    rw [hbf] at ht'
    cases ht'

theorem refcount_le_one (hi : ∀ c ∈ w.held, i ∉ c) : (w.phys.pmm.pfnTable i).refcount ≤ 1 :=
  h.stale i fun c hc he => hi c (.inl hc) (he ▸ c.start_mem)

theorem receive_spec (t : τ) {r : Nat × PmmState} {zs : PmmZone → Prop}
    (hspec : AllocSpec w.phys.pmm r.2 R w.held zs order r.1) : WorldInv (w.receive t order r) R := by
  unfold World.receive
  split
  · rename_i hzero
    rw [(hspec.failure hzero).1]
    exact h
  rename_i hne
  obtain ⟨-, -, -, ha⟩ := hspec.success hne
  refine h.receive (h.phys.alloc ha) ha.fresh ha.frame.mmZeroPage
    (fun i _ => ha.frame.refcount i) ?_
  rw [ha.frame.refcount]
  refine h.refcount_le_one fun c hc hn => ?_
  obtain ⟨d, hd, hnd⟩ := ha.wasFree _ (Block.start_mem _)
  exact h.phys.inv.apart d hd c hc _ hnd hn

theorem receive_userPage (t : τ) : WorldInv (w.receive t 0 (pmmAllocUserPage w.phys.pmm)) R := by
  cases hr : pmmAllocUserPage w.phys.pmm with
  | mk pa p =>
    unfold World.receive
    split
    · rename_i hzero
      obtain rfl : pa = 0 := hzero
      rw [(pmmAllocUserPage_none h.phys hr).1]
      exact h
    · rename_i hne
      obtain ⟨hphys, hfresh, -, -, hzp, href, -⟩ := pmmAllocUserPage_phys h.phys hr hne
      refine h.receive hphys hfresh hzp (fun i hi => ?_) ?_
      · have hi' : i ≠ paToPfn pa := hi
        rw [href, if_neg hi']
      · show (p.pfnTable (paToPfn pa)).refcount ≤ 1
        rw [href, if_pos rfl]

theorem setCount {pa : Nat} {g : PmmPfn → PmmPfn} (hused : w.refs (blockAt pa 0) ≠ [])
    (hfree : ∀ e, (g e).free = e.free) (hnext : ∀ e, (g e).next = e.next) (hprev : ∀ e, (g e).prev = e.prev)
    (hkeep : l ≠ [] ∨ f ≠ none) (hexcl : l ≠ [] → f = none)
    (hcount : Counted l.length (g (w.phys.pmm.pfnTable (paToPfn pa))).refcount)
    (hpend : ∀ t, f ≠ some (t, .zeroed)) :
    WorldInv (w.set { w.phys with pmm := w.phys.pmm.modify (paToPfn pa) g } (blockAt pa 0) l f)
      R := by
  have hin : blockAt pa 0 ∈ w.held := .inl hused
  have hbz : blockAt pa 0 ≠ blockAt w.phys.pmm.mmZeroPage 0 := fun he => hused (he ▸ h.unowned.1)
  have hnf := h.phys.inv.free_false hin (Block.start_mem (blockAt pa 0))
  refine h.setKeep rfl hbz ?_ hexcl ?_ (fun _ _ hz => hz) (fun t ht => absurd ht (hpend t)) hin hkeep ?_
  · intro i hi
    have hi' : i ≠ paToPfn pa := hi
    simp [hi']
  · simpa [blockAt] using hcount
  · exact h.phys.modify hnf (fun e he => (hfree e).trans he) hnext hprev

theorem freeing (hfree : w.frees b ≠ none) :
    b ∈ w.held ∧ b ≠ blockAt w.phys.pmm.mmZeroPage 0 ∧ w.refs b = [] ∧
      Counted (w.refs b).length (w.phys.pmm.pfnTable b.start).refcount := by
  have hin : b ∈ w.held := .inr (.inl hfree)
  have hrefs : w.refs b = [] := by
    by_contra hc
    exact hfree (h.exclusive b hc)
  have hle : (w.phys.pmm.pfnTable b.start).refcount ≤ 1 := by
    refine h.stale _ fun c hc he => ?_
    have hcb : c ≠ b := fun he => hc (he ▸ hrefs)
    exact h.apart hin c (.inl hc) hcb c.start c.start_mem (he ▸ b.start_mem)
  exact ⟨hin, fun he => hfree (he ▸ h.unowned.2), hrefs, .inl ⟨by simp [hrefs], hle⟩⟩

end

variable [DecidableEq τ]

theorem step (h : WorldInv w R) (hstep : WorldStep w w') : WorldInv w' R := by
  cases hstep with
  | allocPages t order ho => exact h.receive_spec t (pmmAllocPagesLocked_spec h.phys.inv ho)
  | allocZeroedPages t order ho => exact h.receive_spec t (pmmAllocPagesLocked_spec h.phys.inv ho)
  | allocDma t order => exact h.receive_spec t (pmmAllocDma_spec h.phys.inv order)
  | allocUserPage t => exact h.receive_userPage t
  | store t b i v ht hi =>
    have hused : w.refs b ≠ [] := List.ne_nil_of_mem ht
    have hin : b ∈ w.held := .inl hused
    have hother : ∀ n, n ∉ b → PageZero w.phys.mem n →
        PageZero (update w.phys.mem i v) n := by
      rintro n hn hz j rfl
      have hji : j ≠ i := fun he => hn (he ▸ hi)
      rw [update_of_ne hji]
      exact hz j rfl
    refine ⟨⟨h.phys.inv, fun n hn => ?_⟩, h.exclusive, h.unowned, h.counted, h.stale, ?_⟩
    · obtain ⟨c, hc, hnc⟩ := hn
      exact hother n (h.phys.inv.apart c hc b hin n hnc) (h.phys.zero n ⟨c, hc, hnc⟩)
    intro c t' hc n hn
    have hcb : c ≠ b := by
      rintro rfl
      rw [h.exclusive c hused] at hc
      cases hc
    have hc' : w.frees c = some (t', .zeroed) := hc
    have hcin : c ∈ w.held := .inr (.inl (by simp [hc']))
    exact hother n (h.apart hin c hcin hcb n hn) (h.cleared c t' hc n hn)
  | getUserPage t t' pa p ht e =>
    have hused := List.ne_nil_of_mem ht
    have hnone := h.exclusive _ hused
    obtain ⟨-, hpos, rfl⟩ := pmmGetUserPage_ok e
    refine h.setCount hused (fun _ => rfl) (fun _ => rfl) (fun _ => rfl) (.inl (by simp))
      (fun _ => hnone) ?_ (by simp [hnone])
    have hlen := List.length_pos_of_mem ht
    have hcount := h.counted _ hused
    simp only [Counted, List.length_cons, blockAt] at hcount hlen ⊢
    omega
  | putUserPage t pa p ht e =>
    have hused := List.ne_nil_of_mem ht
    have hnone := h.exclusive _ hused
    obtain ⟨-, -, hpos, hdo, rfl⟩ := putUserPageLocked_ok e
    have hcount := h.counted _ hused
    have hlen := List.length_erase_of_mem ht
    have hone : (w.phys.pmm.pfnTable (paToPfn pa)).refcount ≠ 1 := by
      intro hc
      simp [hc] at hdo
    have hnil : (w.refs (blockAt pa 0)).erase t ≠ [] := by
      intro hc
      rw [hc] at hlen
      simp only [List.length_nil, Counted, blockAt] at hlen hcount
      omega
    refine h.setCount hused (fun _ => rfl) (fun _ => rfl) (fun _ => rfl) (.inl hnil)
      (fun _ => hnone) ?_ (by simp [hnone])
    simp only [Counted, blockAt] at hcount hlen ⊢
    omega
  | putLastUserPage t pa p ht e =>
    have hused := List.ne_nil_of_mem ht
    obtain ⟨-, -, hpos, hdo, rfl⟩ := putUserPageLocked_ok e
    have hcount := h.counted _ hused
    have hlen := List.length_erase_of_mem ht
    have hone : (w.phys.pmm.pfnTable (paToPfn pa)).refcount = 1 := by simpa using hdo.symm
    have hpos' := List.length_pos_of_mem ht
    have hnil : (w.refs (blockAt pa 0)).erase t = [] := by
      rw [← List.length_eq_zero_iff]
      simp only [Counted, blockAt] at hcount hlen hpos' ⊢
      omega
    refine h.setCount hused (fun _ => rfl) (fun _ => rfl) (fun _ => rfl) (.inr (by simp))
      (fun hc => absurd hnil hc) ?_ (by simp)
    left
    simp [hnil, hone]
  | startFree t b ht =>
    have hused : w.refs b ≠ [] := by simp [ht]
    have hin : b ∈ w.held := .inl hused
    have hbz : b ≠ blockAt w.phys.pmm.mmZeroPage 0 := fun he => hused (he ▸ h.unowned.1)
    have hcount := h.counted b hused
    refine h.setKeep rfl hbz (fun _ _ => rfl) (by simp) ?_ (fun _ _ hz => hz) (by simp) hin
      (.inr (by simp)) h.phys
    simp only [Counted, ht, List.length_singleton, List.length_nil] at hcount ⊢
    omega
  | validate t b ht e =>
    have hfree : w.frees b ≠ none := by simp [ht]
    obtain ⟨hin, hbz, hrefs, hcount⟩ := h.freeing hfree
    exact h.setKeep rfl hbz (fun _ _ => rfl) (by simp [hrefs]) hcount (fun _ _ hz => hz) (by simp) hin
      (.inr (by simp)) h.phys
  | clear t b ht =>
    have hfree : w.frees b ≠ none := by simp [ht]
    obtain ⟨hin, hbz, hrefs, hcount⟩ := h.freeing hfree
    exact h.setKeep rfl hbz (fun _ _ => rfl) (by simp [hrefs]) hcount
      (fun n _ hz => memsetZero_keeps _ b hz) (fun _ _ n hn => memsetZero_pageZero _ hn) hin
      (.inr (by simp)) ⟨h.phys.inv, fun n hn => memsetZero_keeps _ b (h.phys.zero n hn)⟩
  | push t b ht =>
    have hfree : w.frees b ≠ none := by simp [ht]
    obtain ⟨hin, hbz, hrefs, hcount⟩ := h.freeing hfree
    have hblock : blockAt (pfnToPa b.start) b.order = b := by simp [blockAt]
    have hins : insert (blockAt (pfnToPa b.start) b.order) (w.held \ {b}) = w.held := by
      rw [hblock, Set.insert_sdiff_self_of_mem hin]
    have hinv := h.phys.inv
    rw [← hins] at hinv
    obtain ⟨hpush, hframe⟩ := pmmFreePagesLocked_spec hinv (by simp [hblock]) (by simp [pfnToPa])
    refine h.set hframe.mmZeroPage hbz (fun i _ => hframe.refcount i) (by simp) ?_ (fun _ _ hz => hz)
      (by simp) ?_ (h.apart hin)
    · rw [hframe.refcount]
      exact hcount
    · have hheld : (w.set { w.phys with
          pmm := pmmFreePagesLocked w.phys.pmm (pfnToPa b.start) b.order } b (w.refs b) none).held
          = w.held \ {b} := by
        rw [held_set hframe.mmZeroPage hbz]
        ext c
        by_cases hc : c = b
        · simp [hc, hrefs]
        · simp [hc]
      rw [hheld]
      refine ⟨hpush, fun n hn => ?_⟩
      rw [hpush.covers_free_iff] at hn
      by_cases hnb : n ∈ b
      · exact h.cleared b t ht n hnb
      refine h.phys.zero n ?_
      rw [h.phys.inv.covers_free_iff]
      refine ⟨hn.1, ?_⟩
      rintro ⟨c, hc, hnc⟩
      exact hn.2 ⟨c, ⟨hc, fun he => hnb (he ▸ hnc)⟩, hnc⟩

theorem run (h : WorldInv w R) (hrun : WorldRun w w') : WorldInv w' R := by
  induction hrun with
  | refl => exact h
  | step _ hstep ih => exact ih.step hstep

end WorldInv

theorem PageZero.byteAt {mem : Mem} (h : PageZero mem (paToPfn pa)) : byteAt mem pa = 0 := by
  have hw : mem (pa / 8) = 0 := h (pa / 8) (by
    simp only [paToPfn, pageSize]
    omega)
  simp [Jnu.Pmm.byteAt, hw]

theorem zero_of_allocated {mem : Mem} (hpa : pa % pageSize = 0)
    (hz : ∀ n ∈ blockAt pa order, PageZero mem n) (hi : i < pmmOrderSize order) :
    byteAt mem (pa + i) = 0 := by
  refine PageZero.byteAt (hz _ ?_)
  simp only [pmmOrderSize, Nat.pow_add, pageSize] at hi hpa
  simp only [Block.mem_def, blockAt, paToPfn, pageSize]
  omega

theorem AllocSpec.byteAt_zero {s : Phys} {R : Set Nat} {H : Set Block} {zs : PmmZone → Prop}
    (h : PhysInv s R H) (hspec : AllocSpec s.pmm p R H zs order pa) (hpa : pa ≠ 0) :
    ∀ i, i < pmmOrderSize order → byteAt s.mem (pa + i) = 0 := by
  obtain ⟨hal, -, -, ha⟩ := hspec.success hpa
  exact fun i hi => zero_of_allocated hal (fun n hn => h.zero n (ha.wasFree n hn)) hi

theorem zero_on_free [DecidableEq τ] {mm : List MemmapEntry} {mem : Mem} {s : Phys} {w : World τ}
    (hmm : MemmapOk mm) (hinit : pmmInit (some mm) mem = .ok s) (hrun : WorldRun (World.boot s) w) :
    (∀ b ∈ w.phys.pmm.freeBlocks, ∀ n ∈ b, ∀ i, i < pageSize →
      byteAt w.phys.mem (pfnToPa n + i) = 0) ∧
    (∀ order, order < pmmMaxOrder → ∀ pa, (pmmAllocPages w.phys.pmm order).1 = pa → pa ≠ 0 →
      ∀ i, i < pmmOrderSize order → byteAt w.phys.mem (pa + i) = 0) ∧
    (∀ order, order < pmmMaxOrder → ∀ pa, (pmmAllocZeroedPages w.phys.pmm order).1 = pa →
      pa ≠ 0 → ∀ i, i < pmmOrderSize order → byteAt w.phys.mem (pa + i) = 0) ∧
    (∀ order pa, (pmmAllocDma w.phys.pmm order).1 = pa → pa ≠ 0 →
      ∀ i, i < pmmOrderSize order → byteAt w.phys.mem (pa + i) = 0) ∧
    (∀ pa, (pmmAllocUserPage w.phys.pmm).1 = pa → pa ≠ 0 →
      ∀ i, i < pageSize → byteAt w.phys.mem (pa + i) = 0) := by
  have hinv := (WorldInv.boot (pmmInit_spec hmm hinit)).run hrun
  have hphys := hinv.phys
  refine ⟨?_, ?_, ?_, ?_, ?_⟩
  · intro b hb n hn i hi
    refine PageZero.byteAt (hphys.zero _ ⟨b, hb, ?_⟩)
    have : paToPfn (pfnToPa n + i) = n := by
      simp only [paToPfn, pfnToPa, pageSize] at *
      omega
    rwa [this]
  · rintro order ho pa rfl hpa
    exact (pmmAllocPagesLocked_spec hphys.inv ho).byteAt_zero hphys hpa
  · rintro order ho pa rfl hpa
    exact (pmmAllocPagesLocked_spec hphys.inv ho).byteAt_zero hphys hpa
  · rintro order pa rfl hpa
    exact (pmmAllocDma_spec hphys.inv order).byteAt_zero hphys hpa
  · rintro pa rfl hpa i hi
    obtain ⟨-, -, hal, -, -, -, hz⟩ := pmmAllocUserPage_phys hphys (Prod.mk.eta).symm hpa
    exact zero_of_allocated hal hz hi

-- A task takes four pages, writes to the first and starts to free them.
theorem zero_on_free_smallMap :
    ∃ (s : Phys) (w : World Nat) (b : Block), WorldRun (World.boot s) w ∧
      w.phys.mem (b.start * 512) = 5 ∧ w.frees b = some (1, .pending) ∧
      ∀ c ∈ w.phys.pmm.freeBlocks, ∀ n ∈ c, ∀ i, i < pageSize →
        byteAt w.phys.mem (pfnToPa n + i) = 0 := by
  obtain ⟨s, hs, hpa⟩ := smallMap_boots
  set b := blockAt (pmmAllocPages s.pmm 2).1 2 with hb
  set w1 := (World.boot s : World Nat).receive 1 2 (pmmAllocPages s.pmm 2) with hw1
  have h1 : WorldRun (World.boot s) w1 := .step .refl (.allocPages 1 2 (by decide))
  have hrefs : w1.refs b = [1] := by
    rw [hw1, World.receive, if_neg hpa]
    simp [World.set, hb]
  have h2 := WorldRun.step h1 (.store 1 b (b.start * 512) 5 (by simp [hrefs])
    (by simp [b.start_mem]))
  have h3 := WorldRun.step h2 (.startFree 1 b hrefs)
  obtain ⟨hzero, -⟩ := zero_on_free smallMap_ok hs h3
  exact ⟨s, _, b, h3, by simp [World.set], by simp [World.set], hzero⟩

end Jnu.Pmm
