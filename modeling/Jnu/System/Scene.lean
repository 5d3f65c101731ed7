import Jnu.System.Invariant
import Jnu.System.Shapes

namespace Jnu.System

open Lib.Dyadic Lib.Effect Lib.Refs Paging Pmm Mm
open Function

-- The next object is `n`, and at least `m` pages are free.
structure Scene (k : Kern) (pa : Nat) (R : Set Nat) (K : Set Block) (n m : Nat) : Prop where
  roomy : Roomy k pa
  base : Base k R K
  next : k.heap.next = n
  free : m ≤ freeCount k.phys

-- Every frame can take another reference.
abbrev Shareable (k : Kern) : Prop :=
  ∀ f, f ≠ zeroFrame k.phys → count (frameMap k.phys.mem k.roots) f < 65535

theorem Shareable.congr {k k' : Kern} (h : Shareable k) (hp : ∀ t u, k'.pte t u = k.pte t u)
    (hz : k'.phys.pmm.mmZeroPage = k.phys.pmm.mmZeroPage) : Shareable k' := by
  have hmap : frameMap k'.phys.mem k'.roots = frameMap k.phys.mem k.roots := by
    funext key
    show Option.map pteFrame (k'.pte key.1 key.2) = Option.map pteFrame (k.pte key.1 key.2)
    rw [hp]
  intro f hf
  rw [hmap]
  apply h
  rwa [zeroFrame_eq hz] at hf

-- A page of one space is now also in another one, unless it was not there.
def SharedPage (k k' : Kern) (src dst v : Nat) : Prop :=
  (k.pte src v = none → ∀ t u, k'.pte t u = k.pte t u) ∧
  ∀ e, k.pte src v = some e → ∃ e₁ e₂, (∀ t u, k'.pte t u = if t = dst ∧ u = v then some e₂
      else if t = src ∧ u = v then some e₁ else k.pte t u) ∧
    Stripped e e₁ ∧ Stripped e e₂ ∧ ∀ i, i < 512 → k'.words dst v i = k.words src v i

theorem SharedPage.congr {k0 k k' k'' : Kern} {src dst v : Nat} (h : SharedPage k k' src dst v)
    (hi : Idle k0 k) (hphys : k''.phys = k'.phys) (hroots : k''.roots = k'.roots) :
    SharedPage k0 k'' src dst v := by
  have hpte : ∀ t u, k''.pte t u = k'.pte t u := by
    intro t u
    unfold Kern.pte
    rw [hphys, hroots]
  refine ⟨fun hnone t u => ?_, fun e he => ?_⟩
  · rw [← hi.pte] at hnone ⊢
    rw [hpte, h.1 hnone]
  rw [← hi.pte] at he
  obtain ⟨e1, e2, hp, h1, h2, hw⟩ := h.2 e he
  refine ⟨e1, e2, fun t u => ?_, h1, h2, fun i hi' => ?_⟩
  · rw [hpte, hp, hi.pte]
  · rw [← hi.words src v i hi', ← hw i hi']
    unfold Kern.words
    rw [hphys, hroots]

section runs

variable {k k1 k2 k' : Kern} {R : Set Nat} {K O : Set Block} {pa n m sp src dst v u f f' : Nat}
  {a d : AddrSpace} {t : VmaTree} {vma : Vma} {s' s : Phys} {o first : Option Nat} {e' : BitVec 64}

theorem Scene.create (h : Scene k pa R K n (m + 1)) :
    ∃ k' a, vmmCreateSpace.run k = done (some n) k' ∧ Scene k' pa R K (n + 1) m ∧
      k'.space n = some a ∧ a.vmas = .empty ∧
      a.mmapBase = mmapBaseTop - k.rand k.draws % 262144 * pageSize ∧
      (∀ sp, sp ≠ n → k'.space sp = k.space sp) ∧ Idle k k' ∧ k'.rand = k.rand ∧
      k'.draws = k.draws + 1 := by
  obtain ⟨s', a, k', hrun, hk', hself, hempty, hbase, hb, hi, hfree⟩ :=
    h.roomy.createSpace h.base (Nat.lt_of_lt_of_le (Nat.succ_pos m) h.free)
  rw [h.next] at hrun hself
  refine ⟨k', a, hrun, ⟨h.roomy.give (by rw [hk']), hb, ?_, ?_⟩, hself, hempty, hbase, ?_, hi, ?_, ?_⟩
  · rw [hk']
    exact congrArg (· + 1) h.next
  · rw [hk']
    have := h.free
    show m ≤ freeCount s'
    omega
  · intro sp hsp
    rw [hk', h.next]
    exact update_of_ne hsp ..
  · rw [hk']
  · rw [hk']

theorem Scene.plant (h : Scene k pa R K n m) (sp : Nat) (t : VmaTree) :
    Scene (k.plant pa sp t) pa R K (n + 1) m where
  roomy := h.roomy.plant
  base := (h.roomy.plant_base h.base).1
  next := congrArg (· + 1) h.next
  free := h.free

section

variable (h : Scene k pa R K n m) (ha : k.space src = some a) (hd : k.space dst = some d) (hne : src ≠ dst)
  (hins : vmaInsert (d.vmas.set n vma) n = some (.ok t))
  (hpages : (Prog.forRange (fun i => clonePage a.pml4Phys d.pml4Phys (vma.start + i * pageSize))
    (pagesIn vma.start vma.stop)).run k.phys = done () s')
include h ha hd hne hins hpages

theorem Scene.cloneOne_run : (cloneOneVma src dst vma).run k =
      done () (({ k with phys := s' } : Kern).plant pa dst t) := by
  unfold cloneOneVma
  rw [run_bind_ok h.roomy.kzalloc]
  have hd' : ({ k with heap := k.heap.give pa } : Kern).space dst = some d := hd
  rw [run_bind_ok (run_vmasOf hd'), h.next, run_bind_ok (run_known hins)]
  have hset : (setVmas dst t).run { k with heap := k.heap.give pa } =
      done () (k.plant pa dst t) := rfl
  have ha' : (k.plant pa dst t).space src = some a := (plant_of_ne hne).trans ha
  rw [run_bind_ok hset, run_bind_ok (run_pml4Of ha'), run_bind_ok (run_pml4Of (plant_self _ _ hd))]
  exact run_onPhys (k := k.plant pa dst t) hpages

theorem Scene.cloneOne {m' : Nat} (hb : Base { k with phys := s' } R K) (hfree : m' ≤ freeCount s') :
    ∃ k', (cloneOneVma src dst vma).run k = done () k' ∧ Scene k' pa R K (n + 1) m' ∧
      k'.space dst = some { d with vmas := t } ∧ (∀ sp, sp ≠ dst → k'.space sp = k.space sp) ∧
      k'.phys = s' ∧ k'.roots = k.roots := by
  have hs : Scene { k with phys := s' } pa R K n m' :=
    ⟨⟨h.roomy.room, h.roomy.homes, h.roomy.keeper⟩, hb, h.next, hfree⟩
  exact ⟨_, h.cloneOne_run ha hd hne hins hpages, hs.plant _ _, plant_self _ _ hd,
    fun sp hsp => plant_of_ne hsp, rfl, setVmas_roots⟩

end

theorem cloneLoop_next {id : Nat} (ha : k.space src = some a)
    (hone : (cloneOneVma src dst (a.vmas.vma id)).run k = done () k1)
    (ha1 : k1.space src = some a) (hnext : vmaNext a.vmas id = some o) :
    (cloneLoop src dst (some id)).run k = (cloneLoop src dst o).run k1 := by
  rw [cloneLoop.eq_def]
  rw [run_bind_ok (run_vmasOf ha), run_bind_ok hone, run_bind_ok (run_vmasOf ha1),
    run_bind_ok (run_known hnext)]

theorem Scene.fill (h : Scene k pa R K n (m + 4)) (vma : Vma) (ec : FaultCode) (ha : k.space sp = some a)
    (hv : v < userPages) (hp : k.pte sp v = none) (hperm : ec.permitted vma.flags = true) :
    ∃ s' e, (vmmHandleLazyFault a.pml4Phys vma (v * pageSize) ec).run k.phys = done () s' ∧
      Scene { k with phys := s' } pa R K n m ∧ PageSet k.roots sp v e k.phys s' ∧
      has e pteWrite = (!ec.id && ec.w) ∧ has e pteNx = (!ec.id) ∧
      (has e pteWrite = true → pteFrame e ≠ zeroFrame k.phys) := by
  have hfree := h.free
  have hspec := vmmHandleLazyFault_spec vma ec h.base.pt (Kern.roots_eq ha) hv hp
  rw [← h.base.pml4_eq ha] at hspec
  rcases hspec with ⟨_, s', hrun, hpt, e, hset, hwe, hnx, -, hfree', hz, -⟩ | ⟨_, s', -, -, -, hfew⟩
  · refine ⟨s', e, hrun, ⟨⟨h.roomy.room, h.roomy.homes, h.roomy.keeper⟩,
      h.base.phys hpt hset.zeroPage, h.next, ?_⟩, hset, hwe, hnx, hz⟩
    show m ≤ freeCount s'
    omega
  · have := hfew hperm
    omega

variable {va id : Nat} {b : BitVec 8} {e : BitVec 64}

def absentFault (acc : Access) : FaultCode := ⟨false, acc.isStore, true, acc.isFetch⟩

theorem run_attempt_onPhys {p : PhysM Unit} (h : p.run k.phys = done () s') :
    (onPhys p).attempt.run k = done (.ok ()) { k with phys := s' } := by
  have hr : onPhys p k = done () { k with phys := s' } := run_onPhys h
  simp [Prog.run, Prog.attempt, hr]

theorem Scene.access_fault (h : Scene k pa R K n (m + 4)) (va : Nat) (acc : Access) (ha : k.space sp = some a)
    (hv : va / pageSize < userPages) (hp : k.pte sp (va / pageSize) = none)
    (hfind : vmaFind a.vmas va = some (some id))
    (hperm : (absentFault acc).permitted (a.vmas.vma id).flags = true) :
    ∃ s' e, (userAccess sp va acc).run k =
        done (.handled .resumed) { k with phys := s' } ∧
      Scene { k with phys := s' } pa R K n m ∧ PageSet k.roots sp (va / pageSize) e k.phys s' ∧
      has e pteWrite = (!acc.isFetch && acc.isStore) ∧ has e pteNx = (!acc.isFetch) ∧
      (has e pteWrite = true → pteFrame e ≠ zeroFrame k.phys) := by
  obtain ⟨s', e, hrun, h', hset, hwe, hnx, hz⟩ := h.fill _ _ ha hv hp hperm
  have hhandle : (exceptionsHandle (some sp) va (absentFault acc)).run k =
      done .resumed { k with phys := s' } := by
    unfold exceptionsHandle
    rw [run_bind_ok (run_spaceOf ha), run_bind_ok (run_known hfind)]
    dsimp only
    rw [if_neg (by simp [absentFault]), run_bind_ok (run_attempt_onPhys hrun)]
    rfl
  refine ⟨s', e, ?_, h', hset, hwe, hnx, hz⟩
  unfold userAccess
  rw [run_bind_ok (run_pml4Of ha), run_bind_ok (run_read _ k), translate_run h.base ha hv, hp]
  show (exceptionsHandle (some sp) va (absentFault acc) >>= _).run k = _
  rw [run_bind_ok hhandle]
  rfl

-- The entry `e` of the page `v` is the only one in any space.
def Sole (k : Kern) (sp v : Nat) (e : BitVec 64) : Prop :=
  ∀ t u, k.pte t u = if t = sp ∧ u = v then some e else none

theorem Sole.entry (h : Sole k sp v e) : k.pte sp v = some e := (h sp v).trans (if_pos ⟨rfl, rfl⟩)

theorem Sole.key {t : Nat} (h : Sole k sp v e) (he : k.pte t u = some e') : t = sp ∧ u = v :=
  (Option.ite_none_right_eq_some.1 ((h t u).symm.trans he)).1

theorem Sole.set {s' : Phys} (hnone : ∀ t u, k.pte t u = none) (hset : PageSet k.roots sp v e k.phys s') :
    Sole { k with phys := s' } sp v e := by
  intro t u
  rw [← hnone t u]
  exact hset.pte t u

theorem Scene.store_fault (h : Scene k pa R K n (m + 4)) (va : Nat) (b : BitVec 8) (ha : k.space sp = some a)
    (hv : va / pageSize < userPages) (hnone : ∀ t u, k.pte t u = none)
    (hfind : vmaFind a.vmas va = some (some id)) (hw : (a.vmas.vma id).flags.write = true) :
    ∃ s' e, (userAccess sp va (.store b)).run k =
        done (.handled .resumed) { k with phys := s' } ∧
      Scene { k with phys := s' } pa R K n m ∧ Sole { k with phys := s' } sp (va / pageSize) e ∧
      has e pteWrite = true ∧ pteFrame e ≠ zeroFrame s' := by
  obtain ⟨s', e, hrun, h', hset, hwe, -, hz⟩ := h.access_fault va (.store b) ha hv (hnone sp _) hfind hw
  refine ⟨s', e, hrun, h', .set hnone hset, hwe, ?_⟩
  rw [zeroFrame_eq hset.zeroPage]
  exact hz hwe

theorem Scene.store (h : Scene k pa R K n m) (va : Nat) (b : BitVec 8) (ha : k.space sp = some a)
    (hv : va / pageSize < userPages) (hp : k.pte sp (va / pageSize) = some e)
    (hw : has e pteWrite = true) (hz : pteFrame e ≠ zeroFrame k.phys)
    (hex : ∀ t u e', k.pte t u = some e' → pteFrame e' = pteFrame e → t = sp ∧ u = va / pageSize) :
    ∃ s', (userAccess sp va (.store b)).run k = done (.value b) { k with phys := s' } ∧
      Scene { k with phys := s' } pa R K n m ∧
      (∀ t u, ({ k with phys := s' } : Kern).pte t u = k.pte t u) ∧
      ({ k with phys := s' } : Kern).byte sp va = b := by
  set s' : Phys := { k.phys with mem := setByte k.phys.mem (pteAddr e + va % pageSize) b } with hs'
  have hlt : va % pageSize < pageSize := Nat.mod_lt _ (by decide)
  obtain ⟨hb, hpte, hbytes⟩ := write_base hp hz hex [b] (by simp; omega) hs' h.base
  refine ⟨s', ?_, ⟨⟨h.roomy.room, h.roomy.homes, h.roomy.keeper⟩, hb, h.next, h.free⟩, hpte, ?_⟩
  · unfold userAccess
    rw [run_bind_ok (run_pml4Of ha), run_bind_ok (run_read _ k), translate_run h.base ha hv, hp]
    dsimp only [Option.map_some]
    rw [if_pos (by simp [Access.passes, Access.isStore, Access.isFetch, hw])]
    rfl
  · rw [hbytes, if_pos ⟨rfl, by simp, by simp⟩]
    simp

-- A store to a page that may be written, but is shared.
theorem Scene.cow_fault (h : Scene k pa R K n (m + 4)) (va : Nat) (b : BitVec 8) (ha : k.space sp = some a)
    (hv : va / pageSize < userPages) (hp : k.pte sp (va / pageSize) = some e) (hro : has e pteWrite = false)
    (hfind : vmaFind a.vmas va = some (some id)) (hw : (a.vmas.vma id).flags.write = true) :
    ∃ s' e', (userAccess sp va (.store b)).run k = done (.handled .resumed) { k with phys := s' } ∧
      Scene { k with phys := s' } pa R K n 0 ∧ PageSet k.roots sp (va / pageSize) e' k.phys s' ∧
      has e' pteWrite = true ∧ pteFrame e' ≠ zeroFrame k.phys ∧
      ∀ t u e'', ¬ (t = sp ∧ u = va / pageSize) → k.pte t u = some e'' → pteFrame e'' ≠ pteFrame e' := by
  have hfree := h.free
  have hpage : va / pageSize * pageSize / pageSize = va / pageSize := Nat.mul_div_cancel _ (by decide)
  have hv' : va / pageSize * pageSize / pageSize < userPages := hpage.symm ▸ hv
  have hspec := vmmHandleCowFault_spec h.base.pt (Kern.roots_eq ha) hv'
  rw [← h.base.pml4_eq ha, hpage] at hspec
  rcases hspec with ⟨_, s', hrun, hpt, e1, e', -, hset, hw', -, hz, hfresh⟩ | ⟨_, s', -, -, -, hfew⟩
  · have hhandle : (exceptionsHandle (some sp) va ⟨true, true, true, false⟩).run k =
        done .resumed { k with phys := s' } := by
      unfold exceptionsHandle
      rw [run_bind_ok (run_spaceOf ha), run_bind_ok (run_known hfind)]
      dsimp only
      rw [if_pos rfl, if_pos ⟨rfl, hw⟩, run_bind_ok (run_attempt_onPhys hrun)]
      rfl
    refine ⟨s', e', ?_, ⟨⟨h.roomy.room, h.roomy.homes, h.roomy.keeper⟩, h.base.phys hpt hset.zeroPage, h.next,
      Nat.zero_le _⟩, hset, hw', hz, hfresh⟩
    unfold userAccess
    rw [run_bind_ok (run_pml4Of ha), run_bind_ok (run_read _ k), translate_run h.base ha hv, hp]
    dsimp only [Option.map_some]
    rw [if_neg (by simp [Access.passes, Access.isStore, hro])]
    show (exceptionsHandle (some sp) va ⟨true, true, true, false⟩ >>= _).run k = _
    rw [run_bind_ok hhandle]
    rfl
  · have hsome : k.pte sp (va / pageSize) ≠ none := by simp [hp]
    have := hfew hsome
    omega

theorem read_run (va : Nat) (acc : Access) (h : Base k R K) (ha : k.space sp = some a)
    (hv : va / pageSize < userPages) (hp : k.pte sp (va / pageSize) = some e) (hs : acc.isStore = false)
    (hx : acc.isFetch = true → has e pteNx = false) :
    (userAccess sp va acc).run k = done (.value (k.byte sp va)) k := by
  unfold userAccess
  rw [run_bind_ok (run_pml4Of ha), run_bind_ok (run_read _ k), translate_run h ha hv, hp]
  dsimp only [Option.map_some]
  rw [byte_eq hp]
  cases acc with
  | store => cases hs
  | load => rfl
  | fetch =>
    rw [if_pos (by simp [Access.passes, Access.isStore, hx rfl])]
    rfl

theorem cloneLoop_end : (cloneLoop src dst none).run k = done () k := by
  rw [cloneLoop.eq_def]
  rfl

theorem cloneSpace_run (hcreate : vmmCreateSpace.run k = done (some dst) k1) (ha : k1.space src = some a)
    (hfirst : vmaFirst a.vmas = some first) (hloop : (cloneLoop src dst first).run k1 = done () k2) :
    (vmmCloneSpace src).run k = some (.ok (.ok dst, k2)) := by
  have hattempt : (cloneLoop src dst first).attempt.run k1 = done (.ok ()) k2 := by
    have h' : cloneLoop src dst first k1 = done () k2 := hloop
    simp [Prog.run, Prog.attempt, h']
  unfold vmmCloneSpace
  rw [run_bind_ok hcreate]
  rw [run_bind_ok (run_vmasOf ha), run_bind_ok (run_known hfirst), run_bind_ok hattempt]
  rfl

theorem one_page {f : Nat → PhysM Unit} (h : (f 0).run s = done () s') :
    (Prog.forRange f 1).run s = done () s' := by
  unfold Prog.forRange Prog.forRange
  exact h

theorem Scene.cloneShared (h : Scene k pa R K n (m + 3)) (vma : Vma) (v : Nat) (ha : k.space src = some a)
    (hd : k.space dst = some d) (hne : src ≠ dst)
    (hins : vmaInsert (d.vmas.set n vma) n = some (.ok t)) (hstart : vma.start = v * pageSize)
    (hone : pagesIn vma.start vma.stop = 1) (hv : v < userPages) (hvac : k.pte dst v = none)
    (hc : Shareable k) :
    ∃ k', (cloneOneVma src dst vma).run k = done () k' ∧ Scene k' pa R K (n + 1) m ∧
      k'.space dst = some { d with vmas := t } ∧ (∀ sp, sp ≠ dst → k'.space sp = k.space sp) ∧
      SharedPage k k' src dst v ∧ k'.phys.pmm.mmZeroPage = k.phys.pmm.mmZeroPage := by
  have hfree := h.free
  have hbound : ∀ e, k.pte src v = some e → pteFrame e ≠ zeroFrame k.phys →
      refs k.phys (pteFrame e) < 0xFFFF := by
    intro e _ hz
    rw [h.base.pt.counts _ hz, Nat.add_zero]
    exact hc _ hz
  have hspec := clonePage_spec h.base.pt (Kern.roots_eq ha) (Kern.roots_eq hd) hne hv hvac hbound
  rw [← h.base.pml4_eq ha, ← h.base.pml4_eq hd] at hspec
  rcases hspec with ⟨_, s', hrun, hpt, hfree', hcase⟩ | ⟨_, s', -, -, hfew, -⟩
  · have hzero : s'.pmm.mmZeroPage = k.phys.pmm.mmZeroPage := by
      rcases hcase with ⟨-, rfl⟩ | ⟨e, e1, e2, -, hsh⟩
      · rfl
      · exact hsh.zeroPage
    have hpages : (Prog.forRange (fun i => clonePage a.pml4Phys d.pml4Phys (vma.start + i * pageSize))
        (pagesIn vma.start vma.stop)).run k.phys = done () s' := by
      rw [hone]
      apply one_page
      rw [Nat.zero_mul, Nat.add_zero, hstart]
      exact hrun
    obtain ⟨k', hrun', h', hd', hother, hphys, hroots⟩ := h.cloneOne ha hd hne hins hpages
      (h.base.phys hpt hzero) (show m ≤ _ by omega)
    have hpte : ∀ t u, k'.pte t u = pte s'.mem k.roots t u := by
      intro t u
      unfold Kern.pte
      rw [hphys, hroots]
    refine ⟨k', hrun', h', hd', hother, ⟨fun hnone t u => ?_, fun e he => ?_⟩, by rw [hphys, hzero]⟩
    · rcases hcase with ⟨-, rfl⟩ | ⟨e, e1, e2, hp, -⟩
      · exact hpte t u
      · have hp' : k.pte src v = some e := hp
        rw [hnone] at hp'
        cases hp'
    rcases hcase with ⟨hp, -⟩ | ⟨e', e1, e2, hp, hsh⟩
    · have hp' : k.pte src v = none := hp
      rw [he] at hp'
      cases hp'
    obtain rfl : e = e' := Option.some.inj (he.symm.trans hp)
    refine ⟨e1, e2, fun t u => (hpte t u).trans (hsh.pte t u),
      ⟨hsh.frame.1, hsh.readOnly.1, hsh.nx.1⟩, ⟨hsh.frame.2, hsh.readOnly.2, hsh.nx.2⟩, ?_⟩
    intro i hi
    unfold Kern.words
    rw [hphys, hroots]
    exact hsh.copy i hi
  · omega

theorem Scene.cloneNothing (h : Scene k pa R K n m) (vma : Vma) (ha : k.space src = some a)
    (hd : k.space dst = some d) (hne : src ≠ dst)
    (hins : vmaInsert (d.vmas.set n vma) n = some (.ok t)) (hnone : pagesIn vma.start vma.stop = 0) :
    ∃ k', (cloneOneVma src dst vma).run k = done () k' ∧ Scene k' pa R K (n + 1) m ∧
      k'.space dst = some { d with vmas := t } ∧ (∀ sp, sp ≠ dst → k'.space sp = k.space sp) ∧
      k'.phys = k.phys ∧ k'.roots = k.roots := by
  have hb : Base { k with phys := k.phys } R K := h.base
  apply h.cloneOne ha hd hne hins _ hb h.free
  rw [hnone]
  rfl

theorem clonePage_again {roots : Nat → Option Nat} {e : BitVec 64} (h : PtInv s R roots O fun _ => 0)
    (hsrc : roots src = some f) (hdst : roots dst = some f') (hv : v < userPages)
    (hp : pte s.mem roots src v = some e) (hp' : pte s.mem roots dst v = some e')
    (hro : has e pteWrite = false) (hf : pteFrame e' = pteFrame e) (hz : pteFrame e ≠ zeroFrame s)
    (hc : refs s (pteFrame e) < 0xFFFF) (hfree : 3 ≤ freeCount s) :
    wp (clonePage (f * pageSize) (f' * pageSize) (v * pageSize))
      (fun _ s' => s'.pmm.mmZeroPage = s.pmm.mmZeroPage ∧
        refs s' (pteFrame e) = refs s (pteFrame e) + 1 ∧
        ∀ key, frameMap s'.mem roots key = frameMap s.mem roots key)
      never s := by
  have hleaf := h.shape.leaf src v e hp
  have hfl := sharedFlags_user hleaf
  have hlt := pteFrame_lt e
  have hframe := entryOf_ofNat hfl hlt
  unfold clonePage
  apply wp_bind_attempt
  apply getFlags_spec h hsrc hv
  · intro e0 he0
    obtain rfl : e = e0 := Option.some.inj (hp.symm.trans he0)
    dsimp only
    rw [if_neg (by simp [hleaf.huge]), if_neg (by simp [hro]), pteAddr_frame]
    refine (pagingMap_write h hdst hv hlt hfl.user).bind ?_ ?_
    · rintro _ s2 ⟨s1, c, hpt1, hgrow, -, ht, rfl⟩
      have hl := leafSet_of_grown (e := entryOf (BitVec.ofNat 64 (pteFrame e * pageSize)) (sharedFlags e))
        hpt1.shape hgrow hv ht
      have hzf := zeroFrame_eq hgrow.zeroPage
      have hp1 : pte s1.mem roots src v = some e := by rw [hgrow.pte, hp]
      apply wp_bind_read
      rw [if_pos (by
        intro hcon
        exact hz ((frame_eq_zero h).1 (hcon.trans hgrow.zeroPage)))]
      have hpos := hpt1.mapped_refs hp1 (by rwa [hzf])
      obtain ⟨p, hget, -, hzpp, hrefs, -⟩ := hpt1.get hpos (by rwa [hgrow.refs])
      have hrun : (fun s : Phys => (pmmGetUserPage s.pmm (pteFrame e * pageSize)).map fun pmm =>
          { s with pmm }) ⟨s1.pmm, update s1.mem (c * 512 + v % 512)
            (entryOf (BitVec.ofNat 64 (pteFrame e * pageSize)) (sharedFlags e))⟩ =
          .ok ⟨p, update s1.mem (c * 512 + v % 512)
            (entryOf (BitVec.ofNat 64 (pteFrame e * pageSize)) (sharedFlags e))⟩ := by
        show (pmmGetUserPage s1.pmm (pteFrame e * pageSize)).map _ = _
        rw [hget]
        rfl
      apply wp_of_ok (run_orPanic hrun)
      refine ⟨hzpp.trans hgrow.zeroPage, ?_, fun key => ?_⟩
      · rw [← hgrow.refs]
        exact (hrefs _).trans (if_pos rfl)
      have hpte := hl.pte key.1 key.2
      rw [if_pos (show has (entryOf _ _) ptePresent = true from entryOf_present)] at hpte
      show Option.map pteFrame (pte (update s1.mem _ _) roots key.1 key.2) = _
      rw [hpte]
      unfold frameMap
      by_cases hkey : key.1 = dst ∧ key.2 = v
      · rw [if_pos hkey, hkey.1, hkey.2, hp', Option.map_some, Option.map_some, hframe, hf]
      · rw [if_neg hkey]
    · rintro _ s1 ⟨-, -, -, hfew⟩
      omega
  · intro hnone
    rw [hp] at hnone
    cases hnone

end runs

section steps

variable {k k' : Kern} {sp r dst va : Nat} {a : AddrSpace} {addr length : BitVec 64}
  {prot flags : BitVec 32}

theorem step_createSpace (h : vmmCreateSpace.run k = done (some sp) k') :
    Step k (.createSpace, .ok (.space (some sp))) k' := by
  refine ⟨trivial, ?_⟩
  show (vmmCreateSpace >>= fun r => pure (Answer.space r)).run k = _
  rw [run_bind_ok h]
  rfl

theorem step_mapAnonymous (addr length : BitVec 64) (ha : k.space sp = some a)
    (h : (vmmMapAnonymous sp addr.toNat length.toNat prot flags).run k = done r k') :
    Step k (.mapAnonymous sp addr length prot flags, .ok (.addr r)) k' := by
  refine ⟨by simp [Call.Valid, ha], ?_⟩
  show (vmmMapAnonymous sp addr.toNat length.toNat prot flags >>= fun r => pure (Answer.addr r)).run k = _
  rw [run_bind_ok h]
  rfl

theorem step_cloneSpace (hlive : k.space sp = some a) (hc : Shareable k)
    (h : (vmmCloneSpace sp).run k = some (.ok (.ok dst, k'))) :
    Step k (.cloneSpace sp, .ok (.space (some dst))) k' := by
  refine ⟨⟨by simp [hlive], hc⟩, ?_⟩
  show (vmmCloneSpace sp >>= fun dst => pure (Answer.space (some dst))).run k = _
  rw [run_bind_ok h]
  rfl

theorem step_access {acc : Access} {r : Reply} (hlive : k.space sp = some a)
    (hva : va < userTop) (h : (userAccess sp va acc).run k = done r k') :
    Step k (.access sp va acc, .ok (.reply r)) k' := by
  refine ⟨⟨by simp [hlive], hva⟩, ?_⟩
  show (userAccess sp va acc >>= fun r => pure (Answer.reply r)).run k = _
  rw [run_bind_ok h]
  rfl

end steps

theorem count_le_card {k : Kern} (S : Finset (Nat × Nat)) (h : ∀ sp v e, k.pte sp v = some e → (sp, v) ∈ S)
    (f : Nat) : count (frameMap k.phys.mem k.roots) f ≤ S.card := by
  unfold count
  rw [← Set.ncard_coe_finset]
  apply Set.ncard_le_ncard _ S.finite_toSet
  intro key hkey
  obtain ⟨e, he, -⟩ := Option.map_eq_some_iff.1 hkey
  exact h key.1 key.2 e he

theorem count_sole {k : Kern} (sp v : Nat) (h : ∀ t u e, k.pte t u = some e → t = sp ∧ u = v) :
    Shareable k := by
  intro f _
  refine Nat.lt_of_le_of_lt (count_le_card {(sp, v)} (fun t u e he => ?_) f) (by simp)
  exact Finset.mem_singleton.2 (Prod.ext_iff.2 (h t u e he))

end Jnu.System
