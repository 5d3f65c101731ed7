import Jnu.System.Scene

namespace Jnu.System

open Lib.Dyadic Lib.Effect Lib.Refs Lib.Trace Paging Pmm Mm

-- The ceiling of the first space is one page below the top of the area for mappings.
def crossing : Nat := mmapBaseTop - pageSize

def readWrite : BitVec 32 := protRead ||| protWrite

def anywhere : BitVec 32 := mapPrivate ||| Mm.mapAnonymous

def fixed : BitVec 32 := anywhere ||| mapFixed

def hugeLength : BitVec 64 := BitVec.ofNat 64 (2 ^ 64 - pageSize)

-- The VMA of the huge mapping ends before it begins.
def wrapped : Vma := ⟨mmapBaseTop, crossing, protToVma readWrite⟩

def window : Vma := ⟨crossing, mmapBaseTop, protToVma readWrite⟩

def firstEvents : List Event :=
  [(.createSpace, .ok (.space (some 1))),
    (.mapAnonymous 1 0 hugeLength readWrite anywhere, .ok (.addr mmapBaseTop)),
    (.mapAnonymous 1 (BitVec.ofNat 64 crossing) 4096 readWrite fixed, .ok (.addr crossing))]

theorem firstEvents_run : ∃ k0 R K k a pa, Boot k0 R K ∧ Run Step k0 firstEvents k ∧
    Scene k pa R K 4 200 ∧ k.space 1 = some a ∧
    a.vmas.Pair 2 3 wrapped window ∧
    (∀ sp, sp ≠ 1 → k.space sp = none) ∧ (∀ sp v, k.pte sp v = none) ∧ k.rand k.draws = 0 := by
  obtain ⟨s, K, pa, hboot, hfree⟩ := bootKern_boot
  set rand : Nat → Nat := fun i => if i = 0 then 1 else 0 with hrand
  have hb := hboot rand
  have h0 : Scene (bootKern s pa rand) pa (registeredPages wideMap) K 1 (200 + 1) :=
    ⟨.bootKern s pa rand, hb.base, rfl, Nat.le_trans (by decide) hfree⟩
  obtain ⟨k1, a1, hrun1, h1, ha1, hempty, hbase, hother, hidle, hrand1, hdraws1⟩ := h0.create
  have hone : (bootKern s pa rand).rand (bootKern s pa rand).draws = 1 := by simp [bootKern, hrand]
  have hceil : a1.mmapBase = crossing := by
    rw [hbase, hone]
    simp [crossing, pageSize]
  -- the gap search wraps around
  have hgap : vmaFindGapTopDown a1.vmas (pageAlignUp hugeLength.toNat) a1.mmapBase =
      some mmapBaseTop := by
    rw [hempty, hceil]
    decide
  obtain ⟨t2, hins2, hdraw2⟩ := insert_first 2 wrapped hempty
  have hrun2 := h1.roomy.mapAnywhere (0 : BitVec 64).toNat hugeLength.toNat readWrite ha1
    (by decide) (by decide) (by decide) hgap (by decide)
    (t := t2) (by rw [h1.next]; exact hins2)
  have h2 := h1.plant 1 t2
  have ha2 := plant_self pa t2 ha1
  -- the page at the ceiling goes to the left of it
  obtain ⟨hfirst2, hnext2⟩ := one_order hdraw2
  obtain ⟨hr2, hn2⟩ := hdraw2
  simp only [List.forall_mem_singleton] at hn2
  have hleft2 : ∀ x, x < mmapBaseTop → vmaFind t2 x = some none := by
    intro x hx
    unfold vmaFind
    rw [hr2, findFrom_left (by rw [hn2.2]; exact hx), hn2.1, findFrom_none]
  have habove2 : vmaAtOrAbove t2 crossing = some none := by
    rw [vmaAtOrAbove_skip (hleft2 _ (by decide)) hfirst2,
      skipBelow_next (by rw [hn2.2]; exact Nat.le_refl _) hnext2, skipBelow_none]
  have hnothing := removeRange_nothing crossing mmapBaseTop ha2 (by decide)
    (hleft2 _ (by decide)) (hleft2 _ (by decide)) (by simp) habove2 (by simp)
  obtain ⟨t3, hins3, hdraw3⟩ := insert_left 3 window ⟨hr2, by simpa using hn2⟩
    (by decide) (by decide)
  have hrun3 := h2.roomy.mapFixed (BitVec.ofNat 64 crossing).toNat (4096 : BitVec 64).toNat readWrite ha2
    (by decide) (by decide) (by decide) (by decide) (by decide)
    (by decide) hnothing (t := t3) (by rw [h2.next]; exact hins3)
  have hrun : Run Step (bootKern s pa rand) firstEvents ((k1.plant pa 1 t2).plant pa 1 t3) := by
    have hstep1 := Run.one (step_createSpace hrun1)
    have hstep2 := hstep1.snoc (step_mapAnonymous 0 hugeLength ha1 hrun2)
    exact hstep2.snoc (step_mapAnonymous _ 4096 ha2 hrun3)
  refine ⟨_, _, _, _, _, pa, hb, hrun, h2.plant _ _, plant_self _ _ ha2, hdraw3, ?_, ?_, ?_⟩
  · intro sp hsp
    rw [plant_of_ne hsp, plant_of_ne hsp, hother sp hsp]
    exact hb.vacant sp
  · intro sp v
    rw [(h2.roomy.plant_base h2.base).2.pte, (h1.roomy.plant_base h1.base).2.pte, hidle.pte]
    exact pte_none (hb.vacant sp) v
  · show k1.rand k1.draws = 0
    rw [hrand1, hdraws1]
    simp [bootKern, hrand]

def ceilingPage : Nat := crossing / pageSize

section sharing

variable {k : Kern} {R : Set Nat} {K : Set Block} {pa m n : Nat} {a : AddrSpace}

-- The page below the ceiling is the first mapping of a copy.
theorem cloneFirst (h : Scene k pa R K n (m + 3 + 1)) (ha : k.space 1 = some a) (hne : 1 ≠ n)
    (hvac : k.pte n ceilingPage = none) (hc : Shareable k) :
    ∃ k1 k2 b, vmmCreateSpace.run k = done (some n) k1 ∧ k1.space 1 = some a ∧
      (cloneOneVma 1 n window).run k1 = done () k2 ∧ Scene k2 pa R K (n + 2) m ∧
      k2.space n = some b ∧ b.vmas.One (n + 1) window ∧
      b.mmapBase = mmapBaseTop - k.rand k.draws % 262144 * pageSize ∧
      (∀ sp, sp ≠ n → k2.space sp = k.space sp) ∧ SharedPage k k2 1 n ceilingPage ∧
      k2.phys.pmm.mmZeroPage = k.phys.pmm.mmZeroPage := by
  obtain ⟨k1, d, hrun1, h1, hd1, hempty, hbase, hother, hidle, -, -⟩ := h.create
  have ha1 := (hother 1 hne).trans ha
  obtain ⟨t, hins, hdraw⟩ := insert_first (n + 1) window hempty
  obtain ⟨k2, hone, h2, hd2, hother2, hshare, hzero⟩ := h1.cloneShared window ceilingPage
    ha1 hd1 hne hins (by decide) (by decide) (by decide) ((hidle.pte n _).trans hvac)
    (hc.congr hidle.pte hidle.zeroPage)
  exact ⟨k1, k2, _, hrun1, ha1, hone, h2, hd2, hdraw, hbase,
    fun sp hsp => (hother2 sp hsp).trans (hother sp hsp), hshare.congr hidle rfl rfl,
    hzero.trans hidle.zeroPage⟩

theorem cloneWindow (h : Scene k pa R K 4 (m + 3 + 1)) (ha : k.space 1 = some a)
    (hdraw : a.vmas.Pair 2 3 wrapped window)
    (hvac : ∀ sp, sp ≠ 1 → k.space sp = none) (hrand : k.rand k.draws = 0) (hc : Shareable k) :
    ∃ k' b, (vmmCloneSpace 1).run k = done 4 k' ∧ Scene k' pa R K 7 m ∧
      k'.space 4 = some b ∧ b.mmapBase = mmapBaseTop ∧
      b.vmas.Pair 5 6 window wrapped ∧
      (∀ sp, sp ≠ 1 → sp ≠ 4 → k'.space sp = none) ∧ SharedPage k k' 1 4 ceilingPage := by
  obtain ⟨k1, k2, d, hrun1, ha1, hone2, h2, hd2, hdraw5, hbase, hother, hshare, -⟩ :=
    cloneFirst h ha (by decide) (pte_none (hvac 4 (by decide)) _) hc
  obtain ⟨hfirst, hnext3, hnext2⟩ := pair_order hdraw
  have hn := hdraw.2
  simp only [List.forall_mem_cons] at hn
  obtain ⟨t6, hins6, hdraw6⟩ := insert_left 6 wrapped hdraw5 (by decide) (by decide)
  have ha2 := (hother 1 (by decide)).trans ha
  obtain ⟨k3, hone3, h3, hd3, hother3, hphys3, hroots3⟩ := h2.cloneNothing wrapped
    ha2 hd2 (by decide) hins6 (by decide)
  have ha3 := (hother3 1 (by decide)).trans ha2
  have hloop : (cloneLoop 1 4 (some 3)).run k1 = done () k3 := by
    rw [cloneLoop_next ha1 (by rw [hn.2.1.2]; exact hone2) ha2 hnext3,
      cloneLoop_next ha2 (by rw [hn.1.2]; exact hone3) ha3 hnext2, cloneLoop_end]
  refine ⟨k3, _, cloneSpace_run hrun1 ha1 hfirst hloop, h3, hd3, ?_, hdraw6, ?_,
    hshare.congr (.refl k) hphys3 hroots3⟩
  · show d.mmapBase = mmapBaseTop
    rw [hbase, hrand]
    rfl
  · intro sp h1 h4
    rw [hother3 sp h4, hother sp h4]
    exact hvac sp h1

theorem cloneMapping (h : Scene k pa R K 3 (m + 3 + 1)) (ha : k.space 1 = some a)
    (hdraw : a.vmas.One 2 window) (hvac : k.pte 3 ceilingPage = none) (hc : Shareable k) :
    ∃ k' b, (vmmCloneSpace 1).run k = done 3 k' ∧ Scene k' pa R K 5 m ∧ k'.space 1 = some a ∧
      k'.space 3 = some b ∧ b.vmas.One 4 window ∧ SharedPage k k' 1 3 ceilingPage ∧
      k'.phys.pmm.mmZeroPage = k.phys.pmm.mmZeroPage := by
  obtain ⟨k1, k2, b, hrun1, ha1, hone, h2, hd2, hdraw', -, hother, hshare, hzero⟩ :=
    cloneFirst h ha (by decide) hvac hc
  obtain ⟨hfirst, hnext⟩ := one_order hdraw
  have hn := hdraw.2
  simp only [List.forall_mem_singleton] at hn
  have ha2 := (hother 1 (by decide)).trans ha
  have hloop : (cloneLoop 1 3 (some 2)).run k1 = done () k2 := by
    rw [cloneLoop_next ha1 (by rw [hn.2]; exact hone) ha2 hnext, cloneLoop_end]
  exact ⟨k2, b, cloneSpace_run hrun1 ha1 hfirst hloop, h2, ha2, hd2, hdraw', hshare, hzero⟩

end sharing

-- A space without mappings, and its ceiling not moved.
def createEvents : List Event := [(.createSpace, .ok (.space (some 1)))]

theorem createEvents_run : ∃ k0 R K k a pa, Boot k0 R K ∧ Run SafeStep k0 createEvents k ∧
    Scene k pa R K 2 204 ∧ k.space 1 = some a ∧ a.vmas = .empty ∧ a.mmapBase = mmapBaseTop ∧
    ∀ t u, k.pte t u = none := by
  obtain ⟨s, K, pa, hboot, hfree⟩ := bootKern_boot
  have hb := hboot fun _ => 0
  have h0 : Scene (bootKern s pa fun _ => 0) pa (registeredPages wideMap) K 1 (204 + 1) :=
    ⟨.bootKern s pa _, hb.base, rfl, Nat.le_trans (by decide) hfree⟩
  obtain ⟨k1, a1, hrun1, h1, ha1, hempty, hbase, -, hidle, -, -⟩ := h0.create
  have hstep1 : SafeStep _ (.createSpace, .ok (.space (some 1))) k1 :=
    ⟨not_false, step_createSpace hrun1⟩
  refine ⟨_, _, _, k1, a1, pa, hb, Run.one hstep1, h1, ha1, hempty, ?_, fun t u => ?_⟩
  · rw [hbase, show (bootKern s pa fun _ => 0).rand (bootKern s pa fun _ => 0).draws = 0 from rfl,
      Nat.zero_mod, Nat.zero_mul, Nat.sub_zero]
  · rw [hidle.pte]
    exact pte_none (hb.vacant t) u

def mapEvents (prot : BitVec 32) : List Event :=
  [(.createSpace, .ok (.space (some 1))),
    (.mapAnonymous 1 0 4096 prot anywhere, .ok (.addr crossing))]

def mapping (prot : BitVec 32) : Vma := ⟨crossing, mmapBaseTop, protToVma prot⟩

theorem first_gap {a : AddrSpace} (hempty : a.vmas = .empty) (hbase : a.mmapBase = mmapBaseTop) :
    vmaFindGapTopDown a.vmas (pageAlignUp 4096) a.mmapBase = some crossing := by
  rw [hempty, hbase]
  decide

theorem mapEvents_run (prot : BitVec 32) (hwx : ¬ (hasBit prot protWrite ∧ hasBit prot protExec)) :
    ∃ k0 R K k a pa, Boot k0 R K ∧ Run SafeStep k0 (mapEvents prot) k ∧ Scene k pa R K 3 204 ∧
      k.space 1 = some a ∧
      a.vmas.One 2 (mapping prot) ∧
      ∀ t u, k.pte t u = none := by
  obtain ⟨k0, R, K, k1, a1, pa, hb, hrun1, h1, ha1, hempty, hbase, hnone⟩ := createEvents_run
  obtain ⟨t2, hins2, hdraw2⟩ := insert_first 2 (mapping prot) hempty
  have hrun2 := h1.roomy.mapAnywhere 0 4096 prot ha1
    (by decide) (by decide) hwx (first_gap hempty hbase) (by decide) (t := t2)
    (by rw [h1.next]; exact hins2)
  have hstep2 : SafeStep k1 (.mapAnonymous 1 0 4096 prot anywhere, .ok (.addr crossing))
      (k1.plant pa 1 t2) := by
    refine ⟨fun hc => ?_, step_mapAnonymous 0 4096 ha1 hrun2⟩
    have hlen := hc.2.1
    exact absurd hlen (by decide)
  refine ⟨_, _, _, _, _, pa, hb, hrun1.snoc hstep2, h1.plant _ _, plant_self _ _ ha1, hdraw2, ?_⟩
  intro t u
  rw [(h1.roomy.plant_base h1.base).2.pte, hnone]

theorem mapping_found {t : VmaTree} {prot : BitVec 32} {id : Nat} (h : t.One id (mapping prot)) :
    vmaFind t crossing = some (some id) ∧ t.vma id = mapping prot := by
  obtain ⟨hr, hn⟩ := h
  simp only [List.forall_mem_singleton] at hn
  refine ⟨?_, hn.2⟩
  unfold vmaFind
  rw [hr, findFrom_here (by rw [hn.2]; exact Nat.lt_irrefl _)
    (by rw [hn.2]; show ¬ crossing ≥ mmapBaseTop; decide)]

def calmEvents : List Event :=
  [(.createSpace, .ok (.space (some 1))),
    (.mapAnonymous 1 0 4096 readWrite anywhere, .ok (.addr crossing)),
    (.access 1 crossing (.store 7), .ok (.reply (.handled .resumed)))]

theorem calmEvents_run : ∃ k0 R K k a pa e, Boot k0 R K ∧ Run SafeStep k0 calmEvents k ∧
    Scene k pa R K 3 200 ∧ k.space 1 = some a ∧ a.vmas.One 2 (mapping readWrite) ∧
    Sole k 1 ceilingPage e ∧ has e pteWrite = true ∧ pteFrame e ≠ zeroFrame k.phys := by
  obtain ⟨k0, R, K, k2, a, pa, hb, hrun2, h2, ha2, hdraw, hnone⟩ :=
    mapEvents_run readWrite (by decide)
  obtain ⟨hfind, hvma⟩ := mapping_found hdraw
  obtain ⟨s3, e, hrun3, h3, hsole, hw, hz⟩ := h2.store_fault (m := 200) crossing 7 ha2
    (by decide) hnone hfind (by rw [hvma]; rfl)
  have hstep3 : SafeStep _ (.access 1 crossing (.store 7), .ok (.reply (.handled .resumed))) _ :=
    ⟨not_false, step_access ha2 (by decide) hrun3⟩
  exact ⟨_, _, _, _, _, pa, e, hb, hrun2.snoc hstep3, h3, ha2, hdraw, hsole, hw, hz⟩

-- The page is written, and the space is copied.
def shareEvents : List Event := calmEvents ++
  [(.access 1 crossing (.store 7), .ok (.reply (.value 7))), (.cloneSpace 1, .ok (.space (some 3)))]

-- The page is written in the copy.
def copyEvents : List Event := shareEvents ++
  [(.access 3 crossing (.store 9), .ok (.reply (.handled .resumed))),
    (.access 3 crossing (.store 9), .ok (.reply (.value 9)))]

-- One frame in two spaces, and then one for each.
theorem copyEvents_run : ∃ k0 R K k1 k2 a b e1 e2 e3, Boot k0 R K ∧ Run SafeStep k0 shareEvents k1 ∧
    (∀ t u, k1.pte t u = if t = 3 ∧ u = ceilingPage then some e2
      else if t = 1 ∧ u = ceilingPage then some e1 else none) ∧
    pteFrame e1 = pteFrame e2 ∧ pteFrame e2 ≠ zeroFrame k1.phys ∧ Run SafeStep k0 copyEvents k2 ∧ Base k2 R K ∧
    k2.space 1 = some a ∧ k2.space 3 = some b ∧ k2.pte 1 ceilingPage = some e1 ∧
    k2.pte 3 ceilingPage = some e3 ∧ has e3 pteWrite = true := by
  obtain ⟨k0, R, K, k3, a, pa, e, hb, hrun3, h3, ha3, hdraw, hsole, hw, hz⟩ := calmEvents_run
  have htop : crossing < userTop := by decide
  obtain ⟨s4, hrun4, h4, hp4, -⟩ := h3.store crossing 7 ha3 (by decide) hsole.entry hw hz
    fun _ _ _ he' _ => hsole.key he'
  set k4 : Kern := { k3 with phys := s4 } with hk4
  have hstep4 : SafeStep _ (.access 1 crossing (.store 7), .ok (.reply (.value 7))) k4 :=
    ⟨not_false, step_access ha3 htop hrun4⟩
  have hcount := count_sole 1 ceilingPage fun t u _ he' => hsole.key ((hp4 t u).symm.trans he')
  have hvac : k4.pte 3 ceilingPage = none := (hp4 3 _).trans ((hsole 3 _).trans (if_neg (by decide)))
  -- the copy shares the frame
  obtain ⟨k5, b, hrun5, h5, ha5, hb5, hdraw5, hshare, hzero⟩ := cloneMapping (m := 196) h4 ha3 hdraw hvac hcount
  obtain ⟨e1, e2, hp5, hs1, hs2, -⟩ := hshare.2 e ((hp4 1 _).trans hsole.entry)
  have hp5' : ∀ t u, k5.pte t u = if t = 3 ∧ u = ceilingPage then some e2
      else if t = 1 ∧ u = ceilingPage then some e1 else none := by
    intro t u
    rw [hp5, hp4, hsole]
    split_ifs <;> rfl
  have hstep5 : SafeStep k4 (.cloneSpace 1, .ok (.space (some 3))) k5 :=
    ⟨not_false, step_cloneSpace ha3 hcount hrun5⟩
  have hrun : Run SafeStep k0 shareEvents k5 := (hrun3.snoc hstep4).snoc hstep5
  -- the store takes a frame of its own
  obtain ⟨hfind, hvma⟩ := mapping_found hdraw5
  obtain ⟨s6, e3, hrun6, h6, hset, hw6, hz6, hfresh⟩ := h5.cow_fault (m := 192) crossing 9 hb5 (by decide)
    ((hp5' 3 _).trans (if_pos ⟨rfl, rfl⟩)) hs2.readOnly hfind (by rw [hvma]; rfl)
  set k6 : Kern := { k5 with phys := s6 } with hk6
  have hp6 : ∀ t u, k6.pte t u = if t = 3 ∧ u = ceilingPage then some e3 else k5.pte t u := hset.pte
  have hself : k6.pte 3 ceilingPage = some e3 := (hp6 3 _).trans (if_pos ⟨rfl, rfl⟩)
  obtain ⟨s7, hrun7, h7, hp7, -⟩ := h6.store crossing 9 hb5 (by decide) hself hw6
    (by rw [zeroFrame_eq hset.zeroPage]; exact hz6) fun t u e' he' hf => by
      by_contra hne
      rw [hp6, if_neg (show ¬ (t = 3 ∧ u = ceilingPage) from hne)] at he'
      exact hfresh t u e' hne he' hf
  have hstep6 : SafeStep k5 (.access 3 crossing (.store 9), .ok (.reply (.handled .resumed))) k6 :=
    ⟨not_false, step_access hb5 htop hrun6⟩
  have hstep7 : SafeStep k6 (.access 3 crossing (.store 9), .ok (.reply (.value 9))) { k6 with phys := s7 } :=
    ⟨not_false, step_access hb5 htop hrun7⟩
  refine ⟨k0, R, K, k5, _, a, b, e1, e2, e3, hb, hrun, hp5', hs1.frame.trans hs2.frame.symm, ?_,
    (hrun.snoc hstep6).snoc hstep7, h7.base, ha5, hb5, ?_, (hp7 3 _).trans hself, hw6⟩
  · rw [hs2.frame, zeroFrame_eq hzero]
    exact ((SafeRun.kept hb (hrun3.snoc hstep4)).1.owned.exclusive 1 _ e ((hp4 1 _).trans hsole.entry) hw).1
  · rw [hp7, hp6, if_neg (by decide), hp5', if_neg (by decide), if_pos ⟨rfl, rfl⟩]

end Jnu.System
