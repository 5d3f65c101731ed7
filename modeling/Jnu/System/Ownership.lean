import Jnu.System.Overflow

namespace Jnu.System

open Lib.Dyadic Lib.Effect Lib.Refs Lib.Trace Paging Pmm Mm

variable {k : Kern} {R : Set Nat} {K : Set Block} {e : BitVec 64}

section ownership

variable {k' : Kern} {l : List Event}

theorem count_writable (h : Sound k R K) {sp v : Nat} (hp : k.pte sp v = some e)
    (hw : has e pteWrite = true) : count (frameMap k.phys.mem k.roots) (pteFrame e) = 1 := by
  have hkey : frameMap k.phys.mem k.roots (sp, v) = some (pteFrame e) := by
    have hp' : pte k.phys.mem k.roots sp v = some e := hp
    unfold frameMap
    rw [hp']
    rfl
  unfold count
  rw [Set.ncard_eq_one]
  refine ⟨(sp, v), Set.eq_singleton_iff_unique_mem.2 ⟨hkey, ?_⟩⟩
  intro key hmem
  obtain ⟨e', he', hf⟩ := Option.map_eq_some_iff.1 hmem
  obtain ⟨h1, h2⟩ := (h.owned.exclusive sp v e hp hw).2 key.1 key.2 e' he' hf
  exact Prod.ext h1 h2

theorem refs_zeroFrame (h : Sound k R K) : refs k.phys (zeroFrame k.phys) = 0 :=
  h.base.pt.otherRefs _ h.base.pt.zeroHeld _ (by simp [Block.mem_def])

-- Without the overflow the counts are the numbers of entries, a writable entry has its frame for itself, and
-- no call panics.
theorem cow_ownership (hb : Boot k R K) (hrun : Run SafeStep k l k') :
    (∀ f, f ≠ zeroFrame k'.phys →
      refs k'.phys f = count (frameMap k'.phys.mem k'.roots) f) ∧
    (∀ sp v e, k'.pte sp v = some e → has e pteWrite = true →
      refs k'.phys (pteFrame e) = 1 ∧ pteFrame e ≠ zeroFrame k'.phys) ∧
    refs k'.phys (zeroFrame k'.phys) = 0 ∧
    ∀ c : Call, c.Valid k' → ¬ c.Overflows k' →
      ∃ r k'', (exec c).run k' = some (.ok (r, k'')) := by
  obtain ⟨hs, -⟩ := SafeRun.kept hb hrun
  have hcounts : ∀ f, f ≠ zeroFrame k'.phys →
      refs k'.phys f = count (frameMap k'.phys.mem k'.roots) f := hs.base.pt.counts
  refine ⟨hcounts, ?_, refs_zeroFrame hs, ?_⟩
  · intro sp v e hp hw
    have hz := (hs.owned.exclusive sp v e hp hw).1
    rw [hcounts _ hz]
    exact ⟨count_writable hs hp hw, hz⟩
  · intro c hv hok
    rcases exec_spec hs hv hok with ⟨a, k'', hr, -⟩ | ⟨e, k'', hr, -⟩
    · exact ⟨.ok a, k'', hr⟩
    · exact ⟨.error e, k'', hr⟩

end ownership

theorem cow_ownership_copied : ∃ k₀ R K k₁ k₂ e₁ e₂ e₃, Boot k₀ R K ∧
    Run SafeStep k₀ shareEvents k₁ ∧ k₁.pte 1 ceilingPage = some e₁ ∧ k₁.pte 3 ceilingPage = some e₂ ∧
    pteFrame e₁ = pteFrame e₂ ∧ refs k₁.phys (pteFrame e₂) = 2 ∧
    Run SafeStep k₀ copyEvents k₂ ∧ k₂.pte 3 ceilingPage = some e₃ ∧ refs k₂.phys (pteFrame e₃) = 1 := by
  obtain ⟨k₀, R, K, k₁, k₂, a, b, e₁, e₂, e₃, hboot, hrun₁, hp, hf, hz, hrun₂, -, -, -, -, hp₃, hw⟩ :=
    copyEvents_run
  have hp₁ : k₁.pte 1 ceilingPage = some e₁ := (hp 1 _).trans ((if_neg (by decide)).trans (if_pos ⟨rfl, rfl⟩))
  have hp₂ : k₁.pte 3 ceilingPage = some e₂ := (hp 3 _).trans (if_pos ⟨rfl, rfl⟩)
  refine ⟨k₀, R, K, k₁, k₂, e₁, e₂, e₃, hboot, hrun₁, hp₁, hp₂, hf, ?_, hrun₂, hp₃,
    ((cow_ownership hboot hrun₂).2.1 3 _ e₃ hp₃ hw).1⟩
  rw [(cow_ownership hboot hrun₁).1 _ hz, count, Set.ncard_eq_two]
  refine ⟨(3, ceilingPage), (1, ceilingPage), by decide, ?_⟩
  ext ⟨t, u⟩
  have hkey : frameMap k₁.phys.mem k₁.roots (t, u) = (k₁.pte t u).map pteFrame := rfl
  rw [Set.mem_ofPred_eq, hkey, hp, Set.mem_insert_iff, Set.mem_singleton_iff, Prod.mk_inj, Prod.mk_inj]
  split_ifs with h3 h1
  · simp [h3]
  · simp [h1, hf]
  · simp [h3, h1]

def below : Vma := ⟨crossing - 2 * pageSize, crossing - pageSize, protToVma readWrite⟩

-- In the copy a mapping is made twice at one address, so that the page is counted twice in the next copy.
def doubleEvents : List Event := firstEvents ++
  [(.cloneSpace 1, .ok (.space (some 4))),
    (.mapAnonymous 4 (BitVec.ofNat 64 (crossing - 2 * pageSize)) 4096 readWrite fixed,
      .ok (.addr (crossing - 2 * pageSize))),
    (.mapAnonymous 4 0 4096 readWrite anywhere, .ok (.addr crossing)),
    (.lazyFault 4 crossing ⟨false, true, true, false⟩, .ok .done),
    (.cloneSpace 4, .ok (.space (some 9)))]

section double

variable {pa m : Nat} {b : AddrSpace}

-- The third mapping rotates the VMA of the huge one to the root, where it hides the page at the
-- ceiling.
theorem mapBelow (h : Scene k pa R K 7 m) (hb : k.space 4 = some b)
    (hdraw : b.vmas.Pair 5 6 window wrapped) :
    ∃ t, t.Three 6 5 7 wrapped window below ∧
      (vmmMapAnonymous 4 (crossing - 2 * pageSize) 4096 readWrite fixed).run k =
        done (crossing - 2 * pageSize) (k.plant pa 4 t) := by
  obtain ⟨hfirst, -, -⟩ := pair_order hdraw
  obtain ⟨t, hins, hdraw'⟩ := insert_outer 7 below hdraw (by decide) (by decide)
    (by decide) (by decide) (by decide)
  obtain ⟨hr, hn⟩ := hdraw
  simp only [List.forall_mem_cons] at hn
  have hfree : ∀ x, x < crossing → vmaFind b.vmas x = some none := by
    intro x hx
    have hlt : crossing < mmapBaseTop := by decide
    unfold vmaFind
    rw [hr, findFrom_left (by rw [hn.1.2]; exact hx), hn.1.1,
      findFrom_left (by rw [hn.2.1.2]; exact hx.trans hlt), hn.2.1.1, findFrom_none]
  have habove : vmaAtOrAbove b.vmas (crossing - 2 * pageSize) = some (some 6) := by
    rw [vmaAtOrAbove_skip (hfree _ (by decide)) hfirst, skipBelow_here (by rw [hn.2.1.2]; decide)]
  have hnothing := removeRange_nothing (crossing - 2 * pageSize)
    (crossing - pageSize) hb (by decide) (hfree _ (by decide)) (hfree _ (by decide)) (by simp)
    habove (by
      intro id hid
      obtain rfl := Option.some.inj hid
      rw [hn.2.1.2]
      decide)
  refine ⟨t, hdraw', ?_⟩
  exact h.roomy.mapFixed _ _ _ hb (by decide) (by decide) (by decide) (by decide) (by decide) (by decide)
    hnothing (by rw [h.next]; exact hins)

theorem mapAgain (h : Scene k pa R K 8 m) (hb : k.space 4 = some b) (hbase : b.mmapBase = mmapBaseTop)
    (hdraw : b.vmas.Three 6 5 7 wrapped window below) :
    ∃ t, t.Four 6 5 7 8 wrapped window below window ∧
      (vmmMapAnonymous 4 0 4096 readWrite anywhere).run k =
        done crossing (k.plant pa 4 t) := by
  obtain ⟨hfirst, hnext⟩ := three_order hdraw (by decide)
  obtain ⟨t, hins, hdraw'⟩ := insert_fourth 8 window hdraw (by decide) (by decide)
    (by decide) (by decide) (by decide) (by decide) (by decide) (by decide) (by decide)
  obtain ⟨hr, hn⟩ := hdraw
  simp only [List.forall_mem_cons] at hn
  have hwalk : gapWalk b.vmas 4096 mmapBaseTop (some 7) pageSize 0 =
      some (crossing - pageSize, crossing - 3 * pageSize) := by
    rw [gapWalk.eq_def]
    dsimp only
    rw [hn.2.2.1.2, if_neg (by decide), hnext]
    show gapWalk b.vmas 4096 mmapBaseTop (some 6) _ _ = _
    rw [gapWalk.eq_def]
    dsimp only
    rw [hn.1.2, if_pos (by decide)]
    decide
  have hgap : vmaFindGapTopDown b.vmas 4096 b.mmapBase = some crossing := by
    unfold vmaFindGapTopDown
    rw [if_neg (by decide), hfirst, hbase]
    show (gapWalk b.vmas 4096 mmapBaseTop (some 7) pageSize 0).bind _ = _
    rw [hwalk]
    decide
  refine ⟨t, hdraw', ?_⟩
  exact h.roomy.mapAnywhere _ _ _ hb (by decide) (by decide) (by decide) hgap (by decide)
    (by rw [h.next]; exact hins)

theorem hidden_found {t : VmaTree} (h : t.Four 6 5 7 8 wrapped window below window) :
    vmaFind t crossing = some (some 8) := by
  obtain ⟨hr, hn⟩ := h
  simp only [List.forall_mem_cons] at hn
  unfold vmaFind
  rw [hr, findFrom_left (by rw [hn.1.2]; decide), hn.1.1,
    findFrom_right (by rw [hn.2.2.1.2]; decide) (by rw [hn.2.2.1.2]; decide), hn.2.2.1.1,
    findFrom_here (by rw [hn.2.2.2.1.2]; decide) (by rw [hn.2.2.2.1.2]; decide)]

theorem cloneDouble (h : Scene k pa R K 9 (m + 3 + 3 + 3 + 1)) (hb : k.space 4 = some b)
    (hdraw : b.vmas.Four 6 5 7 8 wrapped window below window)
    (hp : Sole k 4 ceilingPage e)
    (hz : pteFrame e ≠ zeroFrame k.phys) :
    ∃ k', (vmmCloneSpace 4).run k = done 9 k' ∧ pteFrame e ≠ zeroFrame k'.phys ∧
      refs k'.phys (pteFrame e) = count (frameMap k'.phys.mem k'.roots) (pteFrame e) + 1 := by
  obtain ⟨k1, d, hrun1, h1, hd1, hempty, -, hother, hidle, -, -⟩ := h.create
  have hb1 := (hother 4 (by decide)).trans hb
  obtain ⟨hfirst, hnext7, hnext8, hnext6, hnext5⟩ := four_order hdraw (by decide)
  have hn := hdraw.2
  simp only [List.forall_mem_cons] at hn
  obtain ⟨t1, hins1, hdraw1⟩ := insert_first 10 below hempty
  obtain ⟨t2, hins2, hdraw2⟩ := insert_right 11 window hdraw1 (by decide) (by decide)
    (by decide)
  obtain ⟨t3, hins3, hdraw3⟩ := insert_inner 12 wrapped hdraw2 (by decide) (by decide)
    (by decide) (by decide) (by decide) (by decide)
  obtain ⟨t4, hins4, hdraw4⟩ := insert_fourth 13 window hdraw3 (by decide) (by decide)
    (by decide) (by decide) (by decide) (by decide) (by decide) (by decide) (by decide)
  have hp1 : Sole k1 4 ceilingPage e := by
    intro t u
    rw [hidle.pte, hp]
  have hzf1 := zeroFrame_eq hidle.zeroPage
  have hc1 := count_sole 4 ceilingPage fun _ _ _ he' => hp1.key he'
  -- the first VMA has no page
  obtain ⟨k2, hone2, h2, hd2, hother2, hshare2, hz2⟩ := h1.cloneShared below (ceilingPage - 2)
    hb1 hd1 (by decide) hins1 (by decide) (by decide) (by decide)
    (by rw [hp1]; rfl) hc1
  have hb2 := (hother2 4 (by decide)).trans hb1
  have hp2 := hshare2.1 (by rw [hp1]; rfl)
  have hzf2 := zeroFrame_eq hz2
  -- the second one has the page at the ceiling
  obtain ⟨k3, hone3, h3, hd3, hother3, hshare3, hz3⟩ := h2.cloneShared window ceilingPage
    hb2 hd2 (by decide) hins2 (by decide) (by decide) (by decide)
    (by rw [hp2, hp1]; rfl) (hc1.congr hp2 hz2)
  have hb3 := (hother3 4 (by decide)).trans hb2
  obtain ⟨e1, e2, hp3, hs1, hs2, -⟩ := hshare3.2 e (by rw [hp2, hp1]; rfl)
  have hzf3 : zeroFrame k3.phys = zeroFrame k.phys := (congrArg paToPfn hz3).trans (hzf2.trans hzf1)
  obtain ⟨k4, hone4, h₄, hd4, hother4, hphys4, hroots4⟩ := h3.cloneNothing wrapped
    hb3 hd3 (by decide) hins3 (by decide)
  have hb4 : k4.space 4 = some b := (hother4 4 (by decide)).trans hb3
  have hp4 : ∀ t u, k4.pte t u = k3.pte t u := by
    intro t u
    unfold Kern.pte
    rw [hphys4, hroots4]
  have hz4 : pteFrame e1 ≠ zeroFrame k4.phys := by
    rw [hphys4, hs1.frame, hzf3]
    exact hz
  have hrefs : refs k4.phys (pteFrame e1) = count (frameMap k4.phys.mem k4.roots) (pteFrame e1) :=
    h₄.base.pt.counts _ hz4
  have hfew : refs k4.phys (pteFrame e1) < 0xFFFF := by
    rw [hrefs]
    refine Nat.lt_of_le_of_lt (count_le_card {(4, ceilingPage), (9, ceilingPage)} ?_ _) (by decide)
    intro t u e' he'
    rw [hp4, hp3, hp2, hp1] at he'
    by_contra hc
    rw [if_neg (fun h9 => hc (by simp [h9])), if_neg (fun h4 => hc (by simp [h4])),
      if_neg (fun h4 => hc (by simp [h4]))] at he'
    cases he'
  -- and so has the last one
  have hsrc : k4.pte 4 ceilingPage = some e1 := (hp4 4 _).trans (hp3 4 _)
  have hdst : k4.pte 9 ceilingPage = some e2 := (hp4 9 _).trans (hp3 9 _)
  have hagain := clonePage_again h₄.base.pt (Kern.roots_eq hb4) (Kern.roots_eq hd4)
    (by decide) hsrc hdst hs1.readOnly (hs2.frame.trans hs1.frame.symm) hz4 hfew (by have := h₄.free; omega)
  rw [← h₄.base.pml4_eq hb4, ← h₄.base.pml4_eq hd4] at hagain
  obtain ⟨_, s5, hpage5, hz5, hrefs5, hframes5⟩ := hagain.exists_ok
  have hone5 := h₄.cloneOne_run hb4 hd4 (by decide) hins4 (one_page hpage5)
  set k5 : Kern := ({ k4 with phys := s5 } : Kern).plant pa 9 t4 with hk5
  have hb5 : k5.space 4 = some b := (plant_of_ne (by decide)).trans hb4
  have hloop : (cloneLoop 4 9 (some 7)).run k1 = done () k5 := by
    rw [cloneLoop_next hb1 (by rw [hn.2.2.1.2]; exact hone2) hb2 hnext7,
      cloneLoop_next hb2 (by rw [hn.2.2.2.1.2]; exact hone3) hb3 hnext8,
      cloneLoop_next hb3 (by rw [hn.1.2]; exact hone4) hb4 hnext6,
      cloneLoop_next hb4 (by rw [hn.2.1.2]; exact hone5) hb5 hnext5, cloneLoop_end]
  refine ⟨k5, cloneSpace_run hrun1 hb1 hfirst hloop, ?_, ?_⟩
  · show pteFrame e ≠ zeroFrame s5
    rw [zeroFrame_eq hz5, ← hs1.frame]
    exact hz4
  have hmap : frameMap k5.phys.mem k5.roots = frameMap k4.phys.mem k4.roots := by
    funext key
    rw [show k5.roots = k4.roots from setVmas_roots]
    exact hframes5 key
  rw [hmap, ← hs1.frame, ← hrefs]
  exact hrefs5

end double

-- With the overflow there is a frame with more references than entries.
theorem cow_ownership_overflow : ∃ k₀ R K k f, Boot k₀ R K ∧ Run Step k₀ doubleEvents k ∧
    f ≠ zeroFrame k.phys ∧ refs k.phys f = count (frameMap k.phys.mem k.roots) f + 1 := by
  obtain ⟨k₀, R, K, k3, a, pa, hboot, hrun3, h3, ha3, hdraw, hvac, hnone, hrand⟩ := firstEvents_run
  have hcount := count_sole 0 0 fun t u e' he' => nomatch (hnone t u).symm.trans he'
  obtain ⟨k4, b, hrun4, h4, hb4, hbase, hdraw4, hvac4, hshare⟩ :=
    cloneWindow (m := 196) h3 ha3 hdraw hvac hrand hcount
  obtain ⟨t5, hdraw5, hrun5⟩ := mapBelow h4 hb4 hdraw4
  have h5 := h4.plant 4 t5
  have hb5 := plant_self pa t5 hb4
  obtain ⟨t6, hdraw6, hrun6⟩ := mapAgain h5 hb5 hbase hdraw5
  have h6 := h5.plant 4 t6
  have hb6 := plant_self pa t6 hb5
  set k6 := (k4.plant pa 4 t5).plant pa 4 t6 with hk6
  have hp6 : ∀ t u, k6.pte t u = none := by
    intro t u
    rw [(h5.roomy.plant_base h5.base).2.pte, (h4.roomy.plant_base h4.base).2.pte,
      hshare.1 (hnone 1 _), hnone]
  have hfound := hidden_found hdraw6
  have hwrite : (t6.vma 8).flags.write = true := by
    rw [(hdraw6.2 (8, ⟨some 7, none, none, .red⟩, window) (by simp)).2]
    rfl
  -- a write brings in the page
  obtain ⟨s7, e, hrun7, h7, hset, hw, -, hz⟩ := h6.fill (m := 192) (v := ceilingPage) (t6.vma 8)
    ⟨false, true, true, false⟩ hb6 (by decide) (hp6 4 _) hwrite
  set k7 : Kern := { k6 with phys := s7 } with hk7
  have hp7 : Sole k7 4 ceilingPage e := .set hp6 hset
  have hz7 : pteFrame e ≠ zeroFrame k7.phys := by
    rw [zeroFrame_eq hset.zeroPage]
    exact hz hw
  have hcount7 := count_sole 4 ceilingPage fun _ _ _ he' => hp7.key he'
  obtain ⟨k8, hrun8, hz8, hrefs⟩ := cloneDouble (m := 182) h7 hb6 hdraw6 hp7 hz7
  have hlazy : (lazyFault 4 crossing ⟨false, true, true, false⟩).run k6 = done () k7 := by
    unfold lazyFault
    rw [run_bind_ok (run_spaceOf hb6), run_bind_ok (run_known hfound)]
    exact run_onPhys hrun7
  have hstep7 : Step k6 (.lazyFault 4 crossing ⟨false, true, true, false⟩, .ok .done) k7 := by
    refine ⟨⟨?_, hp6 4 _⟩, ?_⟩
    · unfold Kern.flags
      rw [hb6]
      show ((vmaFind t6 crossing).bind _) ≠ none
      rw [hfound]
      simp
    · show (lazyFault 4 crossing ⟨false, true, true, false⟩ >>= fun _ => pure Answer.done).run k6 = _
      rw [run_bind_ok hlazy]
      rfl
  have hrun : Run Step k₀ doubleEvents k8 := by
    have hall4 := hrun3.snoc (step_cloneSpace ha3 hcount hrun4)
    have hall5 := hall4.snoc (step_mapAnonymous
      (BitVec.ofNat 64 (crossing - 2 * pageSize)) 4096 hb4 hrun5)
    have hall6 := hall5.snoc (step_mapAnonymous 0 4096 hb5 hrun6)
    have hall7 := hall6.snoc hstep7
    exact hall7.snoc (step_cloneSpace hb6 hcount7 hrun8)
  exact ⟨k₀, R, K, k8, pteFrame e, hboot, hrun, hz8, hrefs⟩

end Jnu.System
