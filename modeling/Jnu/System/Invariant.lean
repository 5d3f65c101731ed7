import Jnu.System.Defs

namespace Jnu.System

open Lib.Dyadic Lib.Effect Lib.Refs Lib.Trace Paging Pmm Mm
open Function

variable {k k' : Kern} {R : Set Nat} {K : Set Block} {sp x pml4 offset src dst base : Nat}
  {e e' : BitVec 64}

inductive Effect (k k' : Kern) : Call → Except Errno Answer → Prop
  | created {sp pml4 offset : Nat} (hi : Idle k k') (fresh : k.space sp = none)
      (hspace : k'.space =
        update k.space sp (some ⟨pml4, .empty, mmapBaseTop - offset⟩)) :
      Effect k k' .createSpace (.ok (.space (some sp)))
  | notCreated (hi : Idle k k') (hspace : k'.space = k.space) :
      Effect k k' .createSpace (.ok (.space none))
  | destroyed {sp : Nat} (hspace : k'.space = update k.space sp none)
      (hsh : Sheds (fun t _ => t = sp) k k') : Effect k k' (.destroySpace sp) (.ok .done)
  | mapped {sp r : Nat} {addr length : BitVec 64} {prot flags : BitVec 32}
      (hm : Mapped k k' sp r (pageAlignUp length.toNat) prot) :
      Effect k k' (.mapAnonymous sp addr length prot flags) (.ok (.addr r))
  | notMapped {sp : Nat} {addr length : BitVec 64} {prot flags : BitVec 32} {e : Errno}
      (hm : MapFailed k k' sp addr.toNat (pageAlignUp length.toNat) flags) :
      Effect k k' (.mapAnonymous sp addr length prot flags) (.error e)
  | unmapped {sp : Nat} {addr length : BitVec 64} (hal : addr.toNat % pageSize = 0)
      (hre : Remap k k' sp
        (fun x => if addr.toNat ≤ x ∧ x < addr.toNat + pageAlignUp length.toNat then none
          else k.flags sp x)
        fun v => addr.toNat ≤ v * pageSize ∧ v * pageSize < addr.toNat + pageAlignUp length.toNat ∧
          k.flags sp (v * pageSize) ≠ none) :
      Effect k k' (.munmap sp addr length) (.ok .done)
  | notUnmapped {sp : Nat} {addr length : BitVec 64} {e : Errno}
      (hre : Remap k k' sp (k.flags sp) fun _ => False) :
      Effect k k' (.munmap sp addr length) (.error e)
  | reprotected {sp : Nat} {addr length : BitVec 64} {prot : BitVec 32}
      (hal : addr.toNat % pageSize = 0)
      (hwx : (hasBit prot protWrite && hasBit prot protExec) = false)
      (hre : Reprotect k k' sp addr.toNat (addr.toNat + pageAlignUp length.toNat) (protToVma prot)) :
      Effect k k' (.mprotect sp addr length prot) (.ok .done)
  | notReprotected {sp : Nat} {addr length : BitVec 64} {prot : BitVec 32} {e : Errno}
      (hre : Remap k k' sp (k.flags sp) fun _ => False) :
      Effect k k' (.mprotect sp addr length prot) (.error e)
  | cloned {src dst : Nat} (hc : Cloned k k' src dst) :
      Effect k k' (.cloneSpace src) (.ok (.space (some dst)))
  | notCloned {src : Nat} {e : Errno} (hc : CloneFailed k k') :
      Effect k k' (.cloneSpace src) (.error e)
  | lazyFilled {sp va : Nat} {ec : FaultCode} {s' : Phys} (hk : k' = { k with phys := s' })
      (hr : Resolved k sp va s') : Effect k k' (.lazyFault sp va ec) (.ok .done)
  | notLazyFilled {sp va : Nat} {ec : FaultCode} {s' : Phys} {e : Errno}
      (hk : k' = { k with phys := s' }) (hr : PageKeep k.roots k.phys s') :
      Effect k k' (.lazyFault sp va ec) (.error e)
  | copied {sp va : Nat} {s' : Phys} (hk : k' = { k with phys := s' })
      (hr : Resolved k sp va s') : Effect k k' (.cowFault sp va) (.ok .done)
  | notCopied {sp va : Nat} {s' : Phys} {e : Errno} (hk : k' = { k with phys := s' })
      (hr : PageKeep k.roots k.phys s') : Effect k k' (.cowFault sp va) (.error e)
  | completed {sp va : Nat} {acc : Access} {b : BitVec 8} {s' : Phys}
      (hk : k' = { k with phys := s' }) (hc : Completed k k' sp va acc b) :
      Effect k k' (.access sp va acc) (.ok (.reply (.value b)))
  | faulted {sp va : Nat} {acc : Access} {hd : Handled} {s' : Phys}
      (hk : k' = { k with phys := s' }) (hf : Faulted k s' sp va acc hd) :
      Effect k k' (.access sp va acc) (.ok (.reply (.handled hd)))

section calls

variable {c : Call} {va : Nat}

theorem flags_live {vf : VmaFlags} (h : k.flags sp x = some vf) : ∃ a, k.space sp = some a := by
  cases ha : k.space sp with
  | none =>
    rw [flags_none ha] at h
    cases h
  | some a => exact ⟨a, rfl⟩

theorem sound_created (h : Sound k R K) (hb : Base k' R K) (hi : Idle k k')
    (hspace : k'.space = update k.space sp (some ⟨pml4, .empty, mmapBaseTop - offset⟩))
    (hal : offset % pageSize = 0) (hlt : offset < 262144 * pageSize) : Sound k' R K := by
  apply h.of_sheds hb hi.sheds
  intro t a ha
  rw [hspace] at ha
  rcases of_update ha with ⟨-, rfl⟩ | ⟨-, ha⟩
  · refine .inr ⟨[], ⟨.empty, by simp, by simp⟩, ?_, Nat.sub_le _ _⟩
    simp only [mmapBaseTop, pageSize] at hal hlt ⊢
    omega
  · exact .inl ha

theorem sound_destroyed (h : Sound k R K) (hb : Base k' R K) (hspace : k'.space = update k.space sp none)
    (hsh : Sheds (fun t _ => t = sp) k k') : Sound k' R K := by
  apply h.of_sheds hb hsh
  intro t a ha
  rw [hspace] at ha
  exact .inl (of_erase ha).2

theorem lazyFault_effect {ec : FaultCode} (h : Sound k R K) (hv : (Call.lazyFault sp va ec).Valid k) :
    wp (lazyFault sp va ec)
      (fun _ k' => Sound k' R K ∧ Effect k k' (.lazyFault sp va ec) (.ok .done))
      (fun e k' => Sound k' R K ∧ Effect k k' (.lazyFault sp va ec) (.error e)) k := by
  obtain ⟨hfl, hp⟩ := hv
  obtain ⟨vf, hvf⟩ := Option.ne_none_iff_exists'.1 hfl
  obtain ⟨a, ha⟩ := flags_live hvf
  obtain ⟨L, hg⟩ := h.spaces sp a ha
  have hpage := page_lt (h.flags_user hvf).2.1
  unfold lazyFault
  apply wp_spaceOf ha
  apply wp_known (vmaFind_eq hg.tree.holds)
  cases hloc : a.vmas.spans.locate L va with
  | none =>
    rw [flags_eq ha hg.tree.holds] at hvf
    unfold addrMap at hvf
    rw [hloc] at hvf
    cases hvf
  | some id =>
    have hflid := flags_find ha hg.tree.holds hloc
    apply wp_zoom
    refine (lazyFault_spec h ha hpage hp).mono ?_ ?_
    · intro _ s' hs'
      obtain ⟨hs, e, hset, hwe, hnx, hperm⟩ := hs'
      exact ⟨hs, .lazyFilled rfl ⟨_, e, hflid, hset, FaultCode.granted hperm hwe hnx,
        fun _ => FaultCode.some_right hperm⟩⟩
    · intro e s' hs'
      exact ⟨hs'.1, .notLazyFilled rfl hs'.2.1⟩

theorem cowFault_effect (h : Sound k R K) (hv : (Call.cowFault sp va).Valid k) :
    wp (cowFault sp va)
      (fun _ k' => Sound k' R K ∧ Effect k k' (.cowFault sp va) (.ok .done))
      (fun e k' => Sound k' R K ∧ Effect k k' (.cowFault sp va) (.error e)) k := by
  obtain ⟨vf, hvf, hw⟩ := hv
  obtain ⟨a, ha⟩ := flags_live hvf
  have hpage := page_lt (h.flags_user hvf).2.1
  unfold cowFault
  apply wp_pml4Of ha
  apply wp_zoom
  refine (cowFault_spec h ha hpage).mono ?_ ?_
  · intro _ s' hs'
    obtain ⟨hs, e, hpe, hset, -, hnx⟩ := hs'
    refine ⟨hs, .copied rfl ⟨vf, e, hvf, hset, ⟨fun _ => hw, fun hc => ?_⟩, fun hc => absurd hc hpe⟩⟩
    rw [hnx] at hc
    cases hc
  · intro e s' hs'
    exact ⟨hs'.1, .notCopied rfl hs'.2.1⟩

-- Every call but the overflow ends without a panic and has one of these effects.
theorem exec_spec (h : Sound k R K) (hv : c.Valid k) (hok : ¬ c.Overflows k) :
    wp (exec c) (fun ans k' => Sound k' R K ∧ Effect k k' c (.ok ans))
      (fun e k' => Sound k' R K ∧ Effect k k' c (.error e)) k := by
  cases c with
  | createSpace =>
    refine (vmmCreateSpace_spec h.base).any.next ?_
    intro r k' hk'
    obtain ⟨hb, hi, hnone, hsome⟩ := hk'
    apply wp_pure
    cases r with
    | none => exact ⟨h.of_idle hb hi (hnone rfl), .notCreated hi (hnone rfl)⟩
    | some sp =>
      obtain ⟨hfresh, pml4, offset, hspace, hal, hlt⟩ := hsome sp rfl
      exact ⟨sound_created h hb hi hspace hal hlt, .created hi hfresh hspace⟩
  | destroySpace sp =>
    obtain ⟨a, ha⟩ := Option.ne_none_iff_exists'.1 hv
    obtain ⟨L, hg⟩ := h.spaces sp a ha
    refine (vmmDestroySpace_spec h.base ha hg.tree).any.next ?_
    intro _ k' hk'
    obtain ⟨hb, hspace, hsh⟩ := hk'
    apply wp_pure
    exact ⟨sound_destroyed h hb hspace hsh, .destroyed hspace hsh⟩
  | mapAnonymous sp addr length prot flags =>
    obtain ⟨a, ha⟩ := Option.ne_none_iff_exists'.1 hv
    refine (vmmMapAnonymous_spec h ha addr.isLt hok).bind ?_ ?_
    · intro r k' hk'
      apply wp_pure
      exact ⟨hk'.1, .mapped hk'.2.1⟩
    · intro e k' hk'
      exact ⟨hk'.1, .notMapped hk'.2⟩
  | munmap sp addr length =>
    obtain ⟨a, ha⟩ := Option.ne_none_iff_exists'.1 hv
    refine (sysMunmap_spec h ha addr.isLt).bind ?_ ?_
    · intro _ k' hk'
      obtain ⟨hs, hal, hre⟩ := hk'
      apply wp_pure
      exact ⟨hs, .unmapped hal hre⟩
    · intro e k' hk'
      exact ⟨hk'.1, .notUnmapped hk'.2⟩
  | mprotect sp addr length prot =>
    obtain ⟨a, ha⟩ := Option.ne_none_iff_exists'.1 hv
    refine (sysMprotect_spec h ha addr.isLt).bind ?_ ?_
    · intro _ k' hk'
      obtain ⟨hs, hal, hwx, hre⟩ := hk'
      apply wp_pure
      exact ⟨hs, .reprotected hal hwx hre⟩
    · intro e k' hk'
      exact ⟨hk'.1, .notReprotected hk'.2⟩
  | cloneSpace src =>
    obtain ⟨hlive, hcount⟩ := hv
    obtain ⟨a, ha⟩ := Option.ne_none_iff_exists'.1 hlive
    refine (vmmCloneSpace_spec h ha fun g hg => ?_).bind ?_ ?_
    · rw [h.base.pt.counts g hg, Nat.add_zero]
      exact hcount g hg
    · intro dst k' hk'
      apply wp_pure
      exact ⟨hk'.1, .cloned hk'.2⟩
    · intro e k' hk'
      exact ⟨hk'.1, .notCloned hk'.2⟩
  | lazyFault sp va ec =>
    refine (lazyFault_effect h hv).next ?_
    exact fun _ _ hc => wp_pure hc
  | cowFault sp va =>
    refine (cowFault_effect h hv).next ?_
    exact fun _ _ hc => wp_pure hc
  | access sp va acc =>
    obtain ⟨a, ha⟩ := Option.ne_none_iff_exists'.1 hv.1
    refine (userAccess_spec _ h ha hv.2).any.next ?_
    intro r k' hk'
    obtain ⟨s', hk, hs, hcase⟩ := hk'
    apply wp_pure
    rcases hcase with ⟨b, rfl, hc⟩ | ⟨hd, rfl, hf⟩
    · exact ⟨hs, .completed hk hc⟩
    · exact ⟨hs, .faulted hk hf⟩

theorem SafeStep.effect {e : Event} (hs : SafeStep k e k') (h : Sound k R K) :
    Sound k' R K ∧ Effect k k' e.1 e.2 := by
  obtain ⟨hok, hv, hr⟩ := hs
  have hspec := exec_spec h hv hok
  cases hres : e.2 with
  | ok ans =>
    rw [hres] at hr
    exact hspec.of_ok hr
  | error err =>
    rw [hres] at hr
    exact hspec.of_error hr

end calls

-- No entry grants more than its VMA, whose flags are `P`, and no VMA is both writable and
-- executable.
structure Kept (P : VmaFlags → Prop) (k : Kern) : Prop where
  within : ∀ sp u e, k.pte sp u = some e →
    ∃ vf, k.flags sp (u * pageSize) = some vf ∧ Granted vf e ∧ P vf
  wx : ∀ sp x vf, k.flags sp x = some vf → (vf.write && vf.exec) = false

section kept

variable {P : VmaFlags → Prop} {vf : VmaFlags} {start stop va : Nat} {s' : Phys}

theorem Granted.stripped (h : Granted vf e) (hs : Stripped e e') : Granted vf e' where
  write hw := absurd hw (by rw [hs.readOnly]; decide)
  exec hx := h.exec (hs.nx ▸ hx)

theorem Kept.boot (h : Boot k R K) : Kept P k where
  within sp u e he := by
    rw [pte_none (h.vacant sp)] at he
    cases he
  wx sp x vf hvf := by
    rw [flags_none (h.vacant sp)] at hvf
    cases hvf

section

variable (h : Kept P k)
include h

theorem Kept.remap {F : Nat → Option VmaFlags} {D : Nat → Prop} (hr : Remap k k' sp F D)
    (hF : ∀ u vf, ¬ D u → k.flags sp (u * pageSize) = some vf → F (u * pageSize) = some vf)
    (hwx : ∀ x vf, F x = some vf → (vf.write && vf.exec) = false) : Kept P k' where
  within t u e he := by
    by_cases hd : t = sp ∧ D u
    · rw [hr.sheds.gone t u hd] at he
      cases he
    rw [hr.sheds.pte t u hd] at he
    obtain ⟨vf, hvf, hg⟩ := h.within t u e he
    refine ⟨vf, ?_, hg⟩
    by_cases ht : t = sp
    · subst ht
      rw [hr.flags]
      exact hF u vf (fun hc => hd ⟨rfl, hc⟩) hvf
    · rw [flags_congr (hr.other t ht)]
      exact hvf
  wx t x vf hvf := by
    by_cases ht : t = sp
    · subst ht
      rw [hr.flags] at hvf
      exact hwx x vf hvf
    · rw [flags_congr (hr.other t ht)] at hvf
      exact h.wx t x vf hvf

theorem Kept.remap_self (hr : Remap k k' sp (k.flags sp) fun _ => False) : Kept P k' :=
  h.remap hr (fun _ _ _ hvf => hvf) (h.wx sp)

theorem Kept.ranged {o : Option VmaFlags}
    (hr : Remap k k' sp (fun x => if start ≤ x ∧ x < stop then o else k.flags sp x)
      fun v => start ≤ v * pageSize ∧ v * pageSize < stop ∧ k.flags sp (v * pageSize) ≠ none)
    (ho : ∀ vf, o = some vf → (vf.write && vf.exec) = false) : Kept P k' := by
  refine h.remap hr ?_ ?_
  · intro u vf hd hvf
    rw [if_neg, hvf]
    intro hc
    exact hd ⟨hc.1, hc.2, by simp [hvf]⟩
  · intro x vf hvf
    by_cases hx : start ≤ x ∧ x < stop
    · rw [if_pos hx] at hvf
      exact ho vf hvf
    · rw [if_neg hx] at hvf
      exact h.wx sp x vf hvf

theorem Kept.reprotected (hr : Reprotect k k' sp start stop vf) (hwx : (vf.write && vf.exec) = false)
    (hP : ∀ u, start ≤ u * pageSize → u * pageSize < stop → k.pte sp u ≠ none → P vf) : Kept P k' where
  within t u e he := by
    by_cases hin : t = sp ∧ start ≤ u * pageSize ∧ u * pageSize < stop ∧
        k.flags sp (u * pageSize) ≠ none
    · obtain ⟨rfl, h1, h2, hfl⟩ := hin
      obtain ⟨wf, hwf⟩ := Option.ne_none_iff_exists'.1 hfl
      refine ⟨vf, ?_, ?_⟩
      · rw [hr.flags, if_pos ⟨h1, h2⟩, hwf]
        rfl
      have hPvf := hP u h1 h2
      cases hp : k.pte t u with
      | none =>
        rw [hr.pages.vacant u ⟨h1, h2, hfl⟩ hp] at he
        cases he
      | some e0 =>
        obtain ⟨e', he', -, hnx, hw⟩ := hr.pages.present u e0 ⟨h1, h2, hfl⟩ hp
        rw [he'] at he
        obtain rfl := Option.some.inj he
        refine ⟨⟨hw, fun hx => ?_⟩, hPvf (by simp [hp])⟩
        rw [hnx] at hx
        simpa using hx
    · rw [hr.pages.same t u hin] at he
      obtain ⟨wf, hwf, hg⟩ := h.within t u e he
      refine ⟨wf, ?_, hg⟩
      by_cases ht : t = sp
      · subst ht
        rw [hr.flags, if_neg, hwf]
        intro hc
        exact hin ⟨rfl, hc.1, hc.2, by simp [hwf]⟩
      · rw [flags_congr (hr.other t ht)]
        exact hwf
  wx t x wf hwf := by
    by_cases ht : t = sp
    · subst ht
      rw [hr.flags] at hwf
      by_cases hx : start ≤ x ∧ x < stop
      · rw [if_pos hx] at hwf
        obtain ⟨_, -, rfl⟩ := Option.map_eq_some_iff.1 hwf
        exact hwx
      · rw [if_neg hx] at hwf
        exact h.wx t x wf hwf
    · rw [flags_congr (hr.other t ht)] at hwf
      exact h.wx t x wf hwf

theorem Kept.cloned (hc : Cloned k k' src dst) : Kept P k' where
  within t u e he := by
    by_cases ht : t = dst
    · subst ht
      by_cases hin : k.flags src (u * pageSize) ≠ none
      · cases hp : k.pte src u with
        | none =>
          rw [(hc.shared.vacant u hin hp).2] at he
          cases he
        | some e0 =>
          obtain ⟨e1, e2, -, he2, -, hs⟩ := hc.shared.present u e0 hin hp
          rw [he2] at he
          obtain rfl := Option.some.inj he
          obtain ⟨vf, hvf, hg⟩ := h.within src u e0 hp
          exact ⟨vf, by rw [hc.flags, hvf], Granted.stripped hg.1 hs, hg.2⟩
      · rw [hc.shared.rest u hin] at he
        cases he
    · rw [flags_congr (hc.other t ht)]
      rcases hc.shared.weakened t u ht with heq | ⟨e0, e', he0, he', hs⟩
      · rw [heq] at he
        exact h.within t u e he
      rw [he'] at he
      obtain rfl := Option.some.inj he
      obtain ⟨vf, hvf, hg⟩ := h.within t u e0 he0
      exact ⟨vf, hvf, Granted.stripped hg.1 hs, hg.2⟩
  wx t x vf hvf := by
    by_cases ht : t = dst
    · subst ht
      rw [hc.flags] at hvf
      exact h.wx src x vf hvf
    · rw [flags_congr (hc.other t ht)] at hvf
      exact h.wx t x vf hvf

-- The entries are the same but for the write bits that were taken away.
theorem Kept.weaken (hspace : k'.space = k.space) (hp : ∀ t u, k'.pte t u = k.pte t u ∨
      ∃ e e', k.pte t u = some e ∧ k'.pte t u = some e' ∧ Stripped e e') : Kept P k' where
  within t u e he := by
    rw [flags_congr (congrFun hspace t)]
    rcases hp t u with heq | ⟨e0, e', he0, he', hs⟩
    · rw [heq] at he
      exact h.within t u e he
    rw [he'] at he
    obtain rfl := Option.some.inj he
    obtain ⟨vf, hvf, hg⟩ := h.within t u e0 he0
    exact ⟨vf, hvf, Granted.stripped hg.1 hs, hg.2⟩
  wx t x vf hvf := by
    rw [flags_congr (congrFun hspace t)] at hvf
    exact h.wx t x vf hvf

theorem Kept.phys (hk : k' = { k with phys := s' }) (hp : ∀ t u, k'.pte t u = k.pte t u) : Kept P k' :=
  h.weaken (by rw [hk]) fun t u => .inl (hp t u)

end

theorem Kept.resolved (hs : Sound k R K) (h : Kept P k)
    (hP : ∀ vf : VmaFlags, vf.read ∨ vf.write ∨ vf.exec → P vf)
    (hk : k' = { k with phys := s' }) (hr : Resolved k sp va s') : Kept P k' where
  within t u e he := by
    obtain ⟨vf, e', hvf, hset, hg, hread⟩ := hr
    rw [flags_congr (k := k) (by rw [hk])]
    have hpte : k'.pte t u = if t = sp ∧ u = va / pageSize then some e' else k.pte t u := by
      rw [hk]
      exact hset.pte t u
    rw [hpte] at he
    by_cases hc : t = sp ∧ u = va / pageSize
    · rw [if_pos hc] at he
      obtain rfl := Option.some.inj he
      rw [hc.1, hc.2, ← hs.flags_page]
      refine ⟨vf, hvf, hg, ?_⟩
      cases hp : k.pte sp (va / pageSize) with
      | none => exact hP vf (hread hp)
      | some e0 =>
        -- the page had the same VMA before
        obtain ⟨wf, hwf, -, hPwf⟩ := h.within sp _ e0 hp
        rw [← hs.flags_page, hvf] at hwf
        obtain rfl := Option.some.inj hwf
        exact hPwf
    · rw [if_neg hc] at he
      exact h.within t u e he
  wx t x vf hvf := by
    rw [flags_congr (k := k) (by rw [hk])] at hvf
    exact h.wx t x vf hvf

theorem Kept.space {o : Option AddrSpace} {D : Nat → Nat → Prop} (h : Kept P k) (hsh : Sheds D k k')
    (hspace : k'.space = update k.space sp o) (hflags : ∀ x, k'.flags sp x = none)
    (hpte : ∀ u, k'.pte sp u = none) : Kept P k' where
  within t u e he := by
    by_cases ht : t = sp
    · rw [ht, hpte] at he
      cases he
    by_cases hd : D t u
    · rw [hsh.gone t u hd] at he
      cases he
    · rw [hsh.pte t u hd] at he
      rw [flags_congr (k := k) (by rw [hspace, update_of_ne ht])]
      exact h.within t u e he
  wx t x vf hvf := by
    by_cases ht : t = sp
    · rw [ht, hflags] at hvf
      cases hvf
    · rw [flags_congr (k := k) (by rw [hspace, update_of_ne ht])] at hvf
      exact h.wx t x vf hvf

theorem flags_empty (h : k.space sp = some ⟨pml4, .empty, base⟩) (x : Nat) : k.flags sp x = none := by
  rw [flags_eq h VmaTree.Holds.empty]
  rfl

def Call.Grants (k : Kern) (P : VmaFlags → Prop) : Call → Prop
  | .mprotect sp addr length prot => ∀ u, addr.toNat ≤ u * pageSize →
      u * pageSize < addr.toNat + pageAlignUp length.toNat → k.pte sp u ≠ none → P (protToVma prot)
  | _ => True

theorem Kept.effect {c : Call} {r : Except Errno Answer} (hs : Sound k R K) (h : Kept P k)
    (hP : ∀ vf : VmaFlags, vf.read ∨ vf.write ∨ vf.exec → P vf) (hg : c.Grants k P)
    (he : Effect k k' c r) : Kept P k' := by
  cases he with
  | created hi fresh hspace =>
    refine h.space hi.sheds hspace (flags_empty (by rw [hspace, update_self])) ?_
    intro u
    rw [hi.pte]
    exact pte_none fresh u
  | notCreated hi hspace => exact h.weaken hspace fun t u => .inl (hi.pte t u)
  | destroyed hspace hsh =>
    refine h.space hsh hspace (flags_none ?_) fun u => hsh.gone _ u rfl
    rw [hspace, update_self]
  | mapped hm => exact h.ranged hm.remap fun vf hvf => Option.some.inj hvf ▸ hm.wx
  | notMapped hm =>
    rcases hm with hm | ⟨-, -, -, hm⟩
    · exact h.remap_self hm
    · exact h.ranged hm nofun
  | unmapped _ hre => exact h.ranged hre nofun
  | notUnmapped hre => exact h.remap_self hre
  | reprotected _ hwx hre => exact h.reprotected hre hwx hg
  | notReprotected hre => exact h.remap_self hre
  | cloned hc => exact h.cloned hc
  | notCloned hc => exact h.weaken hc.space hc.pte
  | lazyFilled hk hr => exact h.resolved hs hP hk hr
  | notLazyFilled hk hr => exact h.phys hk fun t u => hk ▸ hr.pte t u
  | copied hk hr => exact h.resolved hs hP hk hr
  | notCopied hk hr => exact h.phys hk fun t u => hk ▸ hr.pte t u
  | completed hk hc => exact h.phys hk hc.pte
  | faulted hk hf =>
    rcases hf.effect with ⟨-, hr⟩ | ⟨-, hr⟩
    · exact h.phys hk fun t u => hk ▸ hr.pte t u
    · exact h.resolved hs hP hk hr

end kept

-- What holds in every state that a run without the overflow can reach.
abbrev Safe (k : Kern) : Prop := Kept (fun _ => True) k

theorem Call.grants_true (c : Call) (k : Kern) : c.Grants k fun _ => True := by
  cases c <;> simp [Call.Grants]

theorem SafeStep.safe {e : Event} (hs : SafeStep k e k')
    (h : Sound k R K ∧ Safe k) : Sound k' R K ∧ Safe k' := by
  obtain ⟨h', heff⟩ := hs.effect h.1
  exact ⟨h', h.2.effect h.1 (fun _ _ => trivial) (e.1.grants_true k) heff⟩

theorem SafeRun.kept {l : List Event}
    (hb : Boot k R K) (hrun : Run SafeStep k l k') : Sound k' R K ∧ Safe k' :=
  hrun.invariant (I := fun k => Sound k R K ∧ Safe k) ⟨hb.sound, .boot hb⟩
    fun _ _ _ h hs => hs.safe h

end Jnu.System
