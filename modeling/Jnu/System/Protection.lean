import Jnu.Exec.Image
import Jnu.System.Overflow

namespace Jnu.System

open Lib.Dyadic Lib.Effect Lib.Trace Paging Pmm Mm Exec

variable {k : Kern} {R : Set Nat} {K : Set Block} {sp start stop va : Nat} {acc : Access} {b : BitVec 8}

inductive Op
  | call (c : Call)
  | load (sp : Nat) (image : ExecImage)

abbrev OpEvent := Op × Except Errno Answer

-- The bytes of an image do not change while it is loaded.
def OpStep (k : Kern) (e : OpEvent) (k' : Kern) : Prop :=
  match e.1 with
  | .call c => Step k (c, e.2) k'
  | .load sp image => k.space sp ≠ none ∧ image.size < 2 ^ 64 ∧ (∃ file, image.Reads file) ∧
      ∃ r n, (elf64LoadImage sp image).run ⟨k, 0⟩ = some (.ok (r, ⟨k', n⟩)) ∧
        e.2 = r.map fun _ => .done

def Grants (vf : VmaFlags) : Prop := vf.read ∨ vf.write ∨ vf.exec

instance : DecidablePred Grants :=
  fun vf => inferInstanceAs (Decidable (vf.read = true ∨ vf.write = true ∨ vf.exec = true))

def Op.Overflows (k : Kern) : Op → Prop
  | .call c => c.Overflows k
  | .load _ _ => False

def SafeOpStep (k : Kern) (e : OpEvent) (k' : Kern) : Prop := ¬ e.1.Overflows k ∧ OpStep k e k'

-- A page that is there can be read whatever its VMA says: `mprotect` grants reading, or takes every right
-- away from pages that are not there.
def Op.Careful (k : Kern) : Op → Prop
  | .call (.mprotect sp addr length prot) => hasBit prot protRead = true ∨
      (¬ Grants (protToVma prot) ∧
        ∀ u, addr.toNat ≤ u * pageSize → u * pageSize < addr.toNat + pageAlignUp length.toNat →
          k.pte sp u = none)
  | .call c => ¬ c.Overflows k
  | .load _ _ => True

def CarefulStep (k : Kern) (e : OpEvent) (k' : Kern) : Prop := e.1.Careful k ∧ OpStep k e k'

def permits (vf : VmaFlags) : Access → Bool
  | .load => vf.read
  | .store _ => vf.write
  | .fetch => vf.exec

section kept

variable {P : VmaFlags → Prop} {k' : Kern}
variable {vf : VmaFlags} {image : ExecImage} {e : OpEvent} {l : List OpEvent}

theorem Kept.segment (h : Kept P k) (hseg : Segment k k' sp start stop vf)
    (hwx : (vf.write && vf.exec) = false) (hP : P vf) : Kept P k' where
  within t u e he := by
    by_cases hin : t = sp ∧ start ≤ u * pageSize ∧ u * pageSize < stop
    · obtain ⟨rfl, h1, h2⟩ := hin
      exact ⟨vf, by rw [hseg.flags, if_pos ⟨h1, h2⟩], hseg.inside u e h1 h2 he, hP⟩
    rw [hseg.outside t u hin] at he
    obtain ⟨wf, hwf, hg⟩ := h.within t u e he
    refine ⟨wf, ?_, hg⟩
    by_cases ht : t = sp
    · subst ht
      rw [hseg.flags, if_neg fun hc => hin ⟨rfl, hc⟩, hwf]
    · rw [flags_congr (hseg.other t ht), hwf]
  wx t x wf hwf := by
    by_cases ht : t = sp
    · subst ht
      rw [hseg.flags] at hwf
      by_cases hx : start ≤ x ∧ x < stop
      · rw [if_pos hx] at hwf
        obtain rfl := Option.some.inj hwf
        exact hwx
      · rw [if_neg hx] at hwf
        exact h.wx t x wf hwf
    · rw [flags_congr (hseg.other t ht)] at hwf
      exact h.wx t x wf hwf

theorem Kept.covered (h : Kept P k) : Covered k := by
  intro t u e he
  obtain ⟨vf, hvf, -⟩ := h.within t u e he
  simp [hvf]

theorem Kept.loadRun {phs : List Elf64Phdr} (h : Kept P k) (hP : ∀ vf : VmaFlags, Grants vf → P vf)
    (hrun : LoadRun image sp k phs k') : (∀ ph ∈ phs, Sane image.size ph) → Kept P k' := by
  induction hrun with
  | nil => exact fun _ => h
  | snoc _ hl ih =>
    intro hsane
    have hk := ih fun ph hph => hsane ph (List.mem_append_left _ hph)
    have hwx := (hsane _ (List.mem_append_right _ List.mem_cons_self)).wx
    exact hk.segment hl.segment hwx (hP _ (.inl rfl))

theorem Kept.unfinished (h : Kept P k) (hP : ∀ vf : VmaFlags, Grants vf → P vf)
    (hu : Unfinished image k k' sp) : Kept P k' := by
  obtain ⟨phs, k1, hsane, hrun, hend⟩ := hu
  have h1 := h.loadRun hP hrun hsane
  rcases hend with rfl | ⟨ph, -, hmap | ⟨-, -, hseg⟩⟩
  · exact h1
  · rcases hmap with hmap | ⟨-, -, -, hmap⟩
    · exact h1.remap_self hmap
    · exact h1.ranged hmap nofun
  · exact h1.segment hseg rfl (hP _ (.inl rfl))

def Op.Gives (k : Kern) (P : VmaFlags → Prop) : Op → Prop
  | .call c => c.Grants k P
  | .load _ _ => True

theorem SafeOpStep.kept (hs : SafeOpStep k e k') (hP : ∀ vf : VmaFlags, Grants vf → P vf)
    (hg : e.1.Gives k P) (h : Sound k R K ∧ Kept P k) : Sound k' R K ∧ Kept P k' := by
  obtain ⟨o, r⟩ := e
  obtain ⟨hno, hstep⟩ := hs
  cases o with
  | call c =>
    have hsafe : SafeStep k (c, r) k' := ⟨hno, hstep⟩
    obtain ⟨h', heff⟩ := hsafe.effect h.1
    exact ⟨h', h.2.effect h.1 hP hg heff⟩
  | load sp image =>
    obtain ⟨hlive, hsize, ⟨file, hfile⟩, r', n, hrun, -⟩ := hstep
    have hspec := elf64LoadImage_spec (l := ⟨k, 0⟩) (I := fun _ => True) hfile hsize h.1
      h.2.covered hlive trivial fun _ _ _ _ _ _ => trivial
    cases r' with
    | ok info =>
      obtain ⟨h', -, -, hsane, hload⟩ := hspec.of_ok hrun
      exact ⟨h', h.2.loadRun hP hload hsane⟩
    | error e =>
      obtain ⟨h', -, hu⟩ := hspec.of_error hrun
      exact ⟨h', h.2.unfinished hP hu⟩

theorem SafeOpRun.kept (hb : Boot k R K) (hrun : Run SafeOpStep k l k') :
    Sound k' R K ∧ Safe k' := by
  refine hrun.invariant (I := fun k => Sound k R K ∧ Safe k) ⟨hb.sound, .boot hb⟩ ?_
  intro k e k' h hs
  refine hs.kept (fun _ _ => trivial) ?_ h
  cases e.1 with
  | call c => exact c.grants_true k
  | load sp image => trivial

theorem CarefulStep.safe (hs : CarefulStep k e k') : SafeOpStep k e k' ∧ e.1.Gives k Grants := by
  obtain ⟨o, r⟩ := e
  obtain ⟨hc, hstep⟩ := hs
  cases o with
  | load sp image => exact ⟨⟨not_false, hstep⟩, trivial⟩
  | call c =>
    cases c with
    | mprotect sp addr length prot =>
      refine ⟨⟨not_false, hstep⟩, fun u h1 h2 hp => ?_⟩
      rcases hc with hc | ⟨-, hc⟩
      · exact .inl hc
      · exact absurd (hc u h1 h2) hp
    | _ => exact ⟨⟨hc, hstep⟩, trivial⟩

theorem CarefulStep.kept (hs : CarefulStep k e k') (h : Sound k R K ∧ Kept Grants k) :
    Sound k' R K ∧ Kept Grants k' :=
  hs.safe.1.kept (fun _ hvf => hvf) hs.safe.2 h

theorem CarefulRun.kept (h : Sound k R K ∧ Kept Grants k)
    (hrun : Run CarefulStep k l k') : Sound k' R K ∧ Kept Grants k' :=
  hrun.invariant (I := fun k => Sound k R K ∧ Kept Grants k) h fun _ _ _ h hs => hs.kept h

-- Flags that grant the right to read, or no right at all, are what the processor enforces.
theorem completed_permitted (h : Sound k R K) (hk : Kept Grants k) (hc : Completed k k' sp va acc b)
    (hvf : k.flags sp va = some vf) (hread : Grants vf → vf.read = true) : permits vf acc = true := by
  obtain ⟨e, he, hstore, hfetch⟩ := hc.entry
  obtain ⟨wf, hwf, hg, hgr⟩ := hk.within sp _ e he
  rw [← h.flags_page, hvf] at hwf
  obtain rfl := Option.some.inj hwf
  cases acc with
  | load => exact hread hgr
  | store c => exact hg.1 (hstore rfl)
  | fetch => exact hg.2 (hfetch rfl)

end kept

theorem access_completed {k k' : Kern} {R : Set Nat} {K : Set Block} {sp : Nat} (h : Sound k R K)
    (hs : Step k (.access sp va acc, .ok (.reply (.value b))) k') : Completed k k' sp va acc b := by
  have hsafe : SafeStep k (.access sp va acc, .ok (.reply (.value b))) k' := ⟨not_false, hs⟩
  have heff := (hsafe.effect h).2
  cases heff with
  | completed _ hc => exact hc

-- No entry grants more than its VMA, and what `mprotect` forbids does not happen until the range is mapped
-- or protected anew.
theorem permissions_enforced {k₀ k : Kern} {R : Set Nat} {K : Set Block} {l : List OpEvent}
    (hb : Boot k₀ R K) (hrun : Run CarefulStep k₀ l k) :
    (∀ sp u e, k.pte sp u = some e → ∃ vf, k.flags sp (u * pageSize) = some vf ∧ vf.user = true ∧
      (has e pteWrite = true → vf.write = true) ∧ (has e pteNx = false → vf.exec = true) ∧
      (vf.read ∨ vf.write ∨ vf.exec)) ∧
    ∀ sp addr length prot k₁, CarefulStep k (.call (.mprotect sp addr length prot), .ok .done) k₁ →
      ∀ l' k₂, Run CarefulStep k₁ l' k₂ →
        ∀ va, addr.toNat ≤ va → va < addr.toNat + pageAlignUp length.toNat →
          k₂.flags sp va = k₁.flags sp va →
          ∀ acc b k₃, Step k₂ (.access sp va acc, .ok (.reply (.value b))) k₃ →
            permits (protToVma prot) acc = true := by
  have h := CarefulRun.kept ⟨hb.sound, .boot hb⟩ hrun
  refine ⟨fun sp u e he => ?_, ?_⟩
  · obtain ⟨vf, hvf, hg, hgr⟩ := h.2.within sp u e he
    exact ⟨vf, hvf, (h.1.flags_user hvf).2.2, hg.1, hg.2, hgr⟩
  intro sp addr length prot k₁ hstep l' k₂ hrun' va hlo hhi hsame acc b k₃ hacc
  have h2 := CarefulRun.kept (hstep.kept h) hrun'
  have hc := access_completed h2.1 hacc
  have hsafe : SafeStep k (.mprotect sp addr length prot, .ok .done) k₁ := ⟨not_false, hstep.2⟩
  have heff := (hsafe.effect h.1).2
  cases heff with
  | reprotected hal hwx hre =>
    -- the page has a VMA, so it had one in the range and has these flags
    obtain ⟨e, he, -⟩ := hc.entry
    obtain ⟨vf, hvf, -⟩ := h2.2.within sp _ e he
    rw [← h2.1.flags_page, hsame, hre.flags, if_pos ⟨hlo, hhi⟩] at hvf
    have hprot : k₂.flags sp va = some (protToVma prot) := by
      rw [hsame, hre.flags, if_pos ⟨hlo, hhi⟩]
      cases hf : k.flags sp va with
      | none =>
        rw [hf] at hvf
        cases hvf
      | some wf => rfl
    refine completed_permitted h2.1 h2.2 hc hprot fun hgr => ?_
    rcases hstep.1 with hr | ⟨hno, -⟩
    · exact hr
    · exact absurd hgr hno

def calls (l : List Event) : List OpEvent := l.map fun e => (.call e.1, e.2)

-- A page that has been written to is within its VMA.
theorem permissions_enforced_calm : ∃ k₀ R K k e vf, Boot k₀ R K ∧
    Run CarefulStep k₀ (calls calmEvents) k ∧ k.pte 1 ceilingPage = some e ∧
    has e pteWrite = true ∧ k.flags 1 crossing = some vf ∧ vf.write = true := by
  obtain ⟨k₀, R, K, k, a, pa, e, hboot, hrun, -, -, -, hp, hw, -⟩ := calmEvents_run
  have hpage := hp.entry
  have hcareful : Run CarefulStep k₀ (calls calmEvents) k := by
    refine hrun.map _ fun s ev s' hmem hs => ⟨?_, hs.2⟩
    have hno := hs.1
    simp only [calmEvents, List.mem_cons, List.not_mem_nil, or_false] at hmem
    rcases hmem with rfl | rfl | rfl <;> exact hno
  obtain ⟨vf, hvf, -, hwf, -⟩ := (permissions_enforced hboot hcareful).1 1 _ e hpage
  exact ⟨k₀, R, K, k, e, vf, hboot, hcareful, hpage, hw, hvf, hwf hw⟩

section whole

variable {id : Nat} {a : AddrSpace} {v : Vma} {c : Lib.RedBlack.Color}

theorem mprotect_only (prot : BitVec 32) (h : Base k R K) (ho : Owned k.pte (zeroFrame k.phys))
    (ha : k.space sp = some a) (hdraw : a.vmas.Draws (some id) [(id, ⟨none, none, none, c⟩, v)])
    (hg : GoodVma v) (hlt : v.start < v.stop) (hwx : ¬ (hasBit prot protWrite ∧ hasBit prot protExec)) :
    ∃ k', (sysMprotect (some sp) v.start (v.stop - v.start) prot).run k = done () k' := by
  obtain ⟨hr, hn⟩ := hdraw
  simp only [List.forall_mem_singleton] at hn
  have hlen : pageAlignUp (v.stop - v.start) = v.stop - v.start := by
    have h1 := hg.startAligned
    have h2 := hg.stopAligned
    have h3 := hg.top
    unfold pageAlignUp wrap64
    simp only [pageSize, userTop] at h1 h2 h3 ⊢
    omega
  have hstop : wrap64 (v.start + (v.stop - v.start)) = v.stop := by
    have h3 := hg.top
    unfold wrap64
    simp only [userTop] at h3
    omega
  have hfind : ∀ x, v.start ≤ x → x < v.stop → vmaFind a.vmas x = some (some id) := by
    intro x h1 h2
    unfold vmaFind
    rw [hr, findFrom_here (by rw [hn.2]; omega) (by rw [hn.2]; omega)]
  have hleft : (splitLeft sp v.start).run k = done () k := by
    unfold splitLeft
    rw [run_bind_ok (run_vmasOf ha), run_bind_ok (run_known (hfind _ (Nat.le_refl _) hlt))]
    dsimp only
    rw [if_neg (by rw [hn.2]; omega)]
    rfl
  have hright : (splitRight sp v.stop).run k = done () k := by
    unfold splitRight
    rw [run_bind_ok (run_vmasOf ha), run_bind_ok (run_known (hfind _ (by omega) (by omega)))]
    dsimp only
    rw [if_neg (by rw [hn.2]; omega)]
    rfl
  have habove : vmaAtOrAbove a.vmas v.start = some (some id) := by
    unfold vmaAtOrAbove
    rw [hfind _ (Nat.le_refl _) hlt]
    rfl
  have hprotect := protectVma_spec id (protToVma prot) h ho ha
    (by rw [hn.2]; exact hg) (by rw [hn.2]; exact hlt)
  obtain ⟨_, k', hrun, -⟩ := hprotect.exists_ok
  refine ⟨k', ?_⟩
  unfold sysMprotect
  dsimp only
  rw [hlen, hstop, if_neg hwx, if_neg (by simp [hg.startAligned]), if_neg (by omega),
    if_neg (by have := hg.top; omega), run_bind_ok hleft, run_bind_ok hright,
    run_bind_ok (run_vmasOf ha), run_bind_ok (run_known habove), protectLoop.eq_def]
  rw [run_bind_ok (run_vmasOf ha), if_pos (by rw [hn.2]; exact hlt),
    run_bind_ok (run_known (vmaNext_root (by rw [hn.1]) (by rw [hn.1]))),
    if_pos (by rw [hn.2]; exact ⟨Nat.le_refl _, Nat.le_refl _⟩), run_bind_ok hrun, protectLoop.eq_def]
  rfl

end whole

-- The page is written to, and then every right to it is taken away.
def revokeEvents : List Event := calmEvents ++
  [(.mprotect 1 (BitVec.ofNat 64 crossing) 4096 0, .ok .done)]

-- It can still be read.
theorem permissions_revoked_readable : ∃ k₀ R K k e vf b, Boot k₀ R K ∧ Run OpStep k₀ (calls
    revokeEvents) k ∧ k.pte 1 ceilingPage = some e ∧ k.flags 1 crossing = some vf ∧ ¬ Grants vf ∧
    Step k (.access 1 crossing .load, .ok (.reply (.value b))) k ∧ permits (protToVma 0) .load =
    false := by
  obtain ⟨k₀, R, K, k3, a, pa, e, hboot, hrun3, h3, ha3, hdraw, hp, -, -⟩ := calmEvents_run
  have hs3 := (SafeRun.kept hboot hrun3).1
  obtain ⟨k4, hrun4⟩ := mprotect_only 0 hs3.base hs3.owned ha3 hdraw
    ⟨by decide, by decide, by decide, by decide, by decide⟩ (by decide) (by decide)
  have hstep4 : Step k3 (.mprotect 1 (BitVec.ofNat 64 crossing) 4096 0, .ok .done) k4 := by
    refine ⟨by simp [Call.Valid, ha3], ?_⟩
    show (sysMprotect (some 1) (mapping readWrite).start
      ((mapping readWrite).stop - (mapping readWrite).start) 0 >>= fun _ => pure Answer.done).run k3 = _
    rw [run_bind_ok hrun4]
    rfl
  have hsafe4 : SafeStep k3 (.mprotect 1 (BitVec.ofNat 64 crossing) 4096 0, .ok .done) k4 :=
    ⟨not_false, hstep4⟩
  have hrun : Run SafeStep k₀ revokeEvents k4 := hrun3.snoc hsafe4
  have hs4 := (SafeRun.kept hboot hrun).1
  obtain ⟨-, heff⟩ := hsafe4.effect hs3
  cases heff with
  | reprotected _ _ hre =>
    have hcov := (SafeRun.kept hboot hrun3).2.covered 1 ceilingPage e hp.entry
    obtain ⟨e', hp', -⟩ := hre.pages.present ceilingPage e
      ⟨by decide, by decide, hcov⟩ hp.entry
    obtain ⟨b, hb⟩ := Option.ne_none_iff_exists'.1 hre.live
    have hload := read_run crossing .load hs4.base hb (by decide) hp' rfl (by simp [Access.isFetch])
    refine ⟨k₀, R, K, k4, e', protToVma 0, _, hboot, hrun.map _ fun _ _ _ _ hs => hs.2, hp', ?_,
      by decide, step_access hb (by decide) hload, rfl⟩
    obtain ⟨vf, hvf⟩ := Option.ne_none_iff_exists'.1 hcov
    rw [hre.flags, if_pos ⟨by decide, by decide⟩]
    rw [show crossing = ceilingPage * pageSize by decide, hvf]
    rfl

end Jnu.System
