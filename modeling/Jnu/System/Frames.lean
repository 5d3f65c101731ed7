import Jnu.System.Protection

namespace Jnu.System

open Lib.Dyadic Lib.Effect Lib.Refs Lib.Trace Paging Pmm Mm

variable {k₀ k k' : Kern} {R : Set Nat} {K : Set Block} {l : List OpEvent} {f : Nat}

def KernelFrame (k : Kern) (K : Set Block) (f : Nat) : Prop := Covers (K ∪ k.slabBlocks) f

def TableFrame (k : Kern) (f : Nat) : Prop := IsTable k.phys.mem k.roots f

def UserFrame (k : Kern) (f : Nat) : Prop := ∃ sp v e, k.pte sp v = some e ∧ pteFrame e = f

theorem free_iff (h : Sound k R K) : Covers k.phys.pmm.freeBlocks f ↔
    f ∈ R ∧ ¬ (KernelFrame k K f ∨ TableFrame k f ∨ UserFrame k f) := by
  have hheld : Covers (heldBlocks k.phys k.roots (K ∪ k.slabBlocks)) f ↔
      KernelFrame k K f ∨ TableFrame k f ∨ 0 < refs k.phys f := by
    constructor
    · rintro ⟨b, hb | ⟨ho, hb⟩, hf⟩
      · exact .inl ⟨b, hb, hf⟩
      · obtain rfl : f = b.start := mem_page.1 (eq_page.2 ⟨ho, rfl⟩ ▸ hf)
        exact .inr hb
    · rintro (⟨b, hb, hf⟩ | hf)
      · exact ⟨b, .inl hb, hf⟩
      · exact ⟨⟨f, 0⟩, .inr ⟨rfl, hf⟩, mem_page.2 rfl⟩
  rw [h.base.pt.phys.inv.covers_free_iff, hheld]
  by_cases hz : f = zeroFrame k.phys
  · have hK : KernelFrame k K f := ⟨_, h.base.pt.zeroHeld, mem_page.2 hz⟩
    simp [hK]
  have huser : 0 < refs k.phys f ↔ UserFrame k f := by
    constructor
    · intro hf
      rw [h.base.pt.counts f hz] at hf
      obtain ⟨⟨sp, v⟩, hkey⟩ := exists_of_count_pos hf
      obtain ⟨e, he, hef⟩ := Option.map_eq_some_iff.1 hkey
      exact ⟨sp, v, e, he, hef⟩
    · rintro ⟨sp, v, e, he, rfl⟩
      exact h.base.pt.mapped_refs he hz
  rw [huser]

section run

variable (hb : Boot k₀ R K) (hrun : Run SafeOpStep k₀ l k)
include hb hrun

-- Nothing leaks and nothing is free too early, whatever calls have failed.
theorem frames_accounted :
    (∀ f, Covers k.phys.pmm.freeBlocks f ↔ f ∈ R ∧ ¬ (KernelFrame k K f ∨ TableFrame k f ∨ UserFrame k f)) ∧
    ((∀ sp, k.space sp = none) → ∀ f, Covers k.phys.pmm.freeBlocks f ↔ f ∈ R ∧ ¬ KernelFrame k K f) := by
  obtain ⟨hs, -⟩ := SafeOpRun.kept hb hrun
  refine ⟨fun f => free_iff hs, fun hnone f => ?_⟩
  have htable : ¬ TableFrame k f := by
    rintro ⟨sp, i, n, -, ht⟩
    rw [tableAt_noRoot (roots_none (hnone sp))] at ht
    cases ht
  have huser : ¬ UserFrame k f := by
    rintro ⟨sp, v, e, he, -⟩
    rw [pte_none (hnone sp)] at he
    cases he
  simp [free_iff hs, htable, huser]

-- User code reaches no kernel memory, page table or free frame, and no table has two places.
theorem user_frames_confined :
    (∀ sp v e, k.pte sp v = some e → (pteFrame e = zeroFrame k.phys ∧ has e pteWrite = false) ∨
      (¬ Covers k.phys.pmm.freeBlocks (pteFrame e) ∧ ¬ KernelFrame k K (pteFrame e) ∧
        ¬ TableFrame k (pteFrame e))) ∧
    ∀ sp i n sp' i' n' f, UserPos i n → UserPos i' n' → tableAt k.phys.mem k.roots sp i n = some f →
      tableAt k.phys.mem k.roots sp' i' n' = some f → sp = sp' ∧ i = i' ∧ n = n' := by
  obtain ⟨hs, -⟩ := SafeOpRun.kept hb hrun
  have hpt := hs.base.pt
  refine ⟨fun sp v e he => ?_, hpt.shape.apart⟩
  by_cases hz : pteFrame e = zeroFrame k.phys
  · refine .inl ⟨hz, ?_⟩
    by_contra hw
    exact (hs.owned.exclusive sp v e he (by simpa using hw)).1 hz
  have hrefs := hpt.mapped_refs he hz
  refine .inr ⟨fun hf => ?_, ?_, hpt.not_table hrefs⟩
  · exact ((free_iff hs).1 hf).2 (.inr (.inr ⟨sp, v, e, he, rfl⟩))
  · rintro ⟨b, hb, hf⟩
    exact hrefs.ne' (hpt.otherRefs b hb _ hf)

-- A frame that can be written through one page can be executed through none.
theorem write_xor_execute :
    (∀ sp x vf, k.flags sp x = some vf → ¬ (vf.write = true ∧ vf.exec = true)) ∧
    ∀ sp v e, k.pte sp v = some e → has e pteWrite = true →
      ∀ t u e', k.pte t u = some e' → pteFrame e' = pteFrame e → has e' pteNx = true := by
  obtain ⟨hs, hk⟩ := SafeOpRun.kept hb hrun
  have hwx : ∀ sp x vf, k.flags sp x = some vf → ¬ (vf.write = true ∧ vf.exec = true) := by
    intro sp x vf hvf hc
    have h := hk.wx sp x vf hvf
    simp [hc.1, hc.2] at h
  refine ⟨hwx, fun sp v e he hw t u e' he' hf => ?_⟩
  obtain ⟨rfl, rfl⟩ := (hs.owned.exclusive sp v e he hw).2 t u e' he' hf
  obtain rfl := Option.some.inj (he'.symm.trans he)
  obtain ⟨vf, hvf, hg, -⟩ := hk.within _ _ _ he
  by_contra hnx
  exact hwx _ _ vf hvf ⟨hg.write hw, hg.exec (by simpa using hnx)⟩

end run

-- A run with a page that has been written to.
def Written (k₀ : Kern) (R : Set Nat) (K : Set Block) (k : Kern) (e : BitVec 64) : Prop :=
  Boot k₀ R K ∧ Run SafeOpStep k₀ (calls calmEvents) k ∧ k.pte 1 ceilingPage = some e ∧ has e pteWrite = true

theorem exists_written : ∃ k₀ R K k e, Written k₀ R K k e := by
  obtain ⟨k₀, R, K, k, a, pa, e, hboot, hrun, -, -, -, hp, hw, -⟩ := calmEvents_run
  exact ⟨k₀, R, K, k, e, hboot, hrun.map _ fun _ _ _ _ hs => hs, hp.entry, hw⟩

theorem frames_accounted_written :
    ∃ k₀ R K k e, Written k₀ R K k e ∧ ¬ Covers k.phys.pmm.freeBlocks (pteFrame e) := by
  obtain ⟨k₀, R, K, k, e, h⟩ := exists_written
  refine ⟨k₀, R, K, k, e, h, fun hf => ?_⟩
  exact (((frames_accounted h.1 h.2.1).1 _).1 hf).2 (.inr (.inr ⟨1, _, e, h.2.2.1, rfl⟩))

theorem user_frames_confined_written : ∃ k₀ R K k e, Written k₀ R K k e ∧ ¬ TableFrame k (pteFrame e) := by
  obtain ⟨k₀, R, K, k, e, h⟩ := exists_written
  refine ⟨k₀, R, K, k, e, h, ?_⟩
  rcases (user_frames_confined h.1 h.2.1).1 1 _ e h.2.2.1 with ⟨-, hr⟩ | ⟨-, -, ht⟩
  · cases h.2.2.2.symm.trans hr
  · exact ht

theorem write_xor_execute_written : ∃ k₀ R K k e, Written k₀ R K k e ∧ has e pteNx = true := by
  obtain ⟨k₀, R, K, k, e, h⟩ := exists_written
  exact ⟨k₀, R, K, k, e, h, (write_xor_execute h.1 h.2.1).2 1 _ e h.2.2.1 h.2.2.2 1 _ e h.2.2.1 rfl⟩

-- A fixed mapping unmaps its range before it can fail.
def Call.Replaces (sp x : Nat) : Call → Prop
  | .mapAnonymous sp' addr length _ flags => hasBit flags mapFixed = true ∧ sp = sp' ∧
      addr.toNat ≤ x ∧ x < addr.toNat + pageAlignUp length.toNat
  | _ => False

theorem remap_unchanged {sp : Nat} (h : Remap k k' sp (k.flags sp) fun _ => False) (t x : Nat) :
    k'.flags t x = k.flags t x ∧ k'.byte t x = k.byte t x := by
  refine ⟨?_, byte_congr fun i hi => h.sheds.words t _ i (fun hc => hc.2) hi⟩
  by_cases ht : t = sp
  · rw [ht, h.flags]
  · exact flags_congr (h.other t ht) x

theorem failed_call_harmless {c : Call} {err : Errno} (hb : Boot k₀ R K) (hrun : Run SafeOpStep k₀ l k)
    (hstep : SafeOpStep k (.call c, .error err) k') (sp x : Nat) :
    (k'.flags sp x = k.flags sp x ∧ k'.byte sp x = k.byte sp x) ∨ (c.Replaces sp x ∧ k'.flags sp x = none) := by
  obtain ⟨hs, -⟩ := SafeOpRun.kept hb hrun
  have hsafe : SafeStep k (c, .error err) k' := hstep
  cases (hsafe.effect hs).2 with
  | @notMapped sp' addr length _ _ _ hm =>
    rcases hm with hm | ⟨hfix, hal, -, hm⟩
    · exact .inl (remap_unchanged hm sp x)
    have hlen : pageAlignUp length.toNat % pageSize = 0 := Nat.mul_mod_left ..
    by_cases hin : sp = sp' ∧ addr.toNat ≤ x ∧ x < addr.toNat + pageAlignUp length.toNat
    · obtain ⟨rfl, hx⟩ := hin
      exact .inr ⟨⟨hfix, rfl, hx⟩, by rw [hm.flags, if_pos hx]⟩
    refine .inl ⟨?_, byte_congr fun i hi => hm.sheds.words sp _ i ?_ hi⟩
    · by_cases hsp : sp = sp'
      · subst hsp
        rw [hm.flags, if_neg fun hx => hin ⟨rfl, hx⟩]
      · exact flags_congr (hm.other sp hsp) x
    · -- the range is one of whole pages
      rintro ⟨hsp, h1, h2, -⟩
      simp only [pageSize] at hal hlen h1 h2
      exact hin ⟨hsp, by omega, by omega⟩
  | notUnmapped hre => exact .inl (remap_unchanged hre sp x)
  | notReprotected hre => exact .inl (remap_unchanged hre sp x)
  | notCloned hc => exact .inl ⟨flags_congr (congrFun hc.space sp) x, byte_congr fun i hi => hc.words sp _ i hi⟩
  | notLazyFilled hk hr | notCopied hk hr =>
    subst hk
    exact .inl ⟨rfl, byte_congr fun i hi => hr.words sp _ i hi⟩

-- A mapping that is larger than the space, next to a page that has been written to.
def vastCall : Call := .mapAnonymous 1 0 (BitVec.ofNat 64 userTop) readWrite anywhere

theorem failed_call_harmless_vast : ∃ k₀ R K k e err k', Written k₀ R K k e ∧
    SafeOpStep k (.call vastCall, .error err) k' ∧ ∀ sp x, k'.byte sp x = k.byte sp x := by
  obtain ⟨k₀, R, K, k, a, pa, e, hboot, hrun, -, ha, -, hp, hw, -⟩ := calmEvents_run
  have hops : Run SafeOpStep k₀ (calls calmEvents) k := hrun.map _ fun _ _ _ _ hs => hs
  have hsafe : ¬ GapOverflow k 1 userTop anywhere := fun hc => absurd hc.2.1 (by decide)
  obtain ⟨L, hg⟩ := (SafeOpRun.kept hboot hops).1.spaces 1 a ha
  have hspec : wp (vmmMapAnonymous 1 0 userTop readWrite anywhere) _ _ k :=
    vmmMapAnonymous_spec (SafeOpRun.kept hboot hops).1 ha (by decide) hsafe
  rcases hspec with ⟨r, k', -, -, -, -, hbase⟩ | ⟨err, k', hfail, -⟩
  · have hbelow := (hbase (by decide)).trans hg.ceiling.2
    have hlen : ¬ pageAlignUp userTop ≤ mmapBaseTop := by decide
    omega
  have hstep : SafeOpStep k (.call vastCall, .error err) k' := by
    refine ⟨hsafe, by simp [vastCall, Call.Valid, ha], ?_⟩
    change (vmmMapAnonymous 1 0 userTop readWrite anywhere >>= fun r => pure (Answer.addr r)).run k = _
    rw [run_bind, hfail]
  refine ⟨k₀, R, K, k, e, err, k', ⟨hboot, hops, hp.entry, hw⟩, hstep, fun sp x => ?_⟩
  rcases failed_call_harmless hboot hops hstep sp x with h | h
  · exact h.2
  · exact absurd h.1.1 (by decide)

end Jnu.System
