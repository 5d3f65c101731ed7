import Jnu.System.Faults
import Jnu.User.Copy

namespace Jnu.System

open Lib.Dyadic Lib.Trace Paging Pmm Mm User

-- User code may use every byte of the buffer, as far as its VMAs tell.
def UserMay (k : Kern) (sp uaddr len : Nat) (right : VmaFlags → Bool) : Prop :=
  InUser uaddr len ∧
    ∀ x, uaddr ≤ x → x < uaddr + len → ∃ vf, k.flags sp x = some vf ∧ right vf = true

theorem Kept.touched {P : VmaFlags → Prop} {k : Kern} {R : Set Nat} {K : Set Block}
    {sp uaddr len : Nat} (hs : Sound k R K) (h : Kept P k) (hres : Resident k sp uaddr len true) :
    ∀ x, uaddr ≤ x → x < uaddr + len → ∃ vf, k.flags sp x = some vf ∧ vf.write = true := by
  intro x h1 h2
  obtain ⟨e, he, hw⟩ := hres _ (touches_page h1 h2)
  obtain ⟨vf, hvf, hg, -⟩ := h.within sp _ e he
  exact ⟨vf, by rw [hs.flags_page, hvf], hg.1 (hw rfl)⟩

-- A copy is what the process could do itself unless a page is not there or is shared.
theorem copy_transparent {k₀ k : Kern} {R : Set Nat} {K : Set Block} {l : List OpEvent}
    (hb : Boot k₀ R K) (hrun : Run SafeOpStep k₀ l k) :
    ∀ sp, k.space sp ≠ none → ∀ uaddr : BitVec 64,
      (∀ src : List User.Byte, src ≠ [] → src.length < 2 ^ 64 →
        ((CopiesTo k sp uaddr.toNat src ↔ UserMay k sp uaddr.toNat src.length VmaFlags.write) ↔
          (UserMay k sp uaddr.toNat src.length VmaFlags.write →
            ∀ u, Touches uaddr.toNat src.length u →
              ∃ e, k.pte sp u = some e ∧ has e pteWrite = true))) ∧
      ∀ len : BitVec 64, 0 < len.toNat →
        ((CopiesFrom k sp uaddr.toNat len.toNat ↔
            UserMay k sp uaddr.toNat len.toNat VmaFlags.read) ↔
          (InUser uaddr.toNat len.toNat →
            ((∀ u, Touches uaddr.toNat len.toNat u → k.pte sp u ≠ none) ↔
              ∀ x, uaddr.toNat ≤ x → x < uaddr.toNat + len.toNat →
                ∃ vf, k.flags sp x = some vf ∧ vf.read = true))) := by
  intro sp hlive uaddr
  obtain ⟨a, ha⟩ := Option.ne_none_iff_exists'.1 hlive
  obtain ⟨hs, hk⟩ := SafeOpRun.kept hb hrun
  refine ⟨fun src h0 hl => ?_, fun len h0 => ?_⟩
  · rw [copiesTo_iff hs ha uaddr.isLt hl h0]
    constructor
    · intro hiff hmay u hu
      obtain ⟨e, he, hw⟩ := (hiff.2 hmay).2 u hu
      exact ⟨e, he, hw rfl⟩
    intro hcond
    constructor
    · intro h
      exact ⟨h.1, Kept.touched hs hk h.2⟩
    intro hmay
    refine ⟨hmay.1, fun u hu => ?_⟩
    obtain ⟨e, he, hw⟩ := hcond hmay u hu
    exact ⟨e, he, fun _ => hw⟩
  · have hres : Resident k sp uaddr.toNat len.toNat false ↔
        ∀ u, Touches uaddr.toNat len.toNat u → k.pte sp u ≠ none := by
      refine forall₂_congr fun u _ => ?_
      rw [Option.ne_none_iff_exists']
      simp
    rw [copiesFrom_iff hs.base ha uaddr.isLt len.isLt h0, hres]
    exact and_congr_right_iff

theorem touches_one {u : Nat} (h : Touches crossing 1 u) : u = ceilingPage := by
  unfold Touches at h
  simp only [ceilingPage, crossing, mmapBaseTop, pageSize] at h ⊢
  omega

theorem mapping_may {k : Kern} {a : AddrSpace} {prot : BitVec 32} {right : VmaFlags → Bool}
    (ha : k.space 1 = some a) (hdraw : a.vmas.One 2 (mapping prot)) (hr : right (protToVma prot) = true) :
    UserMay k 1 crossing 1 right := by
  refine ⟨⟨by decide, by decide⟩, fun x h1 h2 => ?_⟩
  obtain rfl : x = crossing := by omega
  exact ⟨_, mapping_flags ha hdraw, hr⟩

-- A page that has been written to can be copied to.
theorem copy_transparent_calm : ∃ k₀ R K k, Boot k₀ R K ∧ Run SafeOpStep k₀ (calls calmEvents) k ∧
    CopiesTo k 1 crossing [1] := by
  obtain ⟨k₀, R, K, k, a, pa, e, hboot, hrun, -, ha, hdraw, hp, hw, -⟩ := calmEvents_run
  have hsafe : Run SafeOpStep k₀ (calls calmEvents) k :=
    hrun.map _ fun _ _ _ _ hs => hs
  refine ⟨k₀, R, K, k, hboot, hsafe, ?_⟩
  have htransp := ((copy_transparent hboot hsafe 1 (by simp [ha]) (BitVec.ofNat 64 crossing)).1 [1]
    (by simp) (by decide)).2
  refine (htransp fun _ u hu => ?_).2 (mapping_may ha hdraw rfl)
  rw [touches_one hu]
  exact ⟨e, hp.entry, hw⟩

-- The page of a new mapping is not there yet. The process may use it; the system call fails.
theorem copy_transparent_lazy :
    ∃ k₀ R K k, Boot k₀ R K ∧ Run SafeOpStep k₀ (calls (mapEvents readWrite)) k ∧ 4 ≤ freeCount k.phys ∧
      UserMay k 1 crossing 1 VmaFlags.write ∧ UserMay k 1 crossing 1 VmaFlags.read ∧
      Resolves k 1 crossing (.store 1) ∧ Resolves k 1 crossing .load ∧ ¬ CopiesTo k 1 crossing [1] ∧
      ¬ CopiesFrom k 1 crossing 1 := by
  obtain ⟨k₀, R, K, k, a, pa, hboot, hrun, h, ha, hdraw, hnone⟩ := mapEvents_run readWrite (by decide)
  have hs := (SafeRun.kept hboot hrun).1
  have hfree : 4 ≤ freeCount k.phys := Nat.le_trans (by decide) h.free
  have hflags := mapping_flags ha hdraw
  have hvac : ∀ write, ¬ Resident k 1 crossing 1 write := by
    intro write hc
    obtain ⟨e, he, -⟩ := hc ceilingPage ⟨by decide, by decide⟩
    rw [hnone] at he
    cases he
  refine ⟨k₀, R, K, k, hboot, hrun.map _ fun _ _ _ _ hs => hs, hfree,
    mapping_may ha hdraw rfl, mapping_may ha hdraw rfl, ?_, ?_, ?_, ?_⟩
  · exact (resolves_iff hs hflags rfl hfree).2 (by simp)
  · exact (resolves_iff hs hflags rfl hfree).2 (by simp)
  · rw [copiesTo_iff hs ha (by decide) (by decide) (by simp)]
    exact fun hc => hvac true hc.2
  · rw [copiesFrom_iff hs.base ha (by decide) (by decide) (by decide)]
    exact fun hc => hvac false hc.2

end Jnu.System
