import Jnu.System.Memory
import Jnu.System.Protection

namespace Jnu.System

open Lib.Dyadic Lib.Effect Lib.Trace Paging Pmm Mm Exec
open Function

variable {k k' : Kern} {R : Set Nat} {K : Set Block} {sp start stop va rip n x i : Nat}

-- The kernel and the addresses to which it goes back: the `rcx` of entries by `syscall`, which forks copy,
-- and the entry points of programs.
structure Machine where
  kern : Kern
  returns : List Nat

inductive Act
  | call (c : Call) (r : Except Errno Answer)
  | execve (sp : Nat) (image : ExecImage) (file : List Byte) (r : Except Errno ExecLoadInfo)
  -- the two bytes of `syscall` at `pc` are fetched and executed
  | syscall (sp pc : Nat)
  | fork (rip : Nat)

def Fetched (k : Kern) (sp va : Nat) (b : BitVec 8) (k' : Kern) : Prop :=
  Step k (.access sp va .fetch, .ok (.reply (.value b))) k'

def ActStep (m : Machine) (a : Act) (m' : Machine) : Prop :=
  match a with
  | .call c r => Step m.kern (c, r) m'.kern ∧ m'.returns = m.returns
  | .execve sp image file r =>
    m.kern.space sp ≠ none ∧ image.size < 2 ^ 64 ∧ image.Reads file ∧
      (∃ n, (elf64LoadImage sp image).run ⟨m.kern, 0⟩ = some (.ok (r, ⟨m'.kern, n⟩))) ∧
      m'.returns = match r with
        | .ok info => info.entry :: m.returns
        | .error _ => m.returns
  | .syscall sp pc =>
    (∃ k, Fetched m.kern sp pc 0x0f k ∧ Fetched k sp (pc + 1) 0x05 m'.kern) ∧
      m'.returns = (pc + 2) :: m.returns
  | .fork rip => rip ∈ m.returns ∧ m'.kern = m.kern ∧ m'.returns = rip :: m.returns

-- A range that reaches into the last page of user space.
def Covers (start len : Nat) : Prop := start < userTop ∧ userTop ≤ start + len

-- The act does not make the last page of user space executable, and no gap search goes wrong.
def Act.SparesLast (k : Kern) : Act → Prop
  | .call (.mapAnonymous sp addr length prot flags) _ =>
    ¬ GapOverflow k sp length.toNat flags ∧
      ¬ (hasBit flags mapFixed = true ∧ hasBit prot protExec = true ∧
        Covers addr.toNat (pageAlignUp length.toNat))
  | .call (.mprotect _ addr length prot) _ =>
    ¬ (hasBit prot protExec = true ∧ Covers addr.toNat (pageAlignUp length.toNat))
  | .execve _ _ file _ => ∀ ph ∈ loads file, ph.exec = true → segStop ph ≠ userTop
  | _ => True

def SparingStep (m : Machine) (a : Act) (m' : Machine) : Prop :=
  a.SparesLast m.kern ∧ ActStep m a m'

-- No VMA lets the last page of user space be executed.
def LastFree (k : Kern) : Prop :=
  ∀ sp vf, k.flags sp (userTop - 1) = some vf → vf.exec = false

section last

variable {r : Nat} {addr length : BitVec 64} {prot flags : BitVec 32}

theorem LastFree.space {f : Option VmaFlags} (h : LastFree k)
    (hother : ∀ t, t ≠ sp → k'.space t = k.space t) (hf : k'.flags sp (userTop - 1) = f)
    (hno : ∀ vf, f = some vf → vf.exec = false) : LastFree k' := by
  intro t vf hvf
  by_cases ht : t = sp
  · subst ht
    exact hno vf (hf.symm.trans hvf)
  · rw [flags_congr (hother t ht)] at hvf
    exact h t vf hvf

theorem LastFree.remap {F : Nat → Option VmaFlags} {D : Nat → Prop} (h : LastFree k)
    (hr : Remap k k' sp F D) (hno : ∀ vf, F (userTop - 1) = some vf → vf.exec = false) : LastFree k' :=
  h.space hr.other (hr.flags _) hno

theorem LastFree.same (h : LastFree k) (hs : k'.space = k.space) : LastFree k' := by
  intro t vf hvf
  rw [flags_congr (congrFun hs t)] at hvf
  exact h t vf hvf

theorem map_place (h : Sound k R K) (hno : ¬ GapOverflow k sp length.toNat flags)
    (hs : Step k (.mapAnonymous sp addr length prot flags, .ok (.addr r)) k') :
    (hasBit flags mapFixed = true → r = addr.toNat) ∧
      (hasBit flags mapFixed = false → r + pageAlignUp length.toNat ≤ mmapBaseTop) := by
  obtain ⟨hlive, hrun⟩ := hs
  obtain ⟨a, ha⟩ := Option.ne_none_iff_exists'.1 hlive
  have hspec : wp (exec (.mapAnonymous sp addr length prot flags))
      (fun ans _ => ∀ r, ans = .addr r → (hasBit flags mapFixed = true → r = addr.toNat) ∧
        (hasBit flags mapFixed = false → r + pageAlignUp length.toNat ≤ mmapBaseTop))
      (fun _ _ => True) k := by
    unfold exec
    refine (vmmMapAnonymous_spec h ha addr.isLt hno).bind ?_ fun _ _ _ => trivial
    intro r1 k1 h1
    apply wp_pure
    intro r2 hr2
    cases hr2
    obtain ⟨L, hg⟩ := h.spaces sp a ha
    exact ⟨h1.2.2.1, fun hf => (h1.2.2.2 hf).trans hg.ceiling.2⟩
  exact hspec.of_ok hrun r rfl

theorem LastFree.mapped (h : LastFree k) (hs : Sound k R K)
    (hspare : (Act.call (.mapAnonymous sp addr length prot flags) (.ok (.addr r))).SparesLast k)
    (hstep : Step k (.mapAnonymous sp addr length prot flags, .ok (.addr r)) k')
    (hm : Mapped k k' sp r (pageAlignUp length.toNat) prot) : LastFree k' := by
  have hplace := map_place hs hspare.1 hstep
  refine h.remap hm.remap fun vf hvf => ?_
  by_cases hin : r ≤ userTop - 1 ∧ userTop - 1 < r + pageAlignUp length.toNat
  · rw [if_pos hin] at hvf
    cases hvf
    cases hfix : hasBit flags mapFixed with
    | true =>
      have hr := hplace.1 hfix
      by_contra hexec
      refine hspare.2 ⟨hfix, by simpa [protToVma] using hexec, ?_, ?_⟩
      · have hpos : 0 < userTop := by decide
        omega
      · omega
    | false =>
      have hle := hplace.2 hfix
      have hlt : mmapBaseTop < userTop := by decide
      omega
  · rw [if_neg hin] at hvf
    exact h sp vf hvf

theorem LastFree.step {c : Call} {r : Except Errno Answer} (h : LastFree k) (hs : Sound k R K)
    (hspare : (Act.call c r).SparesLast k) (hstep : Step k (c, r) k') (he : Effect k k' c r) :
    LastFree k' := by
  cases he with
  | created hi fresh hspace =>
    refine h.space (fun t ht => ?_) (flags_empty (by rw [hspace, update_self]) _) ?_
    · rw [hspace, update_of_ne ht]
    · intro vf hvf
      cases hvf
  | notCreated hi hspace => exact h.same hspace
  | @destroyed sp hspace hsh =>
    have hgone : k'.space sp = none := by rw [hspace, update_self]
    refine h.space (fun t ht => ?_) (flags_none hgone _) ?_
    · rw [hspace, update_of_ne ht]
    · intro vf hvf
      cases hvf
  | mapped hm => exact h.mapped hs hspare hstep hm
  | notMapped hm =>
    rcases hm with hm | ⟨-, -, -, hm⟩
    · exact h.remap hm fun vf hvf => h _ vf hvf
    refine h.remap hm fun vf hvf => ?_
    split at hvf
    · cases hvf
    · exact h _ vf hvf
  | unmapped _ hre =>
    refine h.remap hre fun vf hvf => ?_
    split at hvf
    · cases hvf
    · exact h _ vf hvf
  | notUnmapped hre => exact h.remap hre fun vf hvf => h _ vf hvf
  | @reprotected sp addr length prot _ hwx hre =>
    refine h.space hre.other (hre.flags _) fun vf hvf => ?_
    split at hvf
    · rename_i hin
      obtain ⟨wf, -, rfl⟩ := Option.map_eq_some_iff.1 hvf
      by_contra hexec
      refine hspare ⟨by simpa [protToVma] using hexec, ?_, ?_⟩
      · have hpos : 0 < userTop := by decide
        omega
      · omega
    · exact h _ vf hvf
  | notReprotected hre => exact h.remap hre fun vf hvf => h _ vf hvf
  | cloned hc => exact h.space hc.other (hc.flags _) fun vf hvf => h _ vf hvf
  | notCloned hc => exact h.same hc.space
  | lazyFilled hk hr => exact h.same (by rw [hk])
  | notLazyFilled hk hr => exact h.same (by rw [hk])
  | copied hk hr => exact h.same (by rw [hk])
  | notCopied hk hr => exact h.same (by rw [hk])
  | completed hk hc => exact h.same (by rw [hk])
  | faulted hk hf => exact h.same (by rw [hk])

theorem LastFree.segment {vf : VmaFlags} (h : LastFree k) (hseg : Segment k k' sp start stop vf)
    (htop : stop ≤ userTop) (hno : vf.exec = true → stop ≠ userTop) : LastFree k' := by
  refine h.space hseg.other (hseg.flags _) fun wf hwf => ?_
  split at hwf
  · rename_i hin
    cases hwf
    by_contra hexec
    have := hno (by simpa using hexec)
    omega
  · exact h _ wf hwf

theorem LastFree.interrupted {ph : Elf64Phdr} (h : LastFree k) (hi : Interrupted k k' sp ph) :
    LastFree k' := by
  rcases hi with (hm | ⟨-, -, -, hm⟩) | ⟨-, htop, hseg⟩
  · exact h.remap hm fun vf hvf => h _ vf hvf
  · refine h.remap hm fun vf hvf => ?_
    split at hvf
    · cases hvf
    · exact h _ vf hvf
  · exact h.segment hseg htop fun hc => by cases hc

end last

section load

variable {image : ExecImage} {file : List Byte}

theorem elf64LoadImage_entry (l : Loader) :
    wlp (elf64LoadImage sp image) (fun info _ => info.entry < userTop) (fun _ _ => True) l := by
  unfold elf64LoadImage
  apply wlp_bind
  refine (elf64ValidateImage_spec image l).wlp.mono ?_ fun _ _ _ => trivial
  rintro info l1 ⟨_, phs, -, -, -, hv, -⟩
  obtain ⟨ph, hph, -, -, hlt⟩ := hv.entry
  have htop := (hv.sane ph hph).top
  apply wlp_bind
  refine wlp_true.mono (fun bs l2 _ => ?_) fun _ _ _ => trivial
  apply wlp_bind
  refine wlp_true.mono (fun _ l3 _ => ?_) fun _ _ _ => trivial
  exact wlp_pure (by omega)

theorem elf64LoadImage_lastFree {l : Loader} (hr : image.Reads file) (hsize : image.size < 2 ^ 64)
    (hs : Sound l.kern R K) (hc : Covered l.kern) (hlive : l.kern.space sp ≠ none)
    (hlast : LastFree l.kern) (hspare : ∀ ph ∈ loads file, ph.exec = true → segStop ph ≠ userTop) :
    wp (elf64LoadImage sp image) (fun _ l' => LastFree l'.kern) (fun _ l' => LastFree l'.kern) l := by
  refine (elf64LoadImage_spec hr hsize hs hc hlive hlast ?_).mono (fun _ _ h => h.2.1) fun _ _ h => h.2.1
  rintro ph hph k k' h (hl | hi)
  · exact h.segment hl.segment hl.top (hspare ph hph)
  · exact h.interrupted hi

end load

structure Canonical (m : Machine) (R : Set Nat) (K : Set Block) : Prop where
  sound : Sound m.kern R K
  safe : Safe m.kern
  last : LastFree m.kern
  returns : ∀ rip ∈ m.returns, rip < userTop

section run

variable {m m' : Machine} {c : Call} {r : Except Errno Answer}

theorem Act.SparesLast.calm (h : (Act.call c r).SparesLast k) : ¬ c.Overflows k := by
  cases c with
  | mapAnonymous sp addr length prot flags => exact h.1
  | _ => exact not_false

theorem fetched_below {b : BitVec 8} (hs : Sound k R K) (hk : Safe k)
    (hlast : LastFree k) (hf : Fetched k sp va b k') : va + 1 < userTop := by
  have hva : va < userTop := hf.1.2
  obtain ⟨e, he, -, hx⟩ := (access_completed hs hf).entry
  obtain ⟨vf, hvf, hg, -⟩ := hk.within sp _ e he
  have hexec := hg.2 (hx rfl)
  by_contra hc
  have hend : va = userTop - 1 := by omega
  rw [← hs.flags_page, hend] at hvf
  rw [hlast sp vf hvf] at hexec
  cases hexec

theorem Canonical.call (h : Canonical m R K) (hspare : (Act.call c r).SparesLast m.kern)
    (hs : Step m.kern (c, r) k') : Canonical ⟨k', m.returns⟩ R K := by
  have hsafe : SafeStep m.kern (c, r) k' := ⟨hspare.calm, hs⟩
  obtain ⟨hs', heff⟩ := hsafe.effect h.sound
  exact ⟨hs', h.safe.effect h.sound (fun _ _ => trivial) (c.grants_true _) heff,
    h.last.step h.sound hspare hs heff, h.returns⟩

theorem Canonical.push (h : Canonical m R K) (hrip : rip < userTop) :
    Canonical ⟨m.kern, rip :: m.returns⟩ R K :=
  ⟨h.sound, h.safe, h.last, List.forall_mem_cons.2 ⟨hrip, h.returns⟩⟩

theorem Canonical.load {image : ExecImage} {file : List Byte} {r : Except Errno ExecLoadInfo}
    (h : Canonical m R K) (hlive : m.kern.space sp ≠ none) (hsize : image.size < 2 ^ 64)
    (hfile : image.Reads file) (hspare : ∀ ph ∈ loads file, ph.exec = true → segStop ph ≠ userTop)
    (hrun : (elf64LoadImage sp image).run ⟨m.kern, 0⟩ = some (.ok (r, ⟨k', n⟩))) :
    Canonical ⟨k', m.returns⟩ R K := by
  have hop : SafeOpStep m.kern (.load sp image, r.map fun _ => .done) k' :=
    ⟨not_false, hlive, hsize, ⟨file, hfile⟩, r, n, hrun, rfl⟩
  obtain ⟨hs', hsafe'⟩ := hop.kept (fun _ _ => trivial) trivial ⟨h.sound, h.safe⟩
  have hlast := elf64LoadImage_lastFree (l := ⟨m.kern, 0⟩) hfile hsize h.sound h.safe.covered hlive
    h.last hspare
  refine ⟨hs', hsafe', ?_, h.returns⟩
  cases r with
  | ok info => exact hlast.of_ok hrun
  | error e => exact hlast.of_error hrun

theorem Canonical.step {a : Act} (h : Canonical m R K) (hstep : SparingStep m a m') :
    Canonical m' R K := by
  obtain ⟨hspare, hstep⟩ := hstep
  obtain ⟨k', returns'⟩ := m'
  cases a with
  | call c r =>
    obtain ⟨hs, rfl⟩ := hstep
    exact h.call hspare hs
  | execve sp image file r =>
    obtain ⟨hlive, hsize, hfile, ⟨n, hrun⟩, rfl⟩ := hstep
    have hload := h.load hlive hsize hfile hspare hrun
    cases r with
    | ok info => exact hload.push ((elf64LoadImage_entry _).1 _ _ hrun)
    | error e => exact hload
  | syscall sp pc =>
    obtain ⟨⟨k1, hfirst, hsecond⟩, rfl⟩ := hstep
    have h1 := h.call (c := .access sp pc .fetch) trivial hfirst
    have h2 := h1.call (c := .access sp (pc + 1) .fetch) trivial hsecond
    exact h2.push (fetched_below h1.sound h1.safe h1.last hsecond)
  | fork rip =>
    obtain ⟨hmem, rfl, rfl⟩ := hstep
    exact h.push (h.returns rip hmem)

end run

-- Every address to which a `sysret` or the `iretq` of a first entry goes is below USER_TOP.
theorem returns_canonical {k₀ : Kern} {R : Set Nat} {K : Set Block} {l : List Act} {m : Machine}
    (hb : Boot k₀ R K) (hrun : Run SparingStep ⟨k₀, []⟩ l m) : ∀ rip ∈ m.returns, rip < userTop := by
  have hboot : Canonical ⟨k₀, []⟩ R K := by
    refine ⟨hb.sound, .boot hb, fun sp vf hvf => ?_, fun rip hrip => ?_⟩
    · rw [flags_none (hb.vacant sp)] at hvf
      cases hvf
    · cases hrip
  exact (hrun.invariant (I := fun m => Canonical m R K) hboot fun _ _ _ h hs => h.step hs).returns

section code

variable {p : Nat}

-- The page at `p` is filled up to its end with code: the last two bytes are `syscall`.
def codeEvents (p : Nat) : List Event :=
  [(.createSpace, .ok (.space (some 1))),
    (.mapAnonymous 1 (BitVec.ofNat 64 p) 4096 readWrite fixed, .ok (.addr p)),
    (.access 1 (p + 4094) (.store 0x0f), .ok (.reply (.handled .resumed))),
    (.access 1 (p + 4094) (.store 0x0f), .ok (.reply (.value 0x0f))),
    (.access 1 (p + 4095) (.store 0x05), .ok (.reply (.value 0x05))),
    (.mprotect 1 (BitVec.ofNat 64 p) 4096 (protRead ||| protExec), .ok .done)]

def codePage (p : Nat) (prot : BitVec 32) : Vma := ⟨p, p + 4096, protToVma prot⟩

theorem empty_find (x : Nat) : vmaFind .empty x = some none := by
  unfold vmaFind
  exact findFrom_none

theorem codePage_found {t : VmaTree} (h : t.One 2 (codePage p readWrite)) (hlo : p ≤ x)
    (hhi : x < p + 4096) : vmaFind t x = some (some 2) ∧ (t.vma 2).flags = protToVma readWrite := by
  obtain ⟨hr, hn⟩ := h
  simp only [List.forall_mem_singleton] at hn
  refine ⟨?_, by rw [hn.2]; rfl⟩
  unfold vmaFind
  rw [hr, findFrom_here (by rw [hn.2]; exact Nat.not_lt.2 hlo) (by rw [hn.2]; exact Nat.not_le.2 hhi)]

theorem code_addr (htop : p + 4096 ≤ userTop) : (BitVec.ofNat 64 p).toNat = p := by
  rw [BitVec.toNat_ofNat]
  simp only [userTop] at htop
  omega

theorem code_page (hal : p % pageSize = 0) (hi : i < 4096) : (p + i) / pageSize = p / pageSize := by
  simp only [pageSize] at hal ⊢
  omega

variable (hal : p % pageSize = 0) (hfloor : pageSize ≤ p) (htop : p + 4096 ≤ userTop)
include hal hfloor htop

theorem codeEvents_mapped : ∃ k0 R K k a pa, Boot k0 R K ∧
      Run SafeStep k0 ((codeEvents p).take 2) k ∧ Scene k pa R K 3 204 ∧ k.space 1 = some a ∧
      a.vmas.One 2 (codePage p readWrite) ∧
      ∀ t u, k.pte t u = none := by
  obtain ⟨k0, R, K, k1, a1, pa, hb, hrun1, h1, ha1, hempty, -, hnone⟩ := createEvents_run
  have hnothing := removeRange_nothing p (p + 4096) (v := none) (r := none) ha1 (by omega)
    (by rw [hempty]; exact empty_find _) (by rw [hempty]; exact empty_find _) (by simp)
    (by rw [hempty, vmaAtOrAbove_skip (empty_find _) (o := none) rfl, skipBelow_none]) (by simp)
  obtain ⟨t2, hins2, hdraw2⟩ := insert_first 2 (codePage p readWrite) hempty
  have hwrap : wrap64 (p + 4096) = p + 4096 := by
    unfold wrap64
    simp only [userTop] at htop
    omega
  have hrun2 := h1.roomy.mapFixed p 4096 readWrite ha1 (by decide) (by decide) (by decide) hal hfloor
    htop hnothing (t := t2) (by rw [h1.next]; exact hwrap.symm ▸ hins2)
  have hstep2 : SafeStep k1 (.mapAnonymous 1 (BitVec.ofNat 64 p) 4096 readWrite fixed, .ok (.addr p))
      (k1.plant pa 1 t2) := by
    refine ⟨fun hc => absurd hc.1 (by decide), step_mapAnonymous _ 4096 ha1 ?_⟩
    rw [code_addr htop]
    exact hrun2
  refine ⟨_, _, _, _, _, pa, hb, hrun1.snoc hstep2, h1.plant _ _, plant_self _ _ ha1, hdraw2, ?_⟩
  intro t u
  rw [(h1.roomy.plant_base h1.base).2.pte, hnone]

theorem codeEvents_stored : ∃ k0 R K k a pa e, Boot k0 R K ∧
      Run SafeStep k0 ((codeEvents p).take 5) k ∧ Scene k pa R K 3 200 ∧ k.space 1 = some a ∧
      a.vmas.One 2 (codePage p readWrite) ∧
      k.pte 1 (p / pageSize) = some e := by
  obtain ⟨k0, R, K, k2, a, pa, hb, hrun2, h2, ha, hdraw, hnone⟩ := codeEvents_mapped hal hfloor htop
  have hin : ∀ i, i < 4096 → p + i < userTop := by
    intro i hi
    omega
  obtain ⟨hfind, hflags⟩ := codePage_found hdraw (x := p + 4094) (by omega) (by omega)
  obtain ⟨s3, e, hrun3, h3, hpte3, hw, hz⟩ := h2.store_fault (m := 200) (p + 4094) 0x0f ha
    (page_lt (hin _ (by decide))) hnone hfind (by rw [hflags]; rfl)
  obtain ⟨s4, hrun4, h4, hpte4, -⟩ := h3.store (p + 4094) 0x0f ha
    (page_lt (hin _ (by decide))) hpte3.entry
    hw hz (fun _ _ _ he' _ => hpte3.key he')
  rw [code_page hal (by decide)] at hpte3
  have hsafe3 : SafeStep k2 (.access 1 (p + 4094) (.store 0x0f), .ok (.reply (.handled .resumed)))
      { k2 with phys := s3 } := ⟨not_false, step_access ha (hin _ (by decide)) hrun3⟩
  have hsafe4 : SafeStep { k2 with phys := s3 }
      (.access 1 (p + 4094) (.store 0x0f), .ok (.reply (.value 0x0f))) { k2 with phys := s4 } :=
    ⟨not_false, step_access (k := { k2 with phys := s3 }) ha (hin _ (by decide)) hrun4⟩
  have hrun := (hrun2.snoc hsafe3).snoc hsafe4
  have hp4 : ({ k2 with phys := s4 } : Kern).pte 1 (p / pageSize) = some e :=
    (hpte4 1 _).trans hpte3.entry
  have hz4 := ((SafeRun.kept hb hrun).1.owned.exclusive 1 _ e hp4 hw).1
  obtain ⟨s5, hrun5, h5, hpte5, -⟩ := h4.store (p + 4095) 0x05 ha
    (page_lt (hin _ (by decide))) (by rw [code_page hal (by decide)]; exact hp4)
    hw hz4 (fun t u e' he' _ => by rw [code_page hal (by decide)]; exact hpte3.key ((hpte4 t u).symm.trans he'))
  have hsafe5 : SafeStep { k2 with phys := s4 }
      (.access 1 (p + 4095) (.store 0x05), .ok (.reply (.value 0x05))) { k2 with phys := s5 } :=
    ⟨not_false, step_access (k := { k2 with phys := s4 }) ha (hin _ (by decide)) hrun5⟩
  exact ⟨_, _, _, _, a, pa, e, hb, hrun.snoc hsafe5, h5, ha, hdraw, (hpte5 1 _).trans hp4⟩

theorem codeEvents_run : ∃ k0 R K k, Boot k0 R K ∧ Run SafeStep k0 (codeEvents p) k ∧
      Fetched k 1 (p + 4094) 0x0f k ∧ Fetched k 1 (p + 4095) 0x05 k := by
  obtain ⟨k0, R, K, k5, a, pa, e, hb, hrun5, h5, ha, hdraw, hp5⟩ := codeEvents_stored hal hfloor htop
  have hs5 := (SafeRun.kept hb hrun5).1
  obtain ⟨k6, hrun6⟩ := mprotect_only (protRead ||| protExec) hs5.base hs5.owned ha hdraw
    ⟨hfloor, htop, hal, by simp only [codePage, pageSize] at hal ⊢; omega, rfl⟩
    (by simp only [codePage]; omega) (by decide)
  have hsub : (codePage p readWrite).stop - (codePage p readWrite).start = 4096 := by
    simp only [codePage]
    omega
  rw [hsub] at hrun6
  change (sysMprotect (some 1) p 4096 (protRead ||| protExec)).run k5 = _ at hrun6
  have hsafe6 : SafeStep k5
      (.mprotect 1 (BitVec.ofNat 64 p) 4096 (protRead ||| protExec), .ok .done) k6 := by
    refine ⟨not_false, by simp [Call.Valid, ha], ?_⟩
    show (sysMprotect (some 1) (BitVec.ofNat 64 p).toNat 4096 (protRead ||| protExec) >>=
      fun _ => pure Answer.done).run k5 = _
    rw [code_addr htop, run_bind_ok hrun6]
    rfl
  have hrun := hrun5.snoc hsafe6
  obtain ⟨hs6, hkept6⟩ := SafeRun.kept hb hrun
  have heff := (hsafe6.effect hs5).2
  cases heff with
  | reprotected _ _ hre =>
    rw [code_addr htop] at hre
    have hcov := (SafeRun.kept hb hrun5).2.covered 1 _ e hp5
    have hstart : p / pageSize * pageSize = p := by
      simp only [pageSize] at hal ⊢
      omega
    have hlen : pageAlignUp (4096 : BitVec 64).toNat = 4096 := by decide
    obtain ⟨e', hp6, -, hx, -⟩ := hre.pages.present (p / pageSize) e
      ⟨hstart.ge, by rw [hstart, hlen]; omega, hcov⟩ hp5
    obtain ⟨b, hb6⟩ := Option.ne_none_iff_exists'.1 hre.live
    have hfetch : ∀ i, i < 4096 → Fetched k6 1 (p + i) (k6.byte 1 (p + i)) k6 := by
      intro i hi
      have hlow : p + i < userTop := by omega
      exact step_access hb6 hlow
        (read_run (p + i) .fetch hs6.base hb6 (page_lt hlow) (by rw [code_page hal hi]; exact hp6) rfl
          fun _ => hx)
    have hbyte : ∀ i b, i < 4096 → Memory.empty.after (codeEvents p) 1 (p + i) = some b →
        k6.byte 1 (p + i) = b := by
      intro i b hi hmem
      have hflags : k6.flags 1 (p + i) ≠ none := by
        rw [hs6.flags_page, code_page hal hi]
        exact hkept6.covered 1 _ e' hp6
      have hshow := (SafeRun.shows hb hrun 1 (p + i) hflags).symm.trans hmem
      exact Option.some.inj hshow
    refine ⟨k0, R, K, k6, hb, hrun, ?_, ?_⟩
    · rw [← hbyte 4094 0x0f (by decide)]
      · exact hfetch 4094 (by decide)
      · simp [codeEvents, Memory.after, Memory.next, Memory.fill]
    · rw [← hbyte 4095 0x05 (by decide)]
      · exact hfetch 4095 (by decide)
      · simp [codeEvents, Memory.after, Memory.next, Memory.fill]

end code

-- The program executes the `syscall` at the end of the page.
def codeActs (p : Nat) : List Act :=
  (codeEvents p).map (fun e => .call e.1 e.2) ++ [.syscall 1 (p + 4094)]

theorem calls_run {S : Machine → Act → Machine → Prop} {k k' : Kern} {l : List Event}
    (hrun : Run SafeStep k l k')
    (hS : ∀ k e k', e ∈ l → SafeStep k e k' → S ⟨k, []⟩ (.call e.1 e.2) ⟨k', []⟩) :
    Run S ⟨k, []⟩ (l.map fun e => .call e.1 e.2) ⟨k', []⟩ := by
  induction hrun with
  | nil => exact .nil
  | snoc _ he ih =>
    rw [List.map_append]
    refine .snoc (ih fun k e k' hmem => hS k e k' (List.mem_append_left _ hmem)) ?_
    exact hS _ _ _ (List.mem_append_right _ List.mem_cons_self) he

theorem returns_canonical_code : ∃ k₀ R K m, Boot k₀ R K ∧ Run SparingStep ⟨k₀, []⟩ (codeActs
    0x400000) m ∧ m.returns = [0x401000] ∧ ∀ rip ∈ m.returns, rip < userTop := by
  obtain ⟨k₀, R, K, k, hb, hrun, hfirst, hsecond⟩ :=
    codeEvents_run (p := 0x400000) (by decide) (by decide) (by decide)
  have hacts : Run SparingStep ⟨k₀, []⟩ (codeActs 0x400000) ⟨k, [0x401000]⟩ := by
    refine .snoc (calls_run hrun fun k e k' hmem hs => ⟨?_, hs.2, rfl⟩)
      ⟨trivial, ⟨k, hfirst, hsecond⟩, rfl⟩
    have hno := hs.1
    simp only [codeEvents, List.mem_cons, List.not_mem_nil, or_false] at hmem
    rcases hmem with rfl | rfl | rfl | rfl | rfl | rfl
    · trivial
    · exact ⟨hno, fun hc => absurd hc.2.1 (by decide)⟩
    · trivial
    · trivial
    · trivial
    · exact fun hc => absurd hc.2.2 (by decide)
  exact ⟨k₀, R, K, _, hb, hacts, rfl, returns_canonical hb hacts⟩

-- The page is the last one of user space.
theorem returns_noncanonical : ∃ k₀ R K m, Boot k₀ R K ∧
    Run ActStep ⟨k₀, []⟩ (codeActs (userTop - pageSize)) m ∧ m.returns = [userTop] := by
  obtain ⟨k₀, R, K, k, hb, hrun, hfirst, hsecond⟩ :=
    codeEvents_run (p := userTop - pageSize) (by decide) (by decide) (by decide)
  refine ⟨k₀, R, K, ⟨k, [userTop]⟩, hb, ?_, rfl⟩
  exact .snoc (calls_run hrun fun k e k' _ hs => ⟨hs.2, rfl⟩) ⟨⟨k, hfirst, hsecond⟩, rfl⟩

end Jnu.System
