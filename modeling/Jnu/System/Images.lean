import Jnu.Exec.Image
import Jnu.System.Protection

namespace Jnu.System

open Lib.Dyadic Lib.Effect Lib.Trace Paging Pmm Mm Exec

variable {k : Kern} {R : Set Nat} {K : Set Block} {sp : Nat}

section fresh

variable {k₀ k₁ : Kern} {l : List OpEvent}

theorem created_loading (hb : Boot k₀ R K) (hrun : Run SafeOpStep k₀ l k)
    (hnew : SafeOpStep k (.call .createSpace, .ok (.space (some sp))) k₁) :
    Loading k₁ R K sp k₁ [] ∧ ∀ u, k₁.pte sp u = none := by
  obtain ⟨hs, -⟩ := SafeOpRun.kept hb hrun
  obtain ⟨hs1, hk1⟩ := SafeOpRun.kept hb (hrun.snoc hnew)
  have hsafe : SafeStep k (.createSpace, .ok (.space (some sp))) k₁ := ⟨not_false, hnew.2⟩
  have heff := (hsafe.effect hs).2
  cases heff with
  | created hi fresh hspace =>
    have hself := (congrFun hspace sp).trans (Function.update_self ..)
    have hflags := flags_empty hself
    have hnone : ∀ u, k₁.pte sp u = none := by
      intro u
      rw [hi.pte]
      exact pte_none fresh u
    have hno : ∀ {P : Prop} u e, k₁.pte sp u = some e → P := by
      intro P u e he
      rw [hnone] at he
      cases he
    refine ⟨⟨hs1, hk1.covered, by rw [hself]; simp, fun u e he => hno u e he,
      fun u e he => hno u e he, fun _ _ _ => rfl, fun _ => ⟨?_, fun u e he => hno u e he⟩,
      iff_of_true (List.forall_mem_nil _) .nil⟩, hnone⟩
    intro x vf hx
    rw [hflags] at hx
    cases hx

end fresh

-- The loader stays in what it mapped exactly if what it reads in the second pass is tame.
theorem load_confined {k₀ k k₁ : Kern} {R : Set Nat} {K : Set Block} {l : List OpEvent} {sp : Nat}
    (image : ExecImage) (hb : Boot k₀ R K) (hrun : Run SafeOpStep k₀ l k)
    (hnew : SafeOpStep k (.call .createSpace, .ok (.space (some sp))) k₁) :
    ∃ r w, (Watched.elf64LoadImage sp image).run ⟨⟨k₁, 0⟩, []⟩ = some (.ok (r, w)) ∧
      (w.Stopped ∨ (elf64LoadImage sp image).run ⟨k₁, 0⟩ = some (.ok (r, w.loader))) ∧
      ((∀ ev ∈ w.log, ev.Tame sp) ↔ Confined k₁ sp w.log ∧ NoWx w.kern sp) := by
  obtain ⟨hload, hnone⟩ := created_loading hb hrun hnew
  rcases watchedImage_spec image hnone hload with ⟨info, w, hr, h⟩ | ⟨e, w, hr, h⟩
  · exact ⟨.ok info, w, hr, (elf64LoadImage_erases sp image).run_eq hr, h⟩
  · exact ⟨.error e, w, hr, (elf64LoadImage_erases sp image).run_eq hr, h⟩

-- An image with one segment, whose header has the flags `fl` at the second reading.
def fileHeader : List Byte :=
  [0x7F, 0x45, 0x4C, 0x46, 2, 1] ++ List.replicate 10 0 ++ [2, 0, 62, 0, 1, 0, 0, 0] ++
    [0, 0, 1, 0, 0, 0, 0, 0] ++ [64, 0, 0, 0, 0, 0, 0, 0] ++ List.replicate 14 0 ++ [56, 0, 1, 0] ++
    List.replicate 6 0

def segmentHeader (fl : Byte) : List Byte :=
  [1, 0, 0, 0, fl, 0, 0, 0] ++ List.replicate 8 0 ++ [0, 0, 1, 0, 0, 0, 0, 0] ++
    List.replicate 8 0 ++ List.replicate 8 0 ++ [0, 16, 0, 0, 0, 0, 0, 0] ++ List.replicate 8 0

def rewritten (fl : Byte) : ExecImage where
  size := 120
  readAt n _ len :=
    if len = ehdrSize then .ok fileHeader else .ok (segmentHeader (if n < 3 then 5 else fl))

def ehdr : Elf64Ehdr := elf64Ehdr fileHeader

-- The header of a segment without contents in the file.
def blankPage (flags : Nat) : Elf64Phdr := ⟨ptLoad, flags, 0, 0x10000, 0, 0x1000⟩

theorem blankPage_range (p : Nat) : pageDown (blankPage p).vaddr = 0x10000 ∧
    pageUp (wrap64 ((blankPage p).vaddr + (blankPage p).memsz)) = 0x11000 :=
  ⟨(by decide : pageDown 0x10000 = 0x10000), (by decide : pageUp (wrap64 0x11000) = 0x11000)⟩

theorem segmentHeader_eq : elf64Phdr (segmentHeader 5) = blankPage 5 ∧
    elf64Phdr (segmentHeader 7) = blankPage 7 := by decide

-- A validation that succeeds has seen sound segments, and no validation reads outside the image.
theorem validation_sound :
    (∀ (image : ExecImage) (file : List Byte) (l : Loader), image.Reads file →
      wp (elf64ValidateImage image)
        (fun info _ => loads file ≠ [] ∧ info.entry = (ehdrOf file).entry ∧
          Validated image.size (loads file) info)
        (fun _ _ => True) l) ∧
    ∀ image image' : ExecImage, image'.size = image.size →
      (∀ n off len, off + len ≤ image.size → image'.readAt n off len = image.readAt n off len) →
      elf64ValidateImage image' = elf64ValidateImage image := by
  refine ⟨fun image file l hr => ?_, fun image image' hs hr => elf64ValidateImage_congr hs hr⟩
  refine (elf64ValidateImage_spec image l).mono ?_ fun _ _ _ => trivial
  rintro info _ ⟨bs, phs, -, -, hentry, hv, hfile⟩
  obtain ⟨heh, rfl⟩ := hfile file hr
  obtain ⟨ph, hph, -⟩ := hv.entry
  exact ⟨List.ne_nil_of_mem hph, heh ▸ hentry, hv⟩

def fixedImage (file : List Byte) : ExecImage where
  size := file.length
  readAt _ off len := .ok ((file.drop off).take len)

set_option maxRecDepth 20000 in
theorem fixed_run (k : Kern) : (elf64ValidateImage (fixedImage (fileHeader ++ segmentHeader 5))).run ⟨k, 0⟩ =
    done ⟨0x10000, 0x10000, 0x11000⟩ ⟨k, 2⟩ := rfl

theorem validation_sound_fixed : ∃ k l info,
    (elf64ValidateImage (fixedImage (fileHeader ++ segmentHeader 5))).run ⟨k, 0⟩ = some (.ok (.ok info, l)) ∧
      Validated 120 (loads (fileHeader ++ segmentHeader 5)) info := by
  obtain ⟨k, -⟩ := createEvents_run
  have hr : (fixedImage (fileHeader ++ segmentHeader 5)).Reads (fileHeader ++ segmentHeader 5) :=
    fun _ _ _ _ h => (Except.ok.inj h).symm
  exact ⟨k, _, _, fixed_run k, ((validation_sound.1 _ _ ⟨k, 0⟩ hr).of_ok (fixed_run k)).2.2⟩

theorem read_header (fl : Byte) (l : Loader) :
    (imageReadExact (rewritten fl) 0 ehdrSize).run l =
      done fileHeader { l with reads := l.reads + 1 } := rfl

theorem read_segment (fl : Byte) (l : Loader) :
    (imageReadExact (rewritten fl) (wrap64 (ehdr.phoff + 0 * phdrSize)) phdrSize).run l =
      done (segmentHeader (if l.reads < 3 then 5 else fl)) { l with reads := l.reads + 1 } := rfl

theorem validate_run (fl : Byte) (k : Kern) :
    (elf64ValidateImage (rewritten fl)).run ⟨k, 0⟩ =
      done ⟨0x10000, 0x10000, 0x11000⟩ ⟨k, 2⟩ := by
  have hsize : (rewritten fl).size = 120 := rfl
  have hphdr : validatePhdr 120 ehdr.entry (blankPage 5) ⟨userTop, 0, 0, false⟩ =
      some ⟨0x10000, 0x11000, 1, true⟩ := by rfl
  have hloop : (validateLoop (rewritten fl) ehdr 1 0 ⟨userTop, 0, 0, false⟩).run ⟨k, 1⟩ =
      done ⟨0x10000, 0x11000, 1, true⟩ ⟨k, 2⟩ := by
    unfold validateLoop
    rw [run_bind_ok (read_segment fl ⟨k, 1⟩)]
    dsimp only
    rw [if_pos (by decide), segmentHeader_eq.1, hsize, hphdr]
    rfl
  unfold elf64ValidateImage
  rw [run_bind_ok (read_header fl ⟨k, 0⟩)]
  rw [show elf64Ehdr fileHeader = ehdr from rfl, if_neg (by decide), hsize, if_neg (by decide),
    show ehdr.phnum = 1 by decide, run_bind_ok hloop]
  rfl

section blank

variable {pa n m : Nat} {a : AddrSpace}

theorem Scene.materialise (h : Scene k pa R K n (m + 4)) (hs : Sound k R K)
    (ha : k.space sp = some a) (hp : k.pte sp 16 = none) :
    wp (materialisePages a.pml4Phys 0x10000 0x11000)
      (fun _ s' => Sound { k with phys := s' } R K ∧
        ∃ e, ({ k with phys := s' } : Kern).pte sp 16 = some e ∧ has e pteWrite = true)
      never k.phys := by
  have hfree := h.free
  rcases materialisePage_spec hs ha (by decide) hp with ⟨_, s', hrun, hs', e, hset, hw, -⟩ |
    ⟨_, _, -, -, -, hfew⟩
  · have hrun' : (materialisePages a.pml4Phys 0x10000 0x11000).run k.phys = done () s' := by
      unfold materialisePages
      exact one_page hrun
    exact .inl ⟨(), s', hrun', hs', e, (hset.pte sp 16).trans (if_pos ⟨rfl, rfl⟩), hw⟩
  · omega

-- The log of a load of the blank page.
def Blank (p : Nat) (w : Watched) : Prop :=
  ∃ k, w.log = [.mapped 0x10000 0x11000, .secured k (blankPage p)]

theorem Scene.loadBlank (h : Scene k pa R K n (m + 4)) (hs : Sound k R K) (hcov : Covered k)
    (ha : k.space sp = some a) (hempty : a.vmas = .empty) (image : ExecImage)
    (hsize : image.size < 2 ^ 64) (p r : Nat) :
    wp (Watched.loadSegment sp image (blankPage p))
      (fun _ w => Blank p w ∧ Loaded image k w.kern sp (blankPage p)) never ⟨⟨k, r⟩, []⟩ := by
  obtain ⟨t, hins, -⟩ := insert_first n ⟨0x10000, 0x11000, rwUser⟩ hempty
  have hfind : ∀ x, vmaFind a.vmas x = some none := by
    intro x
    unfold vmaFind
    rw [hempty]
    exact findFrom_none
  have hfirst : vmaFirst a.vmas = some none := by
    rw [hempty]
    rfl
  have habove : vmaAtOrAbove a.vmas 0x10000 = some none := by
    rw [vmaAtOrAbove_skip (hfind _) hfirst, skipBelow_none]
  have hnothing := removeRange_nothing 0x10000 0x11000 ha (by decide) (hfind _) (hfind _) (by simp)
    habove (by simp)
  have hmap := h.roomy.mapFixed 0x10000 0x1000 protRW ha (by decide) (by decide) (by decide)
    (by decide) (by decide) (by decide) hnothing (t := t) (by rw [h.next]; exact hins)
  obtain ⟨hstart, hstop⟩ := blankPage_range p
  have hva : (blankPage p).vaddr < 2 ^ 64 := (by decide : 0x10000 < 2 ^ 64)
  have hfit : (blankPage p).vaddr + (blankPage p).filesz ≤ segStop (blankPage p) := by
    rw [segStop, hstop]
    exact (by decide : 0x10000 ≤ 0x11000)
  -- every part of the load goes through
  have hok : wp (Watched.loadSegment sp image (blankPage p)) (fun _ w => Blank p w) never ⟨⟨k, r⟩, []⟩ := by
    have h1 := h.plant sp t
    have ha1 := plant_self pa t ha
    unfold Watched.loadSegment
    simp only [hstart, hstop, show sub64 0x11000 0x10000 = 0x1000 by decide]
    apply wp_bind_zoom
    apply wp_zoom
    apply wp_of_ok hmap
    apply wp_bind
    apply wp_note
    have hnogap : ¬ GapOverflow k sp 0x1000 fixedAnonymous := fun hc => absurd hc.1 (by decide)
    obtain ⟨hs1, hm, -⟩ := (vmmMapAnonymous_spec hs ha (by decide) hnogap).of_ok hmap
    have hvac := mapped_vacant hcov hm (u := 16) (by decide) (by decide)
    apply wp_bind_zoom
    apply wp_zoom
    apply wp_of_ok (run_pml4Of ha1)
    apply wp_bind_zoom
    apply wp_zoom
    apply wp_zoom
    refine (h1.materialise hs1 ha1 hvac).post ?_
    intro _ s2 h2
    obtain ⟨hs2, e, he, hw⟩ := h2
    apply wp_bind
    rw [show (blankPage p).filesz = 0 from rfl, Watched.copyFile, dif_pos rfl]
    apply wp_pure
    apply wp_bind_zoom
    apply wp_zoom
    apply wp_zoom
    have hvma : HasVma { k.plant pa sp t with phys := s2 } sp ⟨0x10000, 0x11000, rwUser⟩ := hm.vma
    refine (secure_spec hs2 ha1 (by decide) (by decide) (by decide) (by decide) rfl hvma
      fun u hu hu' => ?_).post ?_
    · obtain rfl : u = 16 := by
        simp only [pageSize] at hu hu'
        omega
      exact ⟨e, he, hw⟩
    · intro _ s3 h3
      apply wp_bind_zoom
      apply wp_zoom
      refine h3.post fun _ k4 _ => ?_
      apply wp_note
      exact ⟨k4, rfl⟩
  obtain ⟨_, w, hrun, hw⟩ := hok.exists_ok
  have hspec := (watchedSegment_spec (w := ⟨⟨k, r⟩, []⟩) hs hcov ha hva
    (.inl hfit : _ ∨ (∀ u, k.pte sp u = none) ∧ _)).of_ok hrun
  exact wp_of_ok hrun ⟨hw, hspec.2 hsize hfit⟩

-- The whole load of the image, with the flags `p` at the second reading.
theorem Scene.loadRewritten (h : Scene k pa R K n (m + 4)) (hs : Sound k R K) (hcov : Covered k)
    (ha : k.space sp = some a) (hempty : a.vmas = .empty) {fl : Byte} {p : Nat}
    (hfl : elf64Phdr (segmentHeader fl) = blankPage p) :
    wp (Watched.elf64LoadImage sp (rewritten fl))
      (fun _ w => Blank p w ∧ Loaded (rewritten fl) k w.kern sp (blankPage p)) never ⟨⟨k, 0⟩, []⟩ := by
  unfold Watched.elf64LoadImage
  apply wp_bind_zoom
  apply wp_of_ok (validate_run fl k)
  apply wp_bind_zoom
  apply wp_of_ok (read_header fl ⟨k, 2⟩)
  dsimp only
  rw [show elf64Ehdr fileHeader = ehdr from rfl, show ehdr.phnum = 1 by decide, Watched.loadLoop]
  apply wp_bind
  apply wp_bind_zoom
  apply wp_of_ok (read_segment fl ⟨k, 3⟩)
  dsimp only
  rw [if_neg (Nat.lt_irrefl 3), hfl, if_pos (show (blankPage p).type = ptLoad from rfl)]
  apply wp_bind
  refine (h.loadBlank hs hcov ha hempty (rewritten fl) (by decide : 120 < 2 ^ 64) p 4).post ?_
  exact fun _ w hw => wp_pure (wp_pure hw)

end blank

theorem load_confined_stable : ∃ k₀ R K k w info, Boot k₀ R K ∧
    SafeOpStep k₀ (.call .createSpace, .ok (.space (some 1))) k ∧
    (elf64LoadImage 1 (rewritten 5)).run ⟨k, 0⟩ = some (.ok (.ok info, w.loader)) ∧
    Blank 5 w ∧ Confined k 1 w.log ∧ NoWx w.kern 1 := by
  obtain ⟨k₀, R, K, k, a, pa, hb, hrun, h, ha, hempty, -, hnone⟩ := createEvents_run
  have hnew : SafeOpStep k₀ (.call .createSpace, .ok (.space (some 1))) k := hrun.of_one
  obtain ⟨hs, hk⟩ := SafeOpRun.kept hb (Run.one hnew)
  obtain ⟨info, w, hload, hblank, -⟩ := (h.loadRewritten hs hk.covered ha hempty segmentHeader_eq.1).exists_ok
  obtain ⟨r, w', hload', herase, hiff⟩ := load_confined (rewritten 5) hb .nil hnew
  cases hload.symm.trans hload'
  have htame : ∀ ev ∈ w.log, ev.Tame 1 := by
    obtain ⟨k', hlog⟩ := hblank
    rw [hlog, List.forall_mem_cons, List.forall_mem_singleton]
    exact ⟨trivial, (by decide : ((blankPage 5).write && (blankPage 5).exec) = false)⟩
  obtain ⟨hc, hwx⟩ := hiff.1 htame
  have hlow : ¬ w.Stopped := fun ⟨_, hva, htop⟩ => Nat.not_lt_of_le htop (hc.low hva)
  exact ⟨k₀, R, K, k, w, info, hb, hnew, herase.resolve_left hlow, hblank, hc, hwx⟩

-- When it is read again, the header says that the segment can be written and executed.
theorem load_writable_executable : ∃ k₀ R K k l info e, Boot k₀ R K ∧
    SafeOpStep k₀ (.call .createSpace, .ok (.space (some 1))) k ∧
    (elf64LoadImage 1 (rewritten 7)).run ⟨k, 0⟩ = some (.ok (.ok info, l)) ∧
    l.kern.pte 1 16 = some e ∧ has e pteWrite = true ∧ has e pteNx = false := by
  obtain ⟨k₀, R, K, k, a, pa, hb, hrun, h, ha, hempty, -, hnone⟩ := createEvents_run
  have hnew : SafeOpStep k₀ (.call .createSpace, .ok (.space (some 1))) k := hrun.of_one
  obtain ⟨hs, hk⟩ := SafeOpRun.kept hb (Run.one hnew)
  obtain ⟨info, w, hload, ⟨k', hlog⟩, hl⟩ :=
    (h.loadRewritten hs hk.covered ha hempty segmentHeader_eq.2).exists_ok
  obtain ⟨e, he, hw, hnx, -⟩ := hl.resident 16 (by decide) (by decide)
  refine ⟨k₀, R, K, k, w.loader, info, e, hb, hnew, ?_, he, hw, hnx⟩
  refine ((elf64LoadImage_erases 1 (rewritten 7)).run_eq hload).resolve_left ?_
  rintro ⟨va, hva, -⟩
  rw [hlog] at hva
  simp at hva

end Jnu.System
