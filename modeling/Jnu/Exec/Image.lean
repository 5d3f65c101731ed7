import Jnu.Exec.Watched
import Jnu.Lib.Trace

namespace Jnu.Exec

open Lib.Dyadic Lib.Effect Lib.Refs Lib.Trace Pmm Mm

variable {image : ExecImage} {file : List Byte} {l : Loader} {len e size entry : Nat} {v v' : Validation}
  {I : Kern → Prop}

theorem leNat_lt (bs : List Byte) : leNat bs < 256 ^ bs.length := by
  induction bs with
  | nil => exact Nat.one_pos
  | cons b bs ih =>
    rw [leNat, List.length_cons, Nat.pow_succ]
    omega

theorem field_lt (bs : List Byte) (off len : Nat) : field bs off len < 256 ^ len := by
  unfold field
  refine (leNat_lt _).trans_le (Nat.pow_le_pow_right (by decide) ?_)
  rw [List.length_take]
  exact Nat.min_le_left ..

theorem vaddr_lt (bs : List Byte) : (elf64Phdr bs).vaddr < 2 ^ 64 := field_lt bs 16 8

theorem memsz_lt (bs : List Byte) : (elf64Phdr bs).memsz < 2 ^ 64 := field_lt bs 40 8

def ehdrOf (file : List Byte) : Elf64Ehdr := elf64Ehdr (file.take ehdrSize)

def phdrOf (file : List Byte) (i : Nat) : Elf64Phdr :=
  elf64Phdr ((file.drop (wrap64 ((ehdrOf file).phoff + i * phdrSize))).take phdrSize)

-- The `PT_LOAD` segments among `n` headers from number `i` on.
def loadsFrom (file : List Byte) : Nat → Nat → List Elf64Phdr
  | 0, _ => []
  | n + 1, i =>
    if (phdrOf file i).type = ptLoad then phdrOf file i :: loadsFrom file n (i + 1)
    else loadsFrom file n (i + 1)

def loads (file : List Byte) : List Elf64Phdr := loadsFrom file (ehdrOf file).phnum 0

structure Sane (size : Nat) (ph : Elf64Phdr) : Prop where
  file : ph.filesz ≤ ph.memsz
  inFile : ph.offset + ph.filesz ≤ size
  wx : (ph.write && ph.exec) = false
  nonempty : 0 < ph.memsz
  floor : pageSize ≤ ph.vaddr
  top : ph.vaddr + ph.memsz ≤ userTop

theorem userRange_some {start : Nat} (hs : start < 2 ^ 64) (hl : len < 2 ^ 64)
    (h : userRange start len = some e) :
    0 < len ∧ pageSize ≤ start ∧ start + len ≤ userTop ∧ e = start + len := by
  unfold userRange at h
  by_cases h1 : len = 0 ∨ wrap64 (start + len) < start
  · rw [if_pos h1] at h
    cases h
  rw [if_neg h1] at h
  by_cases h2 : start < 0x1000 ∨ start ≥ userTop ∨ wrap64 (start + len) > userTop
  · rw [if_pos h2] at h
    cases h
  rw [if_neg h2] at h
  obtain rfl := Option.some.inj h
  simp only [wrap64, userTop, pageSize] at h1 h2 ⊢
  omega

def Validation.count (entry : Nat) (v : Validation) (ph : Elf64Phdr) : Validation where
  low := min v.low ph.vaddr
  high := max v.high (ph.vaddr + ph.memsz)
  loads := v.loads + 1
  entryInExec := v.entryInExec ||
    (ph.exec && decide (ph.vaddr ≤ entry ∧ entry < ph.vaddr + ph.memsz))

theorem validatePhdr_some {ph : Elf64Phdr} (hv : ph.vaddr < 2 ^ 64) (hm : ph.memsz < 2 ^ 64)
    (hload : ph.type = ptLoad) (h : validatePhdr size entry ph v = some v') :
    Sane size ph ∧ v' = v.count entry ph := by
  unfold validatePhdr at h
  rw [if_neg (by simp [hload])] at h
  by_cases hbad : ph.filesz > ph.memsz ∨ ph.offset > size ∨ ph.filesz > size - ph.offset ∨
      (ph.exec = true ∧ ph.write = true)
  · rw [if_pos hbad] at h
    cases h
  rw [if_neg hbad] at h
  cases hr : userRange ph.vaddr ph.memsz with
  | none =>
    rw [hr] at h
    cases h
  | some e =>
    obtain ⟨h1, h2, h3, rfl⟩ := userRange_some hv hm hr
    rw [hr] at h
    refine ⟨⟨by omega, by omega, ?_, h1, h2, h3⟩, ?_⟩
    · by_contra hc
      simp only [Bool.not_eq_false, Bool.and_eq_true] at hc
      exact hbad (.inr (.inr (.inr ⟨hc.2, hc.1⟩)))
    · rw [← Option.some.inj h, Validation.count, min_def, max_def]
      congr 1 <;> split_ifs <;> omega

theorem read_fixed (hr : image.Reads file) (off len : Nat) (l : Loader) :
    wp (imageReadExact image off len)
      (fun bs l' => l' = { l with reads := l.reads + 1 } ∧ bs = (file.drop off).take len)
      (fun _ l' => l'.kern = l.kern) l := by
  refine (imageReadExact_spec image off len l).mono ?_ fun _ _ h => h.1
  rintro bs l' ⟨rfl, -, -, hread⟩
  exact ⟨rfl, hr _ off len bs hread⟩

-- The pass over the headers. If the file does not change, it sees the headers of the file.
theorem validateLoop_spec (image : ExecImage) (eh : Elf64Ehdr) (n : Nat) :
    ∀ i v l, wp (validateLoop image eh n i v)
      (fun v' l' => l' = { l with reads := l.reads + n } ∧
        ∃ phs, (∀ ph ∈ phs, Sane image.size ph) ∧ v' = phs.foldl (Validation.count eh.entry) v ∧
          ∀ file, image.Reads file → eh = ehdrOf file → phs = loadsFrom file n i)
      (fun _ l' => l'.kern = l.kern) l := by
  induction n with
  | zero =>
    intro i v l
    exact wp_pure ⟨rfl, [], by simp, rfl, fun _ _ _ => rfl⟩
  | succ n ih =>
    intro i v l
    unfold validateLoop
    refine (imageReadExact_spec image _ _ l).bind ?_ fun _ _ h => h.1
    rintro bs _ ⟨rfl, -, -, hread⟩
    cases hv : validatePhdr image.size eh.entry (elf64Phdr bs) v with
    | none => exact wp_error rfl
    | some v' =>
      refine (ih (i + 1) v' _).post ?_
      rintro _ l2 ⟨rfl, phs, hsane, rfl, hfile⟩
      refine ⟨by simp only [Nat.add_assoc, Nat.add_comm 1], ?_⟩
      have hph : ∀ file, image.Reads file → eh = ehdrOf file → elf64Phdr bs = phdrOf file i := by
        rintro file hr rfl
        rw [hr _ _ _ bs hread, phdrOf]
      by_cases hload : (elf64Phdr bs).type = ptLoad
      · obtain ⟨hok, rfl⟩ := validatePhdr_some (vaddr_lt _) (memsz_lt _) hload hv
        refine ⟨elf64Phdr bs :: phs, List.forall_mem_cons.2 ⟨hok, hsane⟩, rfl, ?_⟩
        intro file hr heh
        rw [loadsFrom, ← hph file hr heh, if_pos hload, hfile file hr heh]
      · rw [validatePhdr, if_pos hload] at hv
        cases hv
        refine ⟨phs, hsane, rfl, fun file hr heh => ?_⟩
        rw [loadsFrom, ← hph file hr heh, if_neg hload, hfile file hr heh]

structure Validated (size : Nat) (phs : List Elf64Phdr) (info : ExecLoadInfo) : Prop where
  sane : ∀ ph ∈ phs, Sane size ph
  entry : ∃ ph ∈ phs, ph.exec = true ∧ ph.vaddr ≤ info.entry ∧ info.entry < ph.vaddr + ph.memsz
  low : IsLeast {x | ∃ ph ∈ phs, x = ph.vaddr} info.low
  high : IsGreatest {x | ∃ ph ∈ phs, x = ph.vaddr + ph.memsz} info.high

theorem foldl_count (entry : Nat) (phs : List Elf64Phdr) (v v' : Validation)
    (h : v' = phs.foldl (Validation.count entry) v) :
    (v'.low ≤ v.low ∧ (∀ ph ∈ phs, v'.low ≤ ph.vaddr) ∧ (v'.low = v.low ∨ ∃ ph ∈ phs, v'.low = ph.vaddr)) ∧
    (v.high ≤ v'.high ∧ (∀ ph ∈ phs, ph.vaddr + ph.memsz ≤ v'.high) ∧
      (v'.high = v.high ∨ ∃ ph ∈ phs, v'.high = ph.vaddr + ph.memsz)) ∧
    (v'.entryInExec = true → v.entryInExec = true ∨ ∃ ph ∈ phs,
      ph.exec = true ∧ ph.vaddr ≤ entry ∧ entry < ph.vaddr + ph.memsz) := by
  induction phs generalizing v with
  | nil => simp [h]
  | cons ph phs ih =>
    obtain ⟨⟨hl, hlow, hlow'⟩, ⟨hh, hhigh, hhigh'⟩, he⟩ := ih _ h
    simp only [Validation.count, Bool.or_eq_true, Bool.and_eq_true, decide_eq_true_eq] at hl hlow' hh hhigh' he
    simp only [List.mem_cons, forall_eq_or_imp, exists_eq_or_imp]
    refine ⟨⟨hl.trans (min_le_left ..), ⟨hl.trans (min_le_right ..), hlow⟩, ?_⟩,
      ⟨(le_max_left ..).trans hh, ⟨(le_max_right ..).trans hh, hhigh⟩, ?_⟩, fun hexec => ?_⟩
    · rcases hlow' with h | h
      · rcases min_choice v.low ph.vaddr with hm | hm
        · exact .inl (h.trans hm)
        · exact .inr (.inl (h.trans hm))
      · exact .inr (.inr h)
    · rcases hhigh' with h | h
      · rcases max_choice v.high (ph.vaddr + ph.memsz) with hm | hm
        · exact .inl (h.trans hm)
        · exact .inr (.inl (h.trans hm))
      · exact .inr (.inr h)
    · exact or_assoc.1 (he hexec)

theorem elf64ValidateImage_spec (image : ExecImage) (l : Loader) :
    wp (elf64ValidateImage image)
      (fun info l' => ∃ bs phs, image.readAt l.reads 0 ehdrSize = .ok bs ∧
        l' = { l with reads := l.reads + 1 + (elf64Ehdr bs).phnum } ∧
        info.entry = (elf64Ehdr bs).entry ∧ Validated image.size phs info ∧
        ∀ file, image.Reads file → elf64Ehdr bs = ehdrOf file ∧ phs = loads file)
      (fun _ l' => l'.kern = l.kern) l := by
  unfold elf64ValidateImage
  refine (imageReadExact_spec image _ _ l).bind ?_ fun _ _ h => h.1
  rintro bs _ ⟨rfl, -, -, hread⟩
  refine wp_ite (fun _ => wp_error rfl) fun _ => ?_
  refine wp_ite (fun _ => wp_error rfl) fun _ => ?_
  refine (validateLoop_spec image (elf64Ehdr bs) _ 0 _ _).next ?_
  rintro v _ ⟨rfl, phs, hsane, hv, hfile⟩
  refine wp_ite (fun _ => wp_error rfl) fun hsome => wp_pure ?_
  obtain ⟨hlow, hhigh, hentry⟩ := foldl_count _ phs _ v hv
  have hexec := (hentry (by simpa using (not_or.1 hsome).2)).resolve_left (by simp)
  have ⟨ph, hph, _⟩ := hexec
  have hs := hsane ph hph
  refine ⟨bs, phs, hread, rfl, rfl, ⟨hsane, hexec, ⟨?_, ?_⟩, ⟨?_, ?_⟩⟩, fun file hr => ?_⟩
  · refine hlow.2.2.resolve_left fun (hc : v.low = userTop) => ?_
    have := hlow.2.1 ph hph
    have := hs.top
    omega
  · rintro _ ⟨ph, hph, rfl⟩
    exact hlow.2.1 ph hph
  · refine hhigh.2.2.resolve_left fun (hc : v.high = 0) => ?_
    have := hhigh.2.1 ph hph
    omega
  · rintro _ ⟨ph, hph, rfl⟩
    exact hhigh.2.1 ph hph
  · have heh : elf64Ehdr bs = ehdrOf file := by rw [hr _ _ _ bs hread, List.drop_zero, ehdrOf]
    exact ⟨heh, (hfile file hr heh).trans (by rw [heh, loads])⟩

section congr

variable {image' : ExecImage} (hs : image'.size = image.size)
  (hr : ∀ n off len, off + len ≤ image.size → image'.readAt n off len = image.readAt n off len)
include hs hr

-- What `read_at` would answer about bytes outside the image is never asked.
theorem imageReadExact_congr (off len : Nat) :
    imageReadExact image' off len = imageReadExact image off len := by
  unfold imageReadExact
  rw [hs]
  split_ifs with hb
  · rfl
  · simp only [hr _ off len (by omega)]

theorem validateLoop_congr (eh : Elf64Ehdr) (n i : Nat) (v : Validation) :
    validateLoop image' eh n i v = validateLoop image eh n i v := by
  induction n generalizing i v with
  | zero => rfl
  | succ n ih => simp only [validateLoop, imageReadExact_congr hs hr, hs, ih]

theorem elf64ValidateImage_congr : elf64ValidateImage image' = elf64ValidateImage image := by
  simp only [elf64ValidateImage, imageReadExact_congr hs hr, validateLoop_congr hs hr, hs]

end congr

section load

variable {k k' : Kern} {R : Set Nat} {K : Set Block} {sp start stop : Nat} {vf : VmaFlags}
  {ph : Elf64Phdr}

theorem Segment.covered (h : Segment k k' sp start stop vf) (hc : Covered k) : Covered k' := by
  intro t u e he
  by_cases hin : t = sp ∧ start ≤ u * pageSize ∧ u * pageSize < stop
  · rw [hin.1, h.flags, if_pos hin.2]
    simp
  rw [h.outside t u hin] at he
  have hf := hc t u e he
  by_cases ht : t = sp
  · subst ht
    rw [h.flags, if_neg fun hc => hin ⟨rfl, hc⟩]
    exact hf
  · rw [flags_congr (h.other t ht)]
    exact hf

theorem Sane.segStop (h : Sane image.size ph) :
    Exec.segStop ph = (ph.vaddr + ph.memsz + (pageSize - 1)) / pageSize * pageSize ∧
      ph.vaddr + ph.memsz ≤ Exec.segStop ph ∧ Exec.segStop ph ≤ userTop := by
  have htop := h.top
  have h1 : wrap64 (ph.vaddr + ph.memsz) = ph.vaddr + ph.memsz :=
    Nat.mod_eq_of_lt (htop.trans_lt (by decide))
  have h2 : wrap64 (ph.vaddr + ph.memsz + (pageSize - 1)) = ph.vaddr + ph.memsz + (pageSize - 1) := by
    apply Nat.mod_eq_of_lt
    simp only [userTop, pageSize] at htop ⊢
    omega
  have hstop : Exec.segStop ph =
      (ph.vaddr + ph.memsz + (pageSize - 1)) / pageSize * pageSize := by
    unfold Exec.segStop pageUp pageAlignUp
    rw [h1, h2]
  refine ⟨hstop, ?_, ?_⟩
  · rw [hstop]
    simp only [pageSize]
    omega
  · rw [hstop]
    simp only [userTop, pageSize] at htop ⊢
    omega

abbrev LoadRun (image : ExecImage) (sp : Nat) (k : Kern) (phs : List Elf64Phdr) (k' : Kern) : Prop :=
  Run (fun k ph k' => Loaded image k k' sp ph) k phs k'

structure Unfinished (image : ExecImage) (k k' : Kern) (sp : Nat) : Prop where
  done : ∃ phs k₁, (∀ ph ∈ phs, Sane image.size ph) ∧ LoadRun image sp k phs k₁ ∧
    (k' = k₁ ∨ ∃ ph, Sane image.size ph ∧ Interrupted k₁ k' sp ph)

-- `I` is what every segment keeps, loaded or not.
theorem loadLoop_spec (hr : image.Reads file) (hsize : image.size < 2 ^ 64) (n : Nat) :
    ∀ i l, (∀ ph ∈ loadsFrom file n i, Sane image.size ph ∧
        ∀ k k', I k → Loaded image k k' sp ph ∨ Interrupted k k' sp ph → I k') →
      Sound l.kern R K → Covered l.kern → l.kern.space sp ≠ none → I l.kern →
      wp (loadLoop sp image (ehdrOf file) n i)
        (fun _ l' => Sound l'.kern R K ∧ I l'.kern ∧ LoadRun image sp l.kern (loadsFrom file n i) l'.kern)
        (fun _ l' => Sound l'.kern R K ∧ I l'.kern ∧ Unfinished image l.kern l'.kern sp) l := by
  induction n with
  | zero =>
    intro i l _ hs _ _ hI
    exact wp_pure ⟨hs, hI, .nil⟩
  | succ n ih =>
    intro i l hall hs hc hlive hI
    unfold loadLoop
    refine (read_fixed hr _ _ l).bind ?_ ?_
    · rintro bs _ ⟨rfl, rfl⟩
      rw [show elf64Phdr ((file.drop (wrap64 ((ehdrOf file).phoff + i * phdrSize))).take phdrSize) =
        phdrOf file i from rfl]
      unfold loadsFrom at hall ⊢
      by_cases hload : (phdrOf file i).type = ptLoad
      · rw [if_pos hload] at hall ⊢
        rw [if_pos hload]
        obtain ⟨⟨hph, hstep⟩, hall⟩ := List.forall_mem_cons.1 hall
        obtain ⟨a, ha⟩ := Option.ne_none_iff_exists'.1 hlive
        refine (loadSegment_spec (l := ⟨l.kern, l.reads + 1⟩) hsize hs hc ha (vaddr_lt _) ?_).bind ?_ ?_
        · exact (Nat.add_le_add_left hph.file _).trans hph.segStop.2.1
        · rintro _ l2 ⟨hs2, hl⟩
          refine (ih (i + 1) l2 hall hs2 (hl.segment.covered hc) hl.segment.live
            (hstep _ _ hI (.inl hl))).mono ?_ ?_
          · rintro _ l3 ⟨hs3, hI3, hrun⟩
            exact ⟨hs3, hI3, Run.cons hl hrun⟩
          rintro e l3 ⟨hs3, hI3, phs, k1, hsane, hrun, hend⟩
          exact ⟨hs3, hI3, phdrOf file i :: phs, k1, List.forall_mem_cons.2 ⟨hph, hsane⟩,
            Run.cons hl hrun, hend⟩
        · rintro e l2 ⟨hs2, hint⟩
          exact ⟨hs2, hstep _ _ hI (.inr hint), [], l.kern, by simp, .nil, .inr ⟨_, hph, hint⟩⟩
      · rw [if_neg hload] at hall ⊢
        rw [if_neg hload]
        exact ih (i + 1) _ hall hs hc hlive hI
    · intro e l1 hk1
      rw [hk1]
      exact ⟨hs, hI, [], l.kern, by simp, .nil, .inl rfl⟩

theorem elf64LoadImage_spec (hr : image.Reads file) (hsize : image.size < 2 ^ 64)
    (hs : Sound l.kern R K) (hc : Covered l.kern) (hlive : l.kern.space sp ≠ none) (hI : I l.kern)
    (hstep : ∀ ph ∈ loads file, ∀ k k', I k → Loaded image k k' sp ph ∨ Interrupted k k' sp ph → I k') :
    wp (elf64LoadImage sp image)
      (fun info l' => Sound l'.kern R K ∧ I l'.kern ∧ info.entry = (ehdrOf file).entry ∧
        (∀ ph ∈ loads file, Sane image.size ph) ∧ LoadRun image sp l.kern (loads file) l'.kern)
      (fun _ l' => Sound l'.kern R K ∧ I l'.kern ∧ Unfinished image l.kern l'.kern sp) l := by
  have hnone : ∀ l' : Loader, l'.kern = l.kern →
      Sound l'.kern R K ∧ I l'.kern ∧ Unfinished image l.kern l'.kern sp := by
    intro l' hk
    rw [hk]
    exact ⟨hs, hI, [], l.kern, by simp, .nil, .inl rfl⟩
  unfold elf64LoadImage
  refine (elf64ValidateImage_spec image l).bind ?_ fun _ l' h => hnone l' h
  rintro info _ ⟨eh, phs, -, rfl, hentry, hv, hfile⟩
  obtain ⟨heh, rfl⟩ := hfile file hr
  refine (read_fixed hr _ _ _).bind ?_ fun _ l' h => hnone l' h
  rintro _ l2 ⟨hl2, rfl⟩
  obtain ⟨k, n⟩ := l2
  obtain rfl : k = l.kern := congrArg Loader.kern hl2
  refine (loadLoop_spec hr hsize (ehdrOf file).phnum 0 ⟨l.kern, n⟩
    (fun ph hph => ⟨hv.sane ph hph, hstep ph hph⟩) hs hc hlive hI).next ?_
  rintro _ l3 ⟨hs3, hI3, hrun⟩
  exact wp_pure ⟨hs3, hI3, hentry.trans (by rw [heh]), hv.sane, hrun⟩

section watched

variable {k0 : Kern}

theorem watchedLoop_spec (hnew : ∀ u, k0.pte sp u = none) (eh : Elf64Ehdr) (n : Nat) :
    ∀ i w, Loading k0 R K sp w.kern w.log →
      wp (Watched.loadLoop sp image eh n i) (fun _ w' => Loading k0 R K sp w'.kern w'.log)
        (fun _ w' => Verdict k0 sp w') w := by
  induction n with
  | zero =>
    intro i w h
    exact wp_pure h
  | succ n ih =>
    intro i w h
    unfold Watched.loadLoop
    refine (watchedRead_spec k0 image _ _ h.sound).bind ?_ fun _ w1 h1 => h1.1.ended hnew h
    rintro bs _ ⟨rfl, hp1, -, -, -⟩
    have h1 := hp1.loading hnew h
    refine wp_ite (fun _ => ?_) fun _ => ih (i + 1) _ h1
    obtain ⟨a, ha⟩ := Option.ne_none_iff_exists'.1 h1.live
    refine (watchedSegment_spec h1.sound h1.covered ha (vaddr_lt _) (.inr ⟨hnew, h1⟩)).bind ?_
      fun _ w2 h2 => h2.1 hnew h1
    rintro _ w2 ⟨hp2, -⟩
    exact ih (i + 1) w2 (hp2.loading hnew h1)

theorem watchedImage_spec (image : ExecImage) (hnew : ∀ u, k0.pte sp u = none) (h : Loading k0 R K sp k0 []) :
    wp (Watched.elf64LoadImage sp image) (fun _ w' => Verdict k0 sp w') (fun _ w' => Verdict k0 sp w')
      ⟨⟨k0, 0⟩, []⟩ := by
  unfold Watched.elf64LoadImage
  apply wp_bind_zoom
  refine (elf64ValidateImage_spec image ⟨k0, 0⟩).mono ?_ ?_
  · rintro info _ ⟨bs, -, -, rfl, -⟩
    set w1 : Watched := ⟨⟨k0, 0 + 1 + (elf64Ehdr bs).phnum⟩, []⟩
    refine (watchedRead_spec (w := w1) k0 image 0 ehdrSize h.sound).bind ?_ fun _ w' h' => h'.1.ended hnew h
    rintro bs _ ⟨rfl, hp, -, -, -⟩
    refine (watchedLoop_spec hnew (elf64Ehdr bs) _ 0 _ (hp.loading hnew h)).next ?_
    exact fun _ w' h' => wp_pure h'.verdict
  · rintro _ ⟨k, n⟩ rfl
    exact Loading.verdict (w := ⟨⟨k, n⟩, []⟩) h

end watched

end load

end Jnu.Exec
