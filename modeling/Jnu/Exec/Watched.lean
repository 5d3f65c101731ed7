import Jnu.Exec.Segment
import Jnu.Lib.Ghost

namespace Jnu.Exec

open Lib.Dyadic Lib.Effect Paging Pmm Mm

-- What the loader does to the new space: the ranges it maps, the addresses it looks up, and the bytes it
-- stores; and what it has read: `n` bytes of the file for `va`, and a header whose flags are set.
inductive LoadEvent
  | mapped (start stop : Nat)
  | translated (va : Nat)
  | stored (k : Kern) (va pa n : Nat)
  | copying (k : Kern) (va n : Nat)
  | secured (k : Kern) (ph : Elf64Phdr)

structure Watched where
  loader : Loader
  log : List LoadEvent

abbrev WatchM := Prog Panic Errno Watched

def watch (m : LoadM α) : WatchM α := m.zoom Watched.loader fun w l => { w with loader := l }

def note (f : Kern → LoadEvent) : WatchM Unit :=
  Prog.write fun w => { w with log := w.log ++ [f w.loader.kern] }

namespace Watched

abbrev kern (w : Watched) : Kern := w.loader.kern

-- The watch ends with an address that is not a user's.
def Stopped (w : Watched) : Prop := ∃ va, .translated va ∈ w.log ∧ userTop ≤ va

def writeToSpace (pml4 va : Nat) (src : List Byte) : WatchM Unit :=
  if _h : src = [] then return
  else do
    let n := chunkLen va src.length
    note fun _ => .translated va
    if userTop ≤ va then Prog.error .efault
    else
      let pte ← watch (onKern (onPhys (pagingGetFlags pml4 va)))
      note fun k => .stored k va (pteAddr pte + va % pageSize) n
      watch (onKern (onPhys (Prog.write fun s =>
        { s with mem := copyTo s.mem (pteAddr pte + va % pageSize) (src.take n) })))
      writeToSpace pml4 (wrap64 (va + n)) (src.drop n)
  termination_by src.length
  decreasing_by
    have hpos := List.length_pos_iff.2 _h
    have := chunkLen_pos (v := va) hpos
    simp only [List.length_drop]
    omega

def copyFile (sp : Nat) (image : ExecImage) (fileOff currVa remaining : Nat) : WatchM Unit :=
  if _h : remaining = 0 then return
  else do
    let chunk := if remaining > pageSize then pageSize else remaining
    let bs ← watch (imageReadExact image fileOff chunk)
    note fun k => .copying k currVa chunk
    let pml4 ← watch (onKern (pml4Of sp))
    writeToSpace pml4 currVa bs
    copyFile sp image (wrap64 (fileOff + chunk)) (wrap64 (currVa + chunk)) (remaining - chunk)
  termination_by remaining
  decreasing_by
    have : 0 < pageSize := by decide
    split <;> omega

def loadSegment (sp : Nat) (image : ExecImage) (ph : Elf64Phdr) : WatchM Unit := do
  let start := pageDown ph.vaddr
  let stop := pageUp (wrap64 (ph.vaddr + ph.memsz))
  let _ ← watch (onKern (vmmMapAnonymous sp start (sub64 stop start) protRW fixedAnonymous))
  note fun _ => .mapped start stop
  let pml4 ← watch (onKern (pml4Of sp))
  watch (onKern (onPhys (materialisePages pml4 start stop)))
  copyFile sp image ph.offset ph.vaddr ph.filesz
  watch (onKern (onPhys (vmmProtect pml4 start (sub64 stop start / pageSize) (segmentFlags ph))))
  watch (onKern (setSegmentFlags sp start (segmentFlags ph)))
  note fun k => .secured k ph

def loadLoop (sp : Nat) (image : ExecImage) (eh : Elf64Ehdr) : Nat → Nat → WatchM Unit
  | 0, _ => return
  | n + 1, i => do
      let bs ← watch (imageReadExact image (wrap64 (eh.phoff + i * phdrSize)) phdrSize)
      let ph := elf64Phdr bs
      if ph.type = ptLoad then loadSegment sp image ph
      loadLoop sp image eh n (i + 1)

def elf64LoadImage (sp : Nat) (image : ExecImage) : WatchM ExecLoadInfo := do
  let info ← watch (elf64ValidateImage image)
  let bs ← watch (imageReadExact image 0 ehdrSize)
  let eh := elf64Ehdr bs
  loadLoop sp image eh eh.phnum 0
  return info

end Watched

variable {sp lo hi addr len n off : Nat} {image : ExecImage} {f : Kern → LoadEvent} {flags prot : BitVec 32}
  {w1 w2 : Watched}

abbrev Watches (m' : WatchM α) (m : LoadM α) : Prop := Erases Watched.Stopped Watched.loader m' m

theorem erases_watch {m : LoadM α} : Watches (watch m) m := .zoom fun _ _ => rfl

theorem erases_note {rest : WatchM α} {m : LoadM α} (h : Watches rest m) :
    Watches (note f >>= fun _ => rest) m :=
  .note (fun _ => rfl) h

theorem onPhys_bind (m : PhysM α) (f : α → PhysM β) :
    onPhys (m >>= f) = onPhys m >>= fun a => onPhys (f a) := by
  unfold onPhys
  apply zoom_bind
  · exact fun _ _ => rfl
  · exact fun _ _ _ => rfl

theorem onKern_bind (m : KM α) (f : α → KM β) :
    onKern (m >>= f) = onKern m >>= fun a => onKern (f a) := by
  unfold onKern
  apply zoom_bind
  · exact fun _ _ => rfl
  · exact fun _ _ _ => rfl

theorem writeToSpace_erases (pml4 va : Nat) (src : List Byte) :
    Watches (Watched.writeToSpace pml4 va src)
      (onKern (onPhys (writeToSpace pml4 va src))) := by
  induction hn : src.length using Nat.strong_induction_on generalizing va src with
  | _ n ih =>
    rw [Watched.writeToSpace, writeToSpace]
    by_cases hnil : src = []
    · rw [dif_pos hnil, dif_pos hnil]
      exact .pure ()
    rw [dif_neg hnil, dif_neg hnil]
    have hpos := List.length_pos_iff.2 hnil
    have hchunk := chunkLen_pos (v := va) hpos
    rw [onPhys_bind, onKern_bind]
    dsimp only
    by_cases hva : userTop ≤ va
    · rw [if_pos hva]
      exact .stopped fun w => ⟨va, List.mem_append_right _ List.mem_cons_self, hva⟩
    rw [if_neg hva]
    apply erases_note
    apply erases_watch.bind
    intro pte
    apply erases_note
    rw [onPhys_bind, onKern_bind]
    apply erases_watch.bind
    intro _
    exact ih (src.drop _).length (by rw [List.length_drop]; omega) _ _ rfl

theorem copyFile_erases (off va n : Nat) :
    Watches (Watched.copyFile sp image off va n) (copyFile sp image off va n) := by
  induction hm : n using Nat.strong_induction_on generalizing off va n with
  | _ m ih =>
    subst hm
    rw [Watched.copyFile, copyFile]
    by_cases hz : n = 0
    · rw [dif_pos hz, dif_pos hz]
      exact .pure ()
    rw [dif_neg hz, dif_neg hz]
    apply erases_watch.bind
    intro bs
    apply erases_note
    apply erases_watch.bind
    intro pml4
    apply (writeToSpace_erases _ _ _).bind
    intro _
    have hpage : 0 < pageSize := by decide
    exact ih _ (by split <;> omega) _ _ _ rfl

theorem loadSegment_erases (ph : Elf64Phdr) :
    Watches (Watched.loadSegment sp image ph) (loadSegment sp image ph) := by
  unfold Watched.loadSegment loadSegment
  apply erases_watch.bind
  intro _
  apply erases_note
  apply erases_watch.bind
  intro pml4
  apply erases_watch.bind
  intro _
  apply (copyFile_erases _ _ _).bind
  intro _
  apply erases_watch.bind
  intro _
  exact erases_watch.noted fun _ => rfl

theorem loadLoop_erases (eh : Elf64Ehdr) (n i : Nat) :
    Watches (Watched.loadLoop sp image eh n i) (loadLoop sp image eh n i) := by
  induction n generalizing i with
  | zero => exact .pure ()
  | succ n ih =>
    unfold Watched.loadLoop loadLoop
    apply erases_watch.bind
    intro bs
    by_cases hload : (elf64Phdr bs).type = ptLoad
    · rw [if_pos hload, if_pos hload]
      exact (loadSegment_erases _).bind fun _ => ih (i + 1)
    · rw [if_neg hload, if_neg hload]
      exact ih (i + 1)

theorem elf64LoadImage_erases (sp : Nat) (image : ExecImage) :
    Watches (Watched.elf64LoadImage sp image) (elf64LoadImage sp image) := by
  unfold Watched.elf64LoadImage elf64LoadImage
  apply erases_watch.bind
  intro info
  apply erases_watch.bind
  intro bs
  apply (loadLoop_erases _ _ _).bind
  intro _
  exact .pure info

-- The bytes are the user's, or a user page before their end is not there.
def Fits (k : Kern) (sp va n : Nat) : Prop :=
  va + n ≤ userTop ∨ ∃ u, va / pageSize ≤ u ∧ u < userPages ∧ k.pte sp u = none

-- The pages of a range that are there are the loader's.
abbrev OwnPages (k : Kern) (sp va n : Nat) : Prop :=
  ∀ u e, va / pageSize ≤ u → u * pageSize < va + n → k.pte sp u = some e → Private k sp u

-- What is read does no harm.
def LoadEvent.Tame (sp : Nat) : LoadEvent → Prop
  | .copying k va n => Fits k sp va n
  | .secured _ ph => (ph.write && ph.exec) = false
  | _ => True

abbrev AllTame (sp : Nat) (log : List LoadEvent) : Prop := ∀ ev ∈ log, ev.Tame sp

structure NoWx (k : Kern) (sp : Nat) : Prop where
  vma : ∀ x vf, k.flags sp x = some vf → (vf.write && vf.exec) = false
  pte : ∀ u e, k.pte sp u = some e → ¬ (has e pteWrite = true ∧ has e pteNx = false)

-- What an event may be after the events of the log. `k0` is the kernel before the load.
def LoadEvent.Contained (k0 : Kern) (sp : Nat) (log : List LoadEvent) : LoadEvent → Prop
  | .mapped start stop => pageSize ≤ start ∧ start < stop ∧ stop ≤ userTop
  | .translated va => va < userTop
  | .stored k va pa n =>
    (∃ start stop, .mapped start stop ∈ log ∧ start ≤ va ∧ va + n ≤ stop) ∧
    va % pageSize + n ≤ pageSize ∧ Private k sp (va / pageSize) ∧
    ∃ e, k.pte sp (va / pageSize) = some e ∧ pa = pteAddr e + va % pageSize ∧
      ∀ t u e', k0.pte t u = some e' → pteFrame e' ≠ pteFrame e
  | .copying _ _ _ => True
  | .secured k _ => NoWx k sp

inductive Confined (k0 : Kern) (sp : Nat) : List LoadEvent → Prop
  | nil : Confined k0 sp []
  | snoc {log : List LoadEvent} {ev : LoadEvent} :
      Confined k0 sp log → ev.Contained k0 sp log → Confined k0 sp (log ++ [ev])

-- As far as nothing else than tame contents have been read the loader keeps to what it may do, and no further.
structure Loading (k0 : Kern) (R : Set Nat) (K : Set Block) (sp : Nat) (k : Kern)
    (log : List LoadEvent) : Prop where
  sound : Sound k R K
  covered : Covered k
  live : k.space sp ≠ none
  own : ∀ u e, k.pte sp u = some e → Private k sp u
  ranges : ∀ u e, k.pte sp u = some e → ∃ start stop, .mapped start stop ∈ log ∧
    start ≤ u * pageSize ∧ u * pageSize + pageSize ≤ stop
  others : ∀ t u, t ≠ sp → k.pte t u = k0.pte t u
  noWx : AllTame sp log → NoWx k sp
  confined : AllTame sp log ↔ Confined k0 sp log

-- What is read is tame exactly if the loader has kept to what it may do.
def Verdict (k0 : Kern) (sp : Nat) (w : Watched) : Prop :=
  AllTame sp w.log ↔ Confined k0 sp w.log ∧ NoWx w.kern sp

section contained

variable {k0 k k' : Kern} {R : Set Nat} {K : Set Block} {va start stop : Nat} {a : AddrSpace}
  {log log' : List LoadEvent} {ev : LoadEvent} {w : Watched} {ph : Elf64Phdr}

theorem confined_snoc : Confined k0 sp (log ++ [ev]) ↔ Confined k0 sp log ∧ ev.Contained k0 sp log := by
  refine ⟨fun h => ?_, fun h => .snoc h.1 h.2⟩
  generalize hl : log ++ [ev] = l at h
  cases h with
  | nil => simp at hl
  | snoc hc hev =>
    obtain ⟨rfl, hx⟩ := List.append_inj' hl rfl
    cases hx
    exact ⟨hc, hev⟩

theorem allTame_snoc : AllTame sp (log ++ [ev]) ↔ AllTame sp log ∧ ev.Tame sp := by
  simp [AllTame, or_imp, forall_and]

theorem Confined.low (h : Confined k0 sp log) (hva : .translated va ∈ log) : va < userTop := by
  induction h with
  | nil => cases hva
  | snoc _ hev ih =>
    rcases List.mem_append.1 hva with hva | hva
    · exact ih hva
    · cases List.mem_singleton.1 hva
      exact hev

-- An event that is tame exactly if it may be.
theorem Loading.verdict_snoc (h : Loading k0 R K sp k log)
    (hev : AllTame sp log → (ev.Tame sp ↔ ev.Contained k0 sp log)) :
    AllTame sp (log ++ [ev]) ↔ Confined k0 sp (log ++ [ev]) := by
  rw [allTame_snoc, confined_snoc, ← h.confined]
  exact and_congr_right hev

theorem Loading.note (h : Loading k0 R K sp k log) (ht : ev.Tame sp) (hev : ev.Contained k0 sp log) :
    Loading k0 R K sp k (log ++ [ev]) where
  sound := h.sound
  covered := h.covered
  live := h.live
  own := h.own
  ranges u e he := by
    obtain ⟨start, stop, hmem, hrest⟩ := h.ranges u e he
    exact ⟨start, stop, List.mem_append_left _ hmem, hrest⟩
  others := h.others
  noWx hall := h.noWx (allTame_snoc.1 hall).1
  confined := h.verdict_snoc fun _ => iff_of_true ht hev

theorem Loading.verdict (h : Loading k0 R K sp w.kern w.log) : Verdict k0 sp w :=
  ⟨fun ht => ⟨h.confined.1 ht, h.noWx ht⟩, fun hc => h.confined.2 hc.1⟩

section

variable (h : Loading k0 R K sp k log) (hs : Sound k' R K)
include h hs

-- A step on the space alone: each of its pages was there before or is in a range of the log.
theorem Loading.of_space (hlive : k'.space sp ≠ none) (hpte : ∀ t u, t ≠ sp → k'.pte t u = k.pte t u)
    (hflags : ∀ t x, t ≠ sp → k'.flags t x = k.flags t x)
    (hpage : ∀ u e, k'.pte sp u = some e → k'.flags sp (u * pageSize) ≠ none ∧ Private k' sp u ∧
      (k.pte sp u ≠ none ∨ ∃ start stop, .mapped start stop ∈ log ∧ start ≤ u * pageSize ∧
        u * pageSize + pageSize ≤ stop))
    (hlog : ∀ ev ∈ log, ev ∈ log') (hwx : AllTame sp log' → NoWx k' sp)
    (hconf : AllTame sp log' ↔ Confined k0 sp log') : Loading k0 R K sp k' log' := by
  constructor
  case sound => exact hs
  case live => exact hlive
  case noWx => exact hwx
  case confined => exact hconf
  case covered =>
    intro t u e he
    by_cases ht : t = sp
    · rw [ht] at he ⊢
      exact (hpage u e he).1
    · rw [hpte t u ht] at he
      rw [hflags t _ ht]
      exact h.covered t u e he
  case own => exact fun u e he => (hpage u e he).2.1
  case ranges =>
    intro u e he
    obtain ⟨start, stop, hmem, hin⟩ : ∃ start stop, .mapped start stop ∈ log ∧ start ≤ u * pageSize ∧
        u * pageSize + pageSize ≤ stop := by
      obtain hold | hnew := (hpage u e he).2.2
      · obtain ⟨e', he'⟩ := Option.ne_none_iff_exists'.1 hold
        exact h.ranges u e' he'
      · exact hnew
    exact ⟨start, stop, hlog _ hmem, hin⟩
  case others => exact fun t u ht => (hpte t u ht).trans (h.others t u ht)

theorem Loading.store (hst : Stored k k' sp lo hi) : Loading k0 R K sp k' log := by
  have hflags : ∀ t x, k'.flags t x = k.flags t x := fun t => flags_congr (congrFun hst.space t)
  refine h.of_space hs (hst.space ▸ h.live) (fun t u _ => hst.pte t u) (fun t x _ => hflags t x)
    (fun u e he => ?_) (fun _ hev => hev) (fun ht => ⟨?_, fun u e he => ?_⟩) h.confined
  · rw [hst.pte] at he
    rw [hflags]
    exact ⟨h.covered sp u e he, (h.own u e he).congr hst.pte hst.zeroPage, .inl (by simp [he])⟩
  · simpa only [hflags] using (h.noWx ht).vma
  · rw [hst.pte] at he
    exact (h.noWx ht).pte u e he

theorem Loading.remap {F : Nat → Option VmaFlags} {D : Nat → Prop} (hr : Remap k k' sp F D)
    (hF : AllTame sp log → ∀ x vf, F x = some vf → (vf.write && vf.exec) = false)
    (hcov : ∀ u e, k.pte sp u = some e → D u ∨ F (u * pageSize) ≠ none) : Loading k0 R K sp k' log := by
  have hback : ∀ t u e, k'.pte t u = some e → k.pte t u = some e ∧ ¬ (t = sp ∧ D u) := by
    intro t u e he
    by_cases hd : t = sp ∧ D u
    · rw [hr.sheds.gone t u hd] at he
      cases he
    · rw [hr.sheds.pte t u hd] at he
      exact ⟨he, hd⟩
  refine h.of_space hs hr.live (fun t u ht => hr.sheds.pte t u fun hc => ht hc.1)
    (fun t x ht => flags_congr (hr.other t ht) x) (fun u e he' => ?_) (fun _ hev => hev)
    (fun ht => ⟨?_, fun u e he' => (h.noWx ht).pte u e (hback sp u e he').1⟩) h.confined
  · obtain ⟨he, hd⟩ := hback sp u e he'
    rw [hr.flags]
    refine ⟨(hcov u e he).resolve_left fun hc => hd ⟨rfl, hc⟩, ?_, .inl (by simp [he])⟩
    obtain ⟨hz, hex⟩ := (h.own u e he).entry he
    refine ⟨e, he', ?_, fun t w e'' he'' => hex t w e'' (hback t w e'' he'').1⟩
    rw [zeroFrame_eq hr.sheds.zeroPage]
    exact hz
  · simpa only [hr.flags] using hF ht

theorem Loading.mapFailed (hm : MapFailed k k' sp addr len flags) :
    Loading k0 R K sp k' log := by
  rcases hm with hr | ⟨-, -, -, hr⟩
  · exact h.remap hs hr (fun ht => (h.noWx ht).vma) fun u e he => .inr (h.covered sp u e he)
  refine h.remap hs hr (fun ht x vf hx => ?_) fun u e he => ?_
  · by_cases hin : addr ≤ x ∧ x < addr + len
    · rw [if_pos hin] at hx
      cases hx
    · rw [if_neg hin] at hx
      exact (h.noWx ht).vma x vf hx
  · have hf := h.covered sp u e he
    by_cases hin : addr ≤ u * pageSize ∧ u * pageSize < addr + len
    · exact .inl ⟨hin.1, hin.2, hf⟩
    · rw [if_neg hin]
      exact .inr hf

theorem Loading.mapped (hm : Mapped k k' sp start len prot) : Loading k0 R K sp k' log := by
  refine h.remap hs hm.remap (fun ht x vf hx => ?_) fun u e he => ?_
  · by_cases hin : start ≤ x ∧ x < start + len
    · rw [if_pos hin] at hx
      cases hx
      exact hm.wx
    · rw [if_neg hin] at hx
      exact (h.noWx ht).vma x vf hx
  · by_cases hin : start ≤ u * pageSize ∧ u * pageSize < start + len
    · rw [if_pos hin]
      exact .inr (by simp)
    · rw [if_neg hin]
      exact .inr (h.covered sp u e he)

theorem Loading.populate (hp : Populated k k' sp fun u => start ≤ u * pageSize ∧ u * pageSize < stop)
    (hstop : stop % pageSize = 0) (hmem : .mapped start stop ∈ log)
    (hvac : ∀ u, start ≤ u * pageSize → u * pageSize < stop → k.pte sp u = none)
    (hflags : ∀ x, start ≤ x → x < stop → k.flags sp x ≠ none) : Loading k0 R K sp k' log := by
  have hfl : ∀ t x, k'.flags t x = k.flags t x := fun t => flags_congr (congrFun hp.space t)
  -- an entry of the space is fresh, or was there before
  have hcase : ∀ u e, k'.pte sp u = some e →
      (start ≤ u * pageSize ∧ u * pageSize < stop ∧ has e pteWrite = true ∧ has e pteNx = true) ∨
        k.pte sp u = some e := by
    intro u e he
    by_cases hin : start ≤ u * pageSize ∧ u * pageSize < stop
    · rcases hp.inside u hin with hnone | ⟨e', he', hw, hnx⟩
      · rw [hnone] at he
        cases he
      · rw [he'] at he
        cases he
        exact .inl ⟨hin.1, hin.2, hw, hnx⟩
    · rw [hp.outside sp u fun hc => hin hc.2] at he
      exact .inr he
  refine h.of_space hs (hp.space ▸ h.live) (fun t u ht => hp.outside t u fun hc => ht hc.1)
    (fun t x _ => hfl t x) (fun u e he => ?_) (fun _ hev => hev) (fun ht => ⟨?_, fun u e he => ?_⟩) h.confined
  case refine_2 => simpa only [hfl] using (h.noWx ht).vma
  case refine_3 =>
    rcases hcase u e he with ⟨-, -, -, hnx⟩ | hold
    · simp [hnx]
    · exact (h.noWx ht).pte u e hold
  rw [hfl]
  rcases hcase u e he with ⟨h1, h2, hw, -⟩ | hold
  · refine ⟨hflags _ h1 h2, private_of_write hs he hw, .inr ⟨start, stop, hmem, h1, ?_⟩⟩
    simp only [pageSize] at hstop h2 ⊢
    omega
  · refine ⟨h.covered sp u e hold, ?_, .inl (by simp [hold])⟩
    -- the frame of an old page is not that of a fresh one
    obtain ⟨hz, hex⟩ := (h.own u e hold).entry hold
    refine ⟨e, he, ?_, fun t w e'' he'' hf => ?_⟩
    · rw [zeroFrame_eq hp.zeroPage]
      exact hz
    by_cases hin : t = sp ∧ start ≤ w * pageSize ∧ w * pageSize < stop
    · obtain ⟨rfl, h1, h2⟩ := hin
      rcases hcase w e'' he'' with ⟨-, -, hw, -⟩ | hold'
      · obtain ⟨-, hex'⟩ := hs.owned.exclusive t w e'' he'' hw
        obtain ⟨-, rfl⟩ := hex' t u e he hf.symm
        exact ⟨rfl, rfl⟩
      · rw [hvac w h1 h2] at hold'
        cases hold'
    · rw [hp.outside t w hin] at he''
      exact hex t w e'' he'' hf

-- The flags of the header are those of the space from now on, whatever they are.
theorem Loading.finish (hsec : Secured k k' sp start stop (segmentFlags ph)) (hlt : start < stop) :
    Loading k0 R K sp k' (log ++ [.secured k' ph]) := by
  have hr := hsec.reset
  have hcase : ∀ u e, k'.pte sp u = some e → (∃ e', k.pte sp u = some e') ∧
      ((has e pteWrite = ph.write ∧ has e pteNx = (!ph.exec)) ∨ k.pte sp u = some e) := by
    intro u e he
    by_cases hin : start ≤ u * pageSize ∧ u * pageSize < stop
    · obtain ⟨e0, e', h0, he', -, hw, hnx⟩ := hr.inside u hin
      rw [he'] at he
      cases he
      exact ⟨⟨e0, h0⟩, .inl ⟨hw, hnx⟩⟩
    · rw [hr.outside sp u fun hc => hin hc.2] at he
      exact ⟨⟨e, he⟩, .inr he⟩
  have hwx : AllTame sp log → (ph.write && ph.exec) = false → NoWx k' sp := by
    refine fun ht hwx => ⟨fun x vf hx => ?_, fun u e he hc => ?_⟩
    · rw [hsec.flags] at hx
      split_ifs at hx
      · rwa [← Option.some.inj hx]
      · exact (h.noWx ht).vma x vf hx
    · rcases (hcase u e he).2 with ⟨hw, hnx⟩ | hold
      · rw [← hw, hc.1, Bool.true_and] at hwx
        simp [hc.2, hwx] at hnx
      · exact (h.noWx ht).pte u e hold hc
  refine h.of_space hs hsec.live (fun t u ht => hr.outside t u fun hc => ht hc.1)
    (fun t x ht => flags_congr (hsec.other t ht) x) (fun u e he => ?_)
    (fun _ hev => List.mem_append_left _ hev) (fun ht => ?_) (h.verdict_snoc fun ht => ⟨hwx ht, fun hno => ?_⟩)
  · obtain ⟨⟨e', he'⟩, -⟩ := hcase u e he
    refine ⟨?_, (h.own u e' he').reset hr hsec.zeroPage, .inl (by simp [he'])⟩
    rw [hsec.flags]
    split_ifs
    · simp
    · exact h.covered sp u e' he'
  · obtain ⟨ht, hev⟩ := allTame_snoc.1 ht
    exact hwx ht hev
  · exact hno.vma start (segmentFlags ph) ((hsec.flags start).trans (if_pos ⟨Nat.le_refl _, hlt⟩))

end

structure Progress (k0 : Kern) (R : Set Nat) (K : Set Block) (sp : Nat) (w w' : Watched) : Prop where
  sound : Sound w'.kern R K
  loading : (∀ u, k0.pte sp u = none) → Loading k0 R K sp w.kern w.log → Loading k0 R K sp w'.kern w'.log
  low : ¬ w.Stopped → ¬ w'.Stopped

theorem Progress.trans (h : Progress k0 R K sp w w1)
    (h' : Progress k0 R K sp w1 w2) : Progress k0 R K sp w w2 :=
  ⟨h'.sound, fun hnew hl => h'.loading hnew (h.loading hnew hl), fun hw => h'.low (h.low hw)⟩

theorem Progress.refl (h : Sound w.kern R K) : Progress k0 R K sp w w := ⟨h, fun _ hl => hl, fun hw => hw⟩

-- What comes of a load that has failed.
def Ended (k0 : Kern) (R : Set Nat) (K : Set Block) (sp : Nat) (w w' : Watched) : Prop :=
  (∀ u, k0.pte sp u = none) → Loading k0 R K sp w.kern w.log → Verdict k0 sp w'

theorem Progress.ended (h : Progress k0 R K sp w w') : Ended k0 R K sp w w' :=
  fun hnew hl => (h.loading hnew hl).verdict

theorem Ended.after (h : Ended k0 R K sp w1 w2) (hp : Progress k0 R K sp w w1) : Ended k0 R K sp w w2 :=
  fun hnew hl => h hnew (hp.loading hnew hl)

theorem wp_note {Q : Unit → Watched → Prop} {E : Errno → Watched → Prop}
    (h : Q () { w with log := w.log ++ [f w.kern] }) : wp (note f) Q E w := wp_write h

theorem not_stopped_snoc {l l' : Loader} (h : ¬ Watched.Stopped ⟨l, log⟩)
    (hev : ∀ va, ev = .translated va → va < userTop) : ¬ Watched.Stopped ⟨l', log ++ [ev]⟩ := by
  rintro ⟨va, hva, htop⟩
  rcases List.mem_append.1 hva with hva | hva
  · exact h ⟨va, hva, htop⟩
  · exact Nat.not_lt_of_le htop (hev va (List.mem_singleton.1 hva).symm)

theorem Loading.stored {e : BitVec 64} (h : Loading k0 R K sp k log) (hnew : ∀ u, k0.pte sp u = none)
    (he : k.pte sp (va / pageSize) = some e) (hn : va % pageSize + n ≤ pageSize) :
    Loading k0 R K sp k (log ++ [.stored k va (pteAddr e + va % pageSize) n]) := by
  refine h.note trivial ⟨?_, hn, h.own _ e he, e, he, rfl, fun t u' e' he' hf => ?_⟩
  · obtain ⟨start, stop, hmem, hlo, hhi⟩ := h.ranges _ e he
    refine ⟨start, stop, hmem, hlo.trans (Nat.div_mul_le_self va pageSize), ?_⟩
    have := Nat.div_add_mod va pageSize
    rw [Nat.mul_comm] at this
    omega
  obtain ⟨-, hex⟩ := (h.own _ e he).entry he
  by_cases ht : t = sp
  · rw [ht, hnew] at he'
    cases he'
  · rw [← h.others t u' ht] at he'
    exact ht (hex t u' e' he' hf).1

theorem chunkLen_le (va n : Nat) : chunkLen va n ≤ n ∧ va % pageSize + chunkLen va n ≤ pageSize := by
  have : va % pageSize < pageSize := Nat.mod_lt _ (by decide)
  unfold chunkLen
  omega

theorem chunk_top (h : va < userTop) : va + chunkLen va n ≤ userTop := by
  have hm := (chunkLen_le va n).2
  simp only [userTop, pageSize] at *
  omega

-- The first piece of a write, up to the end of its page.
theorem watchedChunk {src : List Byte} {Q : Unit → Watched → Prop} {E : Errno → Watched → Prop}
    (hnil : src ≠ [])
    (h : Sound w.kern R K) (ha : w.kern.space sp = some a) (hva : va < userTop)
    (hown : ∀ e, w.kern.pte sp (va / pageSize) = some e → Private w.kern sp (va / pageSize))
    (hE : w.kern.pte sp (va / pageSize) = none → E .enoent { w with log := w.log ++ [.translated va] })
    (hQ : ∀ e k1, w.kern.pte sp (va / pageSize) = some e → Sound k1 R K →
      Stored w.kern k1 sp va (va + chunkLen va src.length) →
      (∀ x, va ≤ x → x < va + chunkLen va src.length → k1.byte sp x = src.getD (x - va) 0) →
      wp (Watched.writeToSpace a.pml4Phys (va + chunkLen va src.length) (src.drop (chunkLen va src.length))) Q E
        ⟨⟨k1, w.loader.reads⟩, w.log ++ [.translated va] ++
          [.stored w.kern va (pteAddr e + va % pageSize) (chunkLen va src.length)]⟩) :
    wp (Watched.writeToSpace a.pml4Phys va src) Q E w := by
  have hm := chunkLen_le va src.length
  rw [Watched.writeToSpace, dif_neg hnil]
  set m := chunkLen va src.length
  have hmtake : (src.take m).length = m := by
    rw [List.length_take]
    omega
  apply wp_bind
  apply wp_note
  rw [if_neg (by omega)]
  apply wp_bind_zoom
  apply wp_zoom
  apply wp_zoom
  have hget := pagingGetFlags_run h.base.pt.shape (Kern.roots_eq ha) (page_lt hva)
  rw [← h.base.pml4_eq ha] at hget
  cases hpe : w.kern.pte sp (va / pageSize) with
  | none =>
    rw [show Paging.pte w.kern.phys.mem w.kern.roots sp (va / pageSize) = none from hpe] at hget
    exact wp_of_error hget (hE hpe)
  | some e =>
    rw [show Paging.pte w.kern.phys.mem w.kern.roots sp (va / pageSize) = some e from hpe] at hget
    apply wp_of_ok hget
    obtain ⟨hz, hex⟩ := (hown e hpe).entry hpe
    apply wp_bind
    apply wp_note
    obtain ⟨hs1, hpte1, hbytes1⟩ := write_spec hpe hz hex (src.take m) (by omega) rfl h
    apply wp_bind_zoom
    apply wp_zoom
    apply wp_zoom
    apply wp_write
    rw [wrap64_user (chunk_top hva)]
    refine hQ e _ hpe hs1 ⟨⟨_, rfl⟩, rfl, hpte1, fun t x hx => ?_⟩ fun x hx hx' => ?_
    · rw [hbytes1, if_neg (by omega)]
    · refine (hbytes1 sp x).trans ?_
      rw [if_pos ⟨rfl, hx, by omega⟩, List.getD_eq_getElem?_getD, List.getD_eq_getElem?_getD,
        List.getElem?_take_of_lt (by omega)]

theorem Fits.lt (h : Fits k sp va n) (hn : 0 < n) : va < userTop := by
  rcases h with h | ⟨u, hu, hlt, -⟩
  · omega
  · simp only [userTop, userPages, pageSize] at *
    omega

-- The page of `va` is there, so that it is not the one that is missing.
theorem Fits.next {e : BitVec 64} {m : Nat} (h : Fits k sp va n) (he : k.pte sp (va / pageSize) = some e)
    (hm : m ≤ n) (hpage : va % pageSize + m ≤ pageSize) (hpte : ∀ u, k'.pte sp u = k.pte sp u) :
    Fits k' sp (va + m) (n - m) := by
  rcases h with h | ⟨u, hu, hlt, hnone⟩
  · exact .inl (by omega)
  · refine .inr ⟨u, ?_, hlt, (hpte u).trans hnone⟩
    have hne : va / pageSize ≠ u := by
      rintro rfl
      rw [hnone] at he
      cases he
    simp only [pageSize] at *
    omega

theorem watchedWrite_spec (k0 : Kern) (src : List Byte) (h : Sound w.kern R K)
    (ha : w.kern.space sp = some a) (hfit : Fits w.kern sp va src.length)
    (hown : OwnPages w.kern sp va src.length) :
    wp (Watched.writeToSpace a.pml4Phys va src)
      (fun _ w' => Progress k0 R K sp w w' ∧ Stored w.kern w'.kern sp va (va + src.length) ∧
        (src ≠ [] → va + src.length ≤ userTop) ∧
        ∀ x, va ≤ x → x < va + src.length → w'.kern.byte sp x = src.getD (x - va) 0)
      (fun _ w' => Progress k0 R K sp w w' ∧ Stored w.kern w'.kern sp va (va + src.length)) w := by
  induction hn : src.length using Nat.strong_induction_on generalizing va src w with
  | _ n ih =>
    by_cases hnil : src = []
    · rw [Watched.writeToSpace, dif_pos hnil]
      apply wp_pure
      subst hnil
      exact ⟨.refl h, .refl _ _ _ _, fun hc => absurd rfl hc, fun x h1 h2 => by simp at hn; omega⟩
    have hpos := List.length_pos_iff.2 hnil
    have hchunk := chunkLen_pos (v := va) hpos
    have hm := chunkLen_le va src.length
    have hva := hfit.lt hpos
    have hlooked : Progress k0 R K sp w { w with log := w.log ++ [.translated va] } :=
      ⟨h, fun _ hl => hl.note trivial hva, fun hw => not_stopped_snoc hw fun _ hev => by cases hev; exact hva⟩
    apply watchedChunk hnil h ha hva
    · exact fun e he => hown _ e (Nat.le_refl _) (by have := Nat.div_mul_le_self va pageSize; omega) he
    · exact fun _ => ⟨hlooked, .refl _ _ _ _⟩
    intro e k1 hpe hs1 hst1 hbytes1
    set m := chunkLen va src.length
    have hst1' : Stored w.kern k1 sp va (va + src.length) := hst1.mono (Nat.le_refl _) (by omega)
    have hdrop : (src.drop m).length = src.length - m := List.length_drop
    have hp1 : Progress k0 R K sp w ⟨⟨k1, w.loader.reads⟩, w.log ++ [.translated va] ++
        [.stored w.kern va (pteAddr e + va % pageSize) m]⟩ :=
      hlooked.trans ⟨hs1, fun hnew hl => (hl.stored hnew hpe hm.2).store hs1 hst1, fun hw =>
        not_stopped_snoc hw (by simp)⟩
    refine (ih (src.length - m) (by omega) (src.drop m) (w := ⟨⟨k1, w.loader.reads⟩, _⟩) hs1
      ((congrFun hst1.space sp).trans ha) (hdrop ▸ hfit.next hpe hm.1 hm.2 (hst1.pte sp))
      (fun u e' hu hu' he' => ?_) hdrop).mono ?_ ?_
    · rw [hst1.pte] at he'
      have := Nat.div_le_div_right (c := pageSize) (Nat.le_add_right va m)
      exact (hown u e' (by omega) (by omega) he').congr hst1.pte hst1.zeroPage
    · rintro _ w' ⟨hp', hst', htop', hbytes'⟩
      refine ⟨hp1.trans hp', hn ▸ hst1'.trans (hst'.mono (by omega) (by omega)), fun _ => ?_,
        fun x hx hx' => ?_⟩
      · have htop := chunk_top (n := src.length) hva
        by_cases hrest : src.drop m = []
        · rw [List.drop_eq_nil_iff] at hrest
          omega
        · have := htop' hrest
          omega
      by_cases hxm : va + m ≤ x
      · rw [hbytes' x hxm (by omega)]
        rw [List.getD_eq_getElem?_getD, List.getD_eq_getElem?_getD, List.getElem?_drop]
        congr 2
        omega
      · rw [hst'.bytes sp x (by omega)]
        exact hbytes1 x hx (by omega)
    · rintro _ w' ⟨hp', hst'⟩
      exact ⟨hp1.trans hp', hn ▸ hst1'.trans (hst'.mono (by omega) (by omega))⟩

-- A write that comes to the end of the user's addresses does not stop there.
theorem watchedWrite_over {src : List Byte} (hnil : src ≠ []) (h : Sound w.kern R K)
    (ha : w.kern.space sp = some a) (hfit : ¬ Fits w.kern sp va src.length)
    (hown : ∀ u e, w.kern.pte sp u = some e → Private w.kern sp u) :
    wp (Watched.writeToSpace a.pml4Phys va src) (fun _ _ => False)
      (fun _ w' => w'.Stopped ∧ ∀ ev ∈ w.log, ev ∈ w'.log) w := by
  induction hn : src.length using Nat.strong_induction_on generalizing va src w with
  | _ n ih =>
    by_cases hva : userTop ≤ va
    · rw [Watched.writeToSpace, dif_neg hnil]
      apply wp_bind
      apply wp_note
      rw [if_pos hva]
      exact wp_error ⟨⟨va, List.mem_append_right _ List.mem_cons_self, hva⟩,
        fun _ hev => List.mem_append_left _ hev⟩
    have hchunk := chunkLen_pos (v := va) (List.length_pos_iff.2 hnil)
    have hm := chunkLen_le va src.length
    have htop := chunk_top (n := src.length) (Nat.not_le.1 hva)
    have hfit' := not_or.1 hfit
    apply watchedChunk hnil h ha (Nat.not_le.1 hva) fun e he => hown _ e he
    · exact fun hnone => absurd ⟨_, Nat.le_refl _, page_lt (Nat.not_le.1 hva), hnone⟩ hfit'.2
    intro e k1 hpe hs1 hst1 _
    set m := chunkLen va src.length
    have hdrop : (src.drop m).length = src.length - m := List.length_drop
    refine (ih (src.length - m) (by omega) (w := ⟨⟨k1, w.loader.reads⟩, _⟩) ?_ hs1
      ((congrFun hst1.space sp).trans ha) (fun hc => ?_) (fun u e' he' => ?_) hdrop).mono (fun _ _ hc => hc) ?_
    · exact fun hc => hfit'.1 (by have := List.drop_eq_nil_iff.1 hc; omega)
    · rcases hc with hc | ⟨u, hu, hlt, hnone⟩
      · omega
      · have := Nat.div_le_div_right (c := pageSize) (Nat.le_add_right va m)
        exact hfit'.2 ⟨u, by omega, hlt, (hst1.pte sp u).symm.trans hnone⟩
    · exact (hown u e' ((hst1.pte sp u).symm.trans he')).congr hst1.pte hst1.zeroPage
    · exact fun _ w' hw' => ⟨hw'.1, fun ev hev => hw'.2 ev (by simp [hev])⟩

theorem watchedRead_spec (k0 : Kern) (image : ExecImage) (off len : Nat) (h : Sound w.kern R K) :
    wp (watch (imageReadExact image off len))
      (fun bs w' => w' = ⟨⟨w.kern, w.loader.reads + 1⟩, w.log⟩ ∧ Progress k0 R K sp w w' ∧ bs.length = len ∧
        off + len ≤ image.size ∧ image.readAt w.loader.reads off len = .ok bs)
      (fun _ w' => Progress k0 R K sp w w' ∧ w'.kern = w.kern) w := by
  apply wp_zoom
  refine (imageReadExact_spec image off len w.loader).mono ?_ ?_
  · rintro bs _ ⟨rfl, hrest⟩
    exact ⟨rfl, ⟨h, fun _ hl => hl, fun hw => hw⟩, hrest⟩
  · rintro _ ⟨k, n⟩ ⟨rfl, -⟩
    exact ⟨⟨h, fun _ hl => hl, fun hw => hw⟩, rfl⟩

-- The pages of the contents are the loader's, or all pages of the space are.
theorem watchedCopy_spec (k0 : Kern) (h : Sound w.kern R K) (ha : w.kern.space sp = some a)
    (hfit : (va + n ≤ userTop ∧ OwnPages w.kern sp va n) ∨
      (∀ u, k0.pte sp u = none) ∧ Loading k0 R K sp w.kern w.log) :
    wp (Watched.copyFile sp image off va n)
      (fun _ w' => Progress k0 R K sp w w' ∧ Stored w.kern w'.kern sp va (va + n) ∧
        (image.size < 2 ^ 64 → CopyOf image w'.kern sp off va n))
      (fun _ w' => Ended k0 R K sp w w' ∧ (va + n ≤ userTop → Progress k0 R K sp w w' ∧
        Stored w.kern w'.kern sp va (va + n))) w := by
  induction hm : n using Nat.strong_induction_on generalizing w va off n with
  | _ m ih =>
    subst hm
    rw [Watched.copyFile]
    by_cases hz : n = 0
    · rw [dif_pos hz]
      apply wp_pure
      exact ⟨.refl h, .refl _ _ _ _, fun _ _ _ i hi => by omega⟩
    rw [dif_neg hz]
    set chunk := if n > pageSize then pageSize else n with hchunk
    have hc : 0 < chunk ∧ chunk ≤ n := by
      rw [hchunk]
      by_cases hc : n > pageSize
      · rw [if_pos hc]
        exact ⟨by decide, by omega⟩
      · rw [if_neg hc]
        omega
    refine (watchedRead_spec k0 image off chunk h).bind ?_
      fun _ w1 h1 => ⟨h1.1.ended, fun _ => ⟨h1.1, h1.2 ▸ .refl _ _ _ _⟩⟩
    rintro bs _ ⟨rfl, hp1, hlen, hoff, hread⟩
    apply wp_bind
    apply wp_note
    apply wp_bind_zoom
    apply wp_zoom
    apply wp_of_ok (run_pml4Of ha)
    set w1 : Watched := ⟨⟨w.kern, w.loader.reads + 1⟩, w.log ++ [.copying w.kern va chunk]⟩
    by_cases htame : Fits w.kern sp va chunk
    swap
    · -- the bytes go beyond the user's addresses
      obtain ⟨hnew, hl⟩ := hfit.resolve_left fun hc' => htame (.inl (by omega))
      have hbs : bs ≠ [] := List.length_pos_iff.1 (by omega)
      refine (watchedWrite_over (w := w1) hbs h ha (hlen ▸ htame) hl.own).bind (fun _ _ hf => hf.elim) ?_
      rintro _ w2 ⟨⟨va', hva', htop⟩, hlog⟩
      refine ⟨fun _ _ => iff_of_false (fun hall => ?_) fun hconf => ?_,
        fun hle => absurd (.inl (by omega)) htame⟩
      · exact htame (hall _ (hlog _ (List.mem_append_right _ List.mem_cons_self)))
      · exact Nat.not_lt_of_le htop (hconf.1.low hva')
    have hp1' : Progress k0 R K sp w w1 :=
      ⟨h, fun _ hl => hl.note htame trivial, fun hw => not_stopped_snoc hw (by simp)⟩
    have hown : OwnPages w.kern sp va bs.length := by
      rcases hfit with hfit | hfit
      · exact fun u e hu hu' => hfit.2 u e hu (by omega)
      · exact fun u e _ _ => hfit.2.own u e
    refine (watchedWrite_spec k0 bs (w := w1) h ha (hlen ▸ htame) hown).bind ?_ ?_
    · rintro _ w2 ⟨hp2, hst2, htop, hbytes⟩
      have hst2 : Stored w.kern w2.kern sp va (va + bs.length) := hst2
      have hp := hp1'.trans hp2
      have htop := htop (List.length_pos_iff.1 (by omega))
      rw [wrap64_user (show va + chunk ≤ userTop by omega)]
      have ha2 : w2.kern.space sp = some a := by rw [hst2.space, ha]
      refine (ih (n - chunk) (by omega) hp2.sound ha2
        (hfit.imp (fun hfit => ⟨by omega, fun u e hu hu' he => ?_⟩)
        fun hfit => ⟨hfit.1, hp.loading hfit.1 hfit.2⟩) rfl).mono ?_ ?_
      · rw [hst2.pte] at he
        have := Nat.div_le_div_right (c := pageSize) (Nat.le_add_right va chunk)
        exact (hfit.2 u e (by omega) (by omega) he).congr hst2.pte hst2.zeroPage
      · rintro _ w3 ⟨hp3, hst3, hcopy⟩
        refine ⟨hp.trans hp3, (hst2.mono (le_refl _) (by omega)).trans
          (hst3.mono (by omega) (by omega)), fun hsize file hfile i hi => ?_⟩
        by_cases hic : i < chunk
        · -- the first bytes are not touched again
          rw [hst3.bytes sp (va + i) (by omega)]
          rw [hbytes (va + i) (by omega) (by omega), hfile _ off chunk bs hread]
          rw [List.getD_eq_getElem?_getD, List.getD_eq_getElem?_getD,
            List.getElem?_take_of_lt (by omega), List.getElem?_drop]
          congr 2
          omega
        · have := hcopy hsize file hfile (i - chunk) (by omega)
          rw [show va + chunk + (i - chunk) = va + i by omega] at this
          rw [this]
          unfold wrap64
          congr 1
          omega
      · rintro _ w3 ⟨hend, hrest⟩
        refine ⟨hend.after hp, fun hle => ?_⟩
        obtain ⟨hp3, hst3⟩ := hrest (by omega)
        exact ⟨hp.trans hp3, (hst2.mono (le_refl _) (by omega)).trans (hst3.mono (by omega) (by omega))⟩
    · rintro _ w2 ⟨hp2, hst2⟩
      have hp := hp1'.trans hp2
      exact ⟨hp.ended, fun _ => ⟨hp, hst2.mono (le_refl _) (by omega)⟩⟩

-- The contents stay in the segment, or the space is all the loader's.
theorem watchedSegment_spec (h : Sound w.kern R K) (hcov : Covered w.kern) (ha : w.kern.space sp = some a)
    (hva : ph.vaddr < 2 ^ 64) (hfit : ph.vaddr + ph.filesz ≤ segStop ph ∨
      (∀ u, k0.pte sp u = none) ∧ Loading k0 R K sp w.kern w.log) :
    wp (Watched.loadSegment sp image ph)
      (fun _ w' => Progress k0 R K sp w w' ∧
        (image.size < 2 ^ 64 → ph.vaddr + ph.filesz ≤ segStop ph → Loaded image w.kern w'.kern sp ph))
      (fun _ w' => Ended k0 R K sp w w' ∧ (ph.vaddr + ph.filesz ≤ segStop ph → Progress k0 R K sp w w' ∧
        Interrupted w.kern w'.kern sp ph)) w := by
  have hstart := (pageDown_le _).trans_lt hva
  have hs : segStart ph % pageSize = 0 := pageDown_mod _
  have he : segStop ph % pageSize = 0 := pageAlignUp_mod _
  unfold Watched.loadSegment
  apply wp_bind_zoom
  apply wp_zoom
  have hnogap : ¬ GapOverflow w.kern sp (sub64 (segStop ph) (segStart ph)) fixedAnonymous :=
    fun hc => absurd hc.1 (by decide)
  refine (vmmMapAnonymous_spec h ha hstart hnogap).mono ?_ fun _ k1 h1 => ?_
  swap
  · have hp : Progress k0 R K sp w ⟨⟨k1, w.loader.reads⟩, w.log⟩ :=
      ⟨h1.1, fun _ hl => hl.mapFailed h1.1 h1.2, fun hw => hw⟩
    exact ⟨hp.ended, fun _ => ⟨hp, .inl h1.2⟩⟩
  rintro r k1 ⟨hs1, hm, hfixed, -⟩
  obtain rfl : r = segStart ph := hfixed (by decide)
  have htop := hm.top
  have hseg := mapped_segment hcov hm
  have hvma := hm.vma
  have hvac := fun u => mapped_vacant hcov hm (u := u)
  have hlt := hm.nonempty
  have hend := segment_range hstart htop
  rw [hend] at htop hseg hvma hvac
  obtain ⟨a1, ha1⟩ := Option.ne_none_iff_exists'.1 hm.remap.live
  apply wp_bind
  apply wp_note
  have hl1 : Loading k0 R K sp w.kern w.log →
      Loading k0 R K sp k1 (w.log ++ [.mapped (segStart ph) (segStop ph)]) :=
    fun hl => (hl.mapped hs1 hm).note trivial ⟨hm.floor, by omega, htop⟩
  have hmem : LoadEvent.mapped (segStart ph) (segStop ph) ∈
      w.log ++ [.mapped (segStart ph) (segStop ph)] := List.mem_append_right _ List.mem_cons_self
  have hsome : ∀ x, segStart ph ≤ x → x < segStop ph → k1.flags sp x ≠ none := by
    intro x hx hx'
    rw [hseg.flags, if_pos ⟨hx, hx'⟩]
    simp
  apply wp_bind_zoom
  apply wp_zoom
  apply wp_of_ok (run_pml4Of ha1)
  apply wp_bind_zoom
  apply wp_zoom
  apply wp_zoom
  have hpop : ∀ s2, Sound { k1 with phys := s2 } R K → Populated k1 { k1 with phys := s2 } sp
      (fun u => segStart ph ≤ u * pageSize ∧ u * pageSize < segStop ph) → Progress k0 R K sp w
        ⟨⟨{ k1 with phys := s2 }, w.loader.reads⟩, w.log ++ [.mapped (segStart ph) (segStop ph)]⟩ :=
    fun s2 hs2 hpop => ⟨hs2, fun _ hl => (hl1 hl).populate hs2 hpop he hmem hvac hsome,
      fun hw => not_stopped_snoc hw (by simp)⟩
  refine (materialisePages_spec hs1 ha1 hs he (by omega) htop hvac).mono ?_ fun _ s2 h2 =>
    ⟨(hpop s2 h2.1 h2.2).ended, fun _ => ⟨hpop s2 h2.1 h2.2, .inr ⟨hm.floor, htop, hseg.populate h2.2 rfl⟩⟩⟩
  rintro _ s2 ⟨hs2, hp2, hall⟩
  have hseg2 := hseg.populate hp2 rfl
  set k2 : Kern := { k1 with phys := s2 } with hk2
  have hinside := hp2.inside
  have hbytes2 := hp2.bytes
  replace hp2 := hpop s2 hs2 hp2
  -- every page of the segment is there, and writable
  have hpages : ∀ u, segStart ph ≤ u * pageSize → u * pageSize < segStop ph →
      ∃ e, k2.pte sp u = some e ∧ has e pteWrite = true := by
    intro u hu hu'
    rcases hinside u ⟨hu, hu'⟩ with hnone | ⟨e, hpe, hw, -⟩
    · exact absurd hnone (hall u hu hu')
    · exact ⟨e, hpe, hw⟩
  have hown : (ph.vaddr + ph.filesz ≤ userTop ∧ OwnPages k2 sp ph.vaddr ph.filesz) ∨
      (∀ u, k0.pte sp u = none) ∧ Loading k0 R K sp k2 (w.log ++ [.mapped (segStart ph) (segStop ph)]) := by
    refine hfit.imp (fun hfit => ⟨hfit.trans htop, fun u e hu hu' _ => ?_⟩) fun hfit =>
      ⟨hfit.1, hp2.loading hfit.1 hfit.2⟩
    obtain ⟨e, hpe, hw⟩ := hpages u (Nat.mul_le_mul_right pageSize hu) (by omega)
    exact private_of_write hs2 hpe hw
  refine (watchedCopy_spec k0 (w := ⟨⟨k2, w.loader.reads⟩, _⟩) hs2 ha1 hown).bind ?_ fun _ w3 h3 =>
    ⟨h3.1.after hp2, fun hfit => ?_⟩
  swap
  · obtain ⟨hp3, hst⟩ := h3.2 (hfit.trans htop)
    exact ⟨hp2.trans hp3, .inr ⟨hm.floor, htop, hseg2.store hst (pageDown_le _) hfit⟩⟩
  rintro _ w3 ⟨hp3, hst, hcopy⟩
  have hst : Stored k2 w3.kern sp ph.vaddr (ph.vaddr + ph.filesz) := hst
  have hs3 := hp3.sound
  have ha3 : w3.kern.space sp = some a1 := by rw [hst.space, ha1]
  have hvma3 : HasVma w3.kern sp ⟨segStart ph, segStop ph, rwUser⟩ := by
    obtain ⟨b, id, hb, hrest⟩ := hvma
    exact ⟨b, id, (congrFun hst.space sp).trans hb, hrest⟩
  have hpages3 : ∀ u, segStart ph ≤ u * pageSize → u * pageSize < segStop ph →
      ∃ e, w3.kern.pte sp u = some e ∧ has e pteWrite = true := by
    intro u hu hu'
    obtain ⟨e, hpe, hw⟩ := hpages u hu hu'
    exact ⟨e, (hst.pte sp u).trans hpe, hw⟩
  apply wp_bind_zoom
  apply wp_zoom
  apply wp_zoom
  refine (secure_spec hs3 ha3 hs he (by omega) htop rfl hvma3 hpages3).any.post ?_
  intro _ s4 h4
  apply wp_bind_zoom
  apply wp_zoom
  refine h4.any.post ?_
  rintro _ k5 ⟨hs5, hsec⟩
  apply wp_note
  refine ⟨(hp2.trans hp3).trans ⟨hs5, fun _ hl => hl.finish hs5 hsec (by omega), fun hw =>
    not_stopped_snoc hw (by simp)⟩,
    fun hsize hfit => ⟨hm.floor, by omega, htop, ?_, fun u hu hu' => ?_, ?_, fun x hx hx' hno => ?_⟩⟩
  · exact (hseg2.store hst (pageDown_le _) hfit).finish hsec
  · obtain ⟨-, e', -, hpe', -, hw, hnx⟩ := hsec.reset.inside u ⟨hu, hu'⟩
    obtain ⟨e3, hpe3, hw3⟩ := hpages3 u hu hu'
    have hpriv3 := private_of_write hs3 hpe3 hw3
    exact ⟨e', hpe', hw, hnx, hpriv3.reset hsec.reset hsec.zeroPage⟩
  · intro file hfile i hi
    rw [hsec.bytes]
    exact hcopy hsize file hfile i hi
  · rw [hsec.bytes, hst.bytes sp x (by tauto), hbytes2]
    apply byte_none
    obtain ⟨h1, h2⟩ := (page_in_range hs he).1 ⟨hx, hx'⟩
    exact hvac (x / pageSize) h1 h2

theorem loadSegment_spec {l : Loader} (hsize : image.size < 2 ^ 64) (h : Sound l.kern R K)
    (hcov : Covered l.kern) (ha : l.kern.space sp = some a) (hva : ph.vaddr < 2 ^ 64)
    (hfit : ph.vaddr + ph.filesz ≤ segStop ph) :
    wp (loadSegment sp image ph)
      (fun _ l' => Sound l'.kern R K ∧ Loaded image l.kern l'.kern sp ph)
      (fun _ l' => Sound l'.kern R K ∧ Interrupted l.kern l'.kern sp ph) l := by
  have hw : wp (Watched.loadSegment sp image ph) _ _ ⟨l, []⟩ := watchedSegment_spec h hcov ha hva
    (.inl hfit : _ ∨ (∀ u, l.kern.pte sp u = none) ∧ _)
  refine (loadSegment_erases ph).wp (hw.mono (fun _ _ h' => ⟨h'.1.sound, h'.2 hsize hfit⟩) fun _ _ h' => ?_)
  obtain ⟨hp, hrest⟩ := h'.2 hfit
  refine ⟨hp.low ?_, hp.sound, hrest⟩
  rintro ⟨va, hva, -⟩
  cases hva

end contained

end Jnu.Exec
